import Mathlib.Data.Fintype.Option
import BitcoinPurity.CheckQueue.Loop
import BitcoinPurity.Lib.Threads

/-!
# The invariant of the check queue

What holds in every state of the check queue, over all interleavings (`CCheckQueue.Inv`).  Its heart
are three facts:

* `produced`: a result in `m_result` is one of a check of this session;
* `kept`: while there is none, every check that will fail is still queued, or not run yet, or its
  failure is in the `local_result` of a thread that has finished its batch;
* `Thread.Ok`: a thread that skips its work does so because `m_result` is set, which then stays set
  until it has accounted for its batch; so the stale `local_result` it carries is never published.

`Inv.sequential` reads the verdict off them when nothing is outstanding, and `Inv.step` says that
every step of every thread keeps the invariant, where a session has fewer than `2^32` checks.
-/

namespace BitcoinPurity

open CheckQueue Threads Option Thread Function

/-! ## The invariant -/

namespace CheckQueue

variable {W T R : Type}

/-- The checks that a thread has taken and not accounted for. -/
def Thread.outstanding (th : Thread T R) : Nat :=
  match th.pc with
  | .top => th.nNow
  | .working => th.nNow
  | _ => 0

def Thread.idle (th : Thread T R) : Nat := if th.pc = .waiting then 1 else 0

/-- What is known of a thread when `m_result` is `mResult` and `added` was added. -/
def Thread.Ok (check : T → Option R) (mResult : Option R) (added : List T) (th : Thread T R) :
    Prop :=
  match th.pc with
  | .working => th.nNow ≠ 0 ∧ th.vChecks ≠ [] ∧ (∀ c ∈ th.vChecks, c ∈ added) ∧
      (th.doWork = false → mResult ≠ none)
  | .top => th.vChecks = [] ∧ (th.nNow ≠ 0 → (th.doWork = false → mResult ≠ none) ∧
      (th.doWork → ∀ r, th.localResult = some r → ∃ c ∈ added, check c = some r))
  | _ => th.vChecks = []

/-- The thread has still to run the check, or to publish a failure of its batch. -/
def Thread.Keeps (th : Thread T R) (c : T) : Prop :=
  c ∈ th.vChecks ∨ th.pc = .top ∧ th.nNow ≠ 0 ∧ th.localResult ≠ none

/-- What a session should come to: the verdict of running its checks one after another, and every
check was taken once. -/
structure Session.Sequential (check : T → Option R) (x : Session W T R) : Prop where
  none_iff : x.result = none ↔ ∀ c ∈ x.added, check c = none
  of_some : ∀ r, x.result = some r → ∃ c ∈ x.added, check c = some r
  taken : (x.taken.map (·.2)).Perm x.added

variable {A A' : List T} {check : T → Option R} {m m' : Option R} {th : Thread T R}

theorem Thread.Ok.mono (h : th.Ok check m A)
    (hm : m ≠ none → m' ≠ none) (hA : ∀ c ∈ A, c ∈ A') : th.Ok check m' A' := by
  obtain ⟨pc, nNow, vChecks, localResult, doWork⟩ := th
  cases pc with
  | working =>
    obtain ⟨h1, h2, h3, h4⟩ := h
    exact ⟨h1, h2, fun c hc => hA c (h3 c hc), fun hw => hm (h4 hw)⟩
  | top =>
    refine ⟨h.1, fun hn => ⟨fun hw => hm ((h.2 hn).1 hw), fun hw r hr => ?_⟩⟩
    obtain ⟨c, hc, heq⟩ := (h.2 hn).2 hw r hr
    exact ⟨c, hA c hc, heq⟩
  | _ => exact h

theorem Thread.Ok.of_outstanding (h : th.Ok check m A)
    (h0 : th.outstanding = 0) : th.Ok check m' A' := by
  obtain ⟨pc, nNow, vChecks, localResult, doWork⟩ := th
  cases pc with
  | working => exact absurd h0 h.1
  | top => exact ⟨h.1, fun hn => absurd h0 hn⟩
  | _ => exact h

theorem Thread.Ok.not_keeps (h : th.Ok check m A) (h0 : th.outstanding = 0) (c : T) :
    ¬ th.Keeps c := by
  obtain ⟨pc, nNow, vChecks, localResult, doWork⟩ := th
  rintro (hc | ⟨hpc, hn, -⟩)
  · cases pc with
    | working => exact h.1 h0
    | top =>
      rw [h.1] at hc
      cases hc
    | _ =>
      rw [h] at hc
      cases hc
  · cases hpc
    exact hn h0

theorem keeps_update [DecidableEq W] {threads : Option W → Thread T R} {t : Option W} {c : T}
    (ht : (threads t).Keeps c → th.Keeps c) (h : ∃ t', (threads t').Keeps c) :
    ∃ t', (update threads t th t').Keeps c := by
  obtain ⟨t', h⟩ := h
  by_cases heq : t' = t
  · subst heq
    exact ⟨t', by rw [update_self]; exact ht h⟩
  · exact ⟨t', by rwa [update_of_ne heq]⟩

end CheckQueue

namespace CCheckQueue

variable {W T R : Type} [Fintype W] {check : T → Option R}

structure Inv (check : T → Option R) (s : CCheckQueue W T R) : Prop where
  todo : s.nTodo = s.queue.length + count outstanding s.threads
  idle : s.nIdle = count Thread.idle s.threads
  perm : (s.taken.map (·.2) ++ s.queue).Perm s.added
  threads : ∀ t, (s.threads t).Ok check s.mResult s.added
  produced : ∀ r, s.mResult = some r → ∃ c ∈ s.added, check c = some r
  kept : s.mResult = none → ∀ c ∈ s.added, check c ≠ none →
    c ∈ s.queue ∨ ∃ t, (s.threads t).Keeps c
  finished : ∀ x ∈ s.finished, x.Sequential check
  /-- The destructor runs after the last session. -/
  stopped : s.mRequestStop → (s.threads none).pc = .out ∧ s.added = []
  /-- The master waits until the last check is accounted for, and is told so. -/
  masterWaits : (s.threads none).pc = .waiting →
    s.queue = [] ∧ (s.masterNotified ↔ s.nTodo = 0)
  notified : s.masterNotified → (s.threads none).pc = .waiting
  bounded : s.nTodo ≤ s.added.length
  /-- So that `nTodo` does not wrap. -/
  small : s.added.length < 2 ^ 32

/-! ## Lemmas -/

variable {s : CCheckQueue W T R} {t : Option W}

theorem start_inv : Inv check (start : CCheckQueue W T R) := by
  have hall : ∀ t, (start : CCheckQueue W T R).threads t = { pc := .out } ∨
      (start : CCheckQueue W T R).threads t = { pc := .top } := by
    intro t
    cases t with
    | none => exact .inl rfl
    | some w => exact .inr rfl
  have hzero : ∀ f, f { pc := .out } = 0 → f { pc := .top } = 0 →
      0 = count f (start : CCheckQueue W T R).threads := by
    intro f hout htop
    symm
    rw [count_eq_zero]
    grind
  refine ⟨?_, hzero Thread.idle rfl rfl, .nil, ?_, ?_, ?_, ?_, ?_, ?_, ?_, Nat.le_refl 0,
    Nat.two_pow_pos 32⟩
  · rw [← hzero outstanding rfl rfl]
    rfl
  · intro t
    rcases hall t with h | h
    · rw [h]
      exact rfl
    · rw [h]
      exact ⟨rfl, fun hn => absurd rfl hn⟩
  · nofun
  · nofun
  · nofun
  · nofun
  · nofun
  · nofun

variable (h : Inv check s)
include h

theorem Inv.nTotal (n : Nat) : Inv check { s with nTotal := n } := { h with }

theorem Inv.not_stopped (hpc : (s.threads none).pc ≠ .out) : s.mRequestStop = false := by
  cases hs : s.mRequestStop with
  | false => rfl
  | true => exact absurd (h.stopped hs).1 hpc

theorem Inv.outstanding_le (t : Option W) : (s.threads t).outstanding ≤ s.nTodo := by
  have := le_count outstanding s.threads t
  have := h.todo
  omega

/-- **Returning the result**: with nothing outstanding it is the verdict of the session. -/
theorem Inv.sequential (hq : s.queue = []) (h0 : s.nTodo = 0) :
    Session.Sequential check ⟨s.added, s.taken, s.mResult⟩ := by
  have htodo := h.todo
  have hout : ∀ t, (s.threads t).outstanding = 0 := count_eq_zero.1 (by omega)
  have hnone : s.mResult = none → ∀ c ∈ s.added, check c = none := by
    intro hm c hc
    by_contra hfail
    rcases h.kept hm c hc hfail with hc | ⟨t, hk⟩
    · simp [hq] at hc
    · exact (h.threads t).not_keeps (hout t) c hk
  refine ⟨⟨hnone, fun hall => ?_⟩, h.produced, ?_⟩
  · cases hm : s.mResult with
    | none => rfl
    | some r =>
      obtain ⟨c, hc, hr⟩ := h.produced r hm
      simp [hall c hc] at hr
  · have := h.perm
    rwa [hq, List.append_nil] at this

theorem Inv.add (hpc : (s.threads none).pc = .out) (hstop : s.mRequestStop = false)
    {vChecks : List T} (hsmall : (s.added ++ vChecks).length < 2 ^ 32) :
    Inv check (s.add vChecks) := by
  have hbounded := h.bounded
  have hlen := hsmall
  rw [List.length_append] at hlen
  have hsub : ∀ c ∈ s.added, c ∈ s.added ++ vChecks := fun c hc => List.mem_append_left _ hc
  refine ⟨?_, h.idle, ?_, fun t => (h.threads t).mono id hsub, ?_, ?_, h.finished, ?_, ?_,
    h.notified, ?_, hsmall⟩
  · show (s.nTodo + vChecks.length) % 2 ^ 32 =
      (s.queue ++ vChecks).length + count outstanding s.threads
    have := h.todo
    rw [List.length_append]
    omega
  · show (s.taken.map (·.2) ++ (s.queue ++ vChecks)).Perm (s.added ++ vChecks)
    rw [← List.append_assoc]
    exact h.perm.append_right vChecks
  · intro r hr
    obtain ⟨c, hc, hcheck⟩ := h.produced r hr
    exact ⟨c, hsub c hc, hcheck⟩
  · intro hm c hc hfail
    rcases List.mem_append.1 hc with hc | hc
    · exact (h.kept hm c hc hfail).imp_left fun hc => List.mem_append_left _ hc
    · exact .inl (List.mem_append_right _ hc)
  · intro hs
    have hs' : s.mRequestStop := hs
    simp [hstop] at hs'
  · intro hw
    have hw' : (s.threads none).pc = .waiting := hw
    simp [hpc] at hw'
  · show (s.nTodo + vChecks.length) % 2 ^ 32 ≤ (s.added ++ vChecks).length
    rw [List.length_append]
    omega

variable [DecidableEq W]

variable {th : Thread T R}

/-- **One thread moves**, and the counters with it. -/
theorem Inv.move {nTodo nIdle : Nat} {masterNotified : Bool}
    (hout : nTodo + (s.threads t).outstanding = s.nTodo + th.outstanding)
    (hidle : nIdle + (s.threads t).idle = s.nIdle + th.idle) (hok : th.Ok check s.mResult s.added)
    (hkeeps : s.mResult = none → ∀ c, check c ≠ none → (s.threads t).Keeps c → th.Keeps c)
    (hstop : t = none → s.mRequestStop → th.pc = .out)
    (hwaits : (update s.threads t th none).pc = .waiting →
      s.queue = [] ∧ (masterNotified ↔ nTodo = 0))
    (hnotified : masterNotified → (update s.threads t th none).pc = .waiting)
    (hle : nTodo ≤ s.nTodo) :
    Inv check ({ s with nTodo, nIdle, masterNotified }.setThread t th) := by
  have hcount := count_update outstanding s.threads t th
  have hidles := count_update Thread.idle s.threads t th
  have htodo := h.todo
  have hidle' := h.idle
  refine ⟨?_, ?_, h.perm, ?_, h.produced, ?_, h.finished, ?_, hwaits, hnotified,
    hle.trans h.bounded, h.small⟩
  · show nTodo = s.queue.length + count outstanding (update s.threads t th)
    omega
  · show nIdle = count Thread.idle (update s.threads t th)
    omega
  · exact (forall_update_iff s.threads
      fun _ th => th.Ok check s.mResult s.added).2 ⟨hok, fun t' _ => h.threads t'⟩
  · intro hm c hc hfail
    exact (h.kept hm c hc hfail).imp_right (keeps_update (hkeeps hm c hfail))
  · intro hs
    refine ⟨?_, (h.stopped hs).2⟩
    cases t with
    | none => simpa using hstop rfl hs
    | some w => simpa using (h.stopped hs).1

/-- A thread moves and nothing else changes; where it is the master, it neither waits nor
waited. -/
theorem Inv.setThread
    (hout : th.outstanding = (s.threads t).outstanding) (hidle : th.idle = (s.threads t).idle)
    (hok : th.Ok check s.mResult s.added)
    (hkeeps : s.mResult = none → ∀ c, check c ≠ none → (s.threads t).Keeps c → th.Keeps c)
    (hmaster : t = none → (s.threads none).pc ≠ .waiting ∧ th.pc ≠ .waiting ∧
      (s.mRequestStop → th.pc = .out)) : Inv check (s.setThread t th) := by
  refine h.move (by omega) (by omega) hok hkeeps (fun ht => (hmaster ht).2.2) ?_ ?_ le_rfl
  · intro hw
    cases t with
    | none => exact absurd (by simpa using hw) (hmaster rfl).2.1
    | some w => exact h.masterWaits (by simpa using hw)
  · intro hn
    cases t with
    | none => exact absurd (h.notified hn) (hmaster rfl).1
    | some w => simpa using h.notified hn

section
variable (hpc : (s.threads t).pc = .top)
include hpc

theorem Inv.publish (hnow : (s.threads t).nNow ≠ 0) :
    Inv check (s.publish t) ∧ ((s.publish t).threads t).pc = .top ∧
      ((s.publish t).threads t).nNow = (s.threads t).nNow ∧
      ((s.publish t).mResult = none → ((s.publish t).threads t).localResult = none) := by
  have hok := h.threads t
  rw [Thread.Ok, hpc] at hok
  unfold CCheckQueue.publish
  simp only
  split
  next hswap =>
    rw [Bool.and_eq_true, isSome_iff_exists, isNone_iff_eq_none] at hswap
    obtain ⟨⟨r, hr⟩, hnone⟩ := hswap
    have hwork : (s.threads t).doWork := by
      by_contra hw
      exact (hok.2 hnow).1 (by simpa using hw) hnone
    obtain ⟨c, hc, hcheck⟩ := (hok.2 hnow).2 hwork r hr
    have hset : Inv check { s with mResult := (s.threads t).localResult } := by
      refine { h with threads := fun t' => ?_, produced := ?_, kept := ?_ }
      · exact (h.threads t').mono (fun hm => absurd hnone hm) fun _ hc => hc
      · grind
      · intro hm
        simp [hr] at hm
    refine ⟨hset.setThread ?_ ?_ ?_ ?_ ?_, ?_, ?_, ?_⟩
    · simp [outstanding]
    · simp [Thread.idle]
    · simp only [hpc]
      refine ⟨hok.1, fun _ => ⟨fun _ => by simp [hr], fun _ r' hr' => ?_⟩⟩
      simp [hnone] at hr'
    · intro hm
      simp [hr] at hm
    · rintro rfl
      refine ⟨by simp [hpc], by simp [hpc], ?_⟩
      have := h.not_stopped (by simp [hpc])
      simp [this]
    · simp [hpc]
    · simp
    · intro hm
      have hm' : (s.threads t).localResult = none := hm
      simp [hr] at hm'
  next hswap =>
    refine ⟨h, hpc, rfl, fun hm => ?_⟩
    by_contra hl
    exact hswap (by simp [hm, isSome_iff_ne_none.2 hl])

theorem Inv.account
    (hpub : s.mResult = none → (s.threads t).localResult = none) : Inv check (s.account t) := by
  have hok := h.threads t
  rw [Thread.Ok, hpc] at hok
  have hle := h.outstanding_le t
  have hout : (s.threads t).outstanding = (s.threads t).nNow := by simp [outstanding, hpc]
  have hbounded := h.bounded
  have hsmall := h.small
  have hsub : (s.nTodo + (2 ^ 32 - (s.threads t).nNow)) % 2 ^ 32 =
      s.nTodo - (s.threads t).nNow := by omega
  unfold CCheckQueue.account
  rw [hsub]
  refine h.move ?_ ?_ hok.1 ?_ ?_ ?_ ?_ (Nat.sub_le ..)
  · show s.nTodo - (s.threads t).nNow + (s.threads t).outstanding = s.nTodo + 0
    omega
  · simp [Thread.idle, hpc]
  · rintro hm c - (hmem | ⟨-, -, hl⟩)
    · simp [hok.1] at hmem
    · exact absurd (hpub hm) hl
  · rintro rfl hs
    simpa [hpc] using (h.stopped hs).1
  · intro hw
    cases t with
    | none => exact absurd hw (by simp)
    | some w =>
      have hw' : (s.threads none).pc = .waiting := by simpa using hw
      obtain ⟨hq, hiff⟩ := h.masterWaits hw'
      grind
  · intro hn
    cases t with
    | none =>
      simp only [isSome_none, Bool.and_false, Bool.false_and, Bool.or_false] at hn
      simpa [hpc] using h.notified hn
    | some w =>
      simp only [Bool.or_eq_true, Bool.and_eq_true, decide_eq_true_eq] at hn
      rcases hn with hn | hn
      · exact h.notified hn
      · exact hn.2

/-- **The clean-up** publishes a failure of the batch and accounts for it. -/
theorem Inv.cleanUp : Inv check (s.cleanUp t) := by
  have hok := h.threads t
  rw [Thread.Ok, hpc] at hok
  unfold CCheckQueue.cleanUp
  split
  next h0 =>
    have hzero : (s.threads t).outstanding = 0 := by simp [outstanding, hpc, h0]
    refine (h.nTotal _).setThread ?_ ?_ hok.1 ?_ ?_
    · rw [hzero]
      rfl
    · simp [Thread.idle, hpc]
    · intro _ c _ hk
      exact absurd hk ((h.threads t).not_keeps hzero c)
    · rintro rfl
      refine ⟨by simp [hpc], by simp, ?_⟩
      have := h.not_stopped (by simp [hpc])
      simp [this]
  next h0 =>
    obtain ⟨hinv, hpc', -, hpub⟩ := h.publish hpc h0
    exact hinv.account hpc' hpub

end

theorem Inv.unwait (hpc : (s.threads t).pc = .waiting) : Inv check (s.unwait t) := by
  have hok := h.threads t
  rw [Thread.Ok, hpc] at hok
  have hidle := le_count Thread.idle s.threads t
  have hone : (s.threads t).idle = 1 := by simp [Thread.idle, hpc]
  have := h.idle
  refine h.move ?_ ?_ hok ?_ ?_ ?_ ?_ le_rfl
  · simp [outstanding, hpc]
  · show s.nIdle - 1 + (s.threads t).idle = s.nIdle + 0
    omega
  · rintro - c - (hmem | ⟨htop, -⟩)
    · exact .inl hmem
    · simp [hpc] at htop
  · rintro rfl hs
    simpa [hpc] using (h.stopped hs).1
  · intro hw
    cases t with
    | none => exact absurd hw (by simp)
    | some w => simpa using h.masterWaits (by simpa using hw)
  · intro hn
    cases t with
    | none => simp at hn
    | some w => simpa using h.notified (by simpa using hn)

theorem Inv.wait (hpc : (s.threads t).pc = .locked) (hq : s.queue = [])
    (hstop : s.mRequestStop = false) (hmaster : t = none → s.nTodo ≠ 0) : Inv check (s.wait t) := by
  have hok := h.threads t
  rw [Thread.Ok, hpc] at hok
  refine h.move ?_ ?_ hok ?_ ?_ ?_ ?_ le_rfl
  · simp [outstanding, hpc]
  · simp [Thread.idle, hpc]
  · rintro - c - (hmem | ⟨htop, -⟩)
    · exact .inl hmem
    · simp [hpc] at htop
  · intro _ hs
    simp [hstop] at hs
  · intro hw
    refine ⟨hq, ?_⟩
    cases t with
    | none =>
      have hn : s.masterNotified ≠ true := by
        intro hn
        simpa [hpc] using h.notified hn
      exact ⟨fun h' => absurd h' hn, fun h' => absurd h' (hmaster rfl)⟩
    | some w => exact (h.masterWaits (by simpa using hw)).2
  · intro hn
    have hw := h.notified hn
    cases t with
    | none =>
      simp [hpc] at hw
    | some w => simpa using hw

/-- **Taking a batch** off the end of the queue. -/
theorem Inv.take (hpc : (s.threads t).pc = .locked) (hq : s.queue ≠ [])
    (hstop : s.mRequestStop = false) (nBatchSize : Nat) : Inv check (s.take nBatchSize t) := by
  have hok := h.threads t
  have hpos := batch_pos nBatchSize s
  have hlen : (s.queue.drop (s.queue.length - s.batch nBatchSize)).length = s.batch nBatchSize := by
    have hle := batch_le nBatchSize hq
    rw [List.length_drop]
    omega
  have hsplit := List.take_append_drop (s.queue.length - s.batch nBatchSize) s.queue
  unfold CCheckQueue.take
  simp only
  generalize s.queue.drop (s.queue.length - s.batch nBatchSize) = vChecks at hlen hsplit
  generalize s.queue.take (s.queue.length - s.batch nBatchSize) = rest at hsplit
  generalize s.batch nBatchSize = nNow at hpos hlen
  have hne : vChecks ≠ [] := by
    rintro rfl
    simp at hlen
    omega
  have hin : ∀ c ∈ s.queue, c ∈ s.added := fun c hc => h.perm.subset (List.mem_append_right _ hc)
  have hmaster : (s.threads none).pc ≠ .waiting := fun hw => hq (h.masterWaits hw).1
  generalize hth : ({ s.threads t with
    pc := .working, nNow := nNow, vChecks := vChecks, doWork := s.mResult.isNone } :
      Thread T R) = th
  have hcount := count_update outstanding s.threads t th
  have hidles := count_update Thread.idle s.threads t th
  have hout : (s.threads t).outstanding = 0 := by simp [outstanding, hpc]
  have hout' : th.outstanding = nNow := by simp [← hth, outstanding]
  have hidle : (s.threads t).idle = 0 := by simp [Thread.idle, hpc]
  have hidle' : th.idle = 0 := by simp [← hth, Thread.idle]
  have htodo := h.todo
  rw [← hsplit, List.length_append] at htodo
  refine ⟨?_, ?_, ?_, ?_, h.produced, ?_, h.finished, ?_, ?_, ?_, h.bounded, h.small⟩
  · show s.nTodo = rest.length + count outstanding (update s.threads t th)
    omega
  · show s.nIdle = count Thread.idle (update s.threads t th)
    have := h.idle
    omega
  · show ((s.taken ++ vChecks.map (t, ·)).map (·.2) ++ rest).Perm s.added
    refine List.Perm.trans ?_ h.perm
    rw [← hsplit, List.map_append, List.map_map, List.append_assoc]
    refine List.Perm.append_left _ ?_
    rw [show ((fun x => x.2) ∘ fun c => (t, c)) = id from rfl, List.map_id]
    exact List.perm_append_comm
  · refine (forall_update_iff s.threads
      fun _ th => th.Ok check s.mResult s.added).2 ⟨?_, fun t' _ => h.threads t'⟩
    rw [← hth]
    refine ⟨by simp only; omega, hne, fun c hc => hin c ?_, ?_⟩
    · rw [← hsplit]
      exact List.mem_append_right _ hc
    · intro hw hm
      simp [hm] at hw
  · intro hm c hc hfail
    rcases h.kept hm c hc hfail with hc | hk
    · rw [← hsplit, List.mem_append] at hc
      refine hc.imp_right fun hc => ⟨t, ?_⟩
      show (update s.threads t th t).Keeps c
      rw [update_self, ← hth]
      exact .inl hc
    · exact .inr (keeps_update (fun h' => absurd h' ((h.threads t).not_keeps hout c)) hk)
  · intro hs
    have hs' : s.mRequestStop := hs
    simp [hstop] at hs'
  · intro hw
    cases t with
    | none =>
      simp [← hth] at hw
    | some w => exact absurd (by simpa using hw) hmaster
  · intro hn
    exact absurd (h.notified hn) hmaster

theorem Inv.finish (hpc : (s.threads none).pc = .locked) (hq : s.queue = [])
    (h0 : s.nTodo = 0) : Inv check s.finish := by
  have htodo := h.todo
  have hout : ∀ t, (s.threads t).outstanding = 0 := count_eq_zero.1 (by omega)
  have hok := h.threads none
  rw [Thread.Ok, hpc] at hok
  let th := { s.threads none with pc := .out }
  have hcount := count_update outstanding s.threads none th
  have hidles := count_update Thread.idle s.threads none th
  have hzero : outstanding th = 0 := rfl
  have hidle0 : Thread.idle th = 0 := rfl
  have hidle1 : (s.threads none).idle = 0 := by simp [Thread.idle, hpc]
  refine ⟨?_, ?_, ?_, ?_, ?_, ?_, ?_, ?_, ?_, ?_, Nat.le_of_eq h0,
    Nat.two_pow_pos 32⟩
  · show s.nTodo = s.queue.length + count outstanding (update s.threads none th)
    omega
  · show s.nIdle = count Thread.idle (update s.threads none th)
    have := h.idle
    omega
  · show ([] ++ s.queue).Perm []
    rw [hq]
    exact .nil
  · exact (forall_update_iff s.threads fun _ th => th.Ok check none []).2
      ⟨hok, fun t' _ => (h.threads t').of_outstanding (hout t')⟩
  · nofun
  · nofun
  · intro x hx
    rcases List.mem_cons.1 hx with rfl | hx
    · exact h.sequential hq h0
    · exact h.finished x hx
  · intro _
    exact ⟨by simp [CCheckQueue.finish], rfl⟩
  · intro hw
    simp [CCheckQueue.finish] at hw
  · intro hn
    have hw := h.notified hn
    simp [hpc] at hw

theorem Inv.proceed (hpc : (s.threads t).pc = .locked) (nBatchSize : Nat) :
    Inv check (s.proceed nBatchSize t) := by
  unfold CCheckQueue.proceed
  split
  next hempty =>
    rw [Bool.and_eq_true, List.isEmpty_iff, Bool.not_eq_true'] at hempty
    split
    next hdone =>
      rw [Bool.and_eq_true, isNone_iff_eq_none, decide_eq_true_eq] at hdone
      obtain ⟨rfl, h0⟩ := hdone
      exact h.finish hpc hempty.1 h0
    next hdone =>
      refine h.wait hpc hempty.1 hempty.2 fun ht h0 => hdone ?_
      simp [ht, h0]
  next hempty =>
    split
    next hstop =>
      refine h.setThread ?_ ?_ ?_ ?_ ?_
      · simp [outstanding, hpc]
      · simp [Thread.idle, hpc]
      · have hok := h.threads t
        rwa [Thread.Ok, hpc] at hok
      · intro _ c _ hk
        exact absurd hk ((h.threads t).not_keeps (by simp [outstanding, hpc]) c)
      · grind
    next hstop =>
      have hstop' : s.mRequestStop = false := by simpa using hstop
      refine h.take hpc ?_ hstop' nBatchSize
      rintro hq
      exact hempty (by simp [hq, hstop'])

theorem Inv.complete (hpc : (s.threads none).pc = .out) (hstop : s.mRequestStop = false) :
    Inv check (s.setThread none { pc := .top }) := by
  have hzero : (s.threads none).outstanding = 0 := by simp [outstanding, hpc]
  refine h.setThread ?_ ?_ ⟨rfl, fun hn => absurd rfl hn⟩ ?_ ?_
  · rw [hzero]
    rfl
  · simp [Thread.idle, hpc]
  · intro _ c _ hk
    exact absurd hk ((h.threads none).not_keeps hzero c)
  · intro _
    exact ⟨by simp [hpc], by simp, by simp [hstop]⟩

omit h in
theorem work_ok {mResult : Option R} {added : List T}
    (hpc : th.pc = .working) (h : th.Ok check mResult added) :
    (work check th).Ok check mResult added ∧ (work check th).nNow = th.nNow ∧
      ((work check th).pc = .top ∨ (work check th).pc = .working ∧
        (work check th).vChecks.length < th.vChecks.length) ∧
      (mResult = none → ∀ c, check c ≠ none → th.Keeps c → (work check th).Keeps c) := by
  obtain ⟨pc, nNow, vChecks, localResult, doWork⟩ := th
  cases hpc
  obtain ⟨hnow, hne, hin, hskip⟩ := h
  cases doWork with
  | false =>
    have hsome := hskip rfl
    exact ⟨⟨rfl, fun _ => ⟨fun _ => hsome, nofun⟩⟩, rfl, .inl rfl, fun hm => absurd hm hsome⟩
  | true =>
    cases vChecks with
    | nil => exact absurd rfl hne
    | cons c cs =>
      unfold work
      simp only
      split
      next hend =>
        refine ⟨⟨rfl, fun _ => ⟨nofun, fun _ r hr => ⟨c, hin c (by simp), hr⟩⟩⟩, rfl, .inl rfl, ?_⟩
        -- a check that fails is this one, or one dropped because of it
        rintro - c' hfail (hmem | ⟨htop, -⟩)
        · refine .inr ⟨rfl, hnow, ?_⟩
          grind
        · cases htop
      next hend =>
        rw [Bool.or_eq_true, not_or, List.isEmpty_iff] at hend
        refine ⟨⟨hnow, hend.2, fun c' hc' => hin c' (List.mem_cons_of_mem c hc'), nofun⟩, rfl,
          .inr ⟨rfl, by simp⟩, ?_⟩
        rintro - c' hfail (hmem | ⟨htop, -⟩)
        · rcases List.mem_cons.1 hmem with rfl | hmem
          · exact absurd (isSome_iff_ne_none.2 hfail) hend.1
          · exact .inl hmem
        · cases htop

theorem Inv.work (hpc : (s.threads t).pc = .working) :
    Inv check (s.setThread t (CCheckQueue.work check (s.threads t))) := by
  obtain ⟨hok, hnow, hpc', hkeeps⟩ := work_ok hpc (h.threads t)
  have hout : (CCheckQueue.work check (s.threads t)).outstanding = (s.threads t).outstanding := by
    rcases hpc' with htop | ⟨hwork, -⟩
    · simp [outstanding, hpc, htop, hnow]
    · simp [outstanding, hpc, hwork, hnow]
  have hne : (CCheckQueue.work check (s.threads t)).pc ≠ .waiting := by grind
  refine h.setThread hout ?_ hok hkeeps ?_
  · simp [Thread.idle, hpc, hne]
  · rintro rfl
    refine ⟨by simp [hpc], hne, ?_⟩
    have := h.not_stopped (by simp [hpc])
    simp [this]

/-- **Every step keeps the invariant.** -/
theorem Inv.step {nBatchSize : Nat} {a : Action W T} {s' : CCheckQueue W T R}
    (hs : step check nBatchSize a s = some s')
    (hsmall : ∀ vChecks, a = .add vChecks → (s.added ++ vChecks).length < 2 ^ 32) :
    Inv check s' := by
  cases a with
  | add vChecks =>
    obtain ⟨⟨hpc, hstop⟩, ⟨⟩⟩ := ite_none_right_eq_some.1 hs
    exact h.add hpc hstop (hsmall vChecks rfl)
  | complete =>
    obtain ⟨⟨hpc, hstop⟩, ⟨⟩⟩ := ite_none_right_eq_some.1 hs
    exact h.complete hpc hstop
  | enter t =>
    obtain ⟨hpc, ⟨⟩⟩ := ite_none_right_eq_some.1 hs
    exact (h.cleanUp hpc).proceed (cleanUp_pc s t) nBatchSize
  | wake t =>
    obtain ⟨hpc, ⟨⟩⟩ := ite_none_right_eq_some.1 hs
    exact (h.unwait hpc).proceed (by simp [CCheckQueue.unwait]) nBatchSize
  | work t =>
    obtain ⟨hpc, ⟨⟩⟩ := ite_none_right_eq_some.1 hs
    exact h.work hpc
  | stop =>
    obtain ⟨⟨hpc, hnil⟩, ⟨⟩⟩ := ite_none_right_eq_some.1 hs
    exact { h with stopped := fun _ => ⟨hpc, hnil⟩ }

end CCheckQueue

end BitcoinPurity
