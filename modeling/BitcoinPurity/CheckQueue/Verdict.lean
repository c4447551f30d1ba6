import BitcoinPurity.CheckQueue.Invariant

/-!
# Parallel checking gives the sequential verdict

`Complete` returns, whatever the schedule: every step that counts lowers what is left to do
(`effort`), and while the master is in `Loop` some thread has such a step to take, since a master
that waits without being notified waits for a batch.

`checkQueue_sequential` puts this together with the invariant: every session of fewer than `2^32`
checks comes to the verdict of running them one after another.  With `2^32` checks the counter is
zero while all of them are outstanding (`nTodo_wraps`).
-/

namespace BitcoinPurity

open CheckQueue Threads Runs Option CCheckQueue Function

/-! ## `Complete` returns -/

namespace CheckQueue

/-- The steps that a thread can take before it needs another check, and one for each check that
it may give up. -/
def Thread.effort (th : Thread T R) : Nat :=
  match th.pc with
  | .working => 2 + th.vChecks.length
  | .top => 1
  | .locked => 1
  | _ => 0

end CheckQueue

namespace CCheckQueue

variable {W T R : Type}

/-- No thread is inside a critical section. -/
def Quiet (s : CCheckQueue W T R) : Prop := ∀ t, (s.threads t).pc ≠ .locked

theorem start_quiet : (start : CCheckQueue W T R).Quiet := by
  intro t
  cases t with
  | none => simp [start]
  | some w => simp [start]

variable [DecidableEq W] {check : T → Option R} {s : CCheckQueue W T R} {t : Option W}

/-- A step that is taken: the master wakes when it is notified, and a thread that wakes to find
nothing to do does not count. -/
def Progress (check : T → Option R) (nBatchSize : Nat) (s s' : CCheckQueue W T R) : Prop :=
  (∃ a, CCheckQueue.step check nBatchSize a s = some s' ∧
    (a = .wake none → s.masterNotified)) ∧ s' ≠ s

variable {nBatchSize : Nat} {s' : CCheckQueue W T R}

theorem quiet_step {a : Action W T} (h : s.Quiet)
    (hs : step check nBatchSize a s = some s') : s'.Quiet := by
  have hupdate : ∀ {t : Option W} {th : Thread T R}, th.pc ≠ .locked →
      s'.threads = update s.threads t th → s'.Quiet := by
    intro t th hpc heq t'
    rw [heq]
    by_cases ht : t' = t
    · rwa [ht, update_self]
    · rw [update_of_ne ht]
      exact h t'
  cases a with
  | add vChecks =>
    obtain ⟨-, ⟨⟩⟩ := ite_none_right_eq_some.1 hs
    exact h
  | complete =>
    obtain ⟨-, ⟨⟩⟩ := ite_none_right_eq_some.1 hs
    exact hupdate (by simp) rfl
  | enter t =>
    obtain ⟨-, ⟨⟩⟩ := ite_none_right_eq_some.1 hs
    obtain ⟨th, -, hclean, -⟩ := cleanUp_frame s t
    obtain ⟨th', hpc, hproceed⟩ := proceed_frame nBatchSize (s.cleanUp t) t
    rw [hclean, update_idem] at hproceed
    exact hupdate hpc hproceed
  | wake t =>
    obtain ⟨-, ⟨⟩⟩ := ite_none_right_eq_some.1 hs
    obtain ⟨th', hpc, hproceed⟩ := proceed_frame nBatchSize (s.unwait t) t
    rw [CCheckQueue.unwait, setThread_threads, update_idem] at hproceed
    exact hupdate hpc hproceed
  | work t =>
    obtain ⟨hpc, ⟨⟩⟩ := ite_none_right_eq_some.1 hs
    refine hupdate ?_ rfl
    unfold CCheckQueue.work
    split
    · split
      · simp
      · simp [hpc]
    · simp
  | stop =>
    obtain ⟨-, ⟨⟩⟩ := ite_none_right_eq_some.1 hs
    exact h

variable [Fintype W]

/-- What the threads may still do before they wait: run their checks and account for them. -/
def effort (s : CCheckQueue W T R) : Nat :=
  4 * s.queue.length + count Thread.effort s.threads + if (s.threads none).pc = .out then 0 else 1

theorem effort_update {s : CCheckQueue W T R} (t : Option W) {th : Thread T R}
    (ht : s'.threads = update s.threads t th) (hpc : (s.threads t).pc ≠ .out)
    (hpc' : th.pc ≠ .out) :
    s'.effort + (s.threads t).effort + 4 * s.queue.length =
      s.effort + th.effort + 4 * s'.queue.length := by
  have hcount := count_update Thread.effort s.threads t th
  have hmaster : (s'.threads none).pc = .out ↔ (s.threads none).pc = .out := by
    rw [ht]
    cases t with
    | none => simp [hpc, hpc']
    | some w => simp
  rw [← ht] at hcount
  unfold effort
  simp only [hmaster]
  omega

theorem cleanUp_effort (hpc : (s.threads t).pc = .top) : (s.cleanUp t).effort = s.effort := by
  obtain ⟨th, hlocked, hthreads, hqueue⟩ := cleanUp_frame s t
  have := effort_update t hthreads (by simp [hpc]) (by simp [hlocked])
  simp only [Thread.effort, hpc, hlocked, hqueue] at this
  omega

theorem unwait_effort (hpc : (s.threads t).pc = .waiting) : (s.unwait t).effort = s.effort + 1 := by
  have hthreads : (s.unwait t).threads =
      update s.threads t { s.threads t with pc := .locked } := rfl
  have hqueue : (s.unwait t).queue = s.queue := rfl
  have := effort_update t hthreads (by simp [hpc]) (by simp)
  simp only [Thread.effort, hpc, hqueue] at this
  omega

theorem wait_effort (hpc : (s.threads t).pc = .locked) : (s.wait t).effort + 1 = s.effort := by
  have hthreads : (s.wait t).threads = update s.threads t { s.threads t with pc := .waiting } := rfl
  have hqueue : (s.wait t).queue = s.queue := rfl
  have := effort_update t hthreads (by simp [hpc]) (by simp)
  simp only [Thread.effort, hpc, hqueue] at this
  omega

theorem take_effort (hpc : (s.threads t).pc = .locked) (hq : s.queue ≠ []) (nBatchSize : Nat) :
    (s.take nBatchSize t).effort + 2 ≤ s.effort := by
  have hpos := batch_pos nBatchSize s
  have hle := batch_le nBatchSize hq
  have hqueue : (s.take nBatchSize t).queue.length = s.queue.length - s.batch nBatchSize := by
    show (s.queue.take (s.queue.length - s.batch nBatchSize)).length = _
    rw [List.length_take]
    omega
  have hthreads : (s.take nBatchSize t).threads = update s.threads t
      { s.threads t with
        pc := .working
        nNow := s.batch nBatchSize
        vChecks := s.queue.drop (s.queue.length - s.batch nBatchSize)
        doWork := s.mResult.isNone } := rfl
  have := effort_update t hthreads (by simp [hpc]) (by simp)
  simp only [Thread.effort, hpc, List.length_drop] at this
  omega

theorem finish_effort (hpc : (s.threads none).pc = .locked) : s.finish.effort + 2 = s.effort := by
  have hcount := count_update Thread.effort s.threads none { s.threads none with pc := .out }
  have hthreads : s.finish.threads = update s.threads none { s.threads none with pc := .out } := rfl
  have hqueue : s.finish.queue = s.queue := rfl
  rw [← hthreads] at hcount
  simp only [Thread.effort, hpc] at hcount
  have hout : (s.finish.threads none).pc = .out := by simp [hthreads]
  unfold effort
  rw [hqueue, if_pos hout, if_neg (by simp [hpc])]
  omega

theorem proceed_effort (hpc : (s.threads t).pc = .locked) (hstop : s.mRequestStop = false)
    (nBatchSize : Nat) :
    (s.proceed nBatchSize t).effort + 2 ≤ s.effort ∨
      s.proceed nBatchSize t = s.wait t ∧ (t = none → s.nTodo ≠ 0) := by
  unfold proceed
  split
  next hempty =>
    split
    next hdone =>
      rw [Bool.and_eq_true, isNone_iff_eq_none] at hdone
      obtain ⟨rfl, -⟩ := hdone
      exact .inl (Nat.le_of_eq (finish_effort hpc))
    next hdone => exact .inr ⟨rfl, fun ht h0 => hdone (by simp [ht, h0])⟩
  next hempty =>
    rw [hstop]
    refine .inl (take_effort hpc ?_ nBatchSize)
    rintro hq
    exact hempty (by simp [hq, hstop])

section
variable (h : Inv check s)
include h

theorem Inv.wait_unwait (hpc : (s.threads t).pc = .waiting)
    (h0 : t = none → s.nTodo ≠ 0) : (s.unwait t).wait t = s := by
  have hidle : 1 ≤ s.nIdle := by
    have hle := le_count Thread.idle s.threads t
    have hone : (s.threads t).idle = 1 := by simp [Thread.idle, hpc]
    have := h.idle
    omega
  have hthread : ({ s.threads t with pc := .waiting } : Thread T R) = s.threads t := by
    rw [← hpc]
  have hmaster : (s.masterNotified && t.isSome) = s.masterNotified := by
    cases t with
    | some w => simp
    | none =>
      have : s.masterNotified = false := by
        by_contra hn
        exact h0 rfl (((h.masterWaits hpc).2).1 (by simpa using hn))
      simp [this]
  have hthreads : ((s.unwait t).wait t).threads = s.threads := by
    show update (update s.threads t _) t
      { update s.threads t { s.threads t with pc := .locked } t with pc := .waiting } = _
    simp [hthread]
  have hcount : ((s.unwait t).wait t).nIdle = s.nIdle := by
    show s.nIdle - 1 + 1 = s.nIdle
    omega
  obtain ⟨queue, nIdle, nTotal, mResult, nTodo, mRequestStop, masterNotified, threads, added,
    taken, finished⟩ := s
  simp only [CCheckQueue.wait, CCheckQueue.unwait, CCheckQueue.setThread] at hthreads hcount ⊢
  rw [hthreads, hcount, hmaster]

/-- **Every step lowers the effort**, but for a thread that wakes and waits again. -/
theorem Inv.effort_lt (hin : (s.threads none).pc ≠ .out) {a : Action W T}
    (hs : CCheckQueue.step check nBatchSize a s = some s') :
    s'.effort < s.effort ∨ s' = s ∧ ∃ t, a = .wake t ∧ (t = none → s.nTodo ≠ 0) := by
  have hstop := h.not_stopped hin
  cases a with
  | add vChecks =>
    obtain ⟨hpc, -⟩ := ite_none_right_eq_some.1 hs
    exact absurd hpc.1 hin
  | complete =>
    obtain ⟨hpc, -⟩ := ite_none_right_eq_some.1 hs
    exact absurd hpc.1 hin
  | stop =>
    obtain ⟨hpc, -⟩ := ite_none_right_eq_some.1 hs
    exact absurd hpc.1 hin
  | enter t =>
    obtain ⟨hpc, ⟨⟩⟩ := ite_none_right_eq_some.1 hs
    have hlocked := cleanUp_pc s t
    have hclean := cleanUp_effort hpc
    have hwait := wait_effort hlocked
    have hstop' : (s.cleanUp t).mRequestStop = false := by rw [cleanUp_mRequestStop, hstop]
    left
    rcases proceed_effort hlocked hstop' nBatchSize with hlt | ⟨heq, -⟩
    · omega
    · rw [heq]
      omega
  | wake t =>
    obtain ⟨hpc, ⟨⟩⟩ := ite_none_right_eq_some.1 hs
    have hlocked : ((s.unwait t).threads t).pc = .locked := by simp [CCheckQueue.unwait]
    have hunwait := unwait_effort hpc
    rcases proceed_effort hlocked hstop nBatchSize with hlt | ⟨heq, h0⟩
    · exact .inl (by omega)
    · rw [heq]
      exact .inr ⟨h.wait_unwait hpc h0, t, rfl, h0⟩
  | work t =>
    obtain ⟨hpc, ⟨⟩⟩ := ite_none_right_eq_some.1 hs
    obtain ⟨-, -, hpc', -⟩ := work_ok hpc (h.threads t)
    generalize CCheckQueue.work check (s.threads t) = th at hpc' ⊢
    have hout : th.pc ≠ .out := by grind
    have hlt : th.effort < (s.threads t).effort := by
      rcases hpc' with htop | ⟨hwork, hlen⟩
      · simp only [Thread.effort, hpc, htop]
        omega
      · simp only [Thread.effort, hpc, hwork]
        omega
    have hqueue : (s.setThread t th).queue = s.queue := rfl
    have hthreads : (s.setThread t th).threads = update s.threads t th := rfl
    have := effort_update t hthreads (by simp [hpc]) hout
    rw [hqueue] at this
    exact .inl (by omega)

theorem Inv.progress (hquiet : s.Quiet) (hin : (s.threads none).pc ≠ .out)
    (nBatchSize : Nat) : ∃ s', Progress check nBatchSize s s' := by
  -- a step that is not a vain wake-up changes the state
  have hcounts : ∀ (a : Action W T) s',
      CCheckQueue.step check nBatchSize a s = some s' →
      (∀ t, a = .wake t → t = none ∧ s.masterNotified ∧ s.nTodo = 0) →
      ∃ s', Progress check nBatchSize s s' := by
    intro a s' hs ha
    refine ⟨s', ⟨a, hs, fun hw => (ha none hw).2.1⟩, ?_⟩
    rintro rfl
    rcases h.effort_lt hin hs with hlt | ⟨-, t, hw, h0⟩
    · omega
    · exact h0 (ha t hw).1 (ha t hw).2.2
  have hbusy : ∀ t, (s.threads t).outstanding ≠ 0 ∨ (s.threads t).pc = .top →
      ∃ s', Progress check nBatchSize s s' := by
    intro t ht
    cases hpc : (s.threads t).pc with
    | top => exact hcounts (.enter t) _ (if_pos hpc) nofun
    | working => exact hcounts (.work t) _ (if_pos hpc) nofun
    | _ => simp [Thread.outstanding, hpc] at ht
  cases hpc : (s.threads none).pc with
  | out => exact absurd hpc hin
  | locked => exact absurd hpc (hquiet none)
  | top => exact hbusy none (.inr hpc)
  | working =>
    have hok := h.threads none
    rw [Thread.Ok, hpc] at hok
    refine hbusy none (.inl ?_)
    simpa [Thread.outstanding, hpc] using hok.1
  | waiting =>
    obtain ⟨hq, hiff⟩ := h.masterWaits hpc
    by_cases h0 : s.nTodo = 0
    · refine hcounts (.wake none) _ (if_pos hpc) ?_
      intro t ht
      cases ht
      exact ⟨rfl, hiff.2 h0, h0⟩
    -- the queue is empty, so some thread has a batch
    have htodo := h.todo
    rw [hq, List.length_nil, Nat.zero_add] at htodo
    have hne : ¬ ∀ t, (s.threads t).outstanding = 0 := by
      rw [← count_eq_zero, ← htodo]
      exact h0
    grind

theorem Inv.complete_returns (hquiet : s.Quiet) (nBatchSize : Nat) :
    Inevitable (Progress check nBatchSize) (fun s => (s.threads none).pc = .out) s := by
  refine Inevitable.of_measure (I := fun s => Inv check s ∧ s.Quiet) effort ?_ ?_ ⟨h, hquiet⟩
  · rintro s ⟨h, hquiet⟩ hin
    exact h.progress hquiet hin nBatchSize
  · rintro s s' ⟨h, hquiet⟩ hin ⟨⟨a, hs, -⟩, hne⟩
    refine ⟨⟨h.step hs ?_, quiet_step hquiet hs⟩, ?_⟩
    · rintro vChecks rfl
      exact absurd (ite_none_right_eq_some.1 hs).1.1 hin
    exact (h.effort_lt hin hs).resolve_right fun heq => hne heq.1

end

theorem inv_of_reach (h : Reach (boundedStep check nBatchSize) start s) :
    Inv check s ∧ s.Quiet := by
  refine h.invariant (I := fun s => Inv check s ∧ s.Quiet) ⟨start_inv, start_quiet⟩ ?_
  rintro s a s' ⟨hinv, hquiet⟩ hs
  obtain ⟨hs, hlen⟩ := filter_eq_some_iff.1 hs
  refine ⟨hinv.step hs ?_, quiet_step hquiet hs⟩
  rintro vChecks rfl
  obtain ⟨-, ⟨⟩⟩ := ite_none_right_eq_some.1 hs
  exact of_decide_eq_true hlen

end CCheckQueue

/-! ## Top theorem -/

/-- **The sequential verdict.**  For any workers, batch size and interleaving, with fewer than
`2^32` checks in each session: every session that is over returned no result if and only if all its
checks return none, and otherwise the result of one of them, and each of its checks was taken once;
in the present session each check is in the queue or was taken once, and `nTodo` is zero exactly
when no check is outstanding.  And a call of `Complete` returns, whatever the schedule. -/
theorem checkQueue_sequential {W T R : Type} [DecidableEq W] [Fintype W] (check : T → Option R)
    (nBatchSize : Nat) {s : CCheckQueue W T R}
    (h : Reach (boundedStep check nBatchSize) start s) :
    (∀ x ∈ s.finished, (x.result = none ↔ ∀ c ∈ x.added, check c = none) ∧
      (∀ r, x.result = some r → ∃ c ∈ x.added, check c = some r) ∧
      (x.taken.map (·.2)).Perm x.added) ∧
    (s.taken.map (·.2) ++ s.queue).Perm s.added ∧
    (s.nTodo = 0 ↔ s.queue = [] ∧ ∀ t, (s.threads t).outstanding = 0) ∧
    Inevitable (CCheckQueue.Progress check nBatchSize) (fun s => (s.threads none).pc = .out) s := by
  obtain ⟨hinv, hquiet⟩ := inv_of_reach h
  refine ⟨?_, hinv.perm, ?_, hinv.complete_returns hquiet nBatchSize⟩
  · intro x hx
    have hseq := hinv.finished x hx
    exact ⟨hseq.none_iff, hseq.of_some, hseq.taken⟩
  · rw [hinv.todo, Nat.add_eq_zero_iff, List.length_eq_zero_iff, count_eq_zero]

/-- The numbers from ten on fail. -/
def sampleCheck (c : Nat) : Option Nat := if c < 10 then none else some c

/-- Two sessions of two workers.  In the first one both fail, and the second of them keeps its
result; with it, it runs the check of the second session while the master waits. -/
def sampleSchedule : List (CCheckQueue.Action Bool Nat) :=
  [.add [10, 11], .enter (some false), .enter (some true), .work (some false), .work (some true),
    .enter (some false), .enter (some true), .complete, .enter none,
    .add [3], .wake (some true), .complete, .enter none, .work (some true), .enter (some true),
    .wake none]

theorem checkQueue_sequential_sample : ∃ s : CCheckQueue Bool Nat Nat,
      Reach (boundedStep sampleCheck 1) start s ∧
      s.finished = [⟨[3], [(some true, 3)], none⟩,
        ⟨[10, 11], [(some false, 11), (some true, 10)], some 11⟩] ∧
      (s.threads (some true)).localResult = none ∧
      ∀ x ∈ s.finished, (x.result = none ↔ ∀ c ∈ x.added, sampleCheck c = none) := by
  have hall : runAll (boundedStep sampleCheck 1) sampleSchedule start = some _ := rfl
  have hrun := reach_of_runAll hall
  refine ⟨_, hrun, rfl, rfl, fun x hx => ?_⟩
  exact ((checkQueue_sequential sampleCheck 1 hrun).1 x hx).1

/-- `2^32` checks added at once: `nTodo` is zero and none of them was taken. -/
theorem nTodo_wraps : ∃ s : CCheckQueue Bool Nat Nat,
    Reach (CCheckQueue.step sampleCheck 1) start s ∧ s.nTodo = 0 ∧ s.queue.length = 2 ^ 32 := by
  have hlist : ∀ n, ∃ v : List Nat, v.length = n := fun n => ⟨List.replicate n 3, by simp⟩
  obtain ⟨vChecks, hlen⟩ := hlist (2 ^ 32)
  refine ⟨start.add vChecks, Reach.start.next (.add vChecks) (by simp [step, start]), ?_, hlen⟩
  show (0 + vChecks.length) % 2 ^ 32 = 0
  rw [hlen, Nat.zero_add, Nat.mod_self]

end BitcoinPurity
