import BitcoinPurity.Chain.Failures

/-!
The parked flags over the block tree: `BLOCK_PARKED` on the block that was parked,
`BLOCK_PARKED_CHILD` on blocks above it, set when chain selection or a new body comes across them.

A child flag is only set above a parked block, so it has a `BLOCK_PARKED` root properly below it.
`UnparkBlock` breaks this: it clears the flags of all ancestors of its block, also of a root that
other branches hang on, and leaves the child flags of those branches
(`unparkBlock_orphans_sibling`).  `parkedChild_rooted_iff`: the flags are rooted in every run in
which `UnparkBlock` takes no root away from another branch, and a call that does take one leaves
an orphan.
-/

namespace BitcoinPurity

open List Chainstate Marks

namespace Chainstate

variable (s : Chainstate)

def parkedMarks : Marks CBlockHeader where
  root b := (s.data b).nStatus.parked
  child b := (s.data b).nStatus.parkedChild

theorem parkedMarks_marked (b : BlockPtr) :
    s.parkedMarks.marked b = (s.data b).nStatus.parkedMask := rfl

/-- Does every other branch keep a parked root when `x` is unparked?  A child flag off the branch
of `x` needs a root that is not below `x`. -/
def keepsParkedRoots (x : BlockPtr) : Bool :=
  s.known.all fun b => !(s.data b).nStatus.parkedChild || decide (x <:+ b) || decide (b <:+ x) ||
    b.tail.tails.any fun a => (s.data a).nStatus.parked && !decide (a <:+ x)

/-! ## The invariant -/

/-- Child flags are rooted, and parked blocks, candidates and unlinked blocks are entries of the
index. -/
structure ParkedOk (s : Chainstate) : Prop where
  anchored : s.parkedMarks.Anchored
  parked_known : ∀ b, (s.data b).nStatus.parkedMask → b ∈ s.known
  nil_unknown : [] ∉ s.known
  tail_known : TailKnown s
  cand_known : ∀ c ∈ s.setBlockIndexCandidates, c ∈ s.known
  unlinked_known : ∀ e ∈ s.blocksUnlinked, e.2 ∈ s.known

namespace ParkedOk

variable {env : Env} {s s' : Chainstate} {b m : BlockPtr} (h : ParkedOk s)
include h

theorem same (hm : s'.parkedMarks = s.parkedMarks) (hk : s'.known = s.known)
    (hc : ∀ c ∈ s'.setBlockIndexCandidates, c ∈ s.known)
    (hu : ∀ e ∈ s'.blocksUnlinked, e.2 ∈ s.known) : ParkedOk s' where
  anchored := hm ▸ h.anchored
  parked_known b hb := by
    rw [← parkedMarks_marked, hm] at hb
    exact hk ▸ h.parked_known b hb
  nil_unknown := hk ▸ h.nil_unknown
  tail_known := h.tail_known.congr hk
  cand_known c hcc := hk ▸ hc c hcc
  unlinked_known e he := hk ▸ hu e he

theorem ne_nil (hb : b ∈ s.known) : b ≠ [] := by
  rintro rfl
  exact h.nil_unknown hb

theorem modifyStatus {f : BlockStatus → BlockStatus}
    (hp : ∀ st, (f st).parked = st.parked) (hc : ∀ st, (f st).parkedChild = st.parkedChild) :
    ParkedOk (s.modifyStatus b f) := by
  refine h.same (Marks.ext (funext fun x => ?_) (funext fun x => ?_)) rfl h.cand_known
    h.unlinked_known
  all_goals
    simp only [parkedMarks, modifyStatus_nStatus]
    split
    · first | exact hp _ | exact hc _
    · rfl

theorem modify {f : BlockData → BlockData} (hf : ∀ d, (f d).nStatus = d.nStatus) :
    ParkedOk (s.modify b f) := by
  refine h.same (Marks.ext (funext fun x => ?_) (funext fun x => ?_)) rfl h.cand_known
    h.unlinked_known
  all_goals
    simp only [parkedMarks, modify_data]
    split
    · rw [hf]
    · rfl

theorem eraseCandidate : ParkedOk (s.eraseCandidate b) :=
  h.same rfl rfl (fun c hc => h.cand_known c ((mem_eraseCandidate _ _).1 hc).1) h.unlinked_known

theorem insertCandidate (hb : b ∈ s.known) : ParkedOk (s.insertCandidate b) := by
  refine h.same ?_ (by simp) (fun c hc => ?_) (fun e he => h.unlinked_known e (by simpa using he))
  · unfold parkedMarks
    rw [insertCandidate_data]
  · rcases (mem_insertCandidate _ _).1 hc with rfl | hc
    · exact hb
    · exact h.cand_known c hc

theorem addUnlinkedBlock (hb : b ∈ s.known) : ParkedOk (s.addUnlinkedBlock b) := by
  refine h.same ?_ (by simp) (fun c hc => h.cand_known c (by simpa using hc)) fun e he => ?_
  · unfold parkedMarks
    rw [addUnlinkedBlock_data]
  · rcases (mem_addUnlinkedBlock _ _).1 he with he | rfl
    · exact h.unlinked_known e he
    · exact hb

theorem insertFailed : ParkedOk (s.insertFailed b) :=
  h.same rfl rfl h.cand_known h.unlinked_known

theorem mark {f : BlockStatus → BlockStatus} (hb : b ∈ s.known)
    (hroot : ∀ st, st.parked → (f st).parked) (hchild : ∀ st, (f st).parkedChild →
      st.parkedChild ∨ ∃ a, a <:+ b ∧ a ≠ b ∧ (s.data a).nStatus.parkedMask) :
    ParkedOk (s.modifyStatus b f) := by
  have hst := s.modifyStatus_nStatus b f
  refine { h with
    anchored := h.anchored.inherit ⟨fun x hx => ?_, fun x hx => ?_⟩
    parked_known := fun x hx => ?_ }
  · simp only [parkedMarks, hst]
    split
    · exact hroot _ hx
    · exact hx
  · simp only [parkedMarks, hst] at hx
    split at hx
    next he =>
      subst he
      exact hchild _ hx
    next => exact .inl hx
  · by_cases he : x = b
    · exact he ▸ hb
    · rw [hst, if_neg he] at hx
      exact h.parked_known x hx

theorem park (hb : b ∈ s.known) :
    ParkedOk (s.modifyStatus b fun st => { st with parked := true }) :=
  h.mark hb (fun _ _ => rfl) fun _ => .inl

theorem parkChild (hb : b ∈ s.known) {a : BlockPtr} (hab : a <:+ b) (hne : a ≠ b)
    (ha : (s.data a).nStatus.parkedMask) :
    ParkedOk (s.modifyStatus b fun st => { st with parkedChild := true }) :=
  h.mark hb (fun _ h => h) fun _ _ => .inr ⟨a, hab, hne, ha⟩

/-! ## Bodies and candidates -/

theorem tryAddBlockIndexCandidate (hb : b ∈ s.known) :
    ParkedOk (s.tryAddBlockIndexCandidate env b) := by
  refine (tryAddBlockIndexCandidate_induct (P := fun s1 => ParkedOk s1 ∧ b ∈ s1.known) ⟨h, hb⟩
    (fun hp => ?_) (fun s1 h1 => ⟨h1.1.eraseCandidate, h1.2⟩)
    fun s1 h1 => ⟨h1.1.insertCandidate h1.2, by simpa using h1.2⟩).1
  obtain ⟨a, hab, hne, ha⟩ := parkedAbove_true hp
  refine ⟨h.parkChild hb (Branch.suffix_of_suffix_tail hab) ?_ ha, hb⟩
  rintro rfl
  refine Branch.not_suffix_tail ?_ hab
  rintro rfl
  exact hne rfl

variable {l : List BlockPtr}

theorem offerAll {p : Chainstate → BlockPtr → Bool}
    (hl : ∀ b ∈ l, b ∈ s.known) : ParkedOk (s.offerAll env p l) := by
  have key : ParkedOk (s.offerAll env p l) ∧ (s.offerAll env p l).known = s.known := by
    refine offerAll_induction (I := fun s' => ParkedOk s' ∧ s'.known = s.known) ⟨h, rfl⟩ ?_
    rintro s1 b hb - ⟨h1, hk⟩
    refine ⟨h1.tryAddBlockIndexCandidate (hk ▸ hl b hb), ?_⟩
    exact (SameFailures.tryAddBlockIndexCandidate env s1 b).known.trans hk
  exact key.1

variable {fuel : Nat} {x : BlockPtr}

theorem linkQueue {queue : List BlockPtr} (hq : ∀ b ∈ queue, b ∈ s.known) :
    ParkedOk (linkQueue env fuel queue s) := by
  induction fuel generalizing queue s with
  | zero => exact h
  | succ fuel ih =>
    cases queue with
    | nil => exact h
    | cons b queue =>
      have hlink : ParkedOk (s.linkBlock env b) := by
        have hm : ParkedOk (s.modify b fun d =>
            { d with chainTxCount := s.prevTxSum b, nSequenceId := s.nBlockSequenceId }) :=
          h.modify fun _ => rfl
        refine tryAddBlockIndexCandidate ?_ (hq b mem_cons_self)
        exact hm.same rfl rfl h.cand_known h.unlinked_known
      have hk := (SameFailures.linkBlock env s b).known
      refine ih ?_ fun c hc => ?_
      · exact hlink.same rfl rfl hlink.cand_known fun e he =>
          hlink.unlinked_known e (mem_filter.1 he).1
      · rcases mem_append.1 hc with hc | hc
        · exact hk ▸ hq c (mem_cons_of_mem b hc)
        · obtain ⟨e, he, rfl⟩ := mem_map.1 hc
          exact hlink.unlinked_known e (mem_filter.1 he).1

theorem receivedBlockTransactions (hb : b ∈ s.known) (n : Nat) :
    ParkedOk (s.receivedBlockTransactions env b n) := by
  have hm : ParkedOk (s.markReceived env b n) := by
    have h1 : ParkedOk (s.modify b fun d => { d with nTx := n }) := h.modify fun _ => rfl
    have h2 : ∀ s1, ParkedOk s1 → ParkedOk (if (s1.data b).chainTxCount = 0 ∨
        (s1.data b).chainTxCount = s1.prevTxSum b then s1
        else s1.modify b fun d => { d with chainTxCount := 0 }) := by
      intro s1 h₁
      split
      · exact h₁
      · exact h₁.modify fun _ => rfl
    unfold markReceived
    refine modifyStatus ?_ (fun _ => field_raiseValidity (·.parked)) fun _ =>
      field_raiseValidity (·.parkedChild)
    exact h2 _ h1
  have hk := (SameFailures.markReceived env s b n).known
  unfold Chainstate.receivedBlockTransactions
  simp only
  split
  · refine hm.linkQueue fun c hc => ?_
    rw [mem_singleton.1 hc, hk]
    exact hb
  split
  · exact hm.addUnlinkedBlock (hk ▸ hb)
  · exact hm

theorem addToBlockIndex (hb : b ≠ []) (ht : b.tail = [] ∨ b.tail ∈ s.known) :
    ParkedOk (s.addToBlockIndex b) := by
  have hst := addToBlockIndex_flags (h.parked_known b) rfl
  have hm : (s.addToBlockIndex b).parkedMarks = s.parkedMarks :=
    Marks.ext (funext fun x => (hst x).1) (funext fun x => (hst x).2)
  have hmem := addToBlockIndex_known s b
  have hg := addToBlockIndex_grows s b
  refine ⟨hm ▸ h.anchored, fun x hx => ?_, fun hn => ?_, h.tail_known.addToBlockIndex ht,
    fun c hc => ?_, fun e he => ?_⟩
  · rw [← parkedMarks_marked, hm] at hx
    exact (hmem x).2 (.inr (h.parked_known x hx))
  · rcases (hmem []).1 hn with he | hn
    · exact hb he.symm
    · exact h.nil_unknown hn
  · exact (hmem c).2 (.inr (h.cand_known c (hg.candidates ▸ hc)))
  · exact (hmem _).2 (.inr (h.unlinked_known e (hg.unlinked ▸ he)))

theorem invalidWalk (f : BlockPtr) : ParkedOk (invalidWalk f b s) := by
  induction b generalizing s with
  | nil => exact h
  | cons x b ih =>
    unfold invalidWalk
    split
    · exact h
    · exact ih (h.modifyStatus (fun _ => rfl) fun _ => rfl)

theorem acceptBlockHeader {call : HeaderCall} {minPow accepted : Bool}
    (ha : s.acceptBlockHeader env call minPow = some (s', accepted)) :
    ParkedOk s' ∧ (accepted → call.header ∈ s'.known) := by
  rcases acceptBlockHeader_cases ha with ⟨a, ⟨⟩, hk⟩ | ⟨⟨⟩, hp⟩ | ⟨f, -, -, ⟨⟩⟩ | ⟨⟨⟩, -⟩
  · exact ⟨h, hk⟩
  · refine ⟨h.addToBlockIndex ?_ ?_, fun _ => (addToBlockIndex_known _ _ _).2 (.inl rfl)⟩
    · intro h0
      rw [h0] at hp
      exact hp.elim (by simp) fun hp => h.nil_unknown hp.2
    · exact hp.imp (fun hg => by rw [hg]; rfl) And.right
  · exact ⟨h.invalidWalk f, by rintro ⟨⟩⟩

theorem parkDeepReorg (hb : b ∈ s.known) : ParkedOk (s.parkDeepReorg env b) := by
  unfold Chainstate.parkDeepReorg
  split
  · simp only
    split
    · next hc =>
      split
      · exact h
      refine (h.park (h.tail_known.suffix hb (getAncestor_suffix _ _) ?_)).eraseCandidate
      -- the root is at a height between genesis and the block
      obtain ⟨hne, hnb, -⟩ := hc
      have hfb : findFork s.tip b <:+ b := findFork_eq_meet s.tip b ▸ Branch.meet_suffix_left b s.tip
      have h2 := lt_of_le_of_ne hfb.length_le fun he => hnb (hfb.eq_of_length he)
      have e1 := nHeight_eq (findFork s.tip b)
      have e2 := nHeight_eq b
      have hl := getAncestor_length (b := b) (h := nHeight (findFork s.tip b) + 1) (by omega)
        (by omega)
      intro h0
      rw [h0, length_nil] at hl
      omega
    · exact h
  · exact h

theorem acceptBlock {call : BlockCall} {accepted : Bool}
    (ha : s.acceptBlock env call = some (s', accepted)) : ParkedOk s' := by
  obtain ⟨⟨s1, r⟩, h1, h2⟩ := Option.map_eq_some_iff.1 ha
  obtain ⟨hok, hk⟩ := h.acceptBlockHeader h1
  simp only at h2
  split at h2
  · cases h2
    exact hok
  next hr =>
  have hb : call.header ∈ s1.known := hk (by simpa using hr)
  split at h2
  · cases h2
    exact hok
  split at h2
  · cases h2
    exact hok.modifyStatus (fun _ => rfl) fun _ => rfl
  · cases h2
    exact hok
  · split at h2
    · cases h2
      exact hok
    cases h2
    refine (hok.parkDeepReorg hb).receivedBlockTransactions ?_ _
    rw [(SameFailures.parkDeepReorg env s1 call.header).known]
    exact hb

/-! ## Chain selection -/

theorem removeChain {t : BlockPtr} {test : BlockStatus} (hb : b ∈ s.known ∨ b = [])
    (htb : t <:+ b) (ht : test.parkedMask → (s.data t).nStatus.parkedMask) :
    ParkedOk (removeChain t test b s) := by
  induction b generalizing s with
  | nil => exact h.eraseCandidate
  | cons x b ih =>
    unfold removeChain
    split
    · exact h.eraseCandidate
    next hne =>
    have hxb : x :: b ∈ s.known := hb.resolve_right (by simp)
    have htb' := (suffix_cons_iff.1 htb).resolve_left (Ne.symm hne)
    have hm : ParkedOk (markUnusable test s (x :: b)) ∧
        (markUnusable test s (x :: b)).known = s.known ∧ (test.parkedMask →
          ((markUnusable test s (x :: b)).data t).nStatus.parkedMask) := by
      unfold markUnusable
      split
      · refine ⟨h.modifyStatus (fun _ => rfl) fun _ => rfl, rfl, fun hp => ?_⟩
        rw [modifyStatus_nStatus]
        split <;> exact ht hp
      split
      · next hp =>
        refine ⟨h.parkChild hxb htb (Ne.symm hne) (ht hp), rfl, fun _ => ?_⟩
        rw [modifyStatus_nStatus, if_neg (Ne.symm hne)]
        exact ht hp
      · refine ⟨h.addUnlinkedBlock hxb, by simp, fun hp => ?_⟩
        rw [addUnlinkedBlock_data]
        exact ht hp
    obtain ⟨h1, h2, h3⟩ := hm
    refine ih h1.eraseCandidate ?_ htb' h3
    by_cases h0 : b = []
    · exact .inr h0
    left
    show b ∈ (markUnusable test s (x :: b)).known
    rw [h2]
    exact h.tail_known _ hxb h0

theorem findMostWorkLoop (hf : findMostWorkLoop env fuel s = some (s', m)) : ParkedOk s' := by
  refine (findMostWorkLoop_induct (fun h hc hp => ?_) h hf).1
  exact h.removeChain (.inl (h.cand_known _ hc)) (checkPath_unusable hp).2.1 id

theorem setBlockFailureFlags : ParkedOk (s.setBlockFailureFlags b) := by
  refine h.same (Marks.ext (funext fun x => ?_) (funext fun x => ?_)) rfl h.cand_known
    h.unlinked_known
  all_goals
    simp only [parkedMarks, setBlockFailureFlags_nStatus]
    split <;> rfl

theorem invalidChainFound (hi : s.invalidChainFound b = some s') : ParkedOk s' := by
  rw [invalidChainFound_eq hi]
  exact h.setBlockFailureFlags

theorem connectTip {r : ConnectOutcome} (hc : s.connectTip env b = some (s', r)) : ParkedOk s' := by
  have hcalls : ParkedOk { s with calls := s.calls + 1 } :=
    h.same rfl rfl h.cand_known h.unlinked_known
  unfold Chainstate.connectTip at hc
  split at hc
  · cases hc
  simp only at hc
  split at hc
  · cases hc
    have hm : ParkedOk (markConnected { s with calls := s.calls + 1 } b) := by
      unfold markConnected
      split
      · exact hcalls
      · exact hcalls.modifyStatus (fun _ => field_raiseValidity (·.parked)) fun _ =>
          field_raiseValidity (·.parkedChild)
    exact hm.same rfl rfl hm.cand_known hm.unlinked_known
  · obtain ⟨s1, h1, ⟨⟩⟩ := Option.map_eq_some_iff.1 hc
    refine invalidChainFound (eraseCandidate (insertFailed ?_)) h1
    exact hcalls.modifyStatus (fun _ => rfl) fun _ => rfl
  · cases hc
    exact hcalls
  · cases hc

theorem connectBlocks {old front : BlockPtr} {p : Progress}
    (hc : connectBlocks env old front l s = some (s', p)) : ParkedOk s' := by
  induction l generalizing s with
  | nil =>
    cases hc
    exact h
  | cons b l ih =>
    unfold connectBlocks at hc
    split at hc
    · cases hc
    · cases hc
    · next hs =>
      cases hc
      exact h.connectTip hs
    · next hs =>
      obtain ⟨s2, h2, ⟨⟩⟩ := Option.map_eq_some_iff.1 hc
      exact (h.connectTip hs).invalidChainFound h2
    · next s1 hs =>
      obtain ⟨s2, h2, h3⟩ := Option.bind_eq_some_iff.1 hc
      have h1 := h.connectTip hs
      have h₂ : ParkedOk s2 := by
        cases pruneBlockIndexCandidates_eq h2
        exact h1.same rfl rfl (fun c hc => h1.cand_known c (mem_filter.1 hc).1) h1.unlinked_known
      grind

theorem disconnectTip (hd : s.disconnectTip env = some s') : ParkedOk s' := by
  obtain ⟨hb, -, -, hc, hdata, -⟩ := disconnectTip_bodies hd
  refine h.same ?_ hb.known (fun c hcc => h.cand_known c (hc ▸ hcc)) fun e he =>
    h.unlinked_known e (hb.unlinked ▸ he)
  unfold parkedMarks
  rw [hdata]

theorem activateIteration {m' : BlockPtr} {done : Bool}
    (hi : activateIteration env fuel s m = some (s', m', done)) : ParkedOk s' := by
  refine (activateIteration_induct (P := fun s _ => ParkedOk s) (fun h hf => h.findMostWorkLoop hf)
    (fun h _ hs => ?_) h hi).1
  obtain ⟨s1, h1, h2⟩ := Option.bind_eq_some_iff.1 hs
  have h₁ := (disconnectTo_induct (fun h hd => h.disconnectTip hd) h h1).1
  exact connectLoop_induct (P := fun s _ => ParkedOk s) (fun h hb => h.connectBlocks hb) h₁ h2

theorem parkBlock (hb : b ∈ s.known) : ParkedOk (s.parkBlock b).1 := by
  unfold Chainstate.parkBlock
  split
  · exact h
  · exact (h.park hb).eraseCandidate

/-! ## `UnparkBlock` -/

theorem cleared_flags (hx : x ≠ []) (b : BlockPtr) : (s.cleared x).parkedMarks.flags b =
      if x <:+ b ∨ b <:+ x then (false, false) else s.parkedMarks.flags b := by
  have hc : ∀ (l : List BlockPtr) (s : Chainstate), (s.clearParked l).parkedMarks.flags b =
      if b ∈ l then (false, false) else s.parkedMarks.flags b := by
    intro l s
    simp only [flags, parkedMarks, clearParked]
    split <;> rfl
  have hunmarked : ∀ s : Chainstate, (s.data b).nStatus.parkedMask = false →
      s.parkedMarks.flags b = (false, false) := by
    intro s hn
    simp only [BlockStatus.parkedMask, Bool.or_eq_false_iff] at hn
    exact Prod.ext hn.1 hn.2
  unfold cleared
  rw [hc, hc]
  by_cases hon : x <:+ b ∨ b <:+ x
  · split
    · rfl
    next h2 =>
    split
    · rfl
    next h1 =>
    -- a block of the branch that is in neither list had no flag
    refine hunmarked s ?_
    by_contra hp
    have hp : (s.data b).nStatus.parkedMask := by simpa using hp
    rcases hon with hon | hon
    · refine h1 (mem_filter.2 ⟨h.parked_known b hp, ?_⟩)
      rw [getAncestor_of_suffix hon hx, hp]
      simp
    refine h2 (mem_parkedAncestors.2 ⟨?_, hon, ?_⟩)
    · exact h.ne_nil (h.parked_known b hp)
    · have := hc (s.parkedDescendants x) s
      rw [if_neg h1] at this
      rw [← parkedMarks_marked, marked_eq, this]
      exact hp
  · rw [if_neg hon]
    push Not at hon
    rw [if_neg, if_neg]
    · intro h1
      obtain ⟨-, h1⟩ := mem_filter.mp h1
      have he := decide_eq_true_eq.mp (Bool.and_eq_true_iff.mp h1).1
      exact hon.1 (he ▸ getAncestor_suffix b (nHeight x))
    · exact fun h2 => hon.2 (mem_parkedAncestors.1 h2).2.1

theorem keepsParkedRoots_iff : s.keepsParkedRoots x ↔ ∀ b, (s.data b).nStatus.parkedChild →
      x <:+ b ∨ b <:+ x ∨ ∃ a, a <:+ b ∧ a ≠ b ∧ (s.data a).nStatus.parked ∧ ¬ a <:+ x := by
  unfold keepsParkedRoots
  rw [all_eq_true]
  have hback : ∀ b a : BlockPtr, b ≠ [] → (a <:+ b.tail ↔ a <:+ b ∧ a ≠ b) := by
    intro b a hb
    constructor
    · intro hab
      refine ⟨Branch.suffix_of_suffix_tail hab, ?_⟩
      rintro rfl
      exact Branch.not_suffix_tail hb hab
    · exact fun ⟨h1, h2⟩ => Branch.suffix_tail_of_ne h1 h2
  simp only [Bool.or_eq_true, Bool.not_eq_true', decide_eq_true_eq, any_eq_true,
    mem_tails, Bool.and_eq_true, decide_eq_false_iff_not]
  constructor
  · intro hall b hb
    have hbk := h.parked_known b (marked_of_child (M := s.parkedMarks) hb)
    rcases hall b hbk with ((h1 | h1) | h1) | ⟨a, hab, ha, hax⟩
    · simp [h1] at hb
    · exact .inl h1
    · exact .inr (.inl h1)
    · obtain ⟨h1, h2⟩ := (hback b a (h.ne_nil hbk)).1 hab
      exact .inr (.inr ⟨a, h1, h2, ha, hax⟩)
  · intro hall b hbk
    cases hc : (s.data b).nStatus.parkedChild with
    | false => exact .inl (.inl (.inl rfl))
    | true =>
      rcases hall b hc with h1 | h1 | ⟨a, h1, h2, ha, hax⟩
      · exact .inl (.inl (.inr h1))
      · exact .inl (.inr h1)
      · exact .inr ⟨a, (hback b a (h.ne_nil hbk)).2 ⟨h1, h2⟩, ha, hax⟩

omit h in
theorem offerAll_marks (env : Env) (p : Chainstate → BlockPtr → Bool) (l : List BlockPtr)
    (s : Chainstate) :
    (s.offerAll env p l).parkedMarks.root = s.parkedMarks.root ∧
      ∀ b, s.parkedMarks.child b → (s.offerAll env p l).parkedMarks.child b := by
  let I (s' : Chainstate) : Prop := s'.parkedMarks.root = s.parkedMarks.root ∧
    ∀ b, s.parkedMarks.child b → s'.parkedMarks.child b
  refine offerAll_induction (I := I) ⟨rfl, fun _ h => h⟩ ?_
  rintro s1 c - - ⟨hr, hc⟩
  refine tryAddBlockIndexCandidate_induct ⟨hr, hc⟩ (fun _ => ⟨?_, fun b hb => ?_⟩)
    (fun s2 h => h) fun s2 h => ?_
  · rw [← hr]
    funext b
    simp only [parkedMarks, modifyStatus_nStatus]
    split <;> rfl
  · simp only [parkedMarks, modifyStatus_nStatus]
    split
    · rfl
    · exact hc b hb
  · simpa only [I, parkedMarks, insertCandidate_data] using h

theorem cleared_marks (hx : x ≠ []) (b : BlockPtr) :
    ((s.cleared x).parkedMarks.root b ↔ s.parkedMarks.root b ∧ ¬ (x <:+ b ∨ b <:+ x)) ∧
      ((s.cleared x).parkedMarks.child b ↔ s.parkedMarks.child b ∧ ¬ (x <:+ b ∨ b <:+ x)) := by
  have hb := h.cleared_flags hx b
  by_cases hon : x <:+ b ∨ b <:+ x
  all_goals
    simp only [hon, if_true, if_false, flags, Prod.mk.injEq] at hb
    simp [hb, hon]

theorem cleared_anchored_iff (hx : x ≠ []) :
    (s.cleared x).parkedMarks.Anchored ↔ s.keepsParkedRoots x := by
  rw [h.keepsParkedRoots_iff]
  constructor
  · intro ha b hb
    by_cases hon : x <:+ b ∨ b <:+ x
    · exact hon.imp_right .inl
    obtain ⟨a, hab, hne, har⟩ := ha b ((h.cleared_marks hx b).2.2 ⟨hb, hon⟩)
    obtain ⟨h1, h2⟩ := (h.cleared_marks hx a).1.1 har
    exact .inr (.inr ⟨a, hab, hne, h1, fun hax => h2 (.inr hax)⟩)
  · intro hk b hb
    obtain ⟨hbc, hon⟩ := (h.cleared_marks hx b).2.1 hb
    rcases hk b hbc with h1 | h1 | ⟨a, hab, hne, har, hax⟩
    · exact absurd (.inl h1) hon
    · exact absurd (.inr h1) hon
    · refine ⟨a, hab, hne, (h.cleared_marks hx a).1.2 ⟨har, ?_⟩⟩
      grind

theorem cleared (hx : x ≠ []) (ha : (s.cleared x).parkedMarks.Anchored) :
    ParkedOk (s.cleared x) := by
  refine { h with anchored := ha, parked_known := fun b hb => h.parked_known b ?_ }
  rw [← parkedMarks_marked, marked, Bool.or_eq_true, (h.cleared_marks hx b).1,
    (h.cleared_marks hx b).2] at hb
  rcases hb with hb | hb
  · exact marked_of_root hb.1
  · exact marked_of_child hb.1

theorem unparkBlock (hx : x ∈ s.known) (hk : s.keepsParkedRoots x) :
    ParkedOk (s.unparkBlock env x) := by
  have hne := h.ne_nil hx
  refine (h.cleared hne ((h.cleared_anchored_iff hne).2 hk)).offerAll fun b hb => ?_
  rcases mem_append.1 hb with hb | hb
  · exact (mem_filter.1 hb).1
  · obtain ⟨h1, h2, -⟩ := mem_parkedAncestors.1 hb
    exact h.tail_known.suffix hx h2 h1

/-- **`UnparkBlock` keeps the child flags rooted iff every other branch keeps a root.** -/
theorem unparkBlock_iff (hx : x ∈ s.known) :
    (s.unparkBlock env x).parkedMarks.Anchored ↔ s.keepsParkedRoots x := by
  have hne := h.ne_nil hx
  refine ⟨fun ha => ?_, fun hk => (h.unparkBlock hx hk).anchored⟩
  rw [← h.cleared_anchored_iff hne]
  -- the offers that follow add no root
  obtain ⟨hr, hc⟩ := offerAll_marks env (fun s b => (s.data b).haveNumChainTxs)
    (s.parkedDescendants x ++ (s.clearParked (s.parkedDescendants x)).parkedAncestors x)
    (s.cleared x)
  intro b hb
  obtain ⟨a, hab, hne', har⟩ := ha b (hc b hb)
  exact ⟨a, hab, hne', hr ▸ har⟩

end ParkedOk

theorem fresh_parkedOk (env : Env) : ParkedOk (freshChainstate env) := by
  refine ⟨fun b hb => ?_, fun b hb => ?_, by simp [freshChainstate], .fresh env, fun c hc => hc,
    fun e he => ?_⟩
  · exact absurd hb (by simp [parkedMarks, fresh_flag (·.parkedChild)])
  · simp [fresh_flag (·.parkedMask)] at hb
  · cases he

end Chainstate

/-! ## Runs -/

/-- The functions that touch the parked flags, on any entries of the index, and the iterations
of `ActivateBestChain` with any cached block. -/
inductive ParkingStep
  | acceptBlock (call : BlockCall)
  | receivedBlockTransactions (b : BlockPtr) (vtxSize : Nat)
  | tryAddBlockIndexCandidate (b : BlockPtr)
  | findMostWorkChain
  | activateIteration (fuel : Nat) (cached : BlockPtr)
  | parkBlock (b : BlockPtr)
  | unparkBlock (b : BlockPtr)

def ParkingStep.entry : ParkingStep → Option BlockPtr
  | .receivedBlockTransactions b _ | .tryAddBlockIndexCandidate b | .parkBlock b | .unparkBlock b =>
    some b
  | _ => none

namespace Chainstate

def parkingCall (env : Env) : ParkingStep → Chainstate → Option Chainstate
  | .acceptBlock call, s => (s.acceptBlock env call).map Prod.fst
  | .receivedBlockTransactions b n, s => some (s.receivedBlockTransactions env b n)
  | .tryAddBlockIndexCandidate b, s => some (s.tryAddBlockIndexCandidate env b)
  | .findMostWorkChain, s => (s.findMostWorkChain env).map Prod.fst
  | .activateIteration fuel cached, s => (activateIteration env fuel s cached).map Prod.fst
  | .parkBlock b, s => some (s.parkBlock b).1
  | .unparkBlock b, s => some (s.unparkBlock env b)

def parkingStep (env : Env) (st : ParkingStep) (s : Chainstate) : Option Chainstate :=
  if st.entry.all fun b => decide (b ∈ s.known) then s.parkingCall env st else none

/-- A step of a run in which `UnparkBlock` takes no root away from another branch. -/
def rootedParkingStep (env : Env) (st : ParkingStep) (s : Chainstate) : Option Chainstate :=
  match st with
  | .unparkBlock b => if s.keepsParkedRoots b then s.parkingStep env st else none
  | _ => s.parkingStep env st

variable {s s' : Chainstate} {st : ParkingStep}

theorem ParkedOk.parkingStep {env : Env} (h : ParkedOk s)
    (hk : ∀ b, st = .unparkBlock b → s.keepsParkedRoots b)
    (hs : s.parkingStep env st = some s') : ParkedOk s' := by
  obtain ⟨he, hc⟩ := Option.ite_none_right_eq_some.1 hs
  cases st with
  | acceptBlock call =>
    obtain ⟨⟨s1, r⟩, h1, rfl⟩ := Option.map_eq_some_iff.1 hc
    exact h.acceptBlock h1
  | receivedBlockTransactions b n =>
    cases hc
    exact h.receivedBlockTransactions (by simpa [ParkingStep.entry] using he) n
  | tryAddBlockIndexCandidate b =>
    cases hc
    exact h.tryAddBlockIndexCandidate (by simpa [ParkingStep.entry] using he)
  | findMostWorkChain =>
    obtain ⟨⟨s1, m⟩, h1, rfl⟩ := Option.map_eq_some_iff.1 hc
    exact h.findMostWorkLoop h1
  | activateIteration fuel cached =>
    obtain ⟨⟨s1, m, d⟩, h1, rfl⟩ := Option.map_eq_some_iff.1 hc
    exact h.activateIteration h1
  | parkBlock b =>
    cases hc
    exact h.parkBlock (by simpa [ParkingStep.entry] using he)
  | unparkBlock b =>
    cases hc
    exact h.unparkBlock (by simpa [ParkingStep.entry] using he) (hk b rfl)

theorem ParkedOk.rootedParkingStep {env : Env}
    (h : ParkedOk s) (hs : s.rootedParkingStep env st = some s') : ParkedOk s' := by
  cases st with
  | unparkBlock b =>
    obtain ⟨hk, h1⟩ := Option.ite_none_right_eq_some.1 hs
    exact h.parkingStep (fun c hc => by cases hc; exact hk) h1
  | _ => exact h.parkingStep (fun c hc => by cases hc) hs

end Chainstate

/-! ## Top theorems -/

/-- Every block flagged `BLOCK_PARKED_CHILD` has a proper ancestor flagged `BLOCK_PARKED`. -/
def ParkedChildRooted (s : Chainstate) : Prop :=
  ∀ b, (s.data b).nStatus.parkedChild →
    ∃ a, a <:+ b ∧ a ≠ b ∧ (s.data a).nStatus.parked

/-- **Parked markers are rooted as long as no `UnparkBlock` takes a root away from another
branch**: in every run of such steps child flags are rooted, and unparking any entry keeps them
rooted iff every other branch keeps a parked root. -/
theorem parkedChild_rooted_iff (env : Env) {s : Chainstate}
    (hs : Runs.Reach (fun st s => s.rootedParkingStep env st) (freshChainstate env) s) :
    ParkedChildRooted s ∧ ∀ x ∈ s.known,
      (ParkedChildRooted (s.unparkBlock env x) ↔ s.keepsParkedRoots x) := by
  have h : s.ParkedOk :=
    hs.invariant (fresh_parkedOk env) fun _ _ _ hi hs => hi.rootedParkingStep hs
  exact ⟨h.anchored, fun x hx => h.unparkBlock_iff hx⟩

/-- Block 2 is parked, the blocks 3 and 4 on it are child-flagged when their bodies come in. -/
def parkedFork : List ParkingStep :=
  [.acceptBlock (regtestCall [1]), .activateIteration 5 [], .acceptBlock (regtestCall [2]),
    .parkBlock (regtestBranch [2]), .acceptBlock (regtestCall [3, 2]),
    .acceptBlock (regtestCall [4, 2])]

theorem parkedChild_rooted_iff_root : ∃ s : Chainstate,
    Runs.runAll (fun st s => s.rootedParkingStep (regtestEnv 6) st)
      (parkedFork ++ [.unparkBlock (regtestBranch [2])]) (freshChainstate (regtestEnv 6)) = some s ∧
    regtestBranch [4, 2] ∈ s.setBlockIndexCandidates ∧ ParkedChildRooted s := by
  refine (Option.map_eq_some_iff.1 (by decide : Option.map (fun s => decide (regtestBranch [4, 2] ∈
    s.setBlockIndexCandidates)) _ = some true)).imp fun s ⟨h, hv⟩ => ⟨h, of_decide_eq_true hv, ?_⟩
  exact (parkedChild_rooted_iff (regtestEnv 6) (Runs.reach_of_runAll h)).1

/-- **Unparking block 3 orphans block 4**: its root 2 is cleared, its child flag stays.  A block 5
on it inherits the flag, so the branch with the most work is not activated although no entry is
flagged `BLOCK_PARKED`. -/
theorem unparkBlock_orphans_sibling : ∃ s : Chainstate,
    Runs.runAll (fun st s => s.parkingStep (regtestEnv 6) st)
      (parkedFork ++ [.unparkBlock (regtestBranch [3, 2]), .activateIteration 5 [],
        .acceptBlock (regtestCall [5, 4, 2]), .activateIteration 5 []])
      (freshChainstate (regtestEnv 6)) = some s ∧
    ¬ ParkedChildRooted s ∧ (s.data (regtestBranch [4, 2])).nStatus.parkedChild ∧
    (∀ a ∈ s.known, (s.data a).nStatus.parked = false) ∧
    s.tip = regtestBranch [3, 2] ∧ nChainWork s.tip < nChainWork (regtestBranch [5, 4, 2]) := by
  refine (Option.map_eq_some_iff.1 (by decide : Option.map (fun s : Chainstate =>
    ((s.data (regtestBranch [4, 2])).nStatus.parkedChild,
      (regtestBranch [4, 2]).tails.all fun a => !(s.data a).nStatus.parked,
      s.known.all fun a => !(s.data a).nStatus.parked, s.tip)) _ =
    some (true, true, true, regtestBranch [3, 2]))).imp fun s ⟨h, hv⟩ => ⟨h, ?_⟩
  simp only [Prod.mk.injEq] at hv
  obtain ⟨hchild, hbelow, hknown, htip⟩ := hv
  refine ⟨fun hr => ?_, hchild, fun a ha => ?_, htip, ?_⟩
  · obtain ⟨a, hab, -, ha⟩ := hr _ hchild
    have := all_eq_true.1 hbelow a ((mem_tails a _).2 hab)
    simp [ha] at this
  · simpa using all_eq_true.1 hknown a ha
  · rw [htip]
    decide

end BitcoinPurity
