import BitcoinPurity.Chain.Invalidate
import BitcoinPurity.Lib.Marks

/-!
The failure flags over the block tree: `BLOCK_FAILED_VALID` marks the block that failed,
`BLOCK_FAILED_CHILD` its descendants.

Every function but `AddToBlockIndex` and `ResetBlockFailureFlags` only spreads the marks
(`FailureStep`): a new child flag sits above a failed block.  `ResetBlockFailureFlags` clears a
whole branch and makes the flagged blocks that hang on it roots of their own.  So a block with
only the child flag always has a failed parent, and `failureFlags_rooted` follows by walking
down.
-/

namespace BitcoinPurity

open List

namespace Chainstate

def failureMarks (s : Chainstate) : Marks CBlockHeader where
  root b := (s.data b).nStatus.failedValid
  child b := (s.data b).nStatus.failedChild

theorem failureMarks_marked (s : Chainstate) (b : BlockPtr) :
    s.failureMarks.marked b = (s.data b).nStatus.failedMask := rfl

/-! ## Steps that leave the failure flags alone -/

/-- The failure flags, `m_failed_blocks` and the entries are the same. -/
structure SameFailures (s s' : Chainstate) : Prop where
  marks : s'.failureMarks = s.failureMarks
  failed : s'.failedBlocks = s.failedBlocks
  known : s'.known = s.known

namespace SameFailures

variable (s : Chainstate)

theorem refl : SameFailures s s := ⟨rfl, rfl, rfl⟩

theorem trans {s s' s'' : Chainstate} (h : SameFailures s s') (h' : SameFailures s' s'') :
    SameFailures s s'' :=
  ⟨h'.marks.trans h.marks, h'.failed.trans h.failed, h'.known.trans h.known⟩

theorem modifyStatus (b : BlockPtr) (f : BlockStatus → BlockStatus)
    (hv : ∀ st, (f st).failedValid = st.failedValid)
    (hc : ∀ st, (f st).failedChild = st.failedChild) : SameFailures s (s.modifyStatus b f) := by
  refine ⟨Marks.ext (funext fun x => ?_) (funext fun x => ?_), rfl, rfl⟩
  · simp only [failureMarks, modifyStatus_nStatus]
    split
    · exact hv _
    · rfl
  · simp only [failureMarks, modifyStatus_nStatus]
    split
    · exact hc _
    · rfl

theorem modify (b : BlockPtr) (f : BlockData → BlockData)
    (hf : ∀ d, (f d).nStatus = d.nStatus) : SameFailures s (s.modify b f) := by
  refine ⟨Marks.ext (funext fun x => ?_) (funext fun x => ?_), rfl, rfl⟩
  all_goals
    simp only [failureMarks, modify_data]
    split
    · rw [hf]
    · rfl

theorem of_eq {s s' : Chainstate} (hd : s'.data = s.data) (hf : s'.failedBlocks = s.failedBlocks)
    (hk : s'.known = s.known) : SameFailures s s' := by
  refine ⟨?_, hf, hk⟩
  unfold failureMarks
  rw [hd]

section

variable (s : Chainstate) (b : BlockPtr)

theorem eraseCandidate : SameFailures s (s.eraseCandidate b) :=
  of_eq rfl rfl rfl

theorem insertCandidate : SameFailures s (s.insertCandidate b) := by
  unfold Chainstate.insertCandidate
  split
  · exact refl s
  · exact of_eq rfl rfl rfl

theorem addUnlinkedBlock : SameFailures s (s.addUnlinkedBlock b) := by
  unfold Chainstate.addUnlinkedBlock
  split
  · exact refl s
  · exact of_eq rfl rfl rfl

theorem parkedChild : SameFailures s (s.modifyStatus b fun st => { st with parkedChild := true }) :=
  modifyStatus s b _ (fun _ => rfl) fun _ => rfl

theorem parked : SameFailures s (s.modifyStatus b fun st => { st with parked := true }) :=
  modifyStatus s b _ (fun _ => rfl) fun _ => rfl

end

theorem tryAddBlockIndexCandidate (env : Env) (s : Chainstate) (b : BlockPtr) :
    SameFailures s (s.tryAddBlockIndexCandidate env b) := by
  refine tryAddBlockIndexCandidate_induct (refl s) (fun _ => parkedChild s b) ?_ ?_
  · exact fun s1 h => h.trans (eraseCandidate s1 b)
  · exact fun s1 h => h.trans (insertCandidate s1 b)

theorem offerAll (env : Env) (p : Chainstate → BlockPtr → Bool) (l : List BlockPtr)
    (s : Chainstate) : SameFailures s (s.offerAll env p l) :=
  offerAll_induction (refl s) fun s1 b _ _ h =>
    h.trans (tryAddBlockIndexCandidate env s1 b)

theorem disconnectTip {env : Env} {s s' : Chainstate} (h : s.disconnectTip env = some s') :
    SameFailures s s' := by
  obtain ⟨hb, -, -, -, hd, hf⟩ := disconnectTip_bodies h
  exact of_eq hd hf hb.known

end SameFailures

namespace SameFailures

theorem markConnected (s : Chainstate) (b : BlockPtr) : SameFailures s (s.markConnected b) := by
  unfold Chainstate.markConnected
  split
  · exact refl s
  · exact modifyStatus s b _ (fun _ => field_raiseValidity (·.failedValid))
      fun _ => field_raiseValidity (·.failedChild)

theorem linkBlock (env : Env) (s : Chainstate) (b : BlockPtr) :
    SameFailures s (s.linkBlock env b) := by
  have h := modify s b
    (fun d => { d with chainTxCount := s.prevTxSum b, nSequenceId := s.nBlockSequenceId })
    fun _ => rfl
  refine SameFailures.trans ?_ (tryAddBlockIndexCandidate env _ b)
  exact h.trans (of_eq rfl rfl rfl)

theorem linkQueue (env : Env) (fuel : Nat) (queue : List BlockPtr) (s : Chainstate) :
    SameFailures s (linkQueue env fuel queue s) := by
  induction fuel generalizing queue s with
  | zero => exact refl s
  | succ fuel ih =>
    cases queue with
    | nil => exact refl s
    | cons b queue =>
      refine SameFailures.trans ?_ (ih _ _)
      exact (linkBlock env s b).trans (of_eq rfl rfl rfl)

section

variable (env : Env) (s : Chainstate) (b : BlockPtr)

theorem markReceived (n : Nat) : SameFailures s (s.markReceived env b n) := by
  have h1 := modify s b (fun d => { d with nTx := n }) fun _ => rfl
  have h2 : ∀ s1, SameFailures s1 (if (s1.data b).chainTxCount = 0 ∨
      (s1.data b).chainTxCount = s1.prevTxSum b then s1
      else s1.modify b fun d => { d with chainTxCount := 0 }) := by
    intro s1
    split
    · exact refl s1
    · exact modify s1 b _ fun _ => rfl
  unfold Chainstate.markReceived
  exact (h1.trans (h2 _)).trans (modifyStatus _ b _ (fun _ => field_raiseValidity (·.failedValid))
    fun _ => field_raiseValidity (·.failedChild))

theorem receivedBlockTransactions (n : Nat) :
    SameFailures s (s.receivedBlockTransactions env b n) := by
  have h := markReceived env s b n
  unfold Chainstate.receivedBlockTransactions
  simp only
  split
  · exact h.trans (linkQueue env _ _ _)
  split
  · exact h.trans (addUnlinkedBlock _ b)
  · exact h

theorem parkDeepReorg : SameFailures s (s.parkDeepReorg env b) := by
  unfold Chainstate.parkDeepReorg
  split
  · simp only
    split
    · split
      · exact refl s
      · exact (parked s _).trans (eraseCandidate _ _)
    · exact refl s
  · exact refl s

end

theorem pruneBlockIndexCandidates {env : Env} {s s' : Chainstate}
    (h : s.pruneBlockIndexCandidates env = some s') : SameFailures s s' := by
  cases pruneBlockIndexCandidates_eq h
  exact of_eq rfl rfl rfl

theorem parkBlock (s : Chainstate) (b : BlockPtr) : SameFailures s (s.parkBlock b).1 := by
  unfold Chainstate.parkBlock
  split
  · exact refl s
  · exact (parked s b).trans (eraseCandidate _ b)

theorem clearParked (l : List BlockPtr) (s : Chainstate) : SameFailures s (s.clearParked l) := by
  refine ⟨Marks.ext (funext fun x => ?_) (funext fun x => ?_), rfl, rfl⟩
  all_goals
    simp only [failureMarks, Chainstate.clearParked]
    split <;> rfl

theorem unparkBlock (env : Env) (s : Chainstate) (b : BlockPtr) :
    SameFailures s (s.unparkBlock env b) := by
  exact ((clearParked _ s).trans (clearParked _ _)).trans (offerAll env _ _ _)

end SameFailures

/-! ## Steps that spread the failure flags -/

/-- Every block in `m_failed_blocks` is a failure root. -/
def FailedRoots (s : Chainstate) : Prop :=
  ∀ b ∈ s.failedBlocks, (s.data b).nStatus.failedValid

/-- Failure flags spread, from failed blocks and from the blocks of `P`. -/
structure FailureStep (P : BlockPtr → Prop) (s s' : Chainstate) : Prop where
  known : s'.known = s.known
  spreads : Marks.Spreads P s.failureMarks s'.failureMarks
  flagged : ∀ b, (s'.data b).nStatus.failedMask →
    (s.data b).nStatus.failedMask ∨ b ∈ s.known
  roots : FailedRoots s → FailedRoots s'

namespace FailureStep

variable {P Q : BlockPtr → Prop} {s s' s'' : Chainstate}

theorem of_same (h : SameFailures s s') : FailureStep P s s' where
  known := h.known
  spreads := h.marks ▸ .refl _
  flagged b hb := by
    rw [← failureMarks_marked, h.marks] at hb
    exact .inl hb
  roots hr b hb := by
    rw [h.failed] at hb
    have := hr b hb
    rwa [show (s.data b).nStatus.failedValid = s.failureMarks.root b from rfl, ← h.marks] at this

theorem refl (s : Chainstate) : FailureStep P s s := of_same (.refl s)

theorem trans (h : FailureStep P s s') (h' : FailureStep P s' s'') : FailureStep P s s'' where
  known := h'.known.trans h.known
  spreads := h.spreads.trans h'.spreads
  flagged b hb := by
    rcases h'.flagged b hb with hb | hb
    · exact h.flagged b hb
    · exact .inr (h.known ▸ hb)
  roots hr := h'.roots (h.roots hr)

theorem weaken (h : FailureStep P s s') (hPQ : ∀ a, P a → Q a) : FailureStep Q s s' :=
  ⟨h.known, h.spreads.weaken hPQ, h.flagged, h.roots⟩

theorem failedMask (h : FailureStep P s s') {b : BlockPtr}
    (hb : (s.data b).nStatus.failedMask) : (s'.data b).nStatus.failedMask :=
  h.spreads.mono b hb

end FailureStep

variable {b t : BlockPtr} {s s' : Chainstate} {P : BlockPtr → Prop}

theorem FailureStep.plant (hb : b ∈ s.known) :
    FailureStep (· = b) s (s.modifyStatus b fun st => { st with failedValid := true }) := by
  have hst := s.modifyStatus_nStatus b fun st => { st with failedValid := true }
  refine ⟨rfl, ⟨?_, ?_, ?_⟩, ?_, ?_⟩
  · intro x hx
    rw [failureMarks_marked] at ⊢
    rw [hst]
    split
    · simp [BlockStatus.failedMask]
    · exact hx
  · intro x hx
    refine .inl ?_
    simp only [Marks.inherits, failureMarks, hst] at hx
    split at hx
    · simp at hx
    · exact hx
  · intro x hx
    rw [failureMarks_marked, hst] at hx
    by_cases he : x = b
    · exact ⟨x, suffix_refl x, .inr he⟩
    · rw [if_neg he] at hx
      exact ⟨x, suffix_refl x, .inl hx⟩
  · grind
  · intro hr x hx
    rw [hst]
    split
    · rfl
    · exact hr x hx

theorem FailureStep.insertFailed (hb : (s.data b).nStatus.failedValid) :
    FailureStep P s (s.insertFailed b) := by
  refine ⟨rfl, .refl _, fun x hx => .inl hx, fun hr x hx => ?_⟩
  simp only [Chainstate.insertFailed] at hx
  split at hx
  · exact hr x hx
  rcases mem_cons.1 hx with rfl | hx
  · exact hb
  · exact hr x hx

theorem modifyStatus_self (s : Chainstate) (b : BlockPtr) (f : BlockStatus → BlockStatus) :
    ((s.modifyStatus b f).data b).nStatus = f (s.data b).nStatus := by
  rw [modifyStatus_nStatus, if_pos rfl]

/-- The index has the parent of every entry. -/
def TailKnown (s : Chainstate) : Prop := ∀ b ∈ s.known, b.tail ≠ [] → b.tail ∈ s.known

theorem TailKnown.suffix (h : TailKnown s) {a : BlockPtr} (hb : b ∈ s.known) (hab : a <:+ b)
    (ha : a ≠ []) : a ∈ s.known := by
  induction b with
  | nil => exact absurd (suffix_nil.1 hab) ha
  | cons x b ih =>
    rcases suffix_cons_iff.1 hab with rfl | hab
    · exact hb
    have hne : b ≠ [] := by
      rintro rfl
      exact ha (suffix_nil.1 hab)
    exact ih (h _ hb hne) hab

theorem TailKnown.congr (h : TailKnown s) (hk : s'.known = s.known) : TailKnown s' := by
  rw [TailKnown, hk]
  exact h

theorem TailKnown.fresh (env : Env) : TailKnown (freshChainstate env) := by
  intro b hb hne
  rw [mem_singleton.1 hb] at hne
  exact absurd rfl hne

theorem TailKnown.addToBlockIndex (h : TailKnown s) (hb : b.tail = [] ∨ b.tail ∈ s.known) :
    TailKnown (s.addToBlockIndex b) := by
  intro x hx hne
  rw [addToBlockIndex_known] at hx ⊢
  rcases hx with rfl | hx
  · exact .inr (hb.resolve_left hne)
  · exact .inr (h x hx hne)

/-- A new entry has no flags, and had none before. -/
theorem addToBlockIndex_flags {r c : BlockStatus → Bool}
    (h : r (s.data b).nStatus || c (s.data b).nStatus → b ∈ s.known)
    (h0 : (r (({} : BlockStatus).raiseValidity .tree), c (({} : BlockStatus).raiseValidity .tree)) =
      (false, false)) (x : BlockPtr) :
    r ((s.addToBlockIndex b).data x).nStatus = r (s.data x).nStatus ∧
      c ((s.addToBlockIndex b).data x).nStatus = c (s.data x).nStatus := by
  rw [Prod.mk.injEq] at h0
  unfold Chainstate.addToBlockIndex
  grind

theorem isDescendant_iff {x : BlockPtr} (hb : b ≠ []) :
    s.isDescendant b x ↔ x ∈ s.known ∧ x ≠ b ∧ b <:+ x := by
  unfold isDescendant
  simp only [Bool.and_eq_true, decide_eq_true_eq, and_assoc]
  refine and_congr_right fun _ => and_congr_right fun _ => ?_
  constructor
  · intro h
    exact h ▸ getAncestor_suffix _ _
  · exact fun h => getAncestor_of_suffix h hb

theorem setBlockFailureFlags_nStatus (s : Chainstate) (b x : BlockPtr) :
    ((s.setBlockFailureFlags b).data x).nStatus = if s.isDescendant b x then
      { (s.data x).nStatus with failedValid := false, failedChild := true }
    else (s.data x).nStatus := by
  simp only [setBlockFailureFlags]
  split <;> rfl

/-- **`SetBlockFailureFlags` on a failed block** spreads its failure. -/
theorem FailureStep.setBlockFailureFlags (hk : TailKnown s) (hb : b ≠ [])
    (hf : (s.data b).nStatus.failedMask) : FailureStep P s (s.setBlockFailureFlags b) := by
  have hst := s.setBlockFailureFlags_nStatus b
  have hmono : ∀ x, (s.data x).nStatus.failedMask →
      ((s.setBlockFailureFlags b).data x).nStatus.failedMask := by
    intro x hx
    rw [hst]
    split
    · simp [BlockStatus.failedMask]
    · exact hx
  refine ⟨rfl, ⟨hmono, ?_, ?_⟩, ?_, ?_⟩
  · intro x hx
    by_cases hd : s.isDescendant b x
    · -- the parent is the failed block or another descendant
      right
      obtain ⟨hxk, hne, hbx⟩ := (isDescendant_iff hb).1 hd
      have hbt := Branch.suffix_tail_of_ne hbx (Ne.symm hne)
      rw [failureMarks_marked]
      by_cases he : x.tail = b
      · rw [he]
        exact hmono b hf
      have htne : x.tail ≠ [] := by grind
      rw [hst, if_pos ((isDescendant_iff hb).2 ⟨hk x hxk htne, he, hbt⟩)]
      simp [BlockStatus.failedMask]
    · left
      simp only [Marks.inherits, failureMarks, hst, if_neg hd] at hx
      exact hx
  · intro x hx
    by_cases hd : s.isDescendant b x
    · exact ⟨b, ((isDescendant_iff hb).1 hd).2.2, .inl hf⟩
    · rw [failureMarks_marked, hst, if_neg hd] at hx
      exact ⟨x, suffix_refl x, .inl hx⟩
  · intro x hx
    by_cases hd : s.isDescendant b x
    · exact .inr ((isDescendant_iff hb).1 hd).1
    · rw [hst, if_neg hd] at hx
      exact .inl hx
  · intro hr x hx
    obtain ⟨hx, hd⟩ := mem_filter.1 hx
    rw [hst, if_neg (by simpa using hd)]
    exact hr x hx

theorem FailureStep.invalidBlockFound (hk : TailKnown s) (hb : b ∈ s.known) (hne : b ≠ [])
    (h : s.invalidBlockFound b = some s') :
    FailureStep (· = b) s s' ∧ (s'.data b).nStatus.failedMask ∧
      ∀ x ∈ s.known, b <:+ x → (s'.data x).nStatus.failedMask := by
  rw [invalidChainFound_eq h]
  set s1 := ((s.modifyStatus b fun st => { st with failedValid := true }).insertFailed
    b).eraseCandidate b with hs1
  have hv : (s1.data b).nStatus.failedValid := by
    show ((s.modifyStatus b fun st => { st with failedValid := true }).data b).nStatus.failedValid =
      true
    rw [modifyStatus_self]
  have h1 : FailureStep (· = b) s s1 := by
    refine ((plant hb).trans (insertFailed ?_)).trans (.of_same (.eraseCandidate _ b))
    exact hv
  have hm : (s1.data b).nStatus.failedMask := by simp [BlockStatus.failedMask, hv]
  have h2 := FailureStep.setBlockFailureFlags (P := (· = b)) (s := s1) hk hne hm
  refine ⟨h1.trans h2, h2.failedMask hm, fun x hx hbx => ?_⟩
  by_cases he : x = b
  · rw [he]
    exact h2.failedMask hm
  · rw [setBlockFailureFlags_nStatus, if_pos ((isDescendant_iff (s := s1) hne).2 ⟨hx, he, hbx⟩)]
    simp [BlockStatus.failedMask]

/-! ## Headers -/

section

variable {env : Env} {s s' : Chainstate}

theorem firstFailed_mem {b f : BlockPtr} (h : s.firstFailed env b = some f) :
    f ∈ s.failedBlocks ∧ f <:+ b := by
  obtain ⟨h1, h2⟩ := mem_filter.mp (LastBy.lastBy_mem h)
  exact ⟨h1, (decide_eq_true_eq.mp h2) ▸ getAncestor_suffix b (nHeight f)⟩

end

/-! ## Paths above a failed block -/

/-- `s'` has the child flag on exactly the new blocks from `b` down to above `t`. -/
def ChildPath (t b : BlockPtr) (s s' : Chainstate) : Prop :=
  ∀ x, ((s'.data x).nStatus.failedValid = (s.data x).nStatus.failedValid) ∧
    (s'.data x).nStatus.failedChild =
      ((s.data x).nStatus.failedChild || decide (t <:+ x ∧ x ≠ t ∧ x <:+ b))

theorem FailureStep.of_childPath (h : ChildPath t b s s') (hk : TailKnown s) (hb : b ∈ s.known)
    (ht : t ≠ []) (hf : (s.data t).nStatus.failedMask)
    (hfailed : s'.failedBlocks = s.failedBlocks) (hknown : s'.known = s.known) :
    FailureStep P s s' := by
  have hmono : ∀ x, (s.data x).nStatus.failedMask → (s'.data x).nStatus.failedMask := by
    intro x hx
    unfold BlockStatus.failedMask at hx ⊢
    rw [(h x).1, (h x).2, ← Bool.or_assoc, hx]
    rfl
  have hnew : ∀ x, (s'.data x).nStatus.failedMask →
      (s.data x).nStatus.failedMask ∨ (t <:+ x ∧ x ≠ t ∧ x <:+ b) := by
    intro x hx
    unfold BlockStatus.failedMask at hx
    rw [(h x).1, (h x).2, ← Bool.or_assoc, Bool.or_eq_true, decide_eq_true_eq] at hx
    exact hx
  refine ⟨hknown, ⟨hmono, ?_, ?_⟩, ?_, ?_⟩
  · intro x hx
    rw [Marks.inherits_iff] at hx ⊢
    obtain ⟨hm, hv⟩ := hx
    rcases hnew x hm with hm | ⟨htx, hne, hxb⟩
    · exact .inl ⟨hm, (h x).1.symm.trans hv⟩
    -- the block below on the path
    right
    have htt := Branch.suffix_tail_of_ne htx (Ne.symm hne)
    rw [failureMarks_marked]
    by_cases he : x.tail = t
    · rw [he]
      exact hmono t hf
    unfold BlockStatus.failedMask
    rw [(h x.tail).2, decide_eq_true ⟨htt, he, (tail_suffix x).trans hxb⟩]
    simp
  · intro x hx
    rcases hnew x hx with hx | hx
    · exact ⟨x, suffix_refl x, .inl hx⟩
    · exact ⟨t, hx.1, .inl hf⟩
  · intro x hx
    refine (hnew x hx).imp_right fun hx => hk.suffix hb hx.2.2 ?_
    rintro rfl
    exact ht (suffix_nil.1 hx.1)
  · intro hr x hx
    rw [(h x).1]
    exact hr x (hfailed ▸ hx)

theorem ChildPath.cons {t b : BlockPtr} {x : CBlockHeader} {s s1 s' : Chainstate}
    (ht : t <:+ x :: b) (hne : x :: b ≠ t) (h₁ : s1.failureMarks =
      (s.modifyStatus (x :: b) fun st => { st with failedChild := true }).failureMarks)
    (h : ChildPath t b s1 s') : ChildPath t (x :: b) s s' := by
  intro y
  obtain ⟨hv, hc⟩ := h y
  have hv1 : (s1.data y).nStatus.failedValid = (s.data y).nStatus.failedValid := by
    show s1.failureMarks.root y = _
    rw [h₁]
    simp only [failureMarks, modifyStatus_nStatus]
    split <;> rfl
  have hc1 : (s1.data y).nStatus.failedChild =
      ((s.data y).nStatus.failedChild || decide (y = x :: b)) := by
    show s1.failureMarks.child y = _
    rw [h₁]
    simp only [failureMarks, modifyStatus_nStatus]
    split
    · next he => simp [he]
    · next he => simp [he]
  refine ⟨hv.trans hv1, ?_⟩
  rw [hc, hc1, Bool.or_assoc]
  congr 1
  rw [← Bool.decide_or]
  refine decide_eq_decide.2 ?_
  rw [suffix_cons_iff]
  grind

theorem ChildPath.self (t : BlockPtr) (s : Chainstate) : ChildPath t t s s := by
  intro x
  refine ⟨rfl, ?_⟩
  have : ¬ (t <:+ x ∧ x ≠ t ∧ x <:+ t) := fun ⟨h1, h2, h3⟩ => h2 (Branch.suffix_antisymm h3 h1)
  simp [this]

theorem invalidWalk_childPath {f : BlockPtr} (hfb : f <:+ b) (s : Chainstate) :
    ChildPath f b s (invalidWalk f b s) ∧ (invalidWalk f b s).failedBlocks = s.failedBlocks := by
  induction b generalizing s with
  | nil =>
    rw [suffix_nil.1 hfb]
    exact ⟨.self [] s, rfl⟩
  | cons x b ih =>
    unfold invalidWalk
    split
    · next he => exact he ▸ ⟨.self _ s, rfl⟩
    next he =>
    obtain ⟨h1, h2⟩ := ih ((suffix_cons_iff.1 hfb).resolve_left (Ne.symm he))
      (s.modifyStatus (x :: b) fun st => { st with failedChild := true })
    exact ⟨h1.cons hfb he rfl, h2⟩

theorem removeChain_childPath {test : BlockStatus} (hf : test.failedMask) (htb : t <:+ b)
    (s : Chainstate) :
    ChildPath t b s (removeChain t test b s) ∧
      (removeChain t test b s).failedBlocks = s.failedBlocks := by
  induction b generalizing s with
  | nil =>
    rw [suffix_nil.1 htb]
    exact ⟨.self [] s, rfl⟩
  | cons x b ih =>
    unfold removeChain
    split
    · next he => exact he ▸ ⟨fun y => ChildPath.self _ s y, rfl⟩
    next he =>
    obtain ⟨h1, h2⟩ := ih ((suffix_cons_iff.1 htb).resolve_left (Ne.symm he))
      ((markUnusable test s (x :: b)).eraseCandidate (x :: b))
    unfold markUnusable at h1 h2 ⊢
    rw [if_pos hf] at h1 h2 ⊢
    exact ⟨h1.cons htb he rfl, h2⟩

theorem removeChain_sameFailures {test : BlockStatus} (hf : test.failedMask = false)
    (s : Chainstate) : SameFailures s (removeChain t test b s) := by
  induction b generalizing s with
  | nil => exact .eraseCandidate s t
  | cons x b ih =>
    unfold removeChain
    split
    · exact .eraseCandidate s t
    have hm : SameFailures s (markUnusable test s (x :: b)) := by
      unfold markUnusable
      rw [hf, if_neg (by simp)]
      split
      · exact .parkedChild s _
      · exact .addUnlinkedBlock s _
    exact (hm.trans (.eraseCandidate _ _)).trans (ih _)

/-- **`FindMostWorkChain`** spreads failures upwards. -/
theorem FailureStep.findMostWorkLoop {env : Env} {fuel : Nat} {m : BlockPtr} (hk : TailKnown s)
    (hc : ∀ c ∈ s.setBlockIndexCandidates, c ∈ s.known)
    (h : findMostWorkLoop env fuel s = some (s', m)) : FailureStep P s s' := by
  refine (findMostWorkLoop_induct (P := fun s₁ => FailureStep P s s₁ ∧ TailKnown s₁ ∧
    ∀ c ∈ s₁.setBlockIndexCandidates, c ∈ s₁.known) ?_ ⟨.refl s, hk, hc⟩ h).1.1
  intro s c t ⟨hs, hk, hc⟩ hcm hp
  obtain ⟨ht, htc, -⟩ := checkPath_unusable hp
  have hn := (removeChain_round hcm hp).1
  refine ⟨hs.trans ?_, ?_, ?_⟩
  · cases hf : (s.data t).nStatus.failedMask with
    | true =>
      obtain ⟨h1, h2⟩ := removeChain_childPath hf htc s
      exact .of_childPath h1 hk (hc c hcm) ht hf h2 hn.known
    | false => exact .of_same (removeChain_sameFailures hf s)
  · exact hk.congr hn.known
  · rw [hn.known]
    exact fun c hcc => hc c (hn.candidates c hcc)

end Chainstate

end BitcoinPurity
