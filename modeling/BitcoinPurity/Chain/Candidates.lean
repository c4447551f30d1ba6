import BitcoinPurity.Chain.Index

/-!
The candidate set: `TryAddBlockIndexCandidate`, `ReceivedBlockTransactions`,
`FindMostWorkChain`, `PruneBlockIndexCandidates` and the failure flags of
`InvalidBlockFound` / `InvalidChainFound`.

A failed `assert` is `none`.  `m_dirty_blockindex`, `m_best_header`,
`m_best_invalid` and the log lines are left out: nothing here reads them back.
-/

namespace BitcoinPurity

open List

namespace Chainstate

/-! ## Algorithm -/

/-- The ancestor walk of `TryAddBlockIndexCandidate`: is a block from `b` down to the
active chain parked? -/
def parkedAbove (s : Chainstate) : BlockPtr → Bool
  | [] => false
  | x :: b =>
    if (s.data (x :: b)).nStatus.parkedMask then true
    else if s.tip = [] || s.contains (x :: b) then false
    else parkedAbove s b

/-- `Chainstate::TryAddBlockIndexCandidate`, on the active chainstate. -/
def tryAddBlockIndexCandidate (env : Env) (s : Chainstate) (b : BlockPtr) : Chainstate :=
  let s := if s.parkedAbove b.tail then
      s.modifyStatus b fun st => { st with parkedChild := true }
    else s
  if (s.data b).nStatus.parkedMask then s.eraseCandidate b
  else if s.tip ≠ [] && s.workLess env b s.tip then s
  else s.insertCandidate b

def addUnlinkedBlock (s : Chainstate) (b : BlockPtr) : Chainstate :=
  if (b.tail, b) ∈ s.blocksUnlinked then s
  else { s with blocksUnlinked := s.blocksUnlinked ++ [(b.tail, b)] }

def prevTxSum (s : Chainstate) (b : BlockPtr) : Nat :=
  (s.data b).nTx + if b.tail = [] then 0 else (s.data b.tail).chainTxCount

/-- One block leaves the queue of `ReceivedBlockTransactions`. -/
def linkBlock (env : Env) (s : Chainstate) (b : BlockPtr) : Chainstate :=
  let sum := s.prevTxSum b
  let s := s.modify b fun d => { d with chainTxCount := sum, nSequenceId := s.nBlockSequenceId }
  let s := { s with nBlockSequenceId := s.nBlockSequenceId + 1 }
  s.tryAddBlockIndexCandidate env b

/-- The queue loop of `ReceivedBlockTransactions`: every step takes one block out and moves
its waiting children from `m_blocks_unlinked` into the queue. -/
def linkQueue (env : Env) : Nat → List BlockPtr → Chainstate → Chainstate
  | 0, _, s => s
  | _ + 1, [], s => s
  | fuel + 1, b :: queue, s =>
    let s := s.linkBlock env b
    let waiting := (s.blocksUnlinked.filter fun e => e.1 = b).map Prod.snd
    linkQueue env fuel (queue ++ waiting)
      { s with blocksUnlinked := s.blocksUnlinked.filter fun e => e.1 ≠ b }

def markReceived (env : Env) (s : Chainstate) (b : BlockPtr) (vtxSize : Nat) : Chainstate :=
  let s := s.modify b fun d => { d with nTx := vtxSize }
  let count := (s.data b).chainTxCount
  let s := if count = 0 ∨ count = s.prevTxSum b then s
    else s.modify b fun d => { d with chainTxCount := 0 }
  s.modifyStatus b fun st =>
    { st with haveData := true, optWitness := st.optWitness || decide (nHeight b ≥ env.segwitHeight) }
      |>.raiseValidity .transactions

def receivedBlockTransactions (env : Env) (s : Chainstate) (b : BlockPtr) (vtxSize : Nat) :
    Chainstate :=
  let s := s.markReceived env b vtxSize
  if b.tail = [] || (s.data b.tail).haveNumChainTxs then
    linkQueue env (s.blocksUnlinked.length + 1) [b] s
  else if (s.data b.tail).nStatus.isValid .tree then s.addUnlinkedBlock b
  else s

/-- What `FindMostWorkChain` finds between a candidate and the active chain. -/
inductive PathCheck
  | usable
  | unusable (pindexTest : BlockPtr)
  | assertFailed
deriving DecidableEq

/-- The path check of `FindMostWorkChain`. -/
def checkPath (s : Chainstate) : BlockPtr → PathCheck
  | [] => .usable
  | x :: b =>
    if s.contains (x :: b) then .usable
    else if !((s.data (x :: b)).haveNumChainTxs || decide (nHeight (x :: b) = 0)) then .assertFailed
    else if (s.data (x :: b)).nStatus.failedMask || (s.data (x :: b)).nStatus.parkedMask ||
        !(s.data (x :: b)).nStatus.haveData then .unusable (x :: b)
    else checkPath s b

/-- What is recorded on a block above the unusable block `pindexTest`. -/
def markUnusable (test : BlockStatus) (s : Chainstate) (b : BlockPtr) : Chainstate :=
  if test.failedMask then s.modifyStatus b fun st => { st with failedChild := true }
  else if test.parkedMask then s.modifyStatus b fun st => { st with parkedChild := true }
  else s.addUnlinkedBlock b

/-- Remove the chain from a candidate down to `pindexTest` from the set. -/
def removeChain (pindexTest : BlockPtr) (test : BlockStatus) : BlockPtr → Chainstate → Chainstate
  | [], s => s.eraseCandidate pindexTest
  | x :: b, s =>
    if x :: b = pindexTest then s.eraseCandidate pindexTest
    else removeChain pindexTest test b ((markUnusable test s (x :: b)).eraseCandidate (x :: b))

/-- The loop of `FindMostWorkChain`; each round returns or removes a candidate. -/
def findMostWorkLoop (env : Env) : Nat → Chainstate → Option (Chainstate × BlockPtr)
  | 0, _ => none
  | fuel + 1, s =>
    match LastBy.lastBy (s.workLess env) s.setBlockIndexCandidates with
    | none => some (s, [])
    | some pindexNew =>
      match s.checkPath pindexNew with
      | .assertFailed => none
      | .usable => some (s, pindexNew)
      | .unusable pindexTest =>
        findMostWorkLoop env fuel
          (removeChain pindexTest (s.data pindexTest).nStatus pindexNew s)

def findMostWorkChain (env : Env) (s : Chainstate) : Option (Chainstate × BlockPtr) :=
  findMostWorkLoop env (s.setBlockIndexCandidates.length + 1) s

def pruneBlockIndexCandidates (env : Env) (s : Chainstate) : Option Chainstate :=
  let s' := { s with setBlockIndexCandidates :=
    s.setBlockIndexCandidates.filter fun c => !s.workLess env c s.tip }
  if s'.setBlockIndexCandidates = [] then none else some s'

section

variable (s : Chainstate)

/-- Is `x` an entry of the index strictly above `b`? -/
def isDescendant (b x : BlockPtr) : Bool :=
  decide (x ∈ s.known) && decide (x ≠ b) && decide (getAncestor x (nHeight b) = b)

variable (b : BlockPtr)

def setBlockFailureFlags : Chainstate :=
  { s with
    data := fun x => if s.isDescendant b x then
        { s.data x with nStatus :=
          { (s.data x).nStatus with failedValid := false, failedChild := true } }
      else s.data x
    failedBlocks := s.failedBlocks.filter fun x => !s.isDescendant b x }

def invalidChainFound : Option Chainstate :=
  if s.tip = [] then none else some (s.setBlockFailureFlags b)

def insertFailed : Chainstate :=
  { s with failedBlocks := if b ∈ s.failedBlocks then s.failedBlocks else b :: s.failedBlocks }

/-- `Chainstate::InvalidBlockFound`, for a result other than `BLOCK_MUTATED`. -/
def invalidBlockFound : Option Chainstate :=
  let s := s.modifyStatus b fun st => { st with failedValid := true }
  ((s.insertFailed b).eraseCandidate b).invalidChainFound b

end

/-! ## What a change to one entry leaves alone -/

section

variable (s : Chainstate) (b : BlockPtr)

theorem modify_data (f) (x : BlockPtr) :
    (s.modify b f).data x = if x = b then f (s.data x) else s.data x := rfl

theorem modifyStatus_nStatus (f) (x : BlockPtr) :
    ((s.modifyStatus b f).data x).nStatus = if x = b then f (s.data x).nStatus
      else (s.data x).nStatus := by
  unfold modifyStatus
  rw [modify_data]
  split <;> rfl

@[simp] theorem modifyStatus_seq (f) (x : BlockPtr) :
    ((s.modifyStatus b f).data x).nSequenceId = (s.data x).nSequenceId := by
  unfold modifyStatus
  rw [modify_data]
  split <;> rfl

@[simp] theorem modifyStatus_count (f) (x : BlockPtr) :
    ((s.modifyStatus b f).data x).chainTxCount = (s.data x).chainTxCount := by
  unfold modifyStatus
  rw [modify_data]
  split <;> rfl

@[simp] theorem eraseCandidate_data : (s.eraseCandidate b).data = s.data := rfl
@[simp] theorem mem_eraseCandidate {c : BlockPtr} :
    c ∈ (s.eraseCandidate b).setBlockIndexCandidates ↔ c ∈ s.setBlockIndexCandidates ∧ c ≠ b := by
  simp [eraseCandidate]

@[simp] theorem insertCandidate_known : (s.insertCandidate b).known = s.known := by
  unfold insertCandidate; split <;> rfl
@[simp] theorem insertCandidate_tip : (s.insertCandidate b).tip = s.tip := by
  unfold insertCandidate; split <;> rfl
@[simp] theorem insertCandidate_data : (s.insertCandidate b).data = s.data := by
  unfold insertCandidate; split <;> rfl
@[simp] theorem insertCandidate_unlinked :
    (s.insertCandidate b).blocksUnlinked = s.blocksUnlinked := by
  unfold insertCandidate; split <;> rfl

@[simp] theorem mem_insertCandidate {c : BlockPtr} :
    c ∈ (s.insertCandidate b).setBlockIndexCandidates ↔ c = b ∨ c ∈ s.setBlockIndexCandidates := by
  unfold insertCandidate
  split
  · next h => exact ⟨.inr, fun hc => hc.elim (fun e => e ▸ h) id⟩
  · simp

@[simp] theorem addUnlinkedBlock_known : (s.addUnlinkedBlock b).known = s.known := by
  unfold addUnlinkedBlock; split <;> rfl
@[simp] theorem addUnlinkedBlock_tip : (s.addUnlinkedBlock b).tip = s.tip := by
  unfold addUnlinkedBlock; split <;> rfl
@[simp] theorem addUnlinkedBlock_data : (s.addUnlinkedBlock b).data = s.data := by
  unfold addUnlinkedBlock; split <;> rfl
@[simp] theorem addUnlinkedBlock_candidates :
    (s.addUnlinkedBlock b).setBlockIndexCandidates = s.setBlockIndexCandidates := by
  unfold addUnlinkedBlock; split <;> rfl

theorem addUnlinkedBlock_eq : ∃ u, s.addUnlinkedBlock b = { s with blocksUnlinked := u } := by
  unfold addUnlinkedBlock; split <;> exact ⟨_, rfl⟩

theorem mem_addUnlinkedBlock {e : BlockPtr × BlockPtr} :
    e ∈ (s.addUnlinkedBlock b).blocksUnlinked ↔ e ∈ s.blocksUnlinked ∨ e = (b.tail, b) := by
  unfold addUnlinkedBlock
  split
  · next h => exact ⟨.inl, fun he => he.elim id fun e => e ▸ h⟩
  · simp

theorem addUnlinkedBlock_nodup (h : s.blocksUnlinked.Nodup) :
    (s.addUnlinkedBlock b).blocksUnlinked.Nodup := by
  unfold addUnlinkedBlock
  grind

end

/-! ## Steps that only narrow the candidate set -/

/-- The whole branch of `b` is on disk. -/
def HaveBranch (s : Chainstate) (b : BlockPtr) : Prop :=
  ∀ x ≠ [], x <:+ b → (s.data x).nStatus.haveData

/-- `s'` came from `s` by steps of chain selection: the entries, their order and their bodies
are the same, no candidate is new, and a block is only put back to `m_blocks_unlinked` when
it has its body and is below a candidate. -/
structure Narrows (s s' : Chainstate) : Prop where
  known : s'.known = s.known
  seq : ∀ b, (s'.data b).nSequenceId = (s.data b).nSequenceId
  count : ∀ b, (s'.data b).chainTxCount = (s.data b).chainTxCount
  haveData : ∀ b, (s'.data b).nStatus.haveData = (s.data b).nStatus.haveData
  candidates : ∀ c ∈ s'.setBlockIndexCandidates, c ∈ s.setBlockIndexCandidates
  unlinked : ∀ e ∈ s'.blocksUnlinked, e ∈ s.blocksUnlinked ∨
    e.1 = e.2.tail ∧ e.2 ≠ [] ∧ (s.data e.2).nStatus.haveData ∧
      ∃ c ∈ s.setBlockIndexCandidates, e.2 <:+ c
  nodup : s.blocksUnlinked.Nodup → s'.blocksUnlinked.Nodup

namespace Narrows

theorem refl (s : Chainstate) : Narrows s s :=
  ⟨rfl, fun _ => rfl, fun _ => rfl, fun _ => rfl, fun _ h => h, fun _ h => .inl h, id⟩

theorem trans {s s' s'' : Chainstate} (h : Narrows s s') (h' : Narrows s' s'') : Narrows s s'' where
  known := h'.known.trans h.known
  seq b := (h'.seq b).trans (h.seq b)
  count b := (h'.count b).trans (h.count b)
  haveData b := (h'.haveData b).trans (h.haveData b)
  candidates c hc := h.candidates c (h'.candidates c hc)
  unlinked e he := by
    rcases h'.unlinked e he with h1 | ⟨h1, h2, h3, c, hc, hec⟩
    · exact h.unlinked e h1
    · exact .inr ⟨h1, h2, (h.haveData e.2) ▸ h3, c, h.candidates c hc, hec⟩
  nodup hn := h'.nodup (h.nodup hn)

theorem workLess {s s' : Chainstate} (h : Narrows s s') (env : Env) (a b : BlockPtr) :
    s'.workLess env a b = s.workLess env a b := by
  unfold Chainstate.workLess
  rw [h.seq a, h.seq b]

theorem haveBranch {s s' : Chainstate} (h : Narrows s s') {b : BlockPtr} (hb : s.HaveBranch b) :
    s'.HaveBranch b :=
  fun x hx hs => (h.haveData x).trans (hb x hx hs)

end Narrows

variable {s s' s₀ : Chainstate} {b c t : BlockPtr} {env : Env}

theorem narrows_of_same (known : s'.known = s.known)
    (seq : ∀ b, (s'.data b).nSequenceId = (s.data b).nSequenceId)
    (count : ∀ b, (s'.data b).chainTxCount = (s.data b).chainTxCount)
    (haveData : ∀ b, (s'.data b).nStatus.haveData = (s.data b).nStatus.haveData)
    (candidates : ∀ c ∈ s'.setBlockIndexCandidates, c ∈ s.setBlockIndexCandidates)
    (unlinked : s'.blocksUnlinked = s.blocksUnlinked) : Narrows s s' :=
  ⟨known, seq, count, haveData, candidates, fun _ he => .inl (unlinked ▸ he),
    fun hn => unlinked ▸ hn⟩

section

variable (s : Chainstate) (b : BlockPtr)

theorem narrows_modifyStatus (f : BlockStatus → BlockStatus)
    (hf : ∀ st, (f st).haveData = st.haveData) : Narrows s (s.modifyStatus b f) := by
  refine narrows_of_same rfl (fun x => by simp) (fun x => by simp) (fun x => ?_) (fun _ h => h) rfl
  rw [modifyStatus_nStatus]
  split
  · exact hf _
  · rfl

theorem narrows_eraseCandidate : Narrows s (s.eraseCandidate b) :=
  narrows_of_same rfl (fun _ => rfl) (fun _ => rfl) (fun _ => rfl)
    (fun _ hc => ((s.mem_eraseCandidate b).1 hc).1) rfl

theorem narrows_setBlockFailureFlags : Narrows s (s.setBlockFailureFlags b) := by
  refine narrows_of_same rfl (fun x => ?_) (fun x => ?_) (fun x => ?_) (fun _ h => h) rfl
  all_goals
    simp only [setBlockFailureFlags]
    split <;> rfl

theorem narrows_insertFailed : Narrows s (s.insertFailed b) :=
  narrows_of_same rfl (fun _ => rfl) (fun _ => rfl) (fun _ => rfl) (fun _ h => h) rfl

end

theorem Narrows.addUnlinkedBlock (h : Narrows s₀ s)
    (hb : b ≠ []) (hd : (s₀.data b).nStatus.haveData)
    (hc : c ∈ s₀.setBlockIndexCandidates) (hbc : b <:+ c) : Narrows s₀ (s.addUnlinkedBlock b) where
  known := by simp [h.known]
  seq _ := by simp [h.seq]
  count _ := by simp [h.count]
  haveData _ := by simp [h.haveData]
  candidates c hc := h.candidates c (by simpa using hc)
  unlinked e he := by
    rcases (s.mem_addUnlinkedBlock b).1 he with he | rfl
    · exact h.unlinked e he
    · exact .inr ⟨rfl, hb, hd, c, hc, hbc⟩
  nodup hn := s.addUnlinkedBlock_nodup b (h.nodup hn)

theorem narrows_invalidChainFound (h : s.invalidChainFound b = some s') :
    Narrows s s' ∧ s'.tip = s.tip := by
  unfold invalidChainFound at h
  split at h
  · cases h
  · cases h
    exact ⟨narrows_setBlockFailureFlags s b, rfl⟩

theorem narrows_invalidBlockFound (h : s.invalidBlockFound b = some s') :
    Narrows s s' ∧ s'.tip = s.tip := by
  obtain ⟨hn, ht⟩ := narrows_invalidChainFound h
  have hm := narrows_modifyStatus s b (fun st => { st with failedValid := true }) fun _ => rfl
  exact ⟨((hm.trans (narrows_insertFailed _ b)).trans (narrows_eraseCandidate _ b)).trans hn, ht⟩

/-! ## The most-work candidate -/

/-- `x` is on the path from `b` down to the active chain. -/
def OnPath (s : Chainstate) (x b : BlockPtr) : Prop := x ≠ [] ∧ x <:+ b ∧ ¬ x <:+ s.tip

/-- Neither failed nor parked, and the body is on disk. -/
def usable (s : Chainstate) (b : BlockPtr) : Bool :=
  !((s.data b).nStatus.failedMask || (s.data b).nStatus.parkedMask ||
    !(s.data b).nStatus.haveData)

theorem usable_iff : s.usable b ↔
    (s.data b).nStatus.failedMask = false ∧ (s.data b).nStatus.parkedMask = false ∧
      (s.data b).nStatus.haveData := by
  rw [usable, Bool.not_eq_true', Bool.or_eq_false_iff, Bool.or_eq_false_iff, Bool.not_eq_false',
    and_assoc]

/-- What each outcome of the path check says about the path. -/
def PathCheck.Tells (s : Chainstate) (b : BlockPtr) : PathCheck → Prop
  | .usable => ∀ x, s.OnPath x b → s.usable x
  | .unusable t => s.OnPath t b ∧ s.usable t = false ∧
      ∀ x ≠ t, t <:+ x → x <:+ b → s.usable x
  | .assertFailed => ∃ x, s.OnPath x b ∧ (s.data x).haveNumChainTxs = false ∧ nHeight x ≠ 0

theorem checkPath_tells (s : Chainstate) (b : BlockPtr) : (s.checkPath b).Tells s b := by
  induction b with
  | nil => exact fun x hx => absurd (suffix_nil.1 hx.2.1) hx.1
  | cons y b ih =>
    have hs := suffix_cons y b
    unfold checkPath
    split
    · next hc =>
      -- the rest of the branch is active
      exact fun x hx => absurd (hx.2.1.trans (chainContains_iff.1 hc).2) hx.2.2
    next hc =>
    have hoff : s.OnPath (y :: b) (y :: b) :=
      ⟨by simp, suffix_refl _, fun h => hc (chainContains_iff.2 ⟨by simp, h⟩)⟩
    split
    · next ha => exact ⟨_, hoff, by simpa using ha⟩
    split
    · next hu =>
      exact ⟨hoff, by rw [usable, hu]; rfl,
        fun x hx h1 h2 => absurd (Branch.suffix_antisymm h2 h1) hx⟩
    next hok =>
    have hy : s.usable (y :: b) := by simpa [usable] using hok
    cases hp : s.checkPath b with
    | usable =>
      rw [hp] at ih
      intro x hx
      rcases suffix_cons_iff.1 hx.2.1 with rfl | hxb
      · exact hy
      · exact ih x ⟨hx.1, hxb, hx.2.2⟩
    | unusable t =>
      rw [hp] at ih
      obtain ⟨h1, h2, h3⟩ := ih
      refine ⟨⟨h1.1, h1.2.1.trans hs, h1.2.2⟩, h2, fun x hx htx hxb => ?_⟩
      rcases suffix_cons_iff.1 hxb with rfl | hxb
      · exact hy
      · exact h3 x hx htx hxb
    | assertFailed =>
      rw [hp] at ih
      obtain ⟨x, h1, h2⟩ := ih
      exact ⟨x, ⟨h1.1, h1.2.1.trans hs, h1.2.2⟩, h2⟩

theorem checkPath_usable (h : s.checkPath b = .usable) (ht : s.HaveBranch s.tip) :
    s.HaveBranch b := by
  have hb := s.checkPath_tells b
  rw [h] at hb
  intro x hx hxb
  by_cases hxt : x <:+ s.tip
  · exact ht x hx hxt
  · exact (usable_iff.1 (hb x ⟨hx, hxb, hxt⟩)).2.2

theorem checkPath_unusable (h : s.checkPath b = .unusable t) :
    t ≠ [] ∧ t <:+ b ∧ ∀ x ≠ t, t <:+ x → x <:+ b → (s.data x).nStatus.haveData := by
  have hb := s.checkPath_tells b
  rw [h] at hb
  exact ⟨hb.1.1, hb.1.2.1, fun x hx h1 h2 => (usable_iff.1 (hb.2.2 x hx h1 h2)).2.2⟩

variable (test : BlockStatus)

theorem markUnusable_tip (s : Chainstate) (b : BlockPtr) : (markUnusable test s b).tip = s.tip := by
  unfold markUnusable
  split
  · rfl
  split
  · rfl
  · exact s.addUnlinkedBlock_tip b

theorem Narrows.markUnusable (h : Narrows s₀ s) (test : BlockStatus) (hb : b ≠ [])
    (hd : (s₀.data b).nStatus.haveData)
    (hc : c ∈ s₀.setBlockIndexCandidates) (hbc : b <:+ c) :
    Narrows s₀ (Chainstate.markUnusable test s b) := by
  unfold Chainstate.markUnusable
  split
  · exact h.trans (narrows_modifyStatus _ _ _ fun _ => rfl)
  split
  · exact h.trans (narrows_modifyStatus _ _ _ fun _ => rfl)
  · exact h.addUnlinkedBlock hb hd hc hbc

theorem removeChain_narrows (hc : c ∈ s₀.setBlockIndexCandidates)
    (hd : ∀ x ≠ t, t <:+ x → x <:+ c → (s₀.data x).nStatus.haveData) (b : BlockPtr)
    (hbc : b <:+ c) (htb : t <:+ b) (h : Narrows s₀ s) :
    Narrows s₀ (removeChain t test b s) ∧ (removeChain t test b s).tip = s.tip := by
  induction b generalizing s with
  | nil => exact ⟨h.trans (narrows_eraseCandidate _ _), rfl⟩
  | cons x b ih =>
    unfold removeChain
    split
    · exact ⟨h.trans (narrows_eraseCandidate _ _), rfl⟩
    next hne =>
    have hx := hd (x :: b) hne htb hbc
    have hm := (h.markUnusable test (by simp) hx hc hbc).trans (narrows_eraseCandidate _ (x :: b))
    obtain ⟨h1, h2⟩ := ih ((suffix_cons x b).trans hbc)
      ((suffix_cons_iff.1 htb).resolve_left fun e => hne e.symm) hm
    exact ⟨h1, h2.trans (markUnusable_tip _ _ _)⟩

theorem eraseCandidate_sublist (s : Chainstate) (b : BlockPtr) :
    (s.eraseCandidate b).setBlockIndexCandidates.Sublist s.setBlockIndexCandidates :=
  filter_sublist

theorem markUnusable_candidates (s : Chainstate) (b : BlockPtr) :
    (markUnusable test s b).setBlockIndexCandidates = s.setBlockIndexCandidates := by
  unfold markUnusable
  split
  · rfl
  split
  · rfl
  · exact s.addUnlinkedBlock_candidates b

theorem removeChain_sublist (t : BlockPtr) (test : BlockStatus) (b : BlockPtr) (s : Chainstate) :
    (removeChain t test b s).setBlockIndexCandidates.Sublist s.setBlockIndexCandidates := by
  induction b generalizing s with
  | nil => exact s.eraseCandidate_sublist t
  | cons x b ih =>
    unfold removeChain
    split
    · exact s.eraseCandidate_sublist t
    refine (ih _).trans ?_
    have := (markUnusable test s (x :: b)).eraseCandidate_sublist (x :: b)
    rwa [markUnusable_candidates] at this

theorem removeChain_length_lt (hc : c ∈ s.setBlockIndexCandidates)
    (ht : t ≠ []) (htc : t <:+ c) :
    (removeChain t test c s).setBlockIndexCandidates.length < s.setBlockIndexCandidates.length := by
  have hs := removeChain_sublist t test c s
  refine lt_of_le_of_ne hs.length_le fun he => ?_
  have hnot : c ∉ (removeChain t test c s).setBlockIndexCandidates := by
    cases c with
    | nil => exact absurd (suffix_nil.1 htc) ht
    | cons x b =>
      unfold removeChain
      split
      · next he => subst he; simp
      · exact fun hm => absurd ((removeChain_sublist _ _ _ _).subset hm) (by simp)
  rw [hs.eq_of_length he] at hnot
  exact hnot hc

theorem tryAddBlockIndexCandidate_induct {P : Chainstate → Prop} (hs : P s)
    (hpark : s.parkedAbove b.tail → P (s.modifyStatus b fun st => { st with parkedChild := true }))
    (herase : ∀ s₁, P s₁ → P (s₁.eraseCandidate b))
    (hinsert : ∀ s₁, P s₁ → P (s₁.insertCandidate b)) :
    P (s.tryAddBlockIndexCandidate env b) := by
  have hfirst : P (if s.parkedAbove b.tail then
      s.modifyStatus b fun st => { st with parkedChild := true } else s) := by
    split
    next hp => exact hpark hp
    next => exact hs
  unfold tryAddBlockIndexCandidate
  generalize (if s.parkedAbove b.tail then _ else s) = s₁ at hfirst
  dsimp only
  split
  · exact herase _ hfirst
  split
  · exact hfirst
  · exact hinsert _ hfirst

/-- What `FindMostWorkChain` returns: the null pointer for an empty set, or the greatest
candidate, with a usable path. -/
def IsMostWork (env : Env) (s : Chainstate) (m : BlockPtr) : Prop :=
  m = [] ∧ s.setBlockIndexCandidates = [] ∨
  m ∈ s.setBlockIndexCandidates ∧ s.checkPath m = .usable ∧
    ∀ c ∈ s.setBlockIndexCandidates, s.workLess env m c = false

/-- What holds after each round that removes a chain holds at the end. -/
theorem findMostWorkLoop_induct {P : Chainstate → Prop} {fuel : Nat} {m : BlockPtr}
    (hround : ∀ {s c t}, P s → c ∈ s.setBlockIndexCandidates → s.checkPath c = .unusable t →
      P (removeChain t (s.data t).nStatus c s))
    (hs : P s) (h : findMostWorkLoop env fuel s = some (s', m)) : P s' ∧ IsMostWork env s' m := by
  induction fuel generalizing s with
  | zero => cases h
  | succ fuel ih =>
    unfold findMostWorkLoop at h
    split at h
    · next hl =>
      cases h
      exact ⟨hs, .inl ⟨rfl, LastBy.lastBy_eq_none hl⟩⟩
    next c hl =>
    split at h
    · cases h
    · next hp =>
      cases h
      exact ⟨hs, .inr ⟨LastBy.lastBy_mem hl, hp, LastBy.lastBy_max hl⟩⟩
    · next t hp => exact ih (hround hs (LastBy.lastBy_mem hl) hp) h

theorem removeChain_round (hc : c ∈ s.setBlockIndexCandidates) (hp : s.checkPath c = .unusable t) :
    Narrows s (removeChain t (s.data t).nStatus c s) ∧
      (removeChain t (s.data t).nStatus c s).tip = s.tip := by
  obtain ⟨-, htc, hd⟩ := checkPath_unusable hp
  exact removeChain_narrows _ hc hd c (suffix_refl c) htc (.refl s)

theorem findMostWorkChain_spec {m : BlockPtr} (h : s.findMostWorkChain env = some (s', m)) :
    Narrows s s' ∧ s'.tip = s.tip ∧ IsMostWork env s' m := by
  have := findMostWorkLoop_induct (P := fun s₁ => Narrows s s₁ ∧ s₁.tip = s.tip) ?_ ⟨.refl s, rfl⟩ h
  · exact ⟨this.1.1, this.1.2, this.2⟩
  · intro s₁ c t ⟨hn, ht⟩ hc hp
    obtain ⟨hn', ht'⟩ := removeChain_round hc hp
    exact ⟨hn.trans hn', ht'.trans ht⟩

theorem pruneBlockIndexCandidates_eq (h : s.pruneBlockIndexCandidates env = some s') :
    s' = { s with setBlockIndexCandidates :=
      s.setBlockIndexCandidates.filter fun c => !s.workLess env c s.tip } := by
  unfold pruneBlockIndexCandidates at h
  simp only at h
  split at h
  · cases h
  · cases h
    rfl

theorem pruneBlockIndexCandidates_spec (h : s.pruneBlockIndexCandidates env = some s') :
    Narrows s s' ∧ s'.tip = s.tip ∧
      ∀ c ∈ s'.setBlockIndexCandidates, s'.workLess env c s'.tip = false := by
  cases pruneBlockIndexCandidates_eq h
  have hn : Narrows s { s with setBlockIndexCandidates :=
      s.setBlockIndexCandidates.filter fun c => !s.workLess env c s.tip } :=
    narrows_of_same rfl (fun _ => rfl) (fun _ => rfl) (fun _ => rfl)
      (fun c hc => (mem_filter.1 hc).1) rfl
  refine ⟨hn, rfl, fun c hc => ?_⟩
  rw [hn.workLess]
  simpa using (mem_filter.1 hc).2

end Chainstate

end BitcoinPurity
