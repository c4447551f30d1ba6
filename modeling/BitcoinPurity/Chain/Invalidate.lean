import BitcoinPurity.Chain.Interleaving

/-!
The operator's calls on the block tree: `InvalidateBlock`, `ResetBlockFailureFlags`
(`reconsiderblock`), `ParkBlock` and `UnparkBlock`.

A call is one step.  `InvalidateBlock` polls `m_interrupt` once per round of its loop; `rounds`
is the number of polls that answer no.  Where the source walks the hash map of entries, or the
multimap built from it, the walk here is in the order of `known`.  `m_best_invalid`,
`m_best_header`, the mempool and the notifications are left out, as before.

Each call keeps the invariant `Wf` of chain selection.
-/

namespace BitcoinPurity

open List

namespace Chainstate

/-! ## Algorithm -/

/-- Offer the blocks of a list to the candidate set, those that pass `p` at their turn. -/
def offerAll (env : Env) (p : Chainstate → BlockPtr → Bool) (l : List BlockPtr) (s : Chainstate) :
    Chainstate :=
  l.foldl (fun s b => if p s b then s.tryAddBlockIndexCandidate env b else s) s

/-- `IsValid(BLOCK_VALID_TRANSACTIONS) && HaveNumChainTxs()`. -/
def hasValidTransactions (s : Chainstate) (b : BlockPtr) : Bool :=
  (s.data b).nStatus.isValid .transactions && (s.data b).haveNumChainTxs

/-- The local variables of `InvalidateBlock` between two rounds of its loop. -/
structure Invalidation where
  chain : Chainstate
  toMarkFailed : BlockPtr
  pindexWasInChain : Bool
  candidateBlocksByWork : List BlockPtr

/-- The blocks off the active chain that may become candidates while it is disconnected. -/
def candidateBlocksByWork (env : Env) (s : Chainstate) (pindex : BlockPtr) : List BlockPtr :=
  s.known.filter fun c =>
    !s.contains c && !s.workLess env c pindex.tail && s.hasValidTransactions c

/-- The flags and candidates after the old tip `invalidWalkTip` was disconnected: it is the new
failure root, and the block disconnected before it becomes its child. -/
def markDisconnected (s : Chainstate) (invalidWalkTip toMarkFailed : BlockPtr) : Chainstate :=
  let s := s.modifyStatus invalidWalkTip fun st => { st with failedValid := true }
  let s := (s.eraseCandidate invalidWalkTip).insertCandidate invalidWalkTip.tail
  if invalidWalkTip = toMarkFailed.tail ∧ (s.data toMarkFailed).nStatus.failedValid then
    s.modifyStatus toMarkFailed fun st => { st with failedValid := false, failedChild := true }
  else s

/-- One round of the loop, `s` being the state `DisconnectTip` left. -/
def Invalidation.round (env : Env) (l : Invalidation) (s : Chainstate) : Invalidation :=
  let invalidWalkTip := l.chain.tip
  let s := s.markDisconnected invalidWalkTip l.toMarkFailed
  let ready := l.candidateBlocksByWork.filter fun c => !s.workLess env c invalidWalkTip.tail
  { chain := s.offerAll env (fun _ _ => true) ready
    toMarkFailed := invalidWalkTip
    pindexWasInChain := true
    candidateBlocksByWork :=
      l.candidateBlocksByWork.filter fun c => s.workLess env c invalidWalkTip.tail }

/-- The loop of `InvalidateBlock`; the flag is false if `DisconnectTip` failed.  Its asserts
hold: the tip is as high as `pindex`, which is not genesis. -/
def Invalidation.loop (env : Env) (pindex : BlockPtr) : Nat → Invalidation → Invalidation × Bool
  | 0, l => (l, true)
  | n + 1, l =>
    if !l.chain.contains pindex then (l, true)
    else
      match l.chain.disconnectTip env with
      | none => ({ l with chain := { l.chain with calls := l.chain.calls + 1 } }, false)
      | some s => Invalidation.loop env pindex n (l.round env s)

def markInactive (s : Chainstate) (pindex : BlockPtr) : Chainstate :=
  ((s.modifyStatus pindex fun st => { st with failedValid := true }).eraseCandidate pindex)
    |>.insertFailed pindex

/-- Mark `pindex` as invalid if it never was in the main chain. -/
def Invalidation.mark (pindex : BlockPtr) (l : Invalidation) : Chainstate :=
  if !l.pindexWasInChain && !(l.chain.data pindex).nStatus.failedMask then
    l.chain.markInactive pindex
  else l.chain

def Invalidation.finish (env : Env) (pindex : BlockPtr) (l : Invalidation) :
    Option (Chainstate × Bool) :=
  if l.chain.contains l.toMarkFailed then some (l.chain, false)
  else
    let s := l.mark pindex
    let s := s.offerAll env (fun s b => s.hasValidTransactions b && !s.workLess env b s.tip) s.known
    (s.invalidChainFound l.toMarkFailed).map fun s => (s, true)

/-- `Chainstate::InvalidateBlock`; the flag is its return value. -/
def invalidateBlock (env : Env) (rounds : Nat) (s : Chainstate) (pindex : BlockPtr) :
    Option (Chainstate × Bool) :=
  if nHeight pindex = 0 then some (s, false)
  else
    match Invalidation.loop env pindex rounds
        ⟨s, pindex, false, s.candidateBlocksByWork env pindex⟩ with
    | (l, false) => some (l.chain, false)
    | (l, true) => l.finish env pindex

/-- Is `b` above, below or equal to `pindex`? -/
def onBranch (pindex b : BlockPtr) : Bool :=
  decide (getAncestor b (nHeight pindex) = pindex) || decide (getAncestor pindex (nHeight b) = b)

def eraseFailed (s : Chainstate) (b : BlockPtr) : Chainstate :=
  { s with failedBlocks := s.failedBlocks.filter fun x => x ≠ b }

/-- The flags of a block on the branch are cleared, and it may become a candidate again. -/
def reconsider (env : Env) (s : Chainstate) (b : BlockPtr) : Chainstate :=
  let s := s.modifyStatus b fun st => { st with failedValid := false, failedChild := false }
  let s := if s.hasValidTransactions b && s.workLess env s.tip b then
      s.tryAddBlockIndexCandidate env b
    else s
  s.eraseFailed b

/-- One entry of the loop of `ResetBlockFailureFlags`.  On signet `recheck` says whether the
entry passes its checks again. -/
def resetEntry (env : Env) (recheck : Option (BlockPtr → Bool)) (pindex : BlockPtr)
    (s : Chainstate) (b : BlockPtr) : Chainstate :=
  let st := (s.data b).nStatus
  if st.failedMask && onBranch pindex b then
    if recheck.any fun ok => !ok b then s else s.reconsider env b
  else if (st.failedChild && !st.failedValid) &&
      decide (getAncestor pindex (nHeight b - 1) = b.tail) then
    -- a sibling branch stays invalid: it gets a failure root of its own
    (s.modifyStatus b fun st => { st with failedValid := true, failedChild := false }).insertFailed b
  else s

/-- Signet: a reconsidered block above a retained failure stays invalid. -/
def retainFailure (s : Chainstate) (b : BlockPtr) : Chainstate :=
  if b.tail ≠ [] && (s.data b.tail).nStatus.failedMask then
    (s.modifyStatus b fun st => { st with failedChild := true }).eraseCandidate b
  else s

/-- The entries whose flags are cleared on signet, lowest first (`reconsidered_signet`). -/
def reconsideredSignet (s : Chainstate) (ok : BlockPtr → Bool) (pindex : BlockPtr) :
    List BlockPtr :=
  (s.known.filter fun b => (s.data b).nStatus.failedMask && onBranch pindex b && ok b).insertionSort
    fun a b => nHeight a ≤ nHeight b

def resetBlockFailureFlags (env : Env) (recheck : Option (BlockPtr → Bool)) (s : Chainstate)
    (pindex : BlockPtr) : Chainstate :=
  let s' := s.known.foldl (resetEntry env recheck pindex) s
  match recheck with
  | none => s'
  | some ok => (s.reconsideredSignet ok pindex).foldl retainFailure s'

/-- `Chainstate::ParkBlock`; the flag is its return value. -/
def parkBlock (s : Chainstate) (pindex : BlockPtr) : Chainstate × Bool :=
  if s.contains pindex then (s, false)
  else ((s.modifyStatus pindex fun st => { st with parked := true }).eraseCandidate pindex, true)

def clearParked (l : List BlockPtr) (s : Chainstate) : Chainstate :=
  { s with data := fun x => if x ∈ l then
      { s.data x with nStatus :=
        { (s.data x).nStatus with parked := false, parkedChild := false } }
    else s.data x }

def parkedDescendants (s : Chainstate) (pindex : BlockPtr) : List BlockPtr :=
  s.known.filter fun b =>
    decide (getAncestor b (nHeight pindex) = pindex) && (s.data b).nStatus.parkedMask

def parkedAncestors (s : Chainstate) : BlockPtr → List BlockPtr
  | [] => []
  | x :: b =>
    if (s.data (x :: b)).nStatus.parkedMask then (x :: b) :: parkedAncestors s b
    else parkedAncestors s b

def unparkBlock (env : Env) (s : Chainstate) (pindex : BlockPtr) : Chainstate :=
  let below := s.parkedDescendants pindex
  let s := s.clearParked below
  let above := s.parkedAncestors pindex
  let s := s.clearParked above
  s.offerAll env (fun s b => (s.data b).haveNumChainTxs) (below ++ above)

/-- The state in the middle of `UnparkBlock(x)`, with the flags cleared. -/
def cleared (s : Chainstate) (x : BlockPtr) : Chainstate :=
  (s.clearParked (s.parkedDescendants x)).clearParked
    ((s.clearParked (s.parkedDescendants x)).parkedAncestors x)

theorem onBranch_iff {p b : BlockPtr} (hp : p ≠ []) (hb : b ≠ []) :
    onBranch p b ↔ b <:+ p ∨ p <:+ b := by
  unfold onBranch
  rw [Bool.or_eq_true, decide_eq_true_eq, decide_eq_true_eq, or_comm]
  refine or_congr ⟨fun h => h ▸ getAncestor_suffix _ _, fun h => getAncestor_of_suffix h hb⟩
    ⟨fun h => h ▸ getAncestor_suffix _ _, fun h => getAncestor_of_suffix h hp⟩

/-! ## Entries and bodies stay -/

/-- The entries, their order and their bodies are the same. -/
structure SameBodies (s s' : Chainstate) : Prop where
  known : s'.known = s.known
  unlinked : s'.blocksUnlinked = s.blocksUnlinked
  seq : ∀ b, (s'.data b).nSequenceId = (s.data b).nSequenceId
  count : ∀ b, (s'.data b).chainTxCount = (s.data b).chainTxCount
  haveData : ∀ b, (s'.data b).nStatus.haveData = (s.data b).nStatus.haveData

namespace SameBodies

theorem refl (s : Chainstate) : SameBodies s s :=
  ⟨rfl, rfl, fun _ => rfl, fun _ => rfl, fun _ => rfl⟩

theorem trans {s s' s'' : Chainstate} (h : SameBodies s s') (h' : SameBodies s' s'') :
    SameBodies s s'' :=
  ⟨h'.known.trans h.known, h'.unlinked.trans h.unlinked, fun b => (h'.seq b).trans (h.seq b),
    fun b => (h'.count b).trans (h.count b), fun b => (h'.haveData b).trans (h.haveData b)⟩

theorem of_sameIndex {s s' : Chainstate} (h : SameIndex s s') : SameBodies s s' :=
  { h with }

theorem setBlockFailureFlags (s : Chainstate) (b : BlockPtr) :
    SameBodies s (s.setBlockFailureFlags b) := by
  have h := narrows_setBlockFailureFlags s b
  exact { h with unlinked := rfl }

theorem clearParked (l : List BlockPtr) (s : Chainstate) : SameBodies s (s.clearParked l) := by
  refine ⟨rfl, rfl, ?_, ?_, ?_⟩
  all_goals
    intro x
    simp only [Chainstate.clearParked]
    split <;> rfl

variable {env : Env} {s s' : Chainstate}

theorem workLess (h : SameBodies s s') (env : Env) (a b : BlockPtr) :
    s'.workLess env a b = s.workLess env a b := by
  unfold Chainstate.workLess
  rw [h.seq a, h.seq b]

theorem haveNumChainTxs (h : SameBodies s s') (b : BlockPtr) :
    (s'.data b).haveNumChainTxs = (s.data b).haveNumChainTxs := by
  unfold BlockData.haveNumChainTxs
  rw [h.count b]

theorem haveBranch (h : SameBodies s s') {b : BlockPtr} (hb : s.HaveBranch b) : s'.HaveBranch b :=
  fun x hx hs => (h.haveData x).trans (hb x hx hs)

end SameBodies

/-- A block that may become a candidate at the tip `t`. -/
structure Eligible (env : Env) (s : Chainstate) (t c : BlockPtr) : Prop where
  rooted : Rooted env c
  data : s.HaveBranch c
  above : s.workLess env c t = false

section

variable {env : Env} {s s' : Chainstate}

theorem Wf.eligible (h : Wf env s) {c : BlockPtr} (hc : c ∈ s.setBlockIndexCandidates) :
    Eligible env s s.tip c :=
  ⟨h.cand_rooted c hc, h.cand_data c hc, h.cand_above c hc⟩

theorem Wf.move (h : Wf env s) (hs : SameBodies s s') (ht : Rooted env s'.tip)
    (hd : s.HaveBranch s'.tip)
    (hc : ∀ c ∈ s'.setBlockIndexCandidates, Eligible env s s'.tip c) : Wf env s' where
  tip_rooted := ht
  known_rooted := hs.known ▸ h.known_rooted
  data_known b hb := by
    rw [hs.known]
    exact h.data_known b ((hs.haveData b).symm.trans hb)
  cand_rooted c hcc := (hc c hcc).rooted
  unlinked e he := by
    rw [hs.haveData]
    exact h.unlinked e (hs.unlinked ▸ he)
  unlinked_nodup := hs.unlinked ▸ h.unlinked_nodup
  linked b hb := hs.haveBranch (h.linked b ((hs.haveNumChainTxs b).symm.trans hb))
  tip_data := hs.haveBranch hd
  cand_data c hcc := hs.haveBranch (hc c hcc).data
  cand_above c hcc := (hs.workLess env c s'.tip).trans (hc c hcc).above

theorem Wf.eligible_of_linked (h : Wf env s) {c t : BlockPtr} (hc : c ≠ [])
    (hl : (s.data c).haveNumChainTxs) (ha : s.workLess env c t = false) : Eligible env s t c :=
  ⟨h.known_rooted c (h.data_known c ((h.linked c hl).self hc)), h.linked c hl, ha⟩

end

/-! ## Offering blocks -/

variable {s : Chainstate}

theorem parkedAbove_true {b : BlockPtr} (h : s.parkedAbove b) :
    ∃ a, a <:+ b ∧ a ≠ [] ∧ (s.data a).nStatus.parkedMask := by
  induction b with
  | nil => cases h
  | cons x b ih =>
    unfold parkedAbove at h
    grind

theorem offerAll_induction {env : Env} {p : Chainstate → BlockPtr → Bool} {l : List BlockPtr}
    {I : Chainstate → Prop} (h : I s)
    (hstep : ∀ s b, b ∈ l → p s b → I s → I (s.tryAddBlockIndexCandidate env b)) :
    I (s.offerAll env p l) := by
  induction l generalizing s with
  | nil => exact h
  | cons b l ih =>
    unfold offerAll
    rw [foldl_cons]
    refine ih ?_ fun s c hc => hstep s c (mem_cons_of_mem b hc)
    grind

/-- A pass changes nothing but parked flags and candidates; a new candidate is a block of the
list that passed `p`. -/
theorem offerAll_spec (env : Env) (p : Chainstate → BlockPtr → Bool) (l : List BlockPtr)
    (ht : s.tip ≠ []) :
    SameIndex s (s.offerAll env p l) ∧
      ∀ c ∈ (s.offerAll env p l).setBlockIndexCandidates, c ∈ s.setBlockIndexCandidates ∨
        c ∈ l ∧ s.workLess env c s.tip = false ∧ ∃ s1, SameIndex s s1 ∧ p s1 c := by
  refine offerAll_induction (I := fun s' => SameIndex s s' ∧
    ∀ c ∈ s'.setBlockIndexCandidates, c ∈ s.setBlockIndexCandidates ∨
      c ∈ l ∧ s.workLess env c s.tip = false ∧ ∃ s1, SameIndex s s1 ∧ p s1 c)
    ⟨.refl s, fun c hc => .inl hc⟩ ?_
  rintro s' b hb hp ⟨hs, hc⟩
  obtain ⟨hs', hc'⟩ := tryAddBlockIndexCandidate_spec env b (hs.tip ▸ ht)
  refine ⟨hs.trans hs', fun c hcc => ?_⟩
  rcases hc' c hcc with h | ⟨rfl, -, hw⟩
  · exact hc c h
  · rw [hs.workLess, hs.tip] at hw
    exact .inr ⟨hb, hw, s', hs, hp⟩

theorem SameIndex.modify_failure (s : Chainstate) (b : BlockPtr) (v c : BlockStatus → Bool) :
    SameIndex s (s.modifyStatus b fun st => { st with failedValid := v st, failedChild := c st }) :=
  SameIndex.modifyStatus s b _ (fun _ => rfl) fun _ h => h

/-! ## The calls keep the invariant -/

section

variable {env : Env} {s s' : Chainstate}

theorem Wf.stay (h : Wf env s) (hs : SameBodies s s') (ht : s'.tip = s.tip)
    (hc : ∀ c ∈ s'.setBlockIndexCandidates, c ∈ s.setBlockIndexCandidates ∨
      Eligible env s s.tip c) : Wf env s' := by
  refine h.move hs (ht ▸ h.tip_rooted) (ht ▸ h.tip_data) fun c hcc => ?_
  rw [ht]
  exact (hc c hcc).elim (fun hc => h.eligible hc) id

theorem Wf.offerAll (h : Wf env s) {p : Chainstate → BlockPtr → Bool} {l : List BlockPtr}
    (hl : ∀ c ∈ l, ∀ s1, SameIndex s s1 → p s1 c →
      c ≠ [] ∧ (s.data c).haveNumChainTxs) : Wf env (s.offerAll env p l) := by
  obtain ⟨hs, hc⟩ := offerAll_spec env p l h.tip_rooted.ne_nil
  refine h.stay (.of_sameIndex hs) hs.tip fun c hcc => (hc c hcc).imp_right ?_
  rintro ⟨hcl, hw, s1, hs1, hp⟩
  obtain ⟨hne, hn⟩ := hl c hcl s1 hs1 hp
  exact h.eligible_of_linked hne hn hw

variable {b pindex : BlockPtr} {l : Invalidation} {ok : Bool}

theorem hasValidTransactions_linked (h : s.hasValidTransactions b) : (s.data b).haveNumChainTxs :=
  (Bool.and_eq_true_iff.1 h).2

theorem Wf.offerValid (h : Wf env s) : Wf env (s.offerAll env
    (fun s b => s.hasValidTransactions b && !s.workLess env b s.tip) s.known) := by
  refine h.offerAll fun c hc s1 hs1 hp => ⟨(h.known_rooted c hc).ne_nil, ?_⟩
  rw [← (SameBodies.of_sameIndex hs1).haveNumChainTxs]
  exact hasValidTransactions_linked (Bool.and_eq_true_iff.1 hp).1

theorem disconnectTip_bodies (h : s.disconnectTip env = some s') :
    SameBodies s s' ∧ s'.tip = s.tip.tail ∧ s'.tip ≠ [] ∧
      s'.setBlockIndexCandidates = s.setBlockIndexCandidates ∧ s'.data = s.data ∧
      s'.failedBlocks = s.failedBlocks := by
  obtain ⟨-, ht, hne, -⟩ := disconnectTip_spec h
  unfold disconnectTip at h
  split at h
  · split at h
    · cases h
      exact ⟨⟨rfl, rfl, fun _ => rfl, fun _ => rfl, fun _ => rfl⟩, ht, hne, rfl, rfl, rfl⟩
    · cases h
  · cases h

theorem markDisconnected_spec (s : Chainstate) (w t : BlockPtr) :
    SameBodies s (s.markDisconnected w t) ∧ (s.markDisconnected w t).tip = s.tip ∧
      ∀ c ∈ (s.markDisconnected w t).setBlockIndexCandidates,
        c = w.tail ∨ c ∈ s.setBlockIndexCandidates := by
  have h1 : SameIndex s (((s.modifyStatus w fun st =>
      { st with failedValid := true }).eraseCandidate w).insertCandidate w.tail) :=
    ((SameIndex.modify_failure s w (fun _ => true) (·.failedChild)).trans (.eraseCandidate _ w)).trans
      (.insertCandidate _ _)
  have hc : ∀ c ∈ (((s.modifyStatus w fun st =>
      { st with failedValid := true }).eraseCandidate w).insertCandidate
        w.tail).setBlockIndexCandidates, c = w.tail ∨ c ∈ s.setBlockIndexCandidates := by
    intro c hcc
    rw [mem_insertCandidate, mem_eraseCandidate] at hcc
    exact hcc.imp_right fun h => h.1
  unfold markDisconnected
  simp only
  split
  · have h2 := h1.trans (SameIndex.modify_failure _ t (fun _ => false) (fun _ => true))
    exact ⟨.of_sameIndex h2, h2.tip, hc⟩
  · exact ⟨.of_sameIndex h1, h1.tip, hc⟩

/-- The blocks that wait in `candidate_blocks_by_work` are linked. -/
def Invalidation.Linked (l : Invalidation) : Prop :=
  ∀ c ∈ l.candidateBlocksByWork, c ≠ [] ∧ (l.chain.data c).haveNumChainTxs

theorem Wf.candidateBlocksByWork_linked (h : Wf env s) (pindex : BlockPtr) :
    Invalidation.Linked ⟨s, pindex, false, s.candidateBlocksByWork env pindex⟩ := by
  intro c hc
  obtain ⟨hk, hp⟩ := mem_filter.1 hc
  exact ⟨(h.known_rooted c hk).ne_nil, hasValidTransactions_linked (Bool.and_eq_true_iff.1 hp).2⟩

theorem Wf.round (h : Wf env l.chain) (hl : l.Linked) (hd : l.chain.disconnectTip env = some s) :
    Wf env (l.round env s).chain ∧ (l.round env s).Linked ∧
      (l.round env s).chain.tip = l.chain.tip.tail ∧ SameBodies l.chain (l.round env s).chain := by
  obtain ⟨hb, ht, hne, hc, -, -⟩ := disconnectTip_bodies hd
  obtain ⟨hb', ht', hc'⟩ := markDisconnected_spec s l.chain.tip l.toMarkFailed
  let s1 := s.markDisconnected l.chain.tip l.toMarkFailed
  have hbb : SameBodies _ s1 := hb.trans hb'
  have htail : l.chain.tip.tail <:+ l.chain.tip := tail_suffix _
  have hr : Rooted env l.chain.tip.tail := h.tip_rooted.suffix htail (ht ▸ hne)
  have htt : s1.tip = l.chain.tip.tail := ht'.trans ht
  have hw : Wf env s1 := by
    refine h.move hbb (htt ▸ hr) ?_ fun c hcc => ?_
    · rw [htt]
      exact fun x hx hxt => h.tip_data x hx (hxt.trans htail)
    · rw [htt]
      rcases hc' c hcc with rfl | hcc
      · refine ⟨hr, fun x hx hxt => h.tip_data x hx (hxt.trans htail), ?_⟩
        have := irrefl_of (fun a b => l.chain.workLess env a b) l.chain.tip.tail
        simpa using this
      have he := h.eligible (hc ▸ hcc)
      -- the new tip has less work than the old one
      exact ⟨he.rooted, he.data, workLess_of_ancestor h.tip_rooted htail hr.ne_nil he.above⟩
  have hlink : ∀ c ∈ l.candidateBlocksByWork, c ≠ [] ∧ (s1.data c).haveNumChainTxs := by
    intro c hcc
    rw [hbb.haveNumChainTxs]
    exact hl c hcc
  obtain ⟨hs, -⟩ := offerAll_spec env (fun _ _ => true) (l.candidateBlocksByWork.filter fun c =>
      !s1.workLess env c l.chain.tip.tail)
    hw.tip_rooted.ne_nil
  refine ⟨hw.offerAll fun c hcc _ _ _ => hlink c (mem_filter.1 hcc).1, ?_,
    hs.tip.trans htt, hbb.trans (.of_sameIndex hs)⟩
  intro c hcc
  obtain ⟨h1, h2⟩ := hlink c (mem_filter.1 hcc).1
  exact ⟨h1, ((SameBodies.of_sameIndex hs).haveNumChainTxs c).trans h2⟩

theorem Wf.loop {n : Nat} {l' : Invalidation} (h : Wf env l.chain) (hl : l.Linked)
    (hr : Invalidation.loop env pindex n l = (l', ok)) :
    Wf env l'.chain ∧ l'.chain.tip <:+ l.chain.tip ∧ SameBodies l.chain l'.chain := by
  induction n generalizing l with
  | zero =>
    cases hr
    exact ⟨h, suffix_refl _, .refl _⟩
  | succ n ih =>
    unfold Invalidation.loop at hr
    split at hr
    · cases hr
      exact ⟨h, suffix_refl _, .refl _⟩
    split at hr
    · cases hr
      have hb : SameBodies l.chain { l.chain with calls := l.chain.calls + 1 } :=
        ⟨rfl, rfl, fun _ => rfl, fun _ => rfl, fun _ => rfl⟩
      exact ⟨h.stay hb rfl fun c hc => .inl hc, suffix_refl _, hb⟩
    next s hd =>
    obtain ⟨h1, h2, h3, h4⟩ := h.round hl hd
    obtain ⟨h5, h6, h7⟩ := ih h1 h2 hr
    exact ⟨h5, (h3 ▸ h6).trans (tail_suffix _), h4.trans h7⟩

theorem markInactive_sameIndex (s : Chainstate) (b : BlockPtr) : SameIndex s (s.markInactive b) :=
  ((SameIndex.modify_failure s b (fun _ => true) (·.failedChild)).trans (.eraseCandidate _ b)).trans
    ⟨rfl, rfl, rfl, fun _ => rfl, fun _ => rfl, fun _ => rfl, fun _ h => h⟩

theorem Wf.markInactive (h : Wf env s) (b : BlockPtr) : Wf env (s.markInactive b) :=
  h.of_sameIndex (s.markInactive_sameIndex b) fun _ hc =>
    ((mem_eraseCandidate _ b).1 hc).1

theorem invalidChainFound_eq (h : s.invalidChainFound b = some s') :
    s' = s.setBlockFailureFlags b := by
  unfold invalidChainFound at h
  split at h
  · cases h
  · cases h
    rfl

theorem Wf.setBlockFailureFlags (h : Wf env s) (b : BlockPtr) : Wf env (s.setBlockFailureFlags b) :=
  h.stay (.setBlockFailureFlags s b) rfl fun _ hc => .inl hc

theorem Wf.mark (h : Wf env l.chain) (pindex : BlockPtr) :
    Wf env (l.mark pindex) ∧ (l.mark pindex).tip = l.chain.tip := by
  unfold Invalidation.mark
  split
  · exact ⟨h.markInactive pindex, rfl⟩
  · exact ⟨h, rfl⟩

theorem Wf.finish (h : Wf env l.chain) (hf : l.finish env pindex = some (s', ok)) :
    Wf env s' ∧ s'.tip = l.chain.tip := by
  unfold Invalidation.finish at hf
  split at hf
  · cases hf
    exact ⟨h, rfl⟩
  obtain ⟨s1, h1, ⟨⟩⟩ := Option.map_eq_some_iff.1 hf
  rw [invalidChainFound_eq h1]
  obtain ⟨hw, ht⟩ := h.mark pindex
  obtain ⟨hs, -⟩ := offerAll_spec env
    (fun s b => s.hasValidTransactions b && !s.workLess env b s.tip) _ hw.tip_rooted.ne_nil
  exact ⟨hw.offerValid.setBlockFailureFlags _, hs.tip.trans ht⟩

theorem Wf.invalidateBlock (h : Wf env s) {rounds : Nat}
    (hi : s.invalidateBlock env rounds pindex = some (s', ok)) : Wf env s' ∧ s'.tip <:+ s.tip := by
  unfold Chainstate.invalidateBlock at hi
  split at hi
  · cases hi
    exact ⟨h, suffix_refl _⟩
  have hl := h.candidateBlocksByWork_linked pindex
  split at hi
  · next l hr =>
    cases hi
    obtain ⟨h1, h2, -⟩ := Wf.loop h hl hr
    exact ⟨h1, h2⟩
  next l hr =>
  obtain ⟨h1, h2, -⟩ := Wf.loop h hl hr
  obtain ⟨h3, h4⟩ := h1.finish hi
  exact ⟨h3, h4 ▸ h2⟩

theorem reconsider_spec (h : Wf env s) (hb : b ∈ s.known) :
    Wf env (s.reconsider env b) ∧ SameIndex s (s.reconsider env b) := by
  have hm := SameIndex.modify_failure s b (fun _ => false) (fun _ => false)
  have hw := h.of_sameIndex hm fun c hc => hc
  unfold reconsider
  simp only
  have erase : ∀ s1, SameIndex s1 (s1.eraseFailed b) := fun s1 =>
    ⟨rfl, rfl, rfl, fun _ => rfl, fun _ => rfl, fun _ => rfl, fun _ h => h⟩
  split
  · next hp =>
    obtain ⟨hs, hc⟩ := tryAddBlockIndexCandidate_spec env b hw.tip_rooted.ne_nil
    have hl := hasValidTransactions_linked (Bool.and_eq_true_iff.1 hp).1
    have hw' := hw.stay (.of_sameIndex hs) hs.tip fun c hcc => (hc c hcc).imp_right fun hc => by
      obtain ⟨rfl, -, hlt⟩ := hc
      exact hw.eligible_of_linked (h.known_rooted c hb).ne_nil hl hlt
    exact ⟨hw'.of_sameIndex (erase _) fun c hc => hc, (hm.trans hs).trans (erase _)⟩
  · exact ⟨hw.of_sameIndex (erase _) fun c hc => hc, hm.trans (erase _)⟩

theorem resetEntry_spec (h : Wf env s) {recheck : Option (BlockPtr → Bool)} (hb : b ∈ s.known) :
    Wf env (s.resetEntry env recheck pindex b) ∧ SameIndex s (s.resetEntry env recheck pindex b) := by
  unfold resetEntry
  simp only
  split
  · split
    · exact ⟨h, .refl s⟩
    · exact reconsider_spec h hb
  split
  · have hm := SameIndex.modify_failure s b (fun _ => true) (fun _ => false)
    have hi : SameIndex s ((s.modifyStatus b fun st =>
        { st with failedValid := true, failedChild := false }).insertFailed b) :=
      hm.trans ⟨rfl, rfl, rfl, fun _ => rfl, fun _ => rfl, fun _ => rfl, fun _ h => h⟩
    exact ⟨h.of_sameIndex hi fun c hc => hc, hi⟩
  · exact ⟨h, .refl s⟩

theorem foldl_spec {f : Chainstate → BlockPtr → Chainstate} {l : List BlockPtr}
    (hf : ∀ s, Wf env s → ∀ b ∈ l, b ∈ s.known → Wf env (f s b) ∧ SameIndex s (f s b))
    (h : Wf env s) (hl : ∀ b ∈ l, b ∈ s.known) :
    Wf env (l.foldl f s) ∧ SameIndex s (l.foldl f s) := by
  refine foldlRecOn (motive := fun s' => Wf env s' ∧ SameIndex s s') l f ⟨h, .refl s⟩ ?_
  rintro s' ⟨hw, hs⟩ b hb
  exact (hf s' hw b hb (hs.known ▸ hl b hb)).imp_right hs.trans

theorem retainFailure_spec (h : Wf env s) (b : BlockPtr) :
    Wf env (s.retainFailure b) ∧ SameIndex s (s.retainFailure b) := by
  unfold retainFailure
  split
  · have hm := (SameIndex.modify_failure s b (·.failedValid) (fun _ => true)).trans
      (.eraseCandidate _ b)
    exact ⟨h.of_sameIndex hm fun c hc => ((mem_eraseCandidate _ b).1 hc).1, hm⟩
  · exact ⟨h, .refl s⟩

theorem Wf.resetBlockFailureFlags (h : Wf env s) (recheck : Option (BlockPtr → Bool))
    (pindex : BlockPtr) :
    Wf env (s.resetBlockFailureFlags env recheck pindex) ∧
      SameIndex s (s.resetBlockFailureFlags env recheck pindex) := by
  have h1 := foldl_spec (f := resetEntry env recheck pindex)
    (fun s hs b _ hb => resetEntry_spec hs hb) h fun b hb => hb
  cases recheck with
  | none => exact h1
  | some ok =>
    have h2 := foldl_spec (l := s.reconsideredSignet ok pindex)
      (fun s hs b _ _ => retainFailure_spec hs b) h1.1 fun b hb => by
        rw [h1.2.known]
        exact (mem_filter.1 ((mem_insertionSort _).1 hb)).1
    exact ⟨h2.1, h1.2.trans h2.2⟩

theorem parkBlock_spec (s : Chainstate) (pindex : BlockPtr) : SameIndex s (s.parkBlock pindex).1 ∧
      ∀ c ∈ (s.parkBlock pindex).1.setBlockIndexCandidates, c ∈ s.setBlockIndexCandidates := by
  unfold Chainstate.parkBlock
  split
  · exact ⟨.refl s, fun c hc => hc⟩
  have hm := (SameIndex.modifyStatus s pindex (fun st => { st with parked := true })
    (fun _ => rfl) (fun st _ => by simp [BlockStatus.parkedMask])).trans (.eraseCandidate _ pindex)
  exact ⟨hm, fun c hc => ((mem_eraseCandidate _ pindex).1 hc).1⟩

theorem Wf.parkBlock (h : Wf env s) (pindex : BlockPtr) : Wf env (s.parkBlock pindex).1 :=
  h.of_sameIndex (s.parkBlock_spec pindex).1 (s.parkBlock_spec pindex).2

theorem mem_parkedAncestors {x : BlockPtr} :
    x ∈ s.parkedAncestors b ↔ x ≠ [] ∧ x <:+ b ∧ (s.data x).nStatus.parkedMask := by
  induction b with
  | nil =>
    simp only [parkedAncestors, not_mem_nil, false_iff, not_and]
    exact fun hx hs => absurd (suffix_nil.1 hs) hx
  | cons y b ih =>
    unfold parkedAncestors
    rw [suffix_cons_iff]
    grind

theorem Wf.unparkBlock (h : Wf env s) (pindex : BlockPtr) :
    Wf env (s.unparkBlock env pindex) ∧ SameBodies s (s.unparkBlock env pindex) ∧
      (s.unparkBlock env pindex).tip = s.tip := by
  have hb : SameBodies s ((s.clearParked (s.parkedDescendants pindex)).clearParked
      ((s.clearParked (s.parkedDescendants pindex)).parkedAncestors pindex)) :=
    (SameBodies.clearParked _ s).trans (.clearParked _ _)
  have hw := h.stay hb rfl fun c hc => .inl hc
  obtain ⟨hs, -⟩ := offerAll_spec env (fun s b => (s.data b).haveNumChainTxs)
    (s.parkedDescendants pindex ++
      (s.clearParked (s.parkedDescendants pindex)).parkedAncestors pindex) hw.tip_rooted.ne_nil
  refine ⟨hw.offerAll fun c hc s1 hs1 hp => ⟨?_, ?_⟩, hb.trans (.of_sameIndex hs), hs.tip⟩
  · rcases mem_append.1 hc with hc | hc
    · exact (h.known_rooted c (mem_filter.1 hc).1).ne_nil
    · exact (mem_parkedAncestors.1 hc).1
  · exact ((SameBodies.of_sameIndex hs1).haveNumChainTxs c).symm.trans hp

end

end Chainstate

end BitcoinPurity
