import BitcoinPurity.Chain.Activate
import Mathlib.Data.List.Nodup

/-!
`AcceptBlockHeader`, `AcceptBlock` with its parking decision, and the two entry points
`ProcessNewBlockHeaders` and `ProcessNewBlock`.

What the checks of a header or a body answer is part of the call (`BlockCall`); only the
proof-of-work check is computed, since chain work rests on it.

`acceptBlock_spec`: accepting a body keeps the invariant and the tip, and every new candidate
descends from the accepted block and has no parked block between it and the active chain.
-/

namespace BitcoinPurity

open List

/-! ## Algorithm -/

def checkProofOfWork (env : Env) (b : BlockPtr) : Bool :=
  match b with
  | [] => false
  | h :: _ =>
    match deriveTarget h.nBits env.powLimit with
    | none => false
    | some bnTarget => decide (env.getHash b ≤ bnTarget)

def minBlocksToKeep : Int := 288

/-- What `CheckBlock` and `ContextualCheckBlock` answer in `AcceptBlock`. -/
inductive BodyCheck
  | valid
  | invalid
  | mutated
deriving DecidableEq, Repr

/-- A header that is delivered, and the answer of `ContextualCheckBlockHeader`. -/
structure HeaderCall where
  header : BlockPtr
  contextualOk : Bool

/-- One `ProcessNewBlock` call: the block, its arguments, and what the checks that do not read
the chain state answer.  `checkBlock` is the first `CheckBlock`, in `ProcessNewBlock` itself. -/
structure BlockCall extends HeaderCall where
  vtxSize : Nat
  forceProcessing : Bool
  minPowChecked : Bool
  checkBlock : Bool
  bodyCheck : BodyCheck
  writeBlock : Bool

namespace Chainstate

def addToBlockIndex (s : Chainstate) (b : BlockPtr) : Chainstate :=
  if b ∈ s.known then s
  else
    { s with
      known := b :: s.known
      data := fun x => if x = b then { nStatus := ({} : BlockStatus).raiseValidity .tree }
        else s.data x }

variable (env : Env)

variable (s : Chainstate)

/-- The first block of `m_failed_blocks`, in pointer order, on the branch of `pindexPrev`. -/
def firstFailed (pindexPrev : BlockPtr) : Option BlockPtr :=
  LastBy.lastBy (fun a b => decide (env.addr a > env.addr b))
    (s.failedBlocks.filter fun f => getAncestor pindexPrev (nHeight f) = f)

def invalidWalk (failedit : BlockPtr) : BlockPtr → Chainstate → Chainstate
  | [], s => s
  | x :: b, s =>
    if x :: b = failedit then s
    else invalidWalk failedit b (s.modifyStatus (x :: b) fun st => { st with failedChild := true })

def acceptBlockHeader (call : HeaderCall) (minPowChecked : Bool) :
    Option (Chainstate × Bool) :=
  let b := call.header
  let add := if minPowChecked then some (s.addToBlockIndex b, true) else some (s, false)
  if b = [env.genesis] then add
  else if b ∈ s.known then some (s, !(s.data b).nStatus.failedMask)
  else if !checkProofOfWork env b then some (s, false)
  else if b.tail ∉ s.known then some (s, false)
  else if (s.data b.tail).nStatus.failedMask then some (s, false)
  else if !call.contextualOk then some (s, false)
  else if (s.data b.tail).nStatus.isValid .scripts then add
  else
    match s.firstFailed env b.tail with
    | none => add
    | some failedit =>
      if (s.data failedit).nStatus.failedValid then some (invalidWalk failedit b.tail s, false)
      else none

/-- The parking decision of `AcceptBlock`. -/
def parkDeepReorg (b : BlockPtr) : Chainstate :=
  if env.parkDeepReorg && decide (s.tip ≠ []) then
    let fork := findFork s.tip b
    if fork ≠ [] ∧ fork ≠ b ∧ nHeight s.tip - nHeight fork > env.parkReorgDepth then
      let root := getAncestor b (nHeight fork + 1)
      if (s.data root).nStatus.parkedMask then s
      else (s.modifyStatus root fun st => { st with parked := true }).eraseCandidate root
    else s
  else s

/-- `AcceptBlock` returns early, without reading the body. -/
def skipBody (call : BlockCall) : Bool :=
  let d := s.data call.header
  d.nStatus.haveData ||
    !call.forceProcessing &&
      (d.nTx != 0 ||
        !(s.tip = [] || decide (nChainWork call.header ≥ nChainWork s.tip)) ||
        decide (nHeight call.header > nHeight s.tip + minBlocksToKeep) ||
        decide (nChainWork call.header < env.minimumChainWork))

def acceptBlock (call : BlockCall) : Option (Chainstate × Bool) :=
  (s.acceptBlockHeader env call.toHeaderCall call.minPowChecked).map fun (s, accepted) =>
    let b := call.header
    if !accepted then (s, false)
    else if s.skipBody env call then (s, true)
    else
      match call.bodyCheck with
      | .invalid => (s.modifyStatus b fun st => { st with failedValid := true }, false)
      | .mutated => (s, false)
      | .valid =>
        if !call.writeBlock then (s, false)
        else ((s.parkDeepReorg env b).receivedBlockTransactions env b call.vtxSize, true)

def processNewBlockHeaders (env : Env) (minPowChecked : Bool) :
    List HeaderCall → Chainstate → Option Chainstate
  | [], s => some s
  | call :: rest, s =>
    match s.acceptBlockHeader env call minPowChecked with
    | none => none
    | some (s, false) => some s
    | some (s, true) => processNewBlockHeaders env minPowChecked rest s

def processNewBlock (fuel : Nat) (call : BlockCall) (s : Chainstate) : Option Chainstate :=
  if !call.checkBlock then some s
  else
    match s.acceptBlock env call with
    | none => none
    | some (s, false) => some s
    | some (s, true) => s.activateBestChain env fuel

end Chainstate

/-- How many blocks of the branch of `a` a reorganisation from `a` to `b` disconnects. -/
def rewindDepth (a b : BlockPtr) : Int := nHeight a - nHeight (lastCommonAncestor a b)

/-! ## Headers -/

theorem checkProofOfWork_work {env : Env} {x : CBlockHeader} {b : BlockPtr}
    (h : checkProofOfWork env (x :: b)) : 0 < getBlockProof x.nBits := by
  unfold checkProofOfWork at h
  cases ht : deriveTarget x.nBits env.powLimit with
  | none =>
    simp [ht] at h
  | some t => exact getBlockProof_pos ht

theorem Rooted.cons {env : Env} {x : CBlockHeader} {b : BlockPtr} (h : Rooted env b)
    (hx : 0 < getBlockProof x.nBits) : Rooted env (x :: b) := by
  refine ⟨h.genesis.trans (suffix_cons x b), ?_⟩
  intro z y hzy hy
  rcases suffix_cons_iff.1 hzy with he | hzy
  · cases he
    exact hx
  · exact h.work z y hzy hy

theorem Rooted.genesisOnly (env : Env) : Rooted env [env.genesis] := by
  refine ⟨suffix_refl _, ?_⟩
  intro x y hxy hy
  rcases suffix_cons_iff.1 hxy with he | hxy
  · cases he
    exact absurd rfl hy
  · exact absurd (suffix_nil.1 hxy) (by simp)

namespace Chainstate

/-- `s'` has at least the entries of `s`, with their data but for failure flags; the new ones
have no body. -/
structure Grows (s s' : Chainstate) : Prop where
  tip : s'.tip = s.tip
  candidates : s'.setBlockIndexCandidates = s.setBlockIndexCandidates
  unlinked : s'.blocksUnlinked = s.blocksUnlinked
  known : ∀ b ∈ s.known, b ∈ s'.known
  seq : ∀ b ∈ s.known, (s'.data b).nSequenceId = (s.data b).nSequenceId
  count : ∀ b, (s'.data b).haveNumChainTxs → (s.data b).haveNumChainTxs
  haveData : ∀ b ∈ s.known, (s'.data b).nStatus.haveData = (s.data b).nStatus.haveData
  newData : ∀ b, (s'.data b).nStatus.haveData → (s.data b).nStatus.haveData

theorem Grows.refl (s : Chainstate) : Grows s s :=
  ⟨rfl, rfl, rfl, fun _ h => h, fun _ _ => rfl, fun _ h => h, fun _ _ => rfl, fun _ h => h⟩

variable {s s' s₀ : Chainstate} {b x : BlockPtr} {env : Env} {queue : List BlockPtr}

theorem Grows.haveBranch (h : Grows s s') (hw : Wf env s) (hb : s.HaveBranch b) :
    s'.HaveBranch b := by
  intro x hx hxb
  have hd := hb x hx hxb
  rw [h.haveData x (hw.data_known x hd)]
  exact hd

theorem Grows.workLess (h : Grows s s') {a : BlockPtr} (ha : a ∈ s.known) (hb : b ∈ s.known) :
    s'.workLess env a b = s.workLess env a b := by
  unfold Chainstate.workLess
  rw [h.seq a ha, h.seq b hb]

theorem HaveBranch.self (h : s.HaveBranch b) (hb : b ≠ []) : (s.data b).nStatus.haveData :=
  h b hb (suffix_refl b)

theorem Wf.tip_known (h : Wf env s) : s.tip ∈ s.known :=
  h.data_known _ (h.tip_data.self h.tip_rooted.ne_nil)

theorem Wf.cand_known (h : Wf env s) : ∀ c ∈ s.setBlockIndexCandidates, c ∈ s.known :=
  fun c hc => h.data_known _ ((h.cand_data c hc).self (h.cand_rooted c hc).ne_nil)

theorem Wf.grow (h : Wf env s) (hg : Grows s s') (hk : ∀ b ∈ s'.known, Rooted env b) :
    Wf env s' where
  tip_rooted := hg.tip ▸ h.tip_rooted
  known_rooted := hk
  data_known b hb := hg.known b (h.data_known b (hg.newData b hb))
  cand_rooted := hg.candidates ▸ h.cand_rooted
  unlinked := by
    rw [hg.unlinked]
    intro e he
    obtain ⟨h1, h2, h3⟩ := h.unlinked e he
    exact ⟨h1, (hg.haveData _ (h.data_known _ h2)).trans h2, h3⟩
  unlinked_nodup := hg.unlinked ▸ h.unlinked_nodup
  linked b hb := hg.haveBranch h (h.linked b (hg.count b hb))
  tip_data := by
    rw [hg.tip]
    exact hg.haveBranch h h.tip_data
  cand_data := by
    rw [hg.candidates]
    exact fun c hc => hg.haveBranch h (h.cand_data c hc)
  cand_above := by
    intro c hc
    rw [hg.candidates] at hc
    rw [hg.tip, hg.workLess (h.cand_known c hc) h.tip_known]
    exact h.cand_above c hc

theorem addToBlockIndex_grows (s : Chainstate) (b : BlockPtr) : Grows s (s.addToBlockIndex b) := by
  unfold addToBlockIndex
  split
  · exact .refl s
  next hb =>
  -- an entry that exists is not the new one
  have hne : ∀ x ∈ s.known, x ≠ b := by
    rintro x hx rfl
    exact hb hx
  refine ⟨rfl, rfl, rfl, fun x hx => mem_cons_of_mem b hx, ?_, ?_, ?_, ?_⟩
  · intro x hx
    simp [if_neg (hne x hx)]
  · intro x hx
    by_cases he : x = b
    · simp [he, BlockData.haveNumChainTxs] at hx
    · simpa only [if_neg he] using hx
  · intro x hx
    simp [if_neg (hne x hx)]
  · intro x hx
    by_cases he : x = b
    · simp only [if_pos he] at hx
      cases hx
    · simpa only [if_neg he] using hx

theorem addToBlockIndex_known (s : Chainstate) (b x : BlockPtr) :
    x ∈ (s.addToBlockIndex b).known ↔ x = b ∨ x ∈ s.known := by
  unfold addToBlockIndex
  split
  · next hb => exact ⟨.inr, fun h => h.elim (fun e => e ▸ hb) id⟩
  · simp

theorem invalidWalk_grows (f : BlockPtr) (b : BlockPtr) (s : Chainstate) :
    Grows s (invalidWalk f b s) ∧ (invalidWalk f b s).known = s.known := by
  have key : Narrows s (invalidWalk f b s) ∧ (invalidWalk f b s).tip = s.tip ∧
      (invalidWalk f b s).setBlockIndexCandidates = s.setBlockIndexCandidates ∧
      (invalidWalk f b s).blocksUnlinked = s.blocksUnlinked := by
    induction b generalizing s with
    | nil => exact ⟨.refl s, rfl, rfl, rfl⟩
    | cons x b ih =>
      unfold invalidWalk
      split
      · exact ⟨.refl s, rfl, rfl, rfl⟩
      obtain ⟨h1, h2, h3, h4⟩ :=
        ih (s.modifyStatus (x :: b) fun st => { st with failedChild := true })
      have hm := narrows_modifyStatus s (x :: b) (fun st => { st with failedChild := true })
        fun _ => rfl
      exact ⟨hm.trans h1, h2, h3, h4⟩
  obtain ⟨h1, h2, h3, h4⟩ := key
  refine ⟨⟨h2, h3, h4, fun _ hb => h1.known ▸ hb, fun b _ => h1.seq b, fun b hb => ?_,
    fun b _ => h1.haveData b, fun b hb => h1.haveData b ▸ hb⟩, h1.known⟩
  simpa [BlockData.haveNumChainTxs, h1.count] using hb

/-- What a header can do: nothing, enter the index on a known parent and with work, flag the way
down to a failed ancestor, or fail the assertion about that ancestor. -/
theorem acceptBlockHeader_cases {call : HeaderCall} {minPow : Bool} {o : Option (Chainstate × Bool)}
    (h : s.acceptBlockHeader env call minPow = o) :
    (∃ a, o = some (s, a) ∧ (a → call.header ∈ s.known)) ∨
    (o = some (s.addToBlockIndex call.header, true) ∧ (call.header = [env.genesis] ∨
      checkProofOfWork env call.header ∧ call.header.tail ∈ s.known)) ∨
    (∃ f, s.firstFailed env call.header.tail = some f ∧ call.header.tail ∈ s.known ∧
      o = some (invalidWalk f call.header.tail s, false)) ∨
    o = none ∧ ∃ f, s.firstFailed env call.header.tail = some f ∧
      ¬ (s.data f).nStatus.failedValid := by
  have refuse (ho : some (s, false) = o) : ∃ a, o = some (s, a) ∧ (a → call.header ∈ s.known) :=
    ⟨false, ho.symm, by rintro ⟨⟩⟩
  have add {p : Prop} (hp : p) (ho : (if minPow then some (s.addToBlockIndex call.header, true)
      else some (s, false)) = o) : (∃ a, o = some (s, a) ∧ (a → call.header ∈ s.known)) ∨
        o = some (s.addToBlockIndex call.header, true) ∧ p := by
    cases minPow with
    | false => exact .inl (refuse ho)
    | true => exact .inr ⟨ho.symm, hp⟩
  unfold acceptBlockHeader at h
  simp only at h
  split at h
  · next hg => exact (add (.inl hg) h).imp_right .inl
  split at h
  · next hk => exact .inl ⟨_, h.symm, fun _ => hk⟩
  split at h
  · exact .inl (refuse h)
  next hpow =>
  split at h
  · exact .inl (refuse h)
  next hprev =>
  have hp := not_not.1 hprev
  have hpow : checkProofOfWork env call.header := by simpa using hpow
  split at h
  · exact .inl (refuse h)
  split at h
  · exact .inl (refuse h)
  split at h
  · exact (add (.inr ⟨hpow, hp⟩) h).imp_right .inl
  split at h
  · exact (add (.inr ⟨hpow, hp⟩) h).imp_right .inl
  next f hf =>
  split at h
  · exact .inr (.inr (.inl ⟨f, hf, hp, h.symm⟩))
  · next hv => exact .inr (.inr (.inr ⟨h.symm, f, hf, hv⟩))

/-- **A header keeps the invariant**, whatever is answered. -/
theorem acceptBlockHeader_spec {call : HeaderCall} {minPow accepted : Bool}
    (h : s.acceptBlockHeader env call minPow = some (s', accepted)) (hw : Wf env s) :
    Wf env s' ∧ Grows s s' ∧ (accepted → call.header ∈ s'.known) := by
  rcases acceptBlockHeader_cases h with ⟨a, ⟨⟩, hk⟩ | ⟨⟨⟩, hp⟩ | ⟨f, -, -, ⟨⟩⟩ | ⟨⟨⟩, -⟩
  · exact ⟨hw, .refl _, hk⟩
  · have hg := addToBlockIndex_grows s call.header
    refine ⟨hw.grow hg fun x hx => ?_, hg, fun _ => (addToBlockIndex_known _ _ _).2 (.inl rfl)⟩
    rcases (addToBlockIndex_known _ _ _).1 hx with rfl | hx
    · rcases hp with hg | ⟨hpow, hprev⟩
      · exact hg ▸ Rooted.genesisOnly env
      cases hb : call.header with
      | nil => simp [hb, checkProofOfWork] at hpow
      | cons x y =>
        rw [hb] at hpow hprev
        exact (hw.known_rooted y hprev).cons (checkProofOfWork_work hpow)
    · exact hw.known_rooted x hx
  · obtain ⟨hg, hk⟩ := invalidWalk_grows f call.header.tail s
    exact ⟨hw.grow hg (hk ▸ hw.known_rooted), hg, by rintro ⟨⟩⟩

/-! ## Linking -/

/-- No block of `b`'s branch off the active chain is parked. -/
def Unparked (s : Chainstate) (b : BlockPtr) : Prop :=
  ∀ r ≠ [], r <:+ b → ¬ r <:+ s.tip → (s.data r).nStatus.parkedMask = false

theorem parkedAbove_false (ht : s.tip ≠ []) (h : s.parkedAbove b = false) : s.Unparked b := by
  induction b with
  | nil =>
    intro r hr hrb
    exact absurd (suffix_nil.1 hrb) hr
  | cons x b ih =>
    intro r hr hrb hrt
    unfold parkedAbove at h
    split at h
    · cases h
    next hp =>
    split at h
    · next hc =>
      -- the walk stopped on the active chain, where `r` is not
      have hc : s.contains (x :: b) := by simpa [ht] using hc
      exact absurd (hrb.trans (chainContains_iff.1 hc).2) hrt
    · rcases suffix_cons_iff.1 hrb with rfl | hrb
      · simpa using hp
      · exact ih h r hr hrb hrt

/-- Steps that touch neither the entries' order nor their bodies and unpark nothing. -/
structure SameIndex (s s' : Chainstate) : Prop where
  tip : s'.tip = s.tip
  known : s'.known = s.known
  unlinked : s'.blocksUnlinked = s.blocksUnlinked
  seq : ∀ b, (s'.data b).nSequenceId = (s.data b).nSequenceId
  count : ∀ b, (s'.data b).chainTxCount = (s.data b).chainTxCount
  haveData : ∀ b, (s'.data b).nStatus.haveData = (s.data b).nStatus.haveData
  parked : ∀ b, (s.data b).nStatus.parkedMask → (s'.data b).nStatus.parkedMask

theorem SameIndex.refl (s : Chainstate) : SameIndex s s :=
  ⟨rfl, rfl, rfl, fun _ => rfl, fun _ => rfl, fun _ => rfl, fun _ h => h⟩

theorem SameIndex.trans {s'' : Chainstate} (h : SameIndex s s') (h' : SameIndex s' s'') :
    SameIndex s s'' :=
  ⟨h'.tip.trans h.tip, h'.known.trans h.known, h'.unlinked.trans h.unlinked,
    fun b => (h'.seq b).trans (h.seq b), fun b => (h'.count b).trans (h.count b),
    fun b => (h'.haveData b).trans (h.haveData b), fun b hb => h'.parked b (h.parked b hb)⟩

theorem SameIndex.workLess (h : SameIndex s s') (env : Env) (a b : BlockPtr) :
    s'.workLess env a b = s.workLess env a b := by
  unfold Chainstate.workLess
  rw [h.seq a, h.seq b]

section

variable (s : Chainstate) (b : BlockPtr)

theorem SameIndex.modifyStatus (f : BlockStatus → BlockStatus)
    (hd : ∀ st, (f st).haveData = st.haveData) (hp : ∀ st, st.parkedMask → (f st).parkedMask) :
    SameIndex s (s.modifyStatus b f) := by
  refine ⟨rfl, rfl, rfl, by simp, by simp, ?_, ?_⟩
  · intro x
    rw [modifyStatus_nStatus]
    split
    · exact hd _
    · rfl
  · intro x hx
    rw [modifyStatus_nStatus]
    split
    · exact hp _ hx
    · exact hx

theorem SameIndex.eraseCandidate : SameIndex s (s.eraseCandidate b) :=
  ⟨rfl, rfl, rfl, fun _ => rfl, fun _ => rfl, fun _ => rfl, fun _ h => h⟩

theorem SameIndex.insertCandidate : SameIndex s (s.insertCandidate b) :=
  ⟨by simp, by simp, by simp, by simp, by simp, by simp, by simp⟩

end

theorem parkedMask_parkedChild (st : BlockStatus) :
    ({ st with parkedChild := true } : BlockStatus).parkedMask := by
  simp [BlockStatus.parkedMask]

/-- A block becomes a candidate only if nothing on its branch is parked and it is not below
the tip. -/
theorem tryAddBlockIndexCandidate_spec (env : Env) (b : BlockPtr) (ht : s.tip ≠ []) :
    SameIndex s (s.tryAddBlockIndexCandidate env b) ∧
      ∀ c ∈ (s.tryAddBlockIndexCandidate env b).setBlockIndexCandidates,
        c ∈ s.setBlockIndexCandidates ∨ c = b ∧ s.Unparked b ∧ s.workLess env b s.tip = false := by
  by_cases hp : s.parkedAbove b.tail
  · -- a parked ancestor parks the block
    have hm := SameIndex.modifyStatus s b (fun st => { st with parkedChild := true })
      (fun _ => rfl) (fun st _ => parkedMask_parkedChild st)
    have hb : ((s.modifyStatus b fun st => { st with parkedChild := true }).data b).nStatus.parkedMask
        := by
      rw [modifyStatus_nStatus, if_pos rfl]
      exact parkedMask_parkedChild _
    unfold tryAddBlockIndexCandidate
    simp only [if_pos hp, hb]
    exact ⟨hm.trans (SameIndex.eraseCandidate _ b),
      fun c hc => .inl ((mem_eraseCandidate _ b).1 hc).1⟩
  · have hp' : s.parkedAbove b.tail = false := by simpa using hp
    unfold tryAddBlockIndexCandidate
    simp only [hp', Bool.false_eq_true, if_false]
    split
    · exact ⟨SameIndex.eraseCandidate s b, fun c hc => .inl ((s.mem_eraseCandidate b).1 hc).1⟩
    next hb =>
    split
    · exact ⟨.refl s, fun c hc => .inl hc⟩
    next hw =>
    refine ⟨SameIndex.insertCandidate s b, fun c hc => ?_⟩
    rcases (s.mem_insertCandidate b).1 hc with rfl | hc
    · refine .inr ⟨rfl, ?_, by simpa [ht] using hw⟩
      intro r hr hrc hrt
      cases c with
      | nil => exact absurd (suffix_nil.1 hrc) hr
      | cons x y =>
        rcases suffix_cons_iff.1 hrc with rfl | hry
        · simpa using hb
        · exact parkedAbove_false ht hp' r hr hry hrt
    · exact .inl hc

def pending (queue : List BlockPtr) (s : Chainstate) : List BlockPtr :=
  queue ++ s.blocksUnlinked.map Prod.snd

/-- The queue loop of `ReceivedBlockTransactions`, started in `s₀` for the body of `b`. -/
structure Linking (env : Env) (s₀ : Chainstate) (b : BlockPtr) (queue : List BlockPtr)
    (s : Chainstate) : Prop where
  tip : s.tip = s₀.tip
  known : s.known = s₀.known
  haveData : ∀ x, (s.data x).nStatus.haveData = (s₀.data x).nStatus.haveData
  parked : ∀ x, (s₀.data x).nStatus.parkedMask → (s.data x).nStatus.parkedMask
  seq : ∀ x, ¬ b <:+ x → (s.data x).nSequenceId = (s₀.data x).nSequenceId
  linked : ∀ x, (s.data x).haveNumChainTxs → s₀.HaveBranch x
  queued : ∀ x ∈ queue, b <:+ x ∧ s₀.HaveBranch x ∧ Rooted env x
  unlinked : ∀ e ∈ s.blocksUnlinked, e ∈ s₀.blocksUnlinked
  nodup : (pending queue s).Nodup
  cand : ∀ c ∈ s.setBlockIndexCandidates, c ∈ s₀.setBlockIndexCandidates ∨
    b <:+ c ∧ s₀.HaveBranch c ∧ Rooted env c ∧ s₀.Unparked c ∧ c ∉ pending queue s
  above : CandAbove env s

/-- What `ReceivedBlockTransactions` finds when it starts the queue with `b`: the body of `b`
is new, so `b` is below no candidate and not on the active chain. -/
structure Unlinked (env : Env) (s₀ : Chainstate) (b : BlockPtr) : Prop where
  tip_ne : s₀.tip ≠ []
  tip_off : ¬ b <:+ s₀.tip
  cand_off : ∀ c ∈ s₀.setBlockIndexCandidates, ¬ b <:+ c
  unlinked : ∀ e ∈ s₀.blocksUnlinked,
    e.1 = e.2.tail ∧ (s₀.data e.2).nStatus.haveData ∧ Rooted env e.2

theorem HaveBranch.of_tail (h : s.HaveBranch b.tail) (hb : (s.data b).nStatus.haveData) :
    s.HaveBranch b := by
  intro x hx hxb
  cases b with
  | nil => exact absurd (suffix_nil.1 hxb) hx
  | cons y b =>
    rcases suffix_cons_iff.1 hxb with rfl | hxb
    · exact hb
    · exact h x hx hxb

theorem linkBlock_spec (h : s.linkBlock env x = s') (ht : s.tip ≠ []) :
    s'.tip = s.tip ∧ s'.known = s.known ∧ s'.blocksUnlinked = s.blocksUnlinked ∧
    (∀ y, (s'.data y).nStatus.haveData = (s.data y).nStatus.haveData) ∧
    (∀ y, (s.data y).nStatus.parkedMask → (s'.data y).nStatus.parkedMask) ∧
    (∀ y ≠ x, (s'.data y).nSequenceId = (s.data y).nSequenceId) ∧
    (∀ y ≠ x, (s'.data y).chainTxCount = (s.data y).chainTxCount) ∧
    ∀ c ∈ s'.setBlockIndexCandidates, c ∈ s.setBlockIndexCandidates ∨
      c = x ∧ s.Unparked x ∧ s'.workLess env x s.tip = false := by
  set s1 : Chainstate := { s.modify x (fun d => { d with
    chainTxCount := s.prevTxSum x, nSequenceId := s.nBlockSequenceId }) with
    nBlockSequenceId := s.nBlockSequenceId + 1 } with hs1
  have hdata : ∀ y, s1.data y = if y = x then { s.data y with
      chainTxCount := s.prevTxSum x, nSequenceId := s.nBlockSequenceId } else s.data y :=
    fun y => rfl
  have hstatus : ∀ y, (s1.data y).nStatus = (s.data y).nStatus := by
    intro y
    rw [hdata]
    split <;> rfl
  obtain ⟨hi, hc⟩ := tryAddBlockIndexCandidate_spec env (s := s1) x ht
  obtain rfl : s1.tryAddBlockIndexCandidate env x = s' := h
  refine ⟨hi.tip, hi.known, hi.unlinked, ?_, ?_, ?_, ?_, ?_⟩
  · intro y
    rw [hi.haveData, hstatus]
  · intro y hy
    exact hi.parked y (by rw [hstatus]; exact hy)
  · intro y hy
    rw [hi.seq, hdata, if_neg hy]
  · intro y hy
    rw [hi.count, hdata, if_neg hy]
  · intro c hcc
    rcases hc c hcc with h | ⟨h1, h2, h3⟩
    · exact .inl h
    refine .inr ⟨h1, ?_, ?_⟩
    · intro r hr hrx hrt
      rw [← hstatus]
      exact h2 r hr hrx hrt
    · rw [hi.workLess]
      exact h3

theorem pending_step (h : s'.blocksUnlinked = s.blocksUnlinked.filter fun e => e.1 ≠ x) :
    (pending (queue ++ (s.blocksUnlinked.filter fun e => e.1 = x).map Prod.snd) s').Perm
      (pending queue s) := by
  unfold pending
  rw [h, append_assoc, ← map_append]
  refine List.Perm.append_left queue (List.Perm.map _ ?_)
  have := filter_append_perm (fun e => decide (e.1 = x)) s.blocksUnlinked
  simpa using this

/-- **One round of the queue loop keeps the linking invariant.** -/
theorem Linking.step (h0 : Unlinked env s₀ b) (h : Linking env s₀ b (x :: queue) s) :
    Linking env s₀ b
      (queue ++ ((s.linkBlock env x).blocksUnlinked.filter fun e => e.1 = x).map Prod.snd)
      { s.linkBlock env x with
        blocksUnlinked := (s.linkBlock env x).blocksUnlinked.filter fun e => e.1 ≠ x } := by
  have ht : s.tip ≠ [] := by
    rw [h.tip]
    exact h0.tip_ne
  obtain ⟨ltip, lknown, lunl, ldata, lpark, lseq, lcount, lcand⟩ := linkBlock_spec rfl ht
  obtain ⟨hbx, hxd, hxr⟩ := h.queued x mem_cons_self
  have hperm : (pending (queue ++
      ((s.linkBlock env x).blocksUnlinked.filter fun e => e.1 = x).map Prod.snd)
      { s.linkBlock env x with
        blocksUnlinked := (s.linkBlock env x).blocksUnlinked.filter fun e => e.1 ≠ x }).Perm
      (pending queue s) := by
    rw [lunl]
    exact pending_step rfl
  have hnd := h.nodup
  rw [pending, cons_append, nodup_cons] at hnd
  obtain ⟨hxp, hnd⟩ := hnd
  -- the block that is linked is neither the tip nor a candidate yet
  have htip : s₀.tip ≠ x := by
    rintro rfl
    exact h0.tip_off hbx
  have hcx : ∀ c ∈ s.setBlockIndexCandidates, c ≠ x := by
    rintro c hc rfl
    rcases h.cand c hc with hc | ⟨-, -, -, -, hc⟩
    · exact h0.cand_off c hc hbx
    · exact hc (mem_append_left _ mem_cons_self)
  refine
    { tip := ltip.trans h.tip
      known := lknown.trans h.known
      haveData := fun y => (ldata y).trans (h.haveData y)
      parked := fun y hy => lpark y (h.parked y hy)
      seq := ?_, linked := ?_, queued := ?_, unlinked := ?_
      nodup := hperm.nodup_iff.2 hnd
      cand := ?_, above := ?_ }
  · intro y hy
    exact (lseq y fun e => hy (e ▸ hbx)).trans (h.seq y hy)
  · intro y hy
    by_cases he : y = x
    · exact he ▸ hxd
    · refine h.linked y ?_
      simpa [BlockData.haveNumChainTxs, lcount y he] using hy
  · intro y hy
    rcases mem_append.1 hy with hy | hy
    · exact h.queued y (mem_cons_of_mem _ hy)
    obtain ⟨e, he, rfl⟩ := mem_map.1 hy
    obtain ⟨he, hex⟩ := mem_filter.1 he
    rw [lunl] at he
    obtain ⟨h1, h2, h3⟩ := h0.unlinked e (h.unlinked e he)
    have hex : e.2.tail = x := by
      rw [← h1]
      simpa using hex
    have hx2 : x <:+ e.2 := hex ▸ tail_suffix e.2
    exact ⟨hbx.trans hx2, HaveBranch.of_tail (hex ▸ hxd) h2, h3⟩
  · intro e he
    have he := (mem_filter.1 he).1
    rw [lunl] at he
    exact h.unlinked e he
  · intro c hc
    rcases lcand c hc with hc | ⟨rfl, hu, -⟩
    · rcases h.cand c hc with hc | ⟨h1, h2, h3, h4, h5⟩
      · exact .inl hc
      · refine .inr ⟨h1, h2, h3, h4, fun hp => h5 ?_⟩
        exact mem_cons_of_mem x (hperm.mem_iff.1 hp)
    refine .inr ⟨hbx, hxd, hxr, ?_, fun hp => hxp (hperm.mem_iff.1 hp)⟩
    intro r hr hrc hrt
    have := hu r hr hrc (h.tip ▸ hrt)
    by_contra hp
    simp [h.parked r (by simpa using hp)] at this
  · intro c hc
    rw [ltip]
    rcases lcand c hc with hc | ⟨rfl, -, hw⟩
    · have h1 := lseq c (hcx c hc)
      have h2 := lseq s.tip (by rw [h.tip]; exact htip)
      unfold Chainstate.workLess
      rw [h1, h2]
      exact h.above c hc
    · exact hw

theorem Linking.run (h0 : Unlinked env s₀ b) (h : Linking env s₀ b queue s) (fuel : Nat) :
    ∃ queue', Linking env s₀ b queue' (linkQueue env fuel queue s) := by
  induction fuel generalizing queue s with
  | zero => exact ⟨queue, h⟩
  | succ fuel ih =>
    cases queue with
    | nil => exact ⟨[], h⟩
    | cons x queue => exact ih (h.step h0)

theorem Linking.haveBranch (h : Linking env s₀ b queue s) (hx : s₀.HaveBranch x) : s.HaveBranch x :=
  fun y hy hyx => (h.haveData y).trans (hx y hy hyx)

theorem Linking.wf (h : Linking env s₀ b queue s) (h0 : Wf env s₀) : Wf env s := by
  have hcand : ∀ c ∈ s.setBlockIndexCandidates, s₀.HaveBranch c ∧ Rooted env c := by
    intro c hc
    rcases h.cand c hc with hc | ⟨-, h2, h3, -⟩
    · exact ⟨h0.cand_data c hc, h0.cand_rooted c hc⟩
    · exact ⟨h2, h3⟩
  refine
    { tip_rooted := h.tip ▸ h0.tip_rooted
      known_rooted := h.known ▸ h0.known_rooted
      cand_rooted := fun c hc => (hcand c hc).2
      unlinked_nodup := List.Nodup.of_map _ (nodup_append.1 h.nodup).2.1
      linked := fun x hx => h.haveBranch (h.linked x hx)
      tip_data := h.tip ▸ h.haveBranch h0.tip_data
      cand_data := fun c hc => h.haveBranch (hcand c hc).1
      cand_above := h.above
      data_known := ?_, unlinked := ?_ }
  · intro x hx
    rw [h.known]
    exact h0.data_known x ((h.haveData x).symm.trans hx)
  · intro e he
    rw [h.haveData]
    exact h0.unlinked e (h.unlinked e he)

theorem linkBlock_unlinked : (s.linkBlock env x).blocksUnlinked = s.blocksUnlinked :=
  tryAddBlockIndexCandidate_induct (P := fun t => t.blocksUnlinked = s.blocksUnlinked) rfl
    (fun _ => rfl) (fun _ h => h) fun _ h => by simpa using h

/-- Every round takes one block out of `pending`, so the fuel of `receivedBlockTransactions`
empties the queue. -/
theorem linkQueue_fuel {n m : Nat} (hn : (pending queue s).length ≤ n)
    (hm : (pending queue s).length ≤ m) : linkQueue env n queue s = linkQueue env m queue s := by
  induction n generalizing queue s m with
  | zero =>
    obtain ⟨rfl, -⟩ := append_eq_nil_iff.1 (length_eq_zero_iff.1 (Nat.le_zero.1 hn))
    cases m <;> rfl
  | succ n ih =>
    match queue, m with
    | [], 0 | [], _ + 1 => rfl
    | x :: queue, m + 1 =>
      have hlen : ∀ k, (pending (x :: queue) s).length ≤ k + 1 →
          (pending queue (s.linkBlock env x)).length ≤ k := by
        intro k hk
        rw [pending, linkBlock_unlinked]
        exact Nat.le_of_succ_le_succ hk
      exact ih ((pending_step rfl).length_eq.trans_le (hlen n hn))
        ((pending_step rfl).length_eq.trans_le (hlen m hm))

/-! ## Receiving a body -/

theorem markReceived_spec {n : Nat} (h : s.markReceived env b n = s') :
    s'.tip = s.tip ∧ s'.known = s.known ∧ s'.blocksUnlinked = s.blocksUnlinked ∧
    s'.setBlockIndexCandidates = s.setBlockIndexCandidates ∧
    (∀ x, (s'.data x).nSequenceId = (s.data x).nSequenceId) ∧
    (∀ x, (s'.data x).haveNumChainTxs → (s.data x).haveNumChainTxs) ∧
    (∀ x, (s'.data x).nStatus.haveData = (decide (x = b) || (s.data x).nStatus.haveData)) ∧
    (∀ x, (s'.data x).nStatus.parkedMask = (s.data x).nStatus.parkedMask) := by
  set s1 := s.modify b fun d => { d with nTx := n } with hs1
  set s2 := if (s1.data b).chainTxCount = 0 ∨ (s1.data b).chainTxCount = s1.prevTxSum b then s1
    else s1.modify b fun d => { d with chainTxCount := 0 } with hs2
  set f : BlockStatus → BlockStatus := fun st => { st with
    haveData := true
    optWitness := st.optWitness || decide (nHeight b ≥ env.segwitHeight) }.raiseValidity
      .transactions with hf
  have hdata : ∀ x, (s2.data x).nStatus = (s.data x).nStatus ∧
      (s2.data x).nSequenceId = (s.data x).nSequenceId ∧
      ((s2.data x).haveNumChainTxs → (s.data x).haveNumChainTxs) := by
    intro x
    by_cases hx : x = b
    · subst hx
      rw [hs2]
      split <;> simp [hs1, modify_data, BlockData.haveNumChainTxs]
    · rw [hs2]
      split <;> simp [hs1, modify_data, hx]
  have hrest : s2.tip = s.tip ∧ s2.known = s.known ∧ s2.blocksUnlinked = s.blocksUnlinked ∧
      s2.setBlockIndexCandidates = s.setBlockIndexCandidates := by
    rw [hs2]
    split <;> exact ⟨rfl, rfl, rfl, rfl⟩
  obtain ⟨h1, h2, h3, h4⟩ := hrest
  obtain rfl : s2.modifyStatus b f = s' := h
  refine ⟨h1, h2, h3, h4, ?_, ?_, ?_, ?_⟩
  · intro x
    rw [modifyStatus_seq]
    exact (hdata x).2.1
  · intro x hx
    refine (hdata x).2.2 ?_
    simpa [BlockData.haveNumChainTxs] using hx
  · intro x
    rw [modifyStatus_nStatus]
    split
    · next hx => simp [hf, field_raiseValidity (·.haveData), hx]
    · next hx => simp [hx, (hdata x).1]
  · intro x
    rw [modifyStatus_nStatus]
    split
    · rw [field_raiseValidity (·.parkedMask), ← (hdata x).1]
      rfl
    · rw [(hdata x).1]

/-- What the arrival of `b`'s body does to the chain state. -/
structure Received (env : Env) (b : BlockPtr) (s s' : Chainstate) : Prop where
  wf : Wf env s'
  tip : s'.tip = s.tip
  known : s'.known = s.known
  haveBranch : ∀ x, s.HaveBranch x → s'.HaveBranch x
  seq : ∀ x, ¬ b <:+ x → (s'.data x).nSequenceId = (s.data x).nSequenceId
  cand : ∀ c ∈ s'.setBlockIndexCandidates,
    c ∈ s.setBlockIndexCandidates ∨ b <:+ c ∧ s.Unparked c

theorem not_suffix_of_haveBranch (hb : b ≠ []) (hd : (s.data b).nStatus.haveData = false)
    (hx : s.HaveBranch x) : ¬ b <:+ x := by
  intro hbx
  simp [hx b hb hbx] at hd

theorem Wf.markReceived (h : Wf env s) (hb : b ∈ s.known) (n : Nat) :
    Wf env (s.markReceived env b n) := by
  obtain ⟨mtip, mknown, munl, mcand, mseq, mcount, mdata, -⟩ := markReceived_spec rfl
  have mbranch : ∀ x, s.HaveBranch x → (s.markReceived env b n).HaveBranch x := by
    intro x hx y hy hyx
    rw [mdata, hx y hy hyx, Bool.or_true]
  refine
    { tip_rooted := mtip ▸ h.tip_rooted
      known_rooted := mknown ▸ h.known_rooted
      cand_rooted := mcand ▸ h.cand_rooted
      unlinked_nodup := munl ▸ h.unlinked_nodup
      linked := fun x hx => mbranch x (h.linked x (mcount x hx))
      tip_data := mtip ▸ mbranch _ h.tip_data
      cand_data := mcand ▸ fun c hc => mbranch c (h.cand_data c hc)
      data_known := ?_, unlinked := ?_, cand_above := ?_ }
  · intro x hx
    rw [mknown]
    rw [mdata, Bool.or_eq_true, decide_eq_true_eq] at hx
    rcases hx with rfl | hx
    · exact hb
    · exact h.data_known x hx
  · rw [munl]
    intro e he
    obtain ⟨h1, h2, h3⟩ := h.unlinked e he
    exact ⟨h1, by rw [mdata, h2, Bool.or_true], h3⟩
  · intro c hc
    rw [mcand] at hc
    unfold Chainstate.workLess
    rw [mseq, mseq, mtip]
    exact h.cand_above c hc

/-- **`ReceivedBlockTransactions` keeps the invariant**; new candidates descend from the block. -/
theorem receivedBlockTransactions_spec (h : Wf env s) (hb : b ∈ s.known)
    (hd : (s.data b).nStatus.haveData = false) (n : Nat) :
    Received env b s (s.receivedBlockTransactions env b n) := by
  have hbr := h.known_rooted b hb
  have hm := h.markReceived hb n
  set s1 := s.markReceived env b n with hs1
  obtain ⟨mtip, mknown, munl, mcand, mseq, mcount, mdata, mpark⟩ := markReceived_spec hs1.symm
  have mbranch : ∀ x, s.HaveBranch x → s1.HaveBranch x := by
    intro x hx y hy hyx
    rw [mdata, hx y hy hyx, Bool.or_true]
  have hb1 : (s1.data b).nStatus.haveData := by
    rw [mdata]
    simp
  have hbase : Received env b s s1 :=
    ⟨hm, mtip, mknown, mbranch, fun x _ => mseq x, fun c hc => .inl (mcand ▸ hc)⟩
  unfold receivedBlockTransactions
  simp only [← hs1]
  split
  · next hp =>
    -- the parent is linked: `b` and what waits for it enter the queue
    have hbb : s1.HaveBranch b := by
      refine HaveBranch.of_tail ?_ hb1
      by_cases ht : b.tail = []
      · rw [ht]
        intro x hx hxn
        exact absurd (suffix_nil.1 hxn) hx
      · exact hm.linked _ (by simpa [ht] using hp)
    have h0 : Unlinked env s1 b := by
      refine ⟨hm.tip_rooted.ne_nil, ?_, ?_, hm.unlinked⟩
      · rw [mtip]
        exact not_suffix_of_haveBranch hbr.ne_nil hd h.tip_data
      · intro c hc
        rw [mcand] at hc
        exact not_suffix_of_haveBranch hbr.ne_nil hd (h.cand_data c hc)
    have hnd : (pending [b] s1).Nodup := by
      show (b :: s1.blocksUnlinked.map Prod.snd).Nodup
      rw [nodup_cons]
      constructor
      · intro hmem
        obtain ⟨e, he, rfl⟩ := mem_map.1 hmem
        rw [munl] at he
        simp [(h.unlinked e he).2.1] at hd
      · refine List.Nodup.map_on ?_ hm.unlinked_nodup
        intro e he e' he' heq
        refine Prod.ext ?_ heq
        rw [(hm.unlinked e he).1, (hm.unlinked e' he').1, heq]
    have hstart : Linking env s1 b [b] s1 :=
      { tip := rfl, known := rfl, haveData := fun _ => rfl, parked := fun _ hx => hx
        seq := fun _ _ => rfl, linked := hm.linked
        queued := fun x hx => by grind
        unlinked := fun _ he => he, nodup := hnd
        cand := fun _ hc => .inl hc, above := hm.cand_above }
    obtain ⟨queue, hl⟩ := hstart.run h0 (s1.blocksUnlinked.length + 1)
    refine
      { wf := hl.wf hm, tip := hl.tip.trans mtip, known := hl.known.trans mknown
        haveBranch := fun x hx => hl.haveBranch (mbranch x hx)
        seq := fun x hx => (hl.seq x hx).trans (mseq x), cand := ?_ }
    intro c hc
    rcases hl.cand c hc with hc | ⟨h1, -, -, h4, -⟩
    · exact .inl (mcand ▸ hc)
    refine .inr ⟨h1, fun r hr hrc hrt => ?_⟩
    rw [← mpark]
    exact h4 r hr hrc (mtip ▸ hrt)
  · split
    · -- the parent waits for its own body
      have ha : ∀ e ∈ (s1.addUnlinkedBlock b).blocksUnlinked, e.1 = e.2.tail ∧
          (s1.data e.2).nStatus.haveData ∧ Rooted env e.2 := by
        intro e he
        rcases (s1.mem_addUnlinkedBlock b).1 he with he | rfl
        · exact hm.unlinked e he
        · exact ⟨rfl, hb1, hbr⟩
      have hnodup := s1.addUnlinkedBlock_nodup b hm.unlinked_nodup
      obtain ⟨u, hu⟩ := s1.addUnlinkedBlock_eq b
      rw [hu] at ha hnodup ⊢
      exact { hbase with wf := { hm with unlinked := ha, unlinked_nodup := hnodup } }
    · exact hbase

end Chainstate

/-! ## Parking -/

/-- A reorganisation to `b` rewinds at most `d` blocks iff the `d`-th ancestor is kept. -/
theorem rewindDepth_le_iff {a b : BlockPtr} {d : Int} (hd : 0 ≤ d) :
    rewindDepth a b ≤ d ↔ a.drop d.toNat <:+ b := by
  rw [rewindDepth, lastCommonAncestor_eq_meet, nHeight_eq, nHeight_eq, Branch.drop_suffix_iff]
  omega

namespace Chainstate

theorem parkDeepReorg_sameIndex (env : Env) (s : Chainstate) (b : BlockPtr) :
    SameIndex s (s.parkDeepReorg env b) ∧
      ∀ c ∈ (s.parkDeepReorg env b).setBlockIndexCandidates, c ∈ s.setBlockIndexCandidates := by
  unfold parkDeepReorg
  split
  · simp only
    split
    · split
      · exact ⟨.refl s, fun c hc => hc⟩
      have hm := SameIndex.modifyStatus s (getAncestor b (nHeight (findFork s.tip b) + 1))
        (fun st => { st with parked := true }) (fun _ => rfl)
        (fun st _ => by simp [BlockStatus.parkedMask])
      exact ⟨hm.trans (SameIndex.eraseCandidate _ _), fun c hc => ((mem_eraseCandidate _ _).1 hc).1⟩
    · exact ⟨.refl s, fun c hc => hc⟩
  · exact ⟨.refl s, fun c hc => hc⟩

variable {b : BlockPtr} {env : Env} {s s' : Chainstate}

/-- **The parking decision**: after it, a branch through `b` with no parked block off the active
chain rewinds at most `parkReorgDepth` blocks. -/
theorem rewindDepth_le_of_unparked {c : BlockPtr} (hon : env.parkDeepReorg)
    (ht : Rooted env s.tip) (hb : Rooted env b) (hoff : ¬ b <:+ s.tip) (hbc : b <:+ c)
    (hu : (s.parkDeepReorg env b).Unparked c) : rewindDepth s.tip b ≤ env.parkReorgDepth := by
  by_contra hdeep
  have hfork := findFork_eq_meet s.tip b
  set fork := findFork s.tip b with hf
  have hfb : fork <:+ b := hfork ▸ Branch.meet_suffix_left b s.tip
  have hft : fork <:+ s.tip := hfork ▸ Branch.meet_suffix_right b s.tip
  have hne : fork ≠ [] := by
    intro he
    have := Branch.suffix_meet hb.genesis ht.genesis
    grind
  have hnb : fork ≠ b := fun he => hoff (he ▸ hft)
  have hd : nHeight s.tip - nHeight fork > env.parkReorgDepth := by
    have e : rewindDepth s.tip b = nHeight s.tip - nHeight fork := by
      rw [rewindDepth, lastCommonAncestor_eq_meet, Branch.meet_comm, hfork]
    omega
  -- the root of the branch is one block above the fork
  set root := getAncestor b (nHeight fork + 1) with hroot
  have hlen : fork.length < b.length :=
    lt_of_le_of_ne hfb.length_le fun he => hnb (hfb.eq_of_length he)
  have efork := nHeight_eq fork
  have eb := nHeight_eq b
  have hrl : root.length = nHeight fork + 2 := by
    have := getAncestor_length (b := b) (h := nHeight fork + 1) (by omega) (by omega)
    rw [← hroot] at this
    omega
  have hrb : root <:+ b := getAncestor_suffix _ _
  have hrne : root ≠ [] := by
    intro he
    rw [he, length_nil] at hrl
    omega
  have hrt : ¬ root <:+ s.tip := by
    intro hrt
    have := (Branch.suffix_meet hrb hrt).length_le
    rw [← hfork] at this
    omega
  have hpark := parkDeepReorg_sameIndex env s b
  have hrp := hu root hrne (hrb.trans hbc) (by rw [hpark.1.tip]; exact hrt)
  -- but the decision parked it
  have : ((s.parkDeepReorg env b).data root).nStatus.parkedMask := by
    unfold parkDeepReorg
    rw [if_pos (by simp [hon, ht.ne_nil])]
    simp only [← hf, ← hroot]
    rw [if_pos ⟨hne, hnb, hd⟩]
    split
    · next hp => exact hp
    · rw [eraseCandidate_data, modifyStatus_nStatus]
      simp [BlockStatus.parkedMask]
  simp [this] at hrp

theorem Wf.of_sameIndex (h : Wf env s) (hs : SameIndex s s')
    (hc : ∀ c ∈ s'.setBlockIndexCandidates, c ∈ s.setBlockIndexCandidates) : Wf env s' := by
  refine h.narrow (narrows_of_same hs.known hs.seq hs.count hs.haveData hc hs.unlinked)
    (hs.tip ▸ h.tip_rooted) (hs.tip ▸ h.tip_data) fun c hcc => ?_
  rw [hs.workLess, hs.tip]
  exact h.cand_above c (hc c hcc)

/-! ## Top theorem -/

/-- What accepting the block `b` does to the chain state. -/
structure Accepted (env : Env) (b : BlockPtr) (s s' : Chainstate) : Prop where
  wf : Wf env s'
  tip : s'.tip = s.tip
  haveBranch : ∀ x, s.HaveBranch x → s'.HaveBranch x
  order : ∀ x y, x ≠ [] → s.HaveBranch x → y ≠ [] → s.HaveBranch y →
    s'.workLess env x y = s.workLess env x y
  cand : ∀ c ∈ s'.setBlockIndexCandidates, c ∈ s.setBlockIndexCandidates ∨
    b <:+ c ∧ (env.parkDeepReorg → rewindDepth s.tip b ≤ env.parkReorgDepth)

theorem Accepted.of_grows (h : Wf env s) (hw : Wf env s') (hg : Grows s s') :
    Accepted env b s s' where
  wf := hw
  tip := hg.tip
  haveBranch _ hx := hg.haveBranch h hx
  order x y hx hxb hy hyb :=
    hg.workLess (h.data_known x (hxb.self hx)) (h.data_known y (hyb.self hy))
  cand _ hc := .inl (hg.candidates ▸ hc)

theorem Accepted.trans_received {s1 s2 : Chainstate} (h : Accepted env b s s1) (hb : b ∈ s1.known)
    (hd : (s1.data b).nStatus.haveData = false) (hr : Received env b (s1.parkDeepReorg env b) s2) :
    Accepted env b s s2 := by
  have hbr := h.wf.known_rooted b hb
  obtain ⟨hs, hcand⟩ := parkDeepReorg_sameIndex env s1 b
  have hpb : ∀ x, s1.HaveBranch x → (s1.parkDeepReorg env b).HaveBranch x :=
    fun x hx y hy hyx => (hs.haveData y).trans (hx y hy hyx)
  refine ⟨hr.wf, ?_, ?_, ?_, ?_⟩
  · rw [hr.tip, hs.tip, h.tip]
  · exact fun x hx => hr.haveBranch x (hpb x (h.haveBranch x hx))
  · intro x y hx hxb hy hyb
    -- a complete branch does not contain the new block, so its order is the old one
    have hseq : ∀ z, s.HaveBranch z → (s2.data z).nSequenceId = (s1.data z).nSequenceId := by
      intro z hz
      rw [hr.seq z (not_suffix_of_haveBranch hbr.ne_nil hd (h.haveBranch z hz)), hs.seq]
    rw [← h.order x y hx hxb hy hyb]
    unfold Chainstate.workLess
    rw [hseq x hxb, hseq y hyb]
  · intro c hc
    rcases hr.cand c hc with hc | ⟨hbc, hu⟩
    · exact h.cand c (hcand c hc)
    refine .inr ⟨hbc, fun hon => ?_⟩
    rw [← h.tip]
    exact rewindDepth_le_of_unparked hon h.wf.tip_rooted hbr
      (not_suffix_of_haveBranch hbr.ne_nil hd h.wf.tip_data) hbc hu

/-- **Accepting a block** keeps the invariant and the tip; with parking on, a new candidate
descends from a block that rewinds at most `parkReorgDepth` blocks of the active chain. -/
theorem acceptBlock_spec {call : BlockCall} {r : Bool} (h : s.acceptBlock env call = some (s', r))
    (hw : Wf env s) :
    Accepted env call.header s s' ∧
      (r = false → s'.setBlockIndexCandidates = s.setBlockIndexCandidates) := by
  obtain ⟨⟨s1, accepted⟩, h1, h2⟩ := Option.map_eq_some_iff.1 h
  obtain ⟨hw1, hg, hk⟩ := acceptBlockHeader_spec h1 hw
  have hacc : Accepted env call.header s s1 := .of_grows hw hw1 hg
  cases accepted with
  | false =>
    cases h2
    exact ⟨hacc, fun _ => hg.candidates⟩
  | true =>
    have hb := hk rfl
    simp only [Bool.not_true, Bool.false_eq_true, if_false] at h2
    split at h2
    · cases h2
      exact ⟨hacc, fun _ => hg.candidates⟩
    next hskip =>
    split at h2
    · cases h2
      have hn := narrows_modifyStatus s1 call.header (fun st => { st with failedValid := true })
        fun _ => rfl
      have hw2 := hw1.of_sameIndex (SameIndex.modifyStatus s1 call.header
        (fun st => { st with failedValid := true }) (fun _ => rfl) (fun _ hp => hp)) hn.candidates
      exact ⟨⟨hw2, hacc.tip, fun x hx => hn.haveBranch (hacc.haveBranch x hx),
        fun x y hx hxb hy hyb => (hn.workLess env x y).trans (hacc.order x y hx hxb hy hyb),
        hacc.cand⟩, fun _ => hg.candidates⟩
    · cases h2
      exact ⟨hacc, fun _ => hg.candidates⟩
    · split at h2
      · cases h2
        exact ⟨hacc, fun _ => hg.candidates⟩
      cases h2
      obtain ⟨hs, hcand⟩ := parkDeepReorg_sameIndex env s1 call.header
      have hd : (s1.data call.header).nStatus.haveData = false := by
        unfold skipBody at hskip
        grind
      refine ⟨hacc.trans_received hb hd (receivedBlockTransactions_spec
        (hw1.of_sameIndex hs hcand) ?_ ?_ _), by rintro ⟨⟩⟩
      · rw [hs.known]
        exact hb
      · rw [hs.haveData]
        exact hd

end Chainstate

end BitcoinPurity
