import BitcoinPurity.Lib.LastBy
import Mathlib.Algebra.Order.Ring.Int
import BitcoinPurity.Lib.Branch

/-!
The block index: `CBlockIndex`, `CChain` and the order of
`setBlockIndexCandidates`.

A `CBlockIndex*` is the list of headers from the block down to genesis: a block
hash commits to the parent hash, so the header chain identifies the entry.
`pprev` is `tail`, the null pointer is `[]`, and "is an ancestor of" is `<:+`.
What changes while the node runs (`nStatus`, `nTx`, `m_chain_tx_count`,
`nSequenceId`) is in `BlockData`.
-/

namespace BitcoinPurity

open List Branch

/-- `CBlockHeader`; `hashPrevBlock` is the tail of the block pointer. -/
structure CBlockHeader where
  nVersion : BitVec 32
  hashMerkleRoot : Nat
  nTime : Nat
  nBits : Nat
  nNonce : Nat
deriving DecidableEq, Repr

/-- A `CBlockIndex*`: the headers from the block down to genesis, `[]` for `nullptr`. -/
abbrev BlockPtr := List CBlockHeader

instance : LawfulBEq BlockPtr := List.instLawfulBEq

/-! ## Ancestors, forks and work -/

/-- `nHeight`; `-1` for the null pointer, as `CChain::Height()` of an empty chain. -/
def nHeight (b : BlockPtr) : Int := (b.length : Int) - 1

/-- `CBlockIndex::GetAncestor` (the skip list only makes it faster). -/
def getAncestor (b : BlockPtr) (height : Int) : BlockPtr :=
  if height > nHeight b ∨ height < 0 then [] else b.drop (nHeight b - height).toNat

/-- `CChain::Contains`, on the chain that ends in `tip`. -/
def chainContains (tip b : BlockPtr) : Bool := b ≠ [] && decide (b <:+ tip)

def findForkWalk (tip : BlockPtr) : BlockPtr → BlockPtr
  | [] => []
  | x :: b => if chainContains tip (x :: b) then x :: b else findForkWalk tip b

/-- `CChain::FindFork`: the last block of the chain ending in `tip` that is on `b`'s branch. -/
def findFork (tip b : BlockPtr) : BlockPtr :=
  findForkWalk tip (if nHeight b > nHeight tip then getAncestor b (nHeight tip) else b)

/-- The loop of `LastCommonAncestor`, on two blocks of one height. -/
def lastCommonAncestorWalk : BlockPtr → BlockPtr → BlockPtr
  | x :: a, y :: b => if x :: a = y :: b then x :: a else lastCommonAncestorWalk a b
  | _, _ => []

def lastCommonAncestor (pa pb : BlockPtr) : BlockPtr :=
  if nHeight pa > nHeight pb then lastCommonAncestorWalk (getAncestor pa (nHeight pb)) pb
  else if nHeight pb > nHeight pa then lastCommonAncestorWalk pa (getAncestor pb (nHeight pa))
  else lastCommonAncestorWalk pa pb

/-- `arith_uint256::SetCompact`: the value with its negative and overflow flags. -/
def setCompact (nCompact : Nat) : Nat × Bool × Bool :=
  let nSize := nCompact >>> 24
  let nWord := nCompact &&& 0x007fffff
  let nWord := if nSize ≤ 3 then nWord >>> (8 * (3 - nSize)) else nWord
  let value := if nSize ≤ 3 then nWord else (nWord <<< (8 * (nSize - 3))) % 2 ^ 256
  (value, nWord != 0 && nCompact &&& 0x00800000 != 0,
    nWord != 0 && (nSize > 34 || (nWord > 0xff && nSize > 33) || (nWord > 0xffff && nSize > 32)))

/-- `GetBlockProof`: the expected number of hashes behind a header. -/
def getBlockProof (nBits : Nat) : Nat :=
  let (bnTarget, fNegative, fOverflow) := setCompact nBits
  if fNegative || fOverflow || bnTarget == 0 then 0
  else (2 ^ 256 - 1 - bnTarget) / (bnTarget + 1) + 1

def deriveTarget (nBits powLimit : Nat) : Option Nat :=
  let (bnTarget, fNegative, fOverflow) := setCompact nBits
  if fNegative || bnTarget == 0 || fOverflow || bnTarget > powLimit then none else some bnTarget

def nChainWork : BlockPtr → Nat
  | [] => 0
  | h :: b => nChainWork b + getBlockProof h.nBits

/-! ## What changes in an entry -/

/-- The `BLOCK_VALID_*` levels. -/
inductive BlockValidity
  | unknown | reserved | tree | transactions | chain | scripts
deriving DecidableEq, Repr

/-- The number a validity level has in `nStatus`. -/
def BlockValidity.level : BlockValidity → Nat
  | .unknown => 0
  | .reserved => 1
  | .tree => 2
  | .transactions => 3
  | .chain => 4
  | .scripts => 5

/-- `nStatus`, one field for each bit group. -/
structure BlockStatus where
  validity : BlockValidity := .unknown
  haveData : Bool := false
  haveUndo : Bool := false
  failedValid : Bool := false
  failedChild : Bool := false
  optWitness : Bool := false
  parked : Bool := false
  parkedChild : Bool := false
deriving DecidableEq, Repr

section

variable (st : BlockStatus)

def BlockStatus.failedMask : Bool := st.failedValid || st.failedChild

def BlockStatus.parkedMask : Bool := st.parked || st.parkedChild

def BlockStatus.isValid (nUpTo : BlockValidity) : Bool :=
  !st.failedMask && decide (st.validity.level ≥ nUpTo.level)

def BlockStatus.raiseValidity (nUpTo : BlockValidity) : BlockStatus :=
  if st.failedMask then st
  else if st.validity.level < nUpTo.level then { st with validity := nUpTo } else st

end

/-- `RaiseValidity` changes no other field. -/
theorem field_raiseValidity {β : Type*} {st : BlockStatus} {v : BlockValidity} (f : BlockStatus → β)
    (hf : ∀ v, f { st with validity := v } = f st := by intro; rfl) :
    f (st.raiseValidity v) = f st := by
  unfold BlockStatus.raiseValidity
  split
  · rfl
  split
  · exact hf v
  · rfl

def seqIdInitFromDisk : Int := 1

/-- The fields of a `CBlockIndex` that change while the node runs. -/
structure BlockData where
  nStatus : BlockStatus := {}
  nTx : Nat := 0
  chainTxCount : Nat := 0
  nSequenceId : Int := seqIdInitFromDisk
deriving DecidableEq, Repr

def BlockData.haveNumChainTxs (d : BlockData) : Bool := d.chainTxCount != 0

/-! ## The chain state -/

/-- The parts of `BlockManager`, `ChainstateManager` and the one `Chainstate` that
chain selection reads and writes.  `calls` counts the `ConnectBlock` and
`DisconnectBlock` calls made so far, `disconnects` the blocks disconnected. -/
structure Chainstate where
  known : List BlockPtr
  data : BlockPtr → BlockData
  blocksUnlinked : List (BlockPtr × BlockPtr)
  setBlockIndexCandidates : List BlockPtr
  tip : BlockPtr
  failedBlocks : List BlockPtr
  nBlockSequenceId : Int
  calls : Nat
  disconnects : Nat := 0

/-- What `ConnectBlock` reports for a block that is read back. -/
inductive ConnectOutcome
  | ok
  | invalid
  | mutated
  | error
deriving DecidableEq, Repr

/-- What the node does not decide itself: its options and consensus parameters, where
the allocator puts the entries (`addr`), and what the `n`-th call of `ConnectBlock` or
`DisconnectBlock` reports. -/
structure Env where
  genesis : CBlockHeader
  getHash : BlockPtr → Nat
  powLimit : Nat
  minimumChainWork : Nat
  segwitHeight : Int
  parkDeepReorg : Bool
  parkReorgDepth : Int
  addr : BlockPtr → Nat
  addr_inj : Function.Injective addr
  connectBlock : Nat → BlockPtr → ConnectOutcome
  disconnectBlock : Nat → BlockPtr → Bool

namespace Chainstate

section

variable (s : Chainstate) (b : BlockPtr)

def contains : Bool := chainContains s.tip b

def modify (f : BlockData → BlockData) : Chainstate :=
  { s with data := fun x => if x = b then f (s.data x) else s.data x }

def modifyStatus (f : BlockStatus → BlockStatus) : Chainstate :=
  s.modify b fun d => { d with nStatus := f d.nStatus }

def eraseCandidate : Chainstate :=
  { s with setBlockIndexCandidates := s.setBlockIndexCandidates.filter fun c => c ≠ b }

def insertCandidate : Chainstate :=
  if b ∈ s.setBlockIndexCandidates then s
  else { s with setBlockIndexCandidates := b :: s.setBlockIndexCandidates }

end

/-- `CBlockIndexWorkComparator`: less work, then later received, then higher address. -/
def workLess (env : Env) (s : Chainstate) (pa pb : BlockPtr) : Bool :=
  if nChainWork pa ≠ nChainWork pb then decide (nChainWork pa < nChainWork pb)
  else if (s.data pa).nSequenceId ≠ (s.data pb).nSequenceId then
    decide ((s.data pa).nSequenceId > (s.data pb).nSequenceId)
  else decide (env.addr pa > env.addr pb)

end Chainstate

/-! ## Lemmas -/

theorem nHeight_eq (b : BlockPtr) : nHeight b = (b.length : Int) - 1 := rfl

theorem getAncestor_suffix (b : BlockPtr) (h : Int) : getAncestor b h <:+ b := by
  unfold getAncestor
  split
  · exact nil_suffix
  · exact drop_suffix _ _

variable {b a : BlockPtr}

theorem getAncestor_length {h : Int} (h0 : 0 ≤ h) (h1 : h ≤ nHeight b) :
    ((getAncestor b h).length : Int) = h + 1 := by
  have hb := nHeight_eq b
  unfold getAncestor
  rw [if_neg (by omega), length_drop]
  omega

theorem getAncestor_of_suffix (h : a <:+ b) (ha : a ≠ []) : getAncestor b (nHeight a) = a := by
  have hl := h.length_le
  have hp := length_pos_iff.2 ha
  have ea := nHeight_eq a
  have eb := nHeight_eq b
  refine suffix_eq_of_length (getAncestor_suffix b _) h ?_
  have := getAncestor_length (b := b) (h := nHeight a) (by omega) (by omega)
  omega

theorem chainContains_iff {tip : BlockPtr} : chainContains tip b ↔ b ≠ [] ∧ b <:+ tip := by
  simp [chainContains]

theorem findForkWalk_eq_meet (tip b : BlockPtr) : findForkWalk tip b = meet b tip := by
  induction b with
  | nil => rfl
  | cons x b ih =>
    unfold findForkWalk meet
    rw [ih]
    simp [chainContains_iff]

theorem findFork_eq_meet (tip b : BlockPtr) : findFork tip b = meet b tip := by
  unfold findFork
  rw [findForkWalk_eq_meet]
  split
  · next h =>
    -- above the tip's height nothing is common
    refine suffix_antisymm (suffix_meet
      ((meet_suffix_left _ _).trans (getAncestor_suffix _ _)) (meet_suffix_right _ _))
      (suffix_meet ?_ (meet_suffix_right _ _))
    have hl := (meet_suffix_right b tip).length_le
    by_cases hn : meet b tip = []
    · rw [hn]; exact nil_suffix
    have hp := length_pos_iff.2 hn
    refine suffix_of_suffix_length_le (meet_suffix_left _ _) (getAncestor_suffix _ _) ?_
    have et := nHeight_eq tip
    have := getAncestor_length (b := b) (h := nHeight tip) (by omega) (by omega)
    omega
  · rfl

theorem lastCommonAncestorWalk_eq_meet (a b : BlockPtr) (h : a.length = b.length) :
    lastCommonAncestorWalk a b = meet a b := by
  induction a generalizing b with
  | nil => simp [lastCommonAncestorWalk, meet]
  | cons x a ih =>
    cases b with
    | nil => simp at h
    | cons y b =>
      simp only [length_cons, Nat.add_right_cancel_iff] at h
      unfold lastCommonAncestorWalk meet
      have hiff : (x :: a) <:+ (y :: b) ↔ x :: a = y :: b :=
        ⟨fun hs => hs.eq_of_length (by simp [h]), fun he => he ▸ suffix_refl _⟩
      split
      next he =>
        rw [if_pos (hiff.2 he)]
      next he =>
      rw [if_neg (fun hs => he (hiff.1 hs)), ih b h]
      -- the walk leaves both heads: neither is common
      refine suffix_antisymm (suffix_meet (meet_suffix_left _ _)
        ((meet_suffix_right _ _).trans (suffix_cons y b)))
        (suffix_meet (meet_suffix_left _ _) ?_)
      refine suffix_tail_of_ne (meet_suffix_right a (y :: b)) fun hc => ?_
      have := (meet_suffix_left a (y :: b)).length_le
      rw [hc, length_cons] at this
      omega

theorem getAncestor_meet (h : nHeight b < nHeight a) :
    meet (getAncestor a (nHeight b)) b = meet a b := by
  rw [← findFork_eq_meet b a, findFork, if_pos h, findForkWalk_eq_meet]

theorem getAncestor_length_eq (h : nHeight b < nHeight a) :
    (getAncestor a (nHeight b)).length = b.length := by
  by_cases hb : b = []
  · subst hb; simp [getAncestor, nHeight]
  have hp := length_pos_iff.2 hb
  have eb := nHeight_eq b
  have := getAncestor_length (b := a) (h := nHeight b) (by omega) (by omega)
  omega

theorem lastCommonAncestor_eq_meet (a b : BlockPtr) : lastCommonAncestor a b = meet a b := by
  unfold lastCommonAncestor
  split
  · next h => rw [lastCommonAncestorWalk_eq_meet _ _ (getAncestor_length_eq h), getAncestor_meet h]
  split
  · next h =>
    rw [lastCommonAncestorWalk_eq_meet _ _ (getAncestor_length_eq h).symm, meet_comm,
      getAncestor_meet h, meet_comm]
  next h1 h2 =>
  rw [lastCommonAncestorWalk_eq_meet]
  unfold nHeight at h1 h2
  omega

theorem nChainWork_le_of_suffix (h : a <:+ b) : nChainWork a ≤ nChainWork b := by
  induction b with
  | nil => rw [suffix_nil.1 h]
  | cons x b ih =>
    rcases suffix_cons_iff.1 h with rfl | h
    · exact Nat.le_refl _
    · exact Nat.le_trans (ih h) (Nat.le_add_right _ _)

theorem getBlockProof_pos {nBits powLimit t : Nat} (h : deriveTarget nBits powLimit = some t) :
    0 < getBlockProof nBits := by
  unfold deriveTarget at h
  unfold getBlockProof
  grind

namespace Chainstate

theorem workLess_iff {env : Env} {s : Chainstate} {a b : BlockPtr} :
    s.workLess env a b ↔ nChainWork a < nChainWork b ∨ nChainWork a = nChainWork b ∧
      ((s.data b).nSequenceId < (s.data a).nSequenceId ∨
        (s.data a).nSequenceId = (s.data b).nSequenceId ∧ env.addr b < env.addr a) := by
  unfold workLess
  grind

/-- The comparator is a strict total order on the entries. -/
instance workLess_strictTotalOrder (env : Env) (s : Chainstate) :
    IsStrictTotalOrder BlockPtr fun a b => s.workLess env a b = true where
  trichotomous a b hab hba := by
    rw [workLess_iff] at hab hba
    exact env.addr_inj (by omega)
  irrefl a h := by
    rw [workLess_iff] at h
    omega
  trans a b c hab hbc := by
    rw [workLess_iff] at hab hbc ⊢
    omega

end Chainstate

end BitcoinPurity
