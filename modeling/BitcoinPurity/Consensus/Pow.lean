import Mathlib.Data.Nat.Bitwise
import BitcoinPurity.Chain.Index
import BitcoinPurity.Lib.Truncation

/-!
The difficulty rules of `pow.cpp`: the retarget of every `DifficultyAdjustmentInterval()` blocks,
the `ASERT` rule from `nPurityActivationHeight` on, and the permissive
`PermittedDifficultyTransition` that header sync uses before it has a chain.

`GetCompact` cuts a target to three bytes with an exponent of base 256
(`setCompact_getCompact`), which is monotone.
`permittedDifficultyTransition_of_checkDifficultyBits`: a header that passes
`CheckDifficultyBits` is never refused by the permissive rule, as long as the longest timespan
fits the `uint32_t` by which targets are multiplied.
-/

namespace BitcoinPurity

open Nat

/-- The fields of `Consensus::Params` that the difficulty rules and the block pins read;
`0` stands for the null hash. -/
structure PowParams where
  powLimit : Nat
  fPowAllowMinDifficultyBlocks : Bool := false
  enforceBIP94 : Bool := false
  fPowNoRetargeting : Bool := false
  nPowTargetSpacing : Int
  nPowTargetTimespan : Int
  nPurityActivationHeight : Int := 2 ^ 31 - 1
  hashPurityActivationBlock : Nat := 0
  nDAAHalfLife : Int := 24 * 60 * 60
  nAsertAnchorHeight : Int := 0
  signetBlocks : Bool := false
  hashSignetForkParent : Nat := 0
  hashSignetAsertAnchor : Nat := 0
  hashSignetAsertAnchorParent : Nat := 0

variable (params : PowParams)

def PowParams.difficultyAdjustmentInterval : Int :=
  params.nPowTargetTimespan.tdiv params.nPowTargetSpacing

/-- The conversion of an `int64_t` to `int`. -/
def narrowInt (n : Int) : Int := n.bmod (2 ^ 32)

/-! ## 256-bit targets -/

variable (x : Nat)

def bits : Nat := if x = 0 then 0 else x.log2 + 1

/-- The three leading bytes of a number of `nSize` bytes. -/
def compactWord (x nSize : Nat) : Nat :=
  if nSize ≤ 3 then (x % 2 ^ 64) <<< (8 * (3 - nSize)) % 2 ^ 32
  else (x >>> (8 * (nSize - 3))) % 2 ^ 64 % 2 ^ 32

/-- The mantissa with its size in the top byte; the bit `0x00800000` is the sign, so a mantissa
that reaches it loses a byte. -/
def packCompact (nCompact nSize : Nat) : Nat :=
  if nCompact &&& 0x00800000 != 0 then (nCompact >>> 8) ||| ((nSize + 1) <<< 24)
  else nCompact ||| (nSize <<< 24)

def getCompact : Nat :=
  let nSize := (bits x + 7) / 8
  packCompact (compactWord x nSize) nSize

/-- `base_uint::operator*=(uint32_t)`; an `int64_t` operand is converted. -/
def mulInt (n : Int) : Nat := x * (n % 2 ^ 32).toNat % 2 ^ 256

/-- `base_uint::operator/=`; an `int64_t` operand goes through `uint64_t`. -/
def divInt (n : Int) : Nat := x / (n % 2 ^ 64).toNat

/-! ## Retargeting -/

/-- A target scaled by `timespan / nPowTargetTimespan` and capped at the limit. -/
def PowParams.scaleTarget (target : Nat) (timespan : Int) : Nat :=
  let bnNew := divInt (mulInt target timespan) params.nPowTargetTimespan
  if bnNew > params.powLimit then params.powLimit else bnNew

def blockBits : BlockPtr → Nat
  | [] => 0
  | h :: _ => h.nBits

def blockTime : BlockPtr → Int
  | [] => 0
  | h :: _ => h.nTime

variable (pindexLast : BlockPtr)

/-- `nHeightFirst`: where the adjustment interval that ends in the block began. -/
def PowParams.heightFirst : Int :=
  narrowInt (nHeight pindexLast - (params.difficultyAdjustmentInterval - 1))

/-- The timespan of an interval, limited to a factor of four. -/
def PowParams.clampTimespan (nActualTimespan : Int) : Int :=
  let nActualTimespan :=
    if nActualTimespan < params.nPowTargetTimespan.tdiv 4 then params.nPowTargetTimespan.tdiv 4
    else nActualTimespan
  if nActualTimespan > params.nPowTargetTimespan * 4 then params.nPowTargetTimespan * 4
  else nActualTimespan

def calculateNextWorkRequired (nFirstBlockTime : Int) : Nat :=
  if params.fPowNoRetargeting then blockBits pindexLast
  else
    let nActualTimespan := params.clampTimespan (blockTime pindexLast - nFirstBlockTime)
    let bnNew :=
      if params.enforceBIP94 then
        (setCompact (blockBits (getAncestor pindexLast (params.heightFirst pindexLast)))).1
      else (setCompact (blockBits pindexLast)).1
    getCompact (params.scaleTarget bnNew nActualTimespan)

/-! ## ASERT -/

def fitsInt64 (x : Int) : Bool := decide (-2 ^ 63 ≤ x ∧ x < 2 ^ 63)

/-- Where a product or a difference of the target calculation is outside of `int64_t`, on which
its behaviour is undefined. -/
def asertOverflows (nPowTargetSpacing nTimeDiff nHeightDiff : Int) : Bool :=
  !(fitsInt64 (nPowTargetSpacing * nHeightDiff)
    && fitsInt64 (nTimeDiff - nPowTargetSpacing * nHeightDiff)
    && fitsInt64 (nHeightDiff + 1) && fitsInt64 (nPowTargetSpacing * (nHeightDiff + 1))
    && fitsInt64 (nTimeDiff - nPowTargetSpacing * (nHeightDiff + 1))
    && fitsInt64 ((nTimeDiff - nPowTargetSpacing * (nHeightDiff + 1)) * 65536))

/-- `exponent`: the deviation from the schedule in half-lives, times `65536`. -/
def asertExponent (nPowTargetSpacing nTimeDiff nHeightDiff nHalfLife : Int) : Int :=
  ((nTimeDiff - nPowTargetSpacing * (nHeightDiff + 1)) * 65536).tdiv nHalfLife

/-- `factor`: the cubic that stands for `65536 * 2 ^ (frac / 65536)`. -/
def asertFactor (frac : Nat) : Nat :=
  65536 +
    ((195766423245049 * frac + 971821376 * frac * frac + 5127 * frac * frac * frac + 2 ^ 47)
      % 2 ^ 64) >>> 48

/-- The shift by a power of two and the clamps.  The number of bits is converted to 32 bits. -/
def asertShift (powLimit nextTarget : Nat) (shifts : Int) : Nat :=
  let nextTarget :=
    if shifts ≤ 0 then nextTarget >>> (-shifts % 2 ^ 32).toNat
    else
      let count := (shifts % 2 ^ 32).toNat
      let nextTargetShifted := if count < 256 then nextTarget <<< count % 2 ^ 256 else 0
      if nextTargetShifted >>> count ≠ nextTarget then powLimit else nextTargetShifted
  if nextTarget = 0 then 1 else if nextTarget > powLimit then powLimit else nextTarget

/-- The body of `CalculateASERT` and `CalculateSignetASERT`, which differ in the width of their
limit; `none` where an assertion fails or a signed operation overflows. -/
def asertTarget (limitBits refTarget : Nat) (nPowTargetSpacing nTimeDiff nHeightDiff : Int)
    (powLimit : Nat) (nHalfLife : Int) : Option Nat :=
  if ¬(0 < refTarget ∧ refTarget ≤ powLimit) ∨ powLimit >>> limitBits ≠ 0 ∨ nHeightDiff < 0
      ∨ nHalfLife ≤ 0 ∨ asertOverflows nPowTargetSpacing nTimeDiff nHeightDiff
      ∨ ¬((nTimeDiff - nPowTargetSpacing * nHeightDiff).natAbs < 2 ^ (63 - 16)) then
    none
  else
    let exponent := asertExponent nPowTargetSpacing nTimeDiff nHeightDiff nHalfLife
    let nextTarget := refTarget * asertFactor (exponent % 65536).toNat % 2 ^ 256
    some (asertShift powLimit nextTarget (exponent / 65536 - 16))

def calculateASERT : Nat → Int → Int → Int → Nat → Int → Option Nat := asertTarget 224

def calculateSignetASERT : Nat → Int → Int → Int → Nat → Int → Option Nat := asertTarget 239

/-- The body of `GetNextASERTWorkRequired` and `GetNextSignetASERTWorkRequired`, over the target
calculation each calls. -/
def nextAsertWork (calculate : Nat → Int → Int → Int → Nat → Int → Option Nat)
    (params : PowParams) (pindexPrev : BlockPtr) (pblock : CBlockHeader) : Option Nat :=
  let anchor := getAncestor pindexPrev params.nAsertAnchorHeight
  if anchor = [] then none
  else if params.fPowAllowMinDifficultyBlocks
      && (pblock.nTime : Int) > blockTime pindexPrev + 2 * params.nPowTargetSpacing then
    some (getCompact params.powLimit)
  else
    let anchorTime := if anchor.tail ≠ [] then blockTime anchor.tail else blockTime anchor
    let nTimeDiff := blockTime pindexPrev - anchorTime
    let nHeightDiff := nHeight pindexPrev - nHeight anchor
    (calculate (setCompact (blockBits anchor)).1 params.nPowTargetSpacing nTimeDiff nHeightDiff
      params.powLimit params.nDAAHalfLife).map getCompact

def getNextASERTWorkRequired : PowParams → BlockPtr → CBlockHeader → Option Nat :=
  nextAsertWork calculateASERT

def getNextSignetASERTWorkRequired : PowParams → BlockPtr → CBlockHeader → Option Nat :=
  nextAsertWork calculateSignetASERT

/-! ## The required and the claimed difficulty -/

/-- The walk to the last block that did not use the minimum-difficulty exception. -/
def lastRegularBits (params : PowParams) (nProofOfWorkLimit : Nat) : BlockPtr → Nat
  | [] => 0
  | [h] => h.nBits
  | h :: h' :: b =>
    if (nHeight (h :: h' :: b)).tmod params.difficultyAdjustmentInterval ≠ 0
        ∧ h.nBits = nProofOfWorkLimit then
      lastRegularBits params nProofOfWorkLimit (h' :: b)
    else h.nBits

/-- `GetNextWorkRequired`; `none` where an assertion fails or the interval is `0`, by which the
height is divided. -/
def getNextWorkRequired (pblock : CBlockHeader) : Option Nat :=
  if pindexLast = [] then none
  else if nHeight pindexLast + 1 ≥ params.nPurityActivationHeight then
    if params.fPowNoRetargeting then some (blockBits pindexLast)
    else if params.signetBlocks then getNextSignetASERTWorkRequired params pindexLast pblock
    else getNextASERTWorkRequired params pindexLast pblock
  else if params.difficultyAdjustmentInterval = 0 then none
  else if (nHeight pindexLast + 1).tmod params.difficultyAdjustmentInterval ≠ 0 then
    let nProofOfWorkLimit := getCompact params.powLimit
    if params.fPowAllowMinDifficultyBlocks then
      if (pblock.nTime : Int) > blockTime pindexLast + params.nPowTargetSpacing * 2 then
        some nProofOfWorkLimit
      else some (lastRegularBits params nProofOfWorkLimit pindexLast)
    else some (blockBits pindexLast)
  else
    let pindexFirst := getAncestor pindexLast (params.heightFirst pindexLast)
    if pindexFirst = [] then none
    else some (calculateNextWorkRequired params pindexLast (blockTime pindexFirst))

def checkDifficultyBits (claimedNBits requiredNBits : Nat) (height : Int) : Bool :=
  if height = params.nPurityActivationHeight then
    match deriveTarget claimedNBits params.powLimit, deriveTarget requiredNBits params.powLimit with
    | some claimedTarget, some requiredTarget => claimedTarget ≤ requiredTarget
    | _, _ => false
  else claimedNBits = requiredNBits

def permittedDifficultyTransition (height : Int) (oldNBits newNBits : Nat) : Bool :=
  if params.fPowAllowMinDifficultyBlocks then true
  else if height ≥ params.nPurityActivationHeight then true
  else if height.tmod params.difficultyAdjustmentInterval = 0 then
    let smallestTimespan := params.nPowTargetTimespan.tdiv 4
    let largestTimespan := params.nPowTargetTimespan * 4
    let observedNewTarget := (setCompact newNBits).1
    let oldTarget := (setCompact oldNBits).1
    let maximumNewTarget :=
      (setCompact (getCompact (params.scaleTarget oldTarget largestTimespan))).1
    let minimumNewTarget :=
      (setCompact (getCompact (params.scaleTarget oldTarget smallestTimespan))).1
    if maximumNewTarget < observedNewTarget then false
    else if minimumNewTarget > observedNewTarget then false
    else true
  else oldNBits = newNBits

/-! ## The compact form -/

theorem two_pow_eight_mul (n : Nat) : 2 ^ (8 * n) = 256 ^ n := pow_mul 2 8 n

theorem setCompact_pack {w : Nat} (s : Nat) (hw : w < 2 ^ 23) :
    (setCompact (w ||| s <<< 24)).1 =
        (if s ≤ 3 then w / 256 ^ (3 - s) else w * 256 ^ (s - 3) % 2 ^ 256) ∧
      (setCompact (w ||| s <<< 24)).2.1 = false ∧
      (w ||| s <<< 24) >>> 24 = s ∧ (w ||| s <<< 24) &&& 0x007fffff = w := by
  have hor : w ||| s <<< 24 = s * 2 ^ 24 + w := by
    rw [Nat.or_comm, ← Nat.shiftLeft_add_eq_or_of_lt (by omega), Nat.shiftLeft_eq]
  have hsize : (w ||| s <<< 24) >>> 24 = s := by
    omega
  have hword : (w ||| s <<< 24) &&& 0x007fffff = w := by
    rw [show 0x007fffff = 2 ^ 23 - 1 from rfl, and_two_pow_sub_one_eq_mod]
    omega
  have hsign : (w ||| s <<< 24) &&& 0x00800000 = 0 := by
    rw [show 0x00800000 = 2 ^ 23 from rfl, and_two_pow, testBit_eq_decide_div_mod_eq, hor,
      show (s * 2 ^ 24 + w) / 2 ^ 23 % 2 = 0 by omega]
    rfl
  refine ⟨?_, ?_, hsize, hword⟩
  · unfold setCompact
    simp only [hsize, hword]
    split <;> simp [shiftRight_eq_div_pow, shiftLeft_eq, two_pow_eight_mul]
  · simp [setCompact, hsign]

/-- **The overflow flag is exact**: it is raised when the mantissa times `256 ^ (size - 3)`
reaches `2 ^ 256`. -/
theorem setCompact_overflow (c : Nat) : (setCompact c).2.2 = true ↔
    2 ^ 256 * 256 ^ 3 ≤ (c &&& 0x007fffff) * 256 ^ (c >>> 24) := by
  have hw : c &&& 0x007fffff < 2 ^ 23 := by
    rw [show 0x007fffff = 2 ^ 23 - 1 from rfl, and_two_pow_sub_one_eq_mod]
    omega
  have hpow : 2 ^ 256 * 256 ^ 3 = 256 ^ 35 := by decide
  unfold setCompact
  generalize c &&& 0x007fffff = w at hw
  generalize c >>> 24 = s
  rw [hpow]
  by_cases hs : s ≤ 32
  · -- a mantissa of three bytes is too small, whatever it is
    have hlt : w * 256 ^ s < 256 ^ 35 := by
      calc w * 256 ^ s < 256 ^ 3 * 256 ^ s :=
            Nat.mul_lt_mul_of_pos_right (by omega) (Nat.pow_pos (by decide))
        _ ≤ 256 ^ 3 * 256 ^ 32 := Nat.mul_le_mul_left _ (Nat.pow_le_pow_right (by decide) hs)
    grind
  obtain ⟨j, rfl⟩ : ∃ j, s = 33 + j := ⟨s - 33, by omega⟩
  have hcut : 256 ^ 35 ≤ w * 256 ^ (33 + j) ↔ 256 ^ 2 ≤ w * 256 ^ j := by
    rw [show 256 ^ 35 = 256 ^ 2 * 256 ^ 33 by decide, Nat.pow_add, Nat.mul_left_comm,
      Nat.mul_comm (256 ^ 33)]
    exact Nat.mul_le_mul_right_iff (by decide)
  rw [hcut]
  simp only [show ¬ 33 + j ≤ 3 by omega, if_false, Bool.and_eq_true, Bool.or_eq_true, bne_iff_ne,
    decide_eq_true_eq]
  match j with
  | 0 => omega
  | 1 => omega
  | j + 2 =>
    have hle : w * 256 ^ 2 ≤ w * 256 ^ (j + 2) :=
      Nat.mul_le_mul_left _ (Nat.pow_le_pow_right (by decide) (by omega))
    grind

theorem and_sign_iff {m : Nat} (hm : m < 2 ^ 24) : (m &&& 0x00800000 != 0) ↔ 2 ^ 23 ≤ m := by
  rw [show 0x00800000 = 2 ^ 23 from rfl, and_two_pow, testBit_eq_decide_div_mod_eq,
    bne_iff_ne]
  by_cases h : m / 2 ^ 23 % 2 = 1
  · simp only [h, decide_true, Bool.toNat_true]
    omega
  · simp only [h, decide_false, Bool.toNat_false]
    omega

theorem size_bounds :
    x < 256 ^ ((bits x + 7) / 8) ∧ ((bits x + 7) / 8 ≠ 0 → 256 ^ ((bits x + 7) / 8 - 1) ≤ x) := by
  by_cases hx : x = 0
  · subst hx
    exact ⟨by decide, fun h => absurd rfl h⟩
  simp only [bits, hx, if_false, ← two_pow_eight_mul]
  constructor
  · exact lt_of_lt_of_le Nat.lt_log2_self (Nat.pow_le_pow_right (by decide) (by omega))
  · intro _
    exact le_trans (Nat.pow_le_pow_right (by decide) (by omega)) (Nat.log2_self_le hx)

section

open Truncation

variable {x n : Nat}

theorem compactWord_short (hlt : x < 256 ^ n) (hn : n ≤ 3) :
    compactWord x n = x * 256 ^ (3 - n) ∧ x * 256 ^ (3 - n) < 2 ^ 24 := by
  have hpos : 0 < 256 ^ (3 - n) := Nat.pow_pos (by decide)
  have hx24 : x < 2 ^ 24 := lt_of_lt_of_le hlt (Nat.pow_le_pow_right (by decide) hn)
  have hm : x * 256 ^ (3 - n) < 2 ^ 24 := by
    calc x * 256 ^ (3 - n) < 256 ^ n * 256 ^ (3 - n) := Nat.mul_lt_mul_of_pos_right hlt hpos
      _ = 256 ^ 3 := by rw [← Nat.pow_add, show n + (3 - n) = 3 by omega]
  refine ⟨?_, hm⟩
  rw [compactWord, if_pos hn, Nat.mod_eq_of_lt (by omega : x < 2 ^ 64), Nat.shiftLeft_eq,
    two_pow_eight_mul, Nat.mod_eq_of_lt (by omega)]

theorem compactWord_long (hlt : x < 256 ^ (n + 4)) :
    compactWord x (n + 4) = x / 256 ^ (n + 1) ∧ x / 256 ^ (n + 1) < 2 ^ 24 := by
  have hm : x / 256 ^ (n + 1) < 2 ^ 24 := by
    rw [Nat.div_lt_iff_lt_mul (Nat.pow_pos (by decide))]
    calc x < 256 ^ (n + 4) := hlt
      _ = 256 ^ 3 * 256 ^ (n + 1) := by rw [← pow_add, add_comm 3]
  refine ⟨?_, hm⟩
  rw [compactWord, if_neg (by omega), shiftRight_eq_div_pow, two_pow_eight_mul,
    show n + 4 - 3 = n + 1 by omega, mod_eq_of_lt (by omega : _ < 2 ^ 64),
    mod_eq_of_lt (by omega)]

theorem compactWord_bounds (x : Nat) : compactWord x ((bits x + 7) / 8) < 2 ^ 24 ∧
    (x ≠ 0 → 2 ^ 16 ≤ compactWord x ((bits x + 7) / 8)) ∧
    ((bits x + 7) / 8 ≤ 3 ∧
        compactWord x ((bits x + 7) / 8) = x * 256 ^ (3 - (bits x + 7) / 8) ∨
      ∃ k, (bits x + 7) / 8 = k + 4 ∧ compactWord x ((bits x + 7) / 8) = x / 256 ^ (k + 1)) := by
  obtain ⟨hlt, hge⟩ := size_bounds x
  generalize (bits x + 7) / 8 = n at hlt hge
  by_cases hn : n ≤ 3
  · obtain ⟨hword, hm⟩ := compactWord_short hlt hn
    refine ⟨by rwa [hword], fun hx => ?_, .inl ⟨hn, hword⟩⟩
    have hpos : n ≠ 0 := by
      rintro rfl
      exact hx (by simpa using hlt)
    rw [hword]
    calc 2 ^ 16 = 256 ^ (n - 1) * 256 ^ (3 - n) := by
          rw [← Nat.pow_add, show n - 1 + (3 - n) = 2 by omega]
          rfl
      _ ≤ x * 256 ^ (3 - n) := Nat.mul_le_mul_right _ (hge hpos)
  obtain ⟨k, rfl⟩ : ∃ k, n = k + 4 := ⟨n - 4, by omega⟩
  obtain ⟨hword, hm⟩ := compactWord_long hlt
  refine ⟨by rwa [hword], fun _ => ?_, .inr ⟨k, rfl, hword⟩⟩
  rw [hword, Nat.le_div_iff_mul_le (Nat.pow_pos (by decide))]
  calc 2 ^ 16 * 256 ^ (k + 1) = 256 ^ (k + 3) := by
        rw [show 2 ^ 16 = 256 ^ 2 by decide, ← Nat.pow_add, show 2 + (k + 1) = k + 3 by omega]
    _ ≤ x := hge (by omega)

/-- **What `GetCompact` writes**: a size, and a mantissa that leaves the sign bit clear and could not
be a byte longer. -/
theorem getCompact_form (x : Nat) : ∃ w s, getCompact x = w ||| s <<< 24 ∧ w < 2 ^ 23 ∧
    (x ≠ 0 → 2 ^ 15 ≤ w) ∧ (s ≤ 3 ∧ w = x * 256 ^ (3 - s) ∨ ∃ k, s = k + 3 ∧ w = x / 256 ^ k) := by
  obtain ⟨hlt, hge, hform⟩ := compactWord_bounds x
  unfold getCompact packCompact
  simp only [and_sign_iff hlt, shiftRight_eq_div_pow]
  generalize compactWord x ((bits x + 7) / 8) = m at *
  generalize (bits x + 7) / 8 = n at *
  split
  next hsign =>
    refine ⟨m / 2 ^ 8, n + 1, rfl, by omega, fun _ => by omega, ?_⟩
    obtain ⟨hn, rfl⟩ | ⟨k, rfl, rfl⟩ := hform
    · by_cases h3 : n = 3
      · -- the sign bit costs the lowest byte
        subst h3
        exact .inr ⟨1, rfl, by simp⟩
      · refine .inl ⟨by omega, ?_⟩
        rw [show 3 - n = 3 - (n + 1) + 1 by omega, Nat.pow_succ, ← Nat.mul_assoc]
        exact Nat.mul_div_cancel _ (by decide)
    · refine .inr ⟨k + 2, rfl, ?_⟩
      rw [Nat.div_div_eq_div_mul]
      rfl
  next hsign => grind

theorem setCompact_getCompact_form (hx : x < 2 ^ 256) (h0 : x ≠ 0) : ∃ w s k,
    getCompact x = w ||| s <<< 24 ∧ w < 2 ^ 23 ∧ 2 ^ 15 ≤ w ∧ IsExponent 256 (2 ^ 23) x k ∧
      (setCompact (getCompact x)).1 = truncate 256 k x ∧ truncate 256 k x * 256 ^ 3 = w * 256 ^ s := by
  obtain ⟨w, s, he, hw, hge, hform⟩ := getCompact_form x
  rw [he, (setCompact_pack s hw).1]
  obtain ⟨hs, rfl⟩ | ⟨k, rfl, rfl⟩ := hform
  · have hle : x ≤ x * 256 ^ (3 - s) := Nat.le_mul_of_pos_right x (Nat.pow_pos (by decide))
    refine ⟨_, s, 0, rfl, hw, hge h0, ⟨by omega, fun j hj => absurd hj (Nat.not_lt_zero j)⟩, ?_, ?_⟩
    · rw [if_pos hs, Nat.mul_div_cancel _ (Nat.pow_pos (by decide))]
      simp [truncate]
    · rw [Nat.mul_assoc, ← Nat.pow_add, Nat.sub_add_cancel hs]
      simp [truncate]
  · have hpos : 0 < 256 ^ k := Nat.pow_pos (by decide)
    refine ⟨_, _, k, rfl, hw, hge h0, ⟨(div_lt_iff_lt_mul hpos).1 hw, fun j hj => ?_⟩, ?_, ?_⟩
    · calc 2 ^ 23 * 256 ^ j = 2 ^ 15 * 256 ^ (j + 1) := by rw [Nat.pow_succ]; omega
        _ ≤ 2 ^ 15 * 256 ^ k := Nat.mul_le_mul_left _ (Nat.pow_le_pow_right (by decide) hj)
        _ ≤ x := (Nat.le_div_iff_mul_le hpos).1 (hge h0)
    · split
      next hs =>
        obtain rfl : k = 0 := by omega
        simp [truncate]
      next hs =>
        exact mod_eq_of_lt (lt_of_le_of_lt (truncate_le 256 k x) hx)
    · rw [truncate, Nat.pow_add, Nat.mul_assoc]

/-- **`GetCompact` drops the bytes below its three leading ones.** -/
theorem setCompact_getCompact (hx : x < 2 ^ 256) :
    ∃ k, IsExponent 256 (2 ^ 23) x k ∧ (setCompact (getCompact x)).1 = truncate 256 k x := by
  rcases eq_or_ne x 0 with rfl | h0
  · exact ⟨0, ⟨by decide, fun j hj => absurd hj (Nat.not_lt_zero j)⟩, by decide⟩
  obtain ⟨-, -, k, -, -, -, hk, he, -⟩ := setCompact_getCompact_form hx h0
  exact ⟨k, hk, he⟩

theorem setCompact_getCompact_mono {y : Nat} (hy : y < 2 ^ 256) (h : x ≤ y) :
    (setCompact (getCompact x)).1 ≤ (setCompact (getCompact y)).1 := by
  obtain ⟨k, hk, hkx⟩ := setCompact_getCompact (lt_of_le_of_lt h hy)
  obtain ⟨l, hl, hly⟩ := setCompact_getCompact hy
  rw [hkx, hly]
  exact hk.truncate_mono (by decide) (by decide) hl h

theorem setCompact_form (c : Nat) : ∃ m j, m < 2 ^ 23 ∧ (setCompact c).1 = m * 256 ^ j := by
  have hw : c &&& 0x007fffff < 2 ^ 23 := by
    rw [show 0x007fffff = 2 ^ 23 - 1 from rfl, and_two_pow_sub_one_eq_mod]
    omega
  unfold setCompact
  generalize c &&& 0x007fffff = w at hw
  generalize c >>> 24 = s
  by_cases hs : s ≤ 3
  · refine ⟨w >>> (8 * (3 - s)), 0, lt_of_le_of_lt (shiftRight_le _ _) hw, ?_⟩
    simp [hs]
  simp only [hs, if_false, shiftLeft_eq, two_pow_eight_mul]
  by_cases h32 : s - 3 ≤ 32
  · -- a word that reaches beyond 256 bits loses its leading bytes
    refine ⟨w % 256 ^ (32 - (s - 3)), s - 3, lt_of_le_of_lt (mod_le _ _) hw, ?_⟩
    rw [show 2 ^ 256 = 256 ^ (32 - (s - 3)) * 256 ^ (s - 3) by
      rw [← pow_add, show 32 - (s - 3) + (s - 3) = 32 by omega]
      exact two_pow_eight_mul 32,
      mul_mod_mul_right]
  · refine ⟨0, 0, by decide, ?_⟩
    refine mod_eq_zero_of_dvd (Dvd.dvd.mul_left ?_ w)
    rw [show 2 ^ 256 = 256 ^ 32 from two_pow_eight_mul 32]
    exact pow_dvd_pow 256 (by omega)

theorem setCompact_getCompact_setCompact {c : Nat} (h : (setCompact c).1 < 2 ^ 256) :
    (setCompact (getCompact (setCompact c).1)).1 = (setCompact c).1 := by
  obtain ⟨k, hk, he⟩ := setCompact_getCompact h
  obtain ⟨m, j, hm, hc⟩ := setCompact_form c
  rw [he]
  exact hk.truncate_eq (by decide) hm hc

/-- **The compact form of a target.**  It sets no flag, it is the target without the bytes below a
mantissa of three, it is zero for zero only, it is written back as it was read, it keeps the order,
and an encoding overflows exactly when its mantissa times `256 ^ (size - 3)` needs more than
256 bits. -/
theorem compact_codec (hx : x < 2 ^ 256) :
    (setCompact (getCompact x)).2 = (false, false) ∧
    (setCompact (getCompact x)).1 ≤ x ∧
    (∃ k, IsExponent 256 (2 ^ 23) x k ∧ (setCompact (getCompact x)).1 = truncate 256 k x) ∧
    ((setCompact (getCompact x)).1 = 0 → x = 0) ∧
    getCompact (setCompact (getCompact x)).1 = getCompact x ∧
    (∀ y < 2 ^ 256, x ≤ y → (setCompact (getCompact x)).1 ≤ (setCompact (getCompact y)).1) ∧
    ∀ c, (setCompact c).2.2 = true ↔ 2 ^ 256 * 256 ^ 3 ≤ (c &&& 0x007fffff) * 256 ^ (c >>> 24) := by
  rcases eq_or_ne x 0 with rfl | hx0
  · exact ⟨by decide, by decide, setCompact_getCompact hx, fun _ => rfl, by decide,
      fun y hy hxy => setCompact_getCompact_mono hy hxy, setCompact_overflow⟩
  obtain ⟨w, s, k, hc, hw, hge, hk, he, hval⟩ := setCompact_getCompact_form hx hx0
  have hle := truncate_le 256 k x
  rw [← he] at hle hval
  have hne : (setCompact (getCompact x)).1 ≠ 0 := by
    intro h0
    have hpos : 0 < w * 256 ^ s := Nat.mul_pos (by omega) (Nat.pow_pos (by decide))
    omega
  have hneg : (setCompact (getCompact x)).2.1 = false := by
    rw [hc]
    exact (setCompact_pack s hw).2.1
  have hover : (setCompact (getCompact x)).2.2 = false := by
    rw [← Bool.not_eq_true, setCompact_overflow, hc, (setCompact_pack s hw).2.2.1,
      (setCompact_pack s hw).2.2.2]
    omega
  refine ⟨Prod.ext hneg hover, hle, ⟨k, hk, he⟩, fun h0 => absurd h0 hne, ?_,
    fun y hy hxy => setCompact_getCompact_mono hy hxy, setCompact_overflow⟩
  -- both are mantissas of full length for one value
  have hlt := lt_of_le_of_lt hle hx
  obtain ⟨w', s', _, hc', hw', hge', -, he', hval'⟩ := setCompact_getCompact_form hlt hne
  rw [← he', setCompact_getCompact_setCompact hlt, hval] at hval'
  obtain ⟨rfl, rfl⟩ := scaled_inj (by decide) hw hw' (by omega) (by omega) hval'
  rw [hc', hc]

theorem compact_codec_signByte : (setCompact (getCompact 0x80ffff)).1 = 0x80ff00 ∧
    getCompact (setCompact (getCompact 0x80ffff)).1 = getCompact 0x80ffff :=
  ⟨by decide, (compact_codec (by decide : 0x80ffff < 2 ^ 256)).2.2.2.2.1⟩

end

/-! ## What the permissive rule lets through -/

/-- The timespan is positive, four times as long it fits the `uint32_t` of `operator*=`, and the
limit times it fits 256 bits. -/
structure PowParams.Fits (params : PowParams) : Prop where
  pos : 0 < params.nPowTargetTimespan
  timespan : params.nPowTargetTimespan * 4 < 2 ^ 32
  target : (params.powLimit : Int) * 4 * params.nPowTargetTimespan < 2 ^ 256

section

variable {params : PowParams} {t : Nat}

section

variable (hfits : params.Fits)
include hfits

theorem PowParams.Fits.powLimit_lt : params.powLimit < 2 ^ 256 := by
  have hle : params.powLimit * 4 * 1 ≤ params.powLimit * 4 * params.nPowTargetTimespan :=
    Int.mul_le_mul_of_nonneg_left hfits.pos (by omega)
  have := hfits.target
  omega

section
variable (ht : t ≤ params.powLimit)
include ht

theorem PowParams.Fits.scaleTarget_eq {a : Int}
    (h0 : 0 ≤ a) (h4 : a ≤ params.nPowTargetTimespan * 4) :
    params.scaleTarget t a =
      min params.powLimit (t * a.toNat / params.nPowTargetTimespan.toNat) := by
  have hspan := hfits.timespan
  have hmul : t * a.toNat < 2 ^ 256 := by
    have hlim := hfits.target
    have hle : t * a.toNat ≤ params.powLimit * (params.nPowTargetTimespan * 4).toNat :=
      Nat.mul_le_mul ht (by omega)
    have hcast : ((params.powLimit * (params.nPowTargetTimespan * 4).toNat : Nat) : Int) =
        params.powLimit * 4 * params.nPowTargetTimespan := by
      rw [cast_mul, Int.toNat_of_nonneg (by omega), Int.mul_comm params.nPowTargetTimespan,
        Int.mul_assoc]
    omega
  have hnum : mulInt t a = t * a.toNat := by
    rw [mulInt, Int.emod_eq_of_lt h0 (by omega), mod_eq_of_lt hmul]
  have hden : (params.nPowTargetTimespan % 2 ^ 64).toNat = params.nPowTargetTimespan.toNat := by
    rw [Int.emod_eq_of_lt (by omega) (by omega)]
  unfold PowParams.scaleTarget divInt
  rw [hnum, hden]
  dsimp only
  split <;> omega

theorem PowParams.Fits.scaleTarget_mono
    {a b : Int} (h0 : 0 ≤ a) (hab : a ≤ b) (h4 : b ≤ params.nPowTargetTimespan * 4) :
    params.scaleTarget t a ≤ params.scaleTarget t b := by
  rw [hfits.scaleTarget_eq ht h0 (by omega), hfits.scaleTarget_eq ht (by omega) h4]
  exact min_le_min_left _ (Nat.div_le_div_right (Nat.mul_le_mul_left _ (Int.toNat_le_toNat hab)))

theorem PowParams.Fits.scaleTarget_self : params.scaleTarget t params.nPowTargetTimespan = t := by
  have hpos := hfits.pos
  rw [hfits.scaleTarget_eq ht (by omega) (by omega), Nat.mul_div_cancel _ (by omega)]
  exact min_eq_right ht

end

end

theorem permitted_of_scaled (hfits : params.Fits) {height : Int} {oldNBits newNBits : Nat}
    (hold : (setCompact oldNBits).1 ≤ params.powLimit)
    (hretarget : height.tmod params.difficultyAdjustmentInterval = 0) {a : Int}
    (hmin : params.nPowTargetTimespan.tdiv 4 ≤ a) (hmax : a ≤ params.nPowTargetTimespan * 4)
    (hnew : (setCompact newNBits).1 =
      (setCompact (getCompact (params.scaleTarget (setCompact oldNBits).1 a))).1) :
    permittedDifficultyTransition params height oldNBits newNBits := by
  have hpos := hfits.pos
  have hdiv : 0 ≤ params.nPowTargetTimespan.tdiv 4 := Int.tdiv_nonneg (by omega) (by omega)
  have hlt {b : Int} h0 h4 :
      params.scaleTarget (setCompact oldNBits).1 b < 2 ^ 256 :=
    lt_of_le_of_lt (hfits.scaleTarget_eq hold h0 h4 ▸ min_le_left _ _) hfits.powLimit_lt
  have hlow := setCompact_getCompact_mono (hlt (by omega) hmax)
    (hfits.scaleTarget_mono hold hdiv hmin hmax)
  have hhigh := setCompact_getCompact_mono (hlt (by omega) le_rfl)
    (hfits.scaleTarget_mono hold (by omega) hmax le_rfl)
  unfold permittedDifficultyTransition
  grind

/-- Each header's `nBits` passed `CheckDifficultyBits` against `GetNextWorkRequired`, and each
target is between `1` and the limit. -/
def DifficultyChecked (params : PowParams) : BlockPtr → Prop
  | [] => True
  | h :: prev => (1 ≤ (setCompact h.nBits).1 ∧ (setCompact h.nBits).1 ≤ params.powLimit) ∧
    (prev ≠ [] → ∃ required, getNextWorkRequired params prev h = some required ∧
      checkDifficultyBits params h.nBits required (nHeight (h :: prev))) ∧
    DifficultyChecked params prev

/-- **Permitted transitions**: after a chain whose difficulties were checked, the permissive rule
refuses no header that passes `CheckDifficultyBits`, before, at and after the activation height. -/
theorem permittedDifficultyTransition_of_checkDifficultyBits (params : PowParams)
    (hfits : params.Fits)
    (hrule : params.fPowAllowMinDifficultyBlocks ∨ params.enforceBIP94 = false)
    (prev : BlockPtr) (hchain : DifficultyChecked params prev) (h : CBlockHeader) (required : Nat)
    (hreq : getNextWorkRequired params prev h = some required)
    (hcheck : checkDifficultyBits params h.nBits required (nHeight prev + 1)) :
    permittedDifficultyTransition params (nHeight prev + 1) (blockBits prev) h.nBits := by
  by_cases hmin : params.fPowAllowMinDifficultyBlocks
  · simp [permittedDifficultyTransition, hmin]
  by_cases hact : nHeight prev + 1 ≥ params.nPurityActivationHeight
  · simp [permittedDifficultyTransition, hact]
  have hbits : h.nBits = required := by
    rw [checkDifficultyBits, if_neg (by omega)] at hcheck
    exact of_decide_eq_true hcheck
  have hprev : prev ≠ [] := by
    rintro rfl
    cases hreq
  have hlimit : (setCompact (blockBits prev)).1 ≤ params.powLimit := by
    obtain ⟨p, rest, rfl⟩ := List.exists_cons_of_ne_nil hprev
    exact hchain.1.2
  unfold getNextWorkRequired at hreq
  simp only [hprev, if_false, hact] at hreq
  split at hreq
  · cases hreq
  by_cases hretarget : (nHeight prev + 1).tmod params.difficultyAdjustmentInterval = 0
  · simp only [hretarget, ne_eq, not_true_eq_false, if_false] at hreq
    split at hreq
    · cases hreq
    injection hreq with hreq
    subst hreq
    have hpos := hfits.pos
    have hdiv : params.nPowTargetTimespan.tdiv 4 = params.nPowTargetTimespan / 4 :=
      Int.tdiv_eq_ediv_of_nonneg (by omega)
    by_cases hfix : params.fPowNoRetargeting
    · -- the old target stays: it is scaled by the whole timespan
      refine permitted_of_scaled hfits hlimit hretarget (a := params.nPowTargetTimespan)
        (by omega) (by omega) ?_
      rw [hfits.scaleTarget_self hlimit, hbits, calculateNextWorkRequired, if_pos hfix,
        setCompact_getCompact_setCompact (lt_of_le_of_lt hlimit hfits.powLimit_lt)]
    · have hbip : params.enforceBIP94 = false := hrule.resolve_left hmin
      have hclamp (n : Int) : params.nPowTargetTimespan.tdiv 4 ≤ params.clampTimespan n ∧
          params.clampTimespan n ≤ params.nPowTargetTimespan * 4 := by
        unfold PowParams.clampTimespan
        dsimp only
        split <;> split <;> omega
      obtain ⟨hlow, hhigh⟩ :=
        hclamp (blockTime prev - blockTime (getAncestor prev (params.heightFirst prev)))
      refine permitted_of_scaled hfits hlimit hretarget hlow hhigh ?_
      simp [hbits, calculateNextWorkRequired, hfix, hbip]
  · simp only [hretarget, ne_eq, not_false_eq_true, if_true, Option.some.injEq] at hreq
    simp [permittedDifficultyTransition, hretarget, hbits, hreq]

def timedHeader (nTime nBits : Nat) : CBlockHeader :=
  { nVersion := 4, hashMerkleRoot := 0, nTime := nTime, nBits := nBits, nNonce := 0 }

/-- Two blocks at the limit in one second, with intervals of two blocks meant to last eight
seconds: the third block has a quarter of the target. -/
theorem permittedDifficultyTransition_of_checkDifficultyBits_retarget :
    permittedDifficultyTransition
      { powLimit := 2 ^ 224 - 1, nPowTargetSpacing := 4, nPowTargetTimespan := 8 }
      2 0x1d00ffff 0x1c3fffc0 :=
  permittedDifficultyTransition_of_checkDifficultyBits
    { powLimit := 2 ^ 224 - 1, nPowTargetSpacing := 4, nPowTargetTimespan := 8 }
    ⟨by decide, by decide, by decide⟩ (.inr rfl)
    [timedHeader 1 0x1d00ffff, timedHeader 0 0x1d00ffff]
    ⟨by decide +kernel, fun _ => ⟨0x1d00ffff, by decide +kernel, by decide +kernel⟩,
      by decide +kernel, nofun, trivial⟩
    (timedHeader 2 0x1c3fffc0) 0x1c3fffc0 (by decide +kernel) (by decide +kernel)

def everyBlockParams (powLimit : Nat) (nPowTargetTimespan : Int) : PowParams :=
  { powLimit := powLimit, nPowTargetSpacing := nPowTargetTimespan,
    nPowTargetTimespan := nPowTargetTimespan }

/-- With a timespan of `2 ^ 30` seconds four times the timespan is `0` as a `uint32_t`, and the
permissive rule's largest target with it; a negative timespan of `- 2 ^ 31` does the same to the
target the next block must have. Either way a header that passes `CheckDifficultyBits` is
refused. -/
theorem permittedDifficultyTransition_wide_timespan :
    let wide := everyBlockParams (2 ^ 200) (2 ^ 30)
    let negative := everyBlockParams (2 ^ 200) (-2 ^ 31)
    let genesis := timedHeader 0 (getCompact (2 ^ 200))
    let quarter := timedHeader 1 (getCompact (2 ^ 198))
    let zero := timedHeader 1 0
    (wide.powLimit * 4 * wide.nPowTargetTimespan < 2 ^ 256 ∧
      wide.enforceBIP94 = false ∧ DifficultyChecked wide [genesis] ∧
      getNextWorkRequired wide [genesis] quarter = some quarter.nBits ∧
      checkDifficultyBits wide quarter.nBits quarter.nBits (nHeight [genesis] + 1) ∧
      permittedDifficultyTransition wide (nHeight [genesis] + 1) genesis.nBits quarter.nBits
        = false) ∧
    (negative.powLimit * 4 * negative.nPowTargetTimespan < 2 ^ 256 ∧
      negative.enforceBIP94 = false ∧ DifficultyChecked negative [genesis] ∧
      getNextWorkRequired negative [genesis] zero = some zero.nBits ∧
      checkDifficultyBits negative zero.nBits zero.nBits (nHeight [genesis] + 1) ∧
      permittedDifficultyTransition negative (nHeight [genesis] + 1) genesis.nBits zero.nBits
        = false) := by
  refine ⟨⟨by decide, rfl, ⟨by decide +kernel, nofun, trivial⟩, ?_⟩,
    ⟨by decide, rfl, ⟨by decide +kernel, nofun, trivial⟩, ?_⟩⟩
  · decide +kernel
  · decide +kernel

end

end BitcoinPurity
