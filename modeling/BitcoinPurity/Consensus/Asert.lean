import Mathlib.Algebra.Order.Field.Power
import Mathlib.Data.Rat.Floor
import BitcoinPurity.Consensus.ArithUint256
import BitcoinPurity.Consensus.Pow

/-!
# What ASERT computes

`CalculateASERT` scales the target of the anchor block by a power of two, in fixed point.
`asertFormula` is that power in unbounded arithmetic, and `asertSteps` the source's calculation
operation by operation, which stops where one of them leaves its type.

* `asert_exact`: on a chain of valid headers no assertion fails, no operation but the left shift
  loses bits, and the target is that of the formula.
* `asert_monotone`: a later block has no smaller target, and a higher one no larger.
-/

namespace BitcoinPurity

open Nat

/-! ## Algorithm -/

/-- The result of an operation on `int64_t`; `none` where it overflows. -/
def stepInt64 (x : Int) : Option Int := if fitsInt64 x then some x else none

/-- The result of an operation on `uint64_t`; `none` where it wraps. -/
def stepUInt64 (x : Nat) : Option Nat := if x < 2 ^ 64 then some x else none

/-- The conversion of a number of bits to `unsigned int` or `int`; `none` where it changes it. -/
def shiftCount (x : Int) : Option Nat := if 0 ≤ x ∧ x < 2 ^ 31 then some x.toNat else none

def cubicSteps (a b c d frac : Nat) : Option Nat := do
  let linear ← stepUInt64 (a * frac)
  let square ← stepUInt64 (b * frac)
  let square ← stepUInt64 (square * frac)
  let cube ← stepUInt64 (c * frac)
  let cube ← stepUInt64 (cube * frac)
  let cube ← stepUInt64 (cube * frac)
  let sum ← stepUInt64 (linear + square)
  let sum ← stepUInt64 (sum + cube)
  stepUInt64 (sum + d)

def factorSteps (frac : Nat) : Option Nat := do
  let sum ← cubicSteps 195766423245049 971821376 5127 (2 ^ 47) frac
  return 65536 + sum >>> 48

/-- A multiplication of 256-bit numbers; `none` where it wraps. -/
def mulSteps (x b32 : Nat) : Option Nat :=
  if mul256 x b32 = x * b32 then some (mul256 x b32) else none

variable (strict : Bool)

/-- A left shift; `none` where it loses bits and `strict` asks for that. -/
def shlSteps (x shift : Nat) : Option Nat :=
  if strict && shl256 x shift ≠ x * 2 ^ shift then none else some (shl256 x shift)

/-- `exponent` after the assertions of `CalculateASERT`, operation by operation. -/
def exponentSteps (nPowTargetSpacing nTimeDiff nHeightDiff nHalfLife : Int) : Option Int := do
  guard (0 ≤ nHeightDiff)
  guard (0 < nHalfLife)
  let schedule ← stepInt64 (nPowTargetSpacing * nHeightDiff)
  let deviation ← stepInt64 (nTimeDiff - schedule)
  let distance ← stepInt64 deviation.natAbs
  guard (distance < 2 ^ (63 - 16))
  let blocks ← stepInt64 (nHeightDiff + 1)
  let schedule ← stepInt64 (nPowTargetSpacing * blocks)
  let deviation ← stepInt64 (nTimeDiff - schedule)
  let scaled ← stepInt64 (deviation * 65536)
  stepInt64 (scaled.tdiv nHalfLife)

def shiftSteps (powLimit nextTarget : Nat) (shifts : Int) : Option Nat := do
  let nextTarget ←
    if shifts ≤ 0 then do
      let count ← shiftCount (-shifts)
      pure (shr256 nextTarget count)
    else do
      let count ← shiftCount shifts
      let nextTargetShifted ← shlSteps strict nextTarget count
      pure (if shr256 nextTargetShifted count ≠ nextTarget then powLimit else nextTargetShifted)
  return if nextTarget = 0 then 1 else if nextTarget > powLimit then powLimit else nextTarget

/-- `CalculateASERT` and `CalculateSignetASERT`, operation by operation; `none` where an assertion
fails, or an operation overflows, wraps or converts to another number. -/
def asertSteps (limitBits refTarget : Nat)
    (nPowTargetSpacing nTimeDiff nHeightDiff : Int) (powLimit : Nat) (nHalfLife : Int) :
    Option Nat := do
  guard (refTarget > 0 ∧ refTarget ≤ powLimit)
  guard (shr256 powLimit limitBits = 0)
  let exponent ← exponentSteps nPowTargetSpacing nTimeDiff nHeightDiff nHalfLife
  let shifts := exponent >>> (16 : Nat)
  let frac : Nat := (exponent % 65536).toNat
  let whole ← stepInt64 (shifts * 65536)
  let whole ← stepInt64 (whole + (frac : Int))
  guard (exponent = whole)
  let factor ← factorSteps frac
  let nextTarget ← mulSteps refTarget factor
  let shifts ← stepInt64 (shifts - 16)
  shiftSteps strict powLimit nextTarget shifts

def compactSteps (x : Nat) : Option Nat := do
  let nSize := (bits x + 7) / 8
  let nCompact := compactWord x nSize
  let (nCompact, nSize) :=
    if nCompact &&& 0x00800000 != 0 then (nCompact >>> 8, nSize + 1) else (nCompact, nSize)
  guard (nCompact < 2 ^ 23)
  guard (nSize < 256)
  return nCompact ||| (nSize <<< 24)

/-- The time from which the schedule of an anchor runs: that of its parent if it has one. -/
def anchorTime (anchor : BlockPtr) : Int :=
  if anchor.tail ≠ [] then blockTime anchor.tail else blockTime anchor

/-- The exception for blocks that are late, on networks that allow it. -/
def minDifficultyAllowed (params : PowParams) (pindexPrev : BlockPtr)
    (pblock : Option CBlockHeader) : Bool :=
  params.fPowAllowMinDifficultyBlocks && pblock.any fun pblock =>
    (pblock.nTime : Int) > blockTime pindexPrev + 2 * params.nPowTargetSpacing

/-- `GetNextASERTWorkRequired` with its assertions; `pblock` may be null. -/
def asertWorkSteps (limitBits : Nat) (params : PowParams) (pindexPrev : BlockPtr)
    (pblock : Option CBlockHeader) : Option Nat := do
  guard (pindexPrev ≠ [])
  let anchor := getAncestor pindexPrev params.nAsertAnchorHeight
  guard (anchor ≠ [])
  guard (nHeight pindexPrev ≥ nHeight anchor)
  if minDifficultyAllowed params pindexPrev pblock then compactSteps params.powLimit
  else
    let nTimeDiff := blockTime pindexPrev - anchorTime anchor
    let nHeightDiff := nHeight pindexPrev - nHeight anchor
    let nextTarget ← asertSteps strict limitBits (setCompact (blockBits anchor)).1
      params.nPowTargetSpacing nTimeDiff nHeightDiff params.powLimit params.nDAAHalfLife
    compactSteps nextTarget

def signetAsertWorkSteps (params : PowParams) (pindexPrev : BlockPtr)
    (pblock : Option CBlockHeader) : Option Nat := do
  guard params.signetBlocks
  asertWorkSteps strict 239 params pindexPrev pblock

/-! ## The formula -/

def cubicFactor (frac : Nat) : Nat :=
  65536 +
    (195766423245049 * frac + 971821376 * frac * frac + 5127 * frac * frac * frac + 2 ^ 47) / 2 ^ 48

/-- **The clamped formula** in unbounded arithmetic. -/
def asertFormula (refTarget powLimit : Nat) (exponent : Int) : Int :=
  min (powLimit : Int) (max 1
    ⌊(refTarget : ℚ) * cubicFactor (exponent % 65536).toNat * 2 ^ (exponent / 65536 - 16)⌋)

theorem asertFormula_le (refTarget powLimit : Nat) (e : Int) :
    asertFormula refTarget powLimit e ≤ powLimit := by
  exact min_le_left _ _

section
variable {f f' : Nat}

def cubicSum (frac : Nat) : Nat :=
  195766423245049 * frac + 971821376 * frac * frac + 5127 * frac * frac * frac + 2 ^ 47

theorem cubicSum_mono (h : f ≤ f') : cubicSum f ≤ cubicSum f' := by
  have hsquare : 971821376 * f * f ≤ 971821376 * f' * f' :=
    Nat.mul_le_mul (Nat.mul_le_mul_left _ h) h
  have hcube : 5127 * f * f * f ≤ 5127 * f' * f' * f' :=
    Nat.mul_le_mul (Nat.mul_le_mul (Nat.mul_le_mul_left _ h) h) h
  unfold cubicSum
  omega

theorem cubicSum_lt (h : f < 65536) : cubicSum f < 2 ^ 64 :=
  lt_of_le_of_lt (cubicSum_mono (le_of_lt_succ h)) (by decide)

theorem asertFactor_eq (h : f < 65536) : asertFactor f = cubicFactor f := by
  show 65536 + (cubicSum f % 2 ^ 64) >>> 48 = 65536 + cubicSum f / 2 ^ 48
  rw [mod_eq_of_lt (cubicSum_lt h), shiftRight_eq_div_pow]

theorem cubicFactor_lt (h : f < 65536) : cubicFactor f < 131072 := by
  have hdiv : cubicSum f / 2 ^ 48 < 65536 := Nat.div_lt_of_lt_mul (cubicSum_lt h)
  show 65536 + cubicSum f / 2 ^ 48 < 131072
  omega

theorem le_cubicFactor (f : Nat) : 65536 ≤ cubicFactor f := le_add_right _ _

theorem stepUInt64_eq {x : Nat} (h : x < 2 ^ 64) : stepUInt64 x = some x := if_pos h

theorem cubicSteps_eq {a b c d : Nat} (h : a * f + b * f * f + c * f * f * f + d < 2 ^ 64) :
    cubicSteps a b c d f = some (a * f + b * f * f + c * f * f * f + d) := by
  have hpow x : x * f ≤ x * f * f := by
    rcases Nat.eq_zero_or_pos f with rfl | hf
    · exact Nat.le_refl 0
    · exact Nat.le_mul_of_pos_right _ hf
  have hb := hpow b
  have hc := hpow c
  have hc' := hpow (c * f)
  -- every part of the sum fits, since the sum does
  simp (disch := omega) [cubicSteps, stepUInt64_eq]

theorem factorSteps_eq (h : f < 65536) : factorSteps f = some (cubicFactor f) := by
  rw [factorSteps, cubicSteps_eq (cubicSum_lt h), cubicFactor, ← shiftRight_eq_div_pow]
  rfl

end

/-! ## The shift and the clamps -/

section
variable {powLimit n : Nat} {s : Int}

theorem clamp_eq (hpow : 0 < powLimit) (t : Nat) :
    ((if t = 0 then 1 else if t > powLimit then powLimit else t : Nat) : Int) =
      min (powLimit : Int) (max 1 t) := by
  split
  · omega
  split
  · omega
  · omega

theorem floor_mul_zpow_neg (n k : Nat) :
    ⌊(n : ℚ) * 2 ^ (-(k : Int))⌋ = ((n / 2 ^ k : Nat) : Int) := by
  rw [zpow_neg]
  have h := Rat.floor_intCast_div_natCast n (2 ^ k)
  push_cast at h
  exact h

theorem floor_mul_zpow_pos (n k : Nat) : ⌊(n : ℚ) * 2 ^ (k : Int)⌋ = ((n * 2 ^ k : Nat) : Int) := by
  have h := Int.floor_intCast (R := ℚ) ((n * 2 ^ k) : Int)
  push_cast at h
  exact h

variable {k : Nat}

theorem shl_lossy (h : 2 ^ 256 ≤ n * 2 ^ k) : (n <<< k % 2 ^ 256) >>> k ≠ n := by
  intro heq
  rw [shiftLeft_eq, shiftRight_eq_div_pow] at heq
  have hle : n * 2 ^ k ≤ n * 2 ^ k % 2 ^ 256 := by
    conv_lhs => rw [← heq]
    exact div_mul_le_self _ _
  omega

theorem shl_exact (h : n * 2 ^ k < 2 ^ 256) :
    n <<< k % 2 ^ 256 = n * 2 ^ k ∧ (n <<< k % 2 ^ 256) >>> k = n := by
  have hshl : n <<< k % 2 ^ 256 = n * 2 ^ k := by rw [Nat.shiftLeft_eq, Nat.mod_eq_of_lt h]
  refine ⟨hshl, ?_⟩
  rw [hshl, Nat.shiftRight_eq_div_pow, Nat.mul_div_cancel _ (Nat.two_pow_pos k)]

theorem shl_if (n k : Nat) : (if k < 256 then n <<< k % 2 ^ 256 else 0) = n <<< k % 2 ^ 256 := by
  by_cases hk : k < 256
  · rw [if_pos hk]
  · rw [if_neg hk, shiftLeft_eq]
    exact (mod_eq_zero_of_dvd ((pow_dvd_pow 2 (by omega)).mul_left n)).symm

theorem shifts_cases (s : Int) : (∃ k : Nat, s = -(k : Int)) ∨ ∃ k : Nat, s = k ∧ 0 < k := by
  by_cases hs : s ≤ 0
  · exact .inl ⟨s.natAbs, by omega⟩
  · exact .inr ⟨s.natAbs, by omega, by omega⟩

theorem asertShift_neg (hk : k < 2 ^ 32) : asertShift powLimit n (-(k : Int)) =
      if n >>> k = 0 then 1 else if n >>> k > powLimit then powLimit else n >>> k := by
  have hcount : (-(-(k : Int)) % 2 ^ 32).toNat = k := by omega
  have hle : -(k : Int) ≤ 0 := by omega
  simp only [asertShift, hle, if_true, hcount]

theorem asertShift_pos (h0 : 0 < k) (hk : k < 2 ^ 32) : asertShift powLimit n (k : Int) =
      let t := if (n <<< k % 2 ^ 256) >>> k ≠ n then powLimit else n <<< k % 2 ^ 256
      if t = 0 then 1 else if t > powLimit then powLimit else t := by
  have hcount : ((k : Int) % 2 ^ 32).toNat = k := by omega
  have hpos : ¬ (k : Int) ≤ 0 := by omega
  simp only [asertShift, hpos, if_false, hcount, shl_if]

/-- **The shift is that of the formula** as long as the number of bits fits its type. -/
theorem asertShift_eq (hpow : 0 < powLimit) (hlimit : powLimit < 2 ^ 256) (hs : s.natAbs < 2 ^ 32) :
    (asertShift powLimit n s : Int) = min (powLimit : Int) (max 1 ⌊(n : ℚ) * 2 ^ s⌋) := by
  rcases shifts_cases s with ⟨k, rfl⟩ | ⟨k, rfl, hk⟩
  · rw [asertShift_neg (by omega), clamp_eq hpow, floor_mul_zpow_neg, shiftRight_eq_div_pow]
  · rw [asertShift_pos hk (by omega), clamp_eq hpow, floor_mul_zpow_pos]
    -- the test of the left shift tells whether it lost bits
    by_cases h : n * 2 ^ k < 2 ^ 256
    · rw [if_neg (by simpa using (shl_exact h).2), (shl_exact h).1]
    · rw [if_pos (shl_lossy (by omega))]
      omega

theorem shiftCount_eq (hk : k < 2 ^ 31) : shiftCount (k : Int) = some k := by
  rw [shiftCount, if_pos (by omega), Int.toNat_natCast]

/-- Operation by operation the shift is the same; a strict left shift stops where it loses bits. -/
theorem shiftSteps_eq (hn : n < 2 ^ 256) (hs : s.natAbs < 2 ^ 31) (strict : Bool) :
    shiftSteps strict powLimit n s = if strict ∧ 0 < s ∧ 2 ^ 256 ≤ n * 2 ^ s.toNat then none
      else some (asertShift powLimit n s) := by
  rcases shifts_cases s with ⟨k, rfl⟩ | ⟨k, rfl, hk⟩
  · rw [asertShift_neg (by omega), shiftSteps, if_pos (by omega), neg_neg,
      shiftCount_eq (by omega)]
    simp [shr256_eq hn]
  have hmod : (n <<< k) % 2 ^ 256 < 2 ^ 256 := mod_lt _ (by decide)
  rw [asertShift_pos hk (by omega), shiftSteps, if_neg (by omega), shiftCount_eq (by omega)]
  simp only [Option.bind_eq_bind, Option.bind_some, Option.pure_def, Int.toNat_natCast, shlSteps,
    shl256_eq hn]
  by_cases hloss : n * 2 ^ k < 2 ^ 256
  · simp only [(shl_exact hloss).1, ne_eq, not_true_eq_false, decide_false, Bool.and_false,
      Bool.false_eq_true, if_false, Option.bind_some, not_le.2 hloss, and_false]
    rw [shr256_eq hloss]
  have hne : n <<< k % 2 ^ 256 ≠ n * 2 ^ k := by omega
  have h0 : (0 : Int) < k := by omega
  cases strict with
  | true =>
    simp only [hne, ne_eq, not_false_eq_true, decide_true, Bool.and_self, if_true,
      Option.bind_none, h0, not_lt.1 hloss, and_self]
  | false =>
    simp only [Bool.false_and, Bool.false_eq_true, if_false, false_and, Option.bind_some,
      shr256_eq hmod]

end

/-! ## The exponent -/

section
variable {spacing td h halfLife : Int}

variable {x : Int}

theorem stepInt64_eq (hx : fitsInt64 x) : stepInt64 x = some x := if_pos hx

theorem stepInt64_bind {α : Type} (hx : fitsInt64 x) (f : Int → Option α) :
    (stepInt64 x >>= f) = f x := by
  rw [stepInt64_eq hx]
  rfl

theorem bind_of_eq_some {α β : Type} {o : Option α} {a : α} (ho : o = some a) (f : α → Option β) :
    (o >>= f) = f a := by
  rw [ho]
  rfl

theorem guard_bind {α : Type} {p : Prop} [Decidable p] (hp : p) (f : Unit → Option α) :
    (guard p >>= f) = f () := by
  rw [guard, if_pos hp]
  rfl

theorem fitsInt64_iff : fitsInt64 x ↔ -2 ^ 63 ≤ x ∧ x < 2 ^ 63 :=
  decide_eq_true_iff

theorem asertOverflows_iff : asertOverflows spacing td h = false ↔
    fitsInt64 (spacing * h) ∧ fitsInt64 (td - spacing * h) ∧
      fitsInt64 (h + 1) ∧ fitsInt64 (spacing * (h + 1)) ∧
      fitsInt64 (td - spacing * (h + 1)) ∧ fitsInt64 ((td - spacing * (h + 1)) * 65536) := by
  simp [asertOverflows, and_assoc]

theorem fitsInt64_tdiv (hx : fitsInt64 x) (hpos : 0 < halfLife) : fitsInt64 (x.tdiv halfLife) := by
  rw [fitsInt64_iff] at hx ⊢
  rcases Int.le_total 0 x with h0 | h0
  · have hnonneg := Int.tdiv_nonneg h0 hpos.le
    have hle : x.tdiv halfLife ≤ x := Int.tdiv_le_self _ h0
    omega
  have hneg : x.tdiv halfLife = -(-x).tdiv halfLife := by rw [Int.neg_tdiv, neg_neg]
  have hnonneg := Int.tdiv_nonneg (show 0 ≤ -x by omega) hpos.le
  have hle : (-x).tdiv halfLife ≤ -x := Int.tdiv_le_self _ (by omega)
  omega

theorem exponentSteps_eq (hh : 0 ≤ h) (hpos : 0 < halfLife)
    (hfits : asertOverflows spacing td h = false) (hnear : (td - spacing * h).natAbs < 2 ^ 47) :
    exponentSteps spacing td h halfLife = some (asertExponent spacing td h halfLife) ∧
      fitsInt64 (asertExponent spacing td h halfLife) := by
  obtain ⟨h1, h2, h3, h4, h5, h6⟩ := asertOverflows_iff.1 hfits
  have hexp := fitsInt64_tdiv h6 hpos
  refine ⟨?_, hexp⟩
  have habs : ((td - spacing * h).natAbs : Int) < 2 ^ (63 - 16) := by omega
  have h2' : fitsInt64 (td - spacing * h).natAbs := by
    rw [fitsInt64_iff]
    omega
  rw [exponentSteps, guard_bind hh, guard_bind hpos, stepInt64_bind h1, stepInt64_bind h2,
    stepInt64_bind h2', guard_bind habs, stepInt64_bind h3, stepInt64_bind h4, stepInt64_bind h5,
    stepInt64_bind h6, stepInt64_eq hexp,
    asertExponent]

end

/-! ## The calculation -/

section
variable {limitBits refTarget powLimit : Nat} {spacing td h halfLife : Int}

/-- What the assertions of `CalculateASERT` ask for, and that its signed operations are defined. -/
structure AsertArgs (limitBits refTarget : Nat) (spacing td h : Int) (powLimit : Nat)
    (halfLife : Int) : Prop where
  ref_pos : 0 < refTarget
  ref_le : refTarget ≤ powLimit
  limit : powLimit < 2 ^ limitBits
  height : 0 ≤ h
  halfLife_pos : 0 < halfLife
  fits : asertOverflows spacing td h = false
  near : (td - spacing * h).natAbs < 2 ^ 47

/-- The target with the exponent `e`. -/
def scaledTarget (refTarget powLimit : Nat) (e : Int) : Nat :=
  asertShift powLimit (refTarget * asertFactor (e % 65536).toNat % 2 ^ 256) (e / 65536 - 16)

theorem asertTarget_eq_some_iff {t : Nat} :
    asertTarget limitBits refTarget spacing td h powLimit halfLife = some t ↔
      AsertArgs limitBits refTarget spacing td h powLimit halfLife ∧
        scaledTarget refTarget powLimit (asertExponent spacing td h halfLife) = t := by
  have hlimit : powLimit >>> limitBits = 0 ↔ powLimit < 2 ^ limitBits := by
    rw [Nat.shiftRight_eq_div_pow, Nat.div_eq_zero_iff_lt (Nat.two_pow_pos _)]
  rw [asertTarget, Option.ite_none_left_eq_some, Option.some.injEq]
  refine and_congr_left fun _ => ?_
  simp only [not_or, not_not, hlimit, not_lt, not_le, Bool.not_eq_true]
  constructor
  · rintro ⟨⟨h1, h2⟩, h3, h4, h5, h6, h7⟩
    exact ⟨h1, h2, h3, h4, h5, h6, h7⟩
  · rintro ⟨h1, h2, h3, h4, h5, h6, h7⟩
    exact ⟨⟨h1, h2⟩, h3, h4, h5, h6, h7⟩

theorem frac_lt (e : Int) : (e % 65536).toNat < 65536 := by omega

section

variable (hbits : limitBits ≤ 239)
include hbits

theorem product_lt (hle : refTarget ≤ powLimit) (hlimit : powLimit < 2 ^ limitBits) (e : Int) :
    refTarget * cubicFactor (e % 65536).toNat < 2 ^ 256 := by
  have hpow : 2 ^ limitBits ≤ 2 ^ 239 := Nat.pow_le_pow_right (by decide) hbits
  have hfactor := cubicFactor_lt (frac_lt e)
  calc refTarget * cubicFactor (e % 65536).toNat
      ≤ refTarget * 131072 := mul_le_mul_left _ hfactor.le
    _ < 2 ^ 239 * 131072 := mul_lt_mul_of_pos_right (by omega) (by decide)
    _ = 2 ^ 256 := by decide

theorem scaledTarget_eq (hle : refTarget ≤ powLimit)
    (hlimit : powLimit < 2 ^ limitBits) (e : Int) :
    scaledTarget refTarget powLimit e =
      asertShift powLimit (refTarget * cubicFactor (e % 65536).toNat) (e / 65536 - 16) := by
  rw [scaledTarget, asertFactor_eq (frac_lt e), mod_eq_of_lt (product_lt hbits hle hlimit e)]

section
variable (hargs : AsertArgs limitBits refTarget spacing td h powLimit halfLife)
include hargs

/-- **The calculation is the formula** where the number of bits to shift by fits its type. -/
theorem scaledTarget_eq_formula {e : Int}
    (he : (e / 65536 - 16).natAbs < 2 ^ 32) :
    (scaledTarget refTarget powLimit e : Int) = asertFormula refTarget powLimit e := by
  have hlimit : powLimit < 2 ^ 256 :=
    hargs.limit.trans_le (Nat.pow_le_pow_right (by decide) (by omega))
  rw [scaledTarget_eq hbits hargs.ref_le hargs.limit,
    asertShift_eq (hargs.ref_pos.trans_le hargs.ref_le) hlimit he, asertFormula, cast_mul]

/-- **Operation by operation** the calculation is the same, as long as the number of bits to shift
by fits an `int`; a strict one stops where the left shift loses bits. -/
theorem asertSteps_eq {e : Int}
    (hexp : asertExponent spacing td h halfLife = e) (he : (e / 65536 - 16).natAbs < 2 ^ 31)
    (strict : Bool) :
    asertSteps strict limitBits refTarget spacing td h powLimit halfLife =
      if strict ∧ 0 < e / 65536 - 16 ∧
          2 ^ 256 ≤ refTarget * cubicFactor (e % 65536).toNat * 2 ^ (e / 65536 - 16).toNat then none
      else some (scaledTarget refTarget powLimit e) := by
  have hlimit : powLimit < 2 ^ 256 :=
    hargs.limit.trans_le (Nat.pow_le_pow_right (by decide) (by omega))
  have hshr : shr256 powLimit limitBits = 0 := by
    rw [shr256_eq hlimit, shiftRight_eq_div_pow, div_eq_of_lt hargs.limit]
  obtain ⟨hsteps, hfits⟩ :=
    exponentSteps_eq hargs.height hargs.halfLife_pos hargs.fits hargs.near
  rw [hexp] at hsteps hfits
  have hprod := product_lt hbits hargs.ref_le hargs.limit e
  have hmul : mulSteps refTarget (cubicFactor (e % 65536).toNat) =
      some (refTarget * cubicFactor (e % 65536).toNat) := by
    have hfactor := cubicFactor_lt (frac_lt e)
    have hexact := mul256_eq (hargs.ref_le.trans_lt hlimit)
      (show cubicFactor (e % 65536).toNat < 2 ^ 32 by omega)
    rw [mod_eq_of_lt hprod] at hexact
    rw [mulSteps, if_pos hexact, hexact]
  have hdiv : e >>> (16 : Nat) = e / 65536 := Int.shiftRight_eq_div_pow e 16
  rw [fitsInt64_iff] at hfits
  have hwhole : fitsInt64 (e / 65536 * 65536) := fitsInt64_iff.2 (by omega)
  have hsum : e / 65536 * 65536 + ((e % 65536).toNat) = e := by omega
  have hback : fitsInt64 (e / 65536 * 65536 + ((e % 65536).toNat)) := by
    rw [hsum]
    exact fitsInt64_iff.2 hfits
  have hless : fitsInt64 (e / 65536 - 16) := fitsInt64_iff.2 (by omega)
  rw [asertSteps, guard_bind ⟨hargs.ref_pos, hargs.ref_le⟩, guard_bind hshr, bind_of_eq_some hsteps]
  rw [hdiv, stepInt64_bind hwhole, stepInt64_bind hback, guard_bind hsum.symm,
    bind_of_eq_some (factorSteps_eq (frac_lt e)), bind_of_eq_some hmul, stepInt64_bind hless,
    shiftSteps_eq hprod he, scaledTarget_eq hbits hargs.ref_le hargs.limit]

end

end

end

/-! ## Chains of valid headers -/

theorem compactSteps_eq {x : Nat} (hx : x < 2 ^ 256) : compactSteps x = some (getCompact x) := by
  have hword := (compactWord_bounds x).1
  have hsize : (bits x + 7) / 8 ≤ 32 := by
    have hbits : bits x ≤ 256 := by
      by_cases h0 : x = 0
      · subst h0
        decide
      · rw [bits, if_neg h0]
        exact (log2_lt h0).2 hx
    omega
  rw [compactSteps, getCompact, packCompact]
  by_cases hsign : (compactWord x ((bits x + 7) / 8) &&& 0x00800000 != 0)
  · simp only [hsign, if_true]
    have hcut : compactWord x ((bits x + 7) / 8) >>> 8 < 2 ^ 23 := by
      omega
    rw [guard_bind hcut, guard_bind (show (bits x + 7) / 8 + 1 < 256 by omega)]
    rfl
  · have hlow : compactWord x ((bits x + 7) / 8) < 2 ^ 23 := by
      rw [and_sign_iff hword] at hsign
      omega
    simp only [hsign, Bool.false_eq_true, if_false]
    rw [guard_bind hlow, guard_bind (show (bits x + 7) / 8 < 256 by omega)]
    rfl

/-- Headers with 32-bit times, an `int` height and targets up to the limit. -/
structure ValidHeaders (powLimit : Nat) (b : BlockPtr) : Prop where
  time : ∀ header ∈ b, header.nTime < 2 ^ 32
  target : ∀ header ∈ b,
    1 ≤ (setCompact header.nBits).1 ∧ (setCompact header.nBits).1 ≤ powLimit
  height : nHeight b < 2 ^ 31

section
variable {params : PowParams} {b : BlockPtr} {limitBits : Nat}

variable {c anchor : BlockPtr} {td hd e : Int}

theorem ValidHeaders.blockTime_bounds (h : ValidHeaders params.powLimit b)
    (hc : c <:+ b) : 0 ≤ blockTime c ∧ blockTime c < 2 ^ 32 := by
  cases c with
  | nil => exact ⟨le_refl 0, by decide⟩
  | cons header c =>
    have := h.time header (hc.subset List.mem_cons_self)
    show 0 ≤ (header.nTime : Int) ∧ (header.nTime : Int) < 2 ^ 32
    omega

theorem ValidHeaders.anchorTime_bounds (h : ValidHeaders params.powLimit b)
    (hc : c <:+ b) : 0 ≤ anchorTime c ∧ anchorTime c < 2 ^ 32 := by
  rw [anchorTime]
  split
  · exact h.blockTime_bounds ((List.tail_suffix c).trans hc)
  · exact h.blockTime_bounds hc

/-- The exact product needs more than 256 bits, to which the left shift cuts it. -/
def ShiftLoses (refTarget : Nat) (e : Int) : Prop :=
  0 < e / 65536 - 16 ∧
    2 ^ 256 ≤ refTarget * cubicFactor (e % 65536).toNat * 2 ^ (e / 65536 - 16).toNat

instance (refTarget : Nat) (e : Int) : Decidable (ShiftLoses refTarget e) :=
  inferInstanceAs (Decidable (_ ∧ _))

theorem asertFormula_of_shiftLoses {refTarget powLimit : Nat}
    (h : ShiftLoses refTarget e) (hlimit : powLimit < 2 ^ 256) :
    asertFormula refTarget powLimit e = powLimit := by
  obtain ⟨hpos, hlarge⟩ := h
  obtain ⟨k, hk⟩ : ∃ k : Nat, e / 65536 - 16 = k := ⟨(e / 65536 - 16).toNat, by omega⟩
  rw [hk, Int.toNat_natCast] at hlarge
  rw [asertFormula, hk, ← cast_mul, floor_mul_zpow_pos]
  omega

variable (h : ValidHeaders params.powLimit b) (hlimit : params.powLimit < 2 ^ limitBits)
  (hanchor : 0 ≤ params.nAsertAnchorHeight) (hle : params.nAsertAnchorHeight ≤ nHeight b)
  (ha : getAncestor b params.nAsertAnchorHeight = anchor)
  (hr : (setCompact (blockBits anchor)).1 = refTarget)
  (htd : blockTime b - anchorTime anchor = td) (hhd : nHeight b - nHeight anchor = hd)
  (hexp : asertExponent 600 td hd 86400 = e)
include h hlimit hanchor hle ha hr htd hhd hexp

/-- The arguments that `GetNextASERTWorkRequired` makes of a chain of valid headers are admitted,
and the number of bits to shift by is small. -/
theorem ValidHeaders.args :
    AsertArgs limitBits refTarget 600 td hd params.powLimit 86400 ∧
      (e / 65536 - 16).natAbs < 2 ^ 31 := by
  have hsuffix : anchor <:+ b := ha ▸ getAncestor_suffix b _
  have hlen := getAncestor_length hanchor hle
  rw [ha] at hlen
  have hheight : nHeight anchor = params.nAsertAnchorHeight := by
    rw [nHeight]
    omega
  have htime := h.blockTime_bounds List.suffix_rfl
  have hatime := h.anchorTime_bounds hsuffix
  have hmax := h.height
  obtain ⟨href, hrefle⟩ : 1 ≤ refTarget ∧
      refTarget ≤ params.powLimit := by
    cases anchor with
    | nil =>
      rw [List.length_nil] at hlen
      omega
    | cons header c => exact hr ▸ h.target header (hsuffix.subset List.mem_cons_self)
  refine ⟨⟨href, hrefle, hlimit, by omega, by decide, ?_, by omega⟩, ?_⟩
  · simp only [asertOverflows_iff, fitsInt64_iff]
    omega
  · have habs : e.natAbs = ((td - 600 * (hd + 1)) * 65536).natAbs / 86400 := by
      rw [← hexp, asertExponent, Int.natAbs_tdiv]
      rfl
    omega

theorem ValidHeaders.exact (hbits : limitBits ≤ 239) (hspacing : params.nPowTargetSpacing = 600)
    (hlife : params.nDAAHalfLife = 86400) (pblock : Option CBlockHeader) :
    ∃ t : Nat, (t : Int) = asertFormula refTarget params.powLimit e ∧
      asertSteps false limitBits refTarget 600 td hd params.powLimit 86400 =
        some t ∧
      asertSteps true limitBits refTarget 600 td hd params.powLimit 86400 =
        (if ShiftLoses refTarget e then none else some t) ∧
      (ShiftLoses refTarget e → t = params.powLimit) ∧
      asertWorkSteps false limitBits params b pblock = some (getCompact
          (if minDifficultyAllowed params b pblock then params.powLimit else t)) := by
  obtain ⟨hargs, hsmall⟩ := h.args hlimit hanchor hle ha hr htd hhd hexp
  have hlimit256 : params.powLimit < 2 ^ 256 :=
    hlimit.trans_le (Nat.pow_le_pow_right (by decide) (by omega))
  have hsteps := asertSteps_eq hbits hargs hexp hsmall false
  have hformula := scaledTarget_eq_formula hbits hargs (e := e) (by omega)
  refine ⟨_, hformula, hsteps, ?_, ?_, ?_⟩
  · rw [asertSteps_eq hbits hargs hexp hsmall true]
    by_cases hloses : ShiftLoses refTarget e
    · rw [if_pos ⟨rfl, hloses⟩, if_pos hloses]
    · rw [if_neg fun hstop => hloses hstop.2, if_neg hloses]
  · intro hloses
    rwa [asertFormula_of_shiftLoses hloses hlimit256, Nat.cast_inj] at hformula
  · have hlen := getAncestor_length hanchor hle
    rw [ha] at hlen
    have hne : anchor ≠ [] := by
      rintro rfl
      rw [List.length_nil] at hlen
      omega
    have hb : b ≠ [] := by
      rintro rfl
      exact absurd hle (by rw [nHeight, List.length_nil]; omega)
    have hge : nHeight b ≥ nHeight anchor := by
      have hanchorHeight : nHeight anchor = anchor.length - 1 := rfl
      omega
    rw [asertWorkSteps, guard_bind hb, ha]
    rw [guard_bind hne, guard_bind hge, hr, htd, hhd, hspacing, hlife]
    by_cases hlate : minDifficultyAllowed params b pblock
    · rw [if_pos hlate, if_pos hlate, compactSteps_eq hlimit256]
    have ht : scaledTarget refTarget params.powLimit e < 2 ^ 256 := by
      have hle := asertFormula_le refTarget params.powLimit e
      grind
    rw [if_neg hlate, if_neg hlate, bind_of_eq_some hsteps, compactSteps_eq ht]

end

/-- **ASERT on valid headers** computes the clamped formula.  With the spacing of ten minutes and
the half-life of a day, on a chain of valid headers with the anchor block below its tip, no
assertion fails and no operation overflows, wraps or converts to another number, but for the left
shift: it loses bits exactly where the product needs more than 256, and then the target is the
limit. -/
theorem asert_exact {params : PowParams} {b : BlockPtr} (hspacing : params.nPowTargetSpacing = 600)
    (hlife : params.nDAAHalfLife = 86400) (h : ValidHeaders params.powLimit b)
    (hanchor : 0 ≤ params.nAsertAnchorHeight) (hle : params.nAsertAnchorHeight ≤ nHeight b)
    (pblock : Option CBlockHeader) :
    let anchor := getAncestor b params.nAsertAnchorHeight
    let refTarget := (setCompact (blockBits anchor)).1
    let nTimeDiff := blockTime b - anchorTime anchor
    let nHeightDiff := nHeight b - nHeight anchor
    let exponent := asertExponent 600 nTimeDiff nHeightDiff 86400
    (params.powLimit < 2 ^ 224 →
      ∃ target : Nat, target = asertFormula refTarget params.powLimit exponent ∧
        asertSteps false 224 refTarget 600 nTimeDiff nHeightDiff params.powLimit 86400 =
          some target ∧
        asertSteps true 224 refTarget 600 nTimeDiff nHeightDiff params.powLimit 86400 =
          (if ShiftLoses refTarget exponent then none else some target) ∧
        (ShiftLoses refTarget exponent → target = params.powLimit) ∧
        asertWorkSteps false 224 params b pblock = some (getCompact
          (if minDifficultyAllowed params b pblock then params.powLimit else target))) ∧
    (params.powLimit < 2 ^ 239 → params.signetBlocks →
      ∃ target : Nat, target = asertFormula refTarget params.powLimit exponent ∧
        asertSteps false 239 refTarget 600 nTimeDiff nHeightDiff params.powLimit 86400 =
          some target ∧
        asertSteps true 239 refTarget 600 nTimeDiff nHeightDiff params.powLimit 86400 =
          (if ShiftLoses refTarget exponent then none else some target) ∧
        (ShiftLoses refTarget exponent → target = params.powLimit) ∧
        signetAsertWorkSteps false params b pblock = some (getCompact
          (if minDifficultyAllowed params b pblock then params.powLimit else target))) := by
  constructor
  · intro hlimit
    exact h.exact hlimit hanchor hle rfl rfl rfl rfl rfl (by decide) hspacing hlife pblock
  · intro hlimit hsignet
    obtain ⟨target, htarget, hsteps, hstrict, hloses, hwork⟩ :=
      h.exact hlimit hanchor hle rfl rfl rfl rfl rfl (by decide) hspacing hlife pblock
    refine ⟨target, htarget, hsteps, hstrict, hloses, ?_⟩
    rw [signetAsertWorkSteps, guard_bind hsignet]
    exact hwork

def mainPowLimit : Nat := 2 ^ 224 - 1

/-- The parameters of the main network that ASERT reads, with the first block as the anchor. -/
def asertParams : PowParams :=
  { powLimit := mainPowLimit, nPowTargetSpacing := 600, nPowTargetTimespan := 1209600 }

def halfLifeChain : BlockPtr := [timedHeader 87600 0x1c00ffff, timedHeader 0 0x1c00ffff]

theorem asert_exact_halfLife :
    ∃ target : Nat, (target : Int) = asertFormula (0xffff * 256 ^ 25) mainPowLimit 65536 ∧
      asertWorkSteps false 224 asertParams halfLifeChain none = some (getCompact target) := by
  have hvalid : ValidHeaders mainPowLimit halfLifeChain := ⟨by decide, by decide +kernel, by decide⟩
  obtain ⟨target, htarget, -, -, -, hwork⟩ :=
    (asert_exact (show asertParams.nPowTargetSpacing = 600 from rfl) rfl hvalid
      (by decide) (by decide) none).1 (by decide)
  exact ⟨target, htarget, hwork⟩

def lateChain : BlockPtr := [timedHeader 30000000 0x1d00ffff, timedHeader 0 0x1d00ffff]

/-- A block a year late: the left shift by 331 bits loses the whole product. -/
theorem asert_shift_wraps : let refTarget := (setCompact 0x1d00ffff).1
    let exponent := asertExponent 600 30000000 1 86400
    let nextTarget := refTarget * cubicFactor (exponent % 65536).toNat
    (ValidHeaders mainPowLimit lateChain ∧ exponent / 65536 - 16 = 331) ∧
      shl256 nextTarget 331 = 0 ∧ nextTarget * 2 ^ 331 ≠ 0 ∧
      asertWorkSteps true 224 asertParams lateChain none = none := by
  refine ⟨⟨⟨by decide, by decide +kernel, by decide⟩, by decide⟩, ?_, ?_, ?_⟩
  · decide +kernel
  · decide +kernel
  · decide +kernel

/-! ## Monotonicity -/

section
variable {spacing td td' h h' halfLife : Int} {refTarget powLimit : Nat} {e e' : Int}

/-- **The cubic does not jump down** where the fraction wraps: the scaling is monotone. -/
theorem scaling_mono (he : e ≤ e') : (cubicFactor (e % 65536).toNat : ℚ) * 2 ^ (e / 65536 - 16) ≤
      cubicFactor (e' % 65536).toNat * 2 ^ (e' / 65536 - 16) := by
  have hpos : (0 : ℚ) < 2 ^ (e / 65536 - 16) := by positivity
  rcases Int.lt_or_eq_of_le (Int.ediv_le_ediv (by decide : (0 : Int) < 65536) he) with hlt | heq
  · -- the next power of two is above every value of the cubic
    have hfactor : (cubicFactor (e % 65536).toNat : ℚ) ≤ 65536 * 2 := by
      have := cubicFactor_lt (frac_lt e)
      exact_mod_cast this.le
    have hfactor' : (65536 : ℚ) ≤ cubicFactor (e' % 65536).toNat := by
      exact_mod_cast le_cubicFactor _
    have hpow : (2 : ℚ) ^ (e / 65536 - 16 + 1) ≤ 2 ^ (e' / 65536 - 16) :=
      zpow_le_zpow_right₀ (by norm_num) (by omega)
    calc (cubicFactor (e % 65536).toNat : ℚ) * 2 ^ (e / 65536 - 16)
        ≤ 65536 * 2 * 2 ^ (e / 65536 - 16) := mul_le_mul_of_nonneg_right hfactor hpos.le
      _ = 65536 * 2 ^ (e / 65536 - 16 + 1) := by
        rw [zpow_add_one₀ (by norm_num), mul_assoc, mul_comm 2]
      _ ≤ 65536 * 2 ^ (e' / 65536 - 16) := mul_le_mul_of_nonneg_left hpow (by norm_num)
      _ ≤ cubicFactor (e' % 65536).toNat * 2 ^ (e' / 65536 - 16) :=
        mul_le_mul_of_nonneg_right hfactor' (by positivity)
  · have hfrac : (e % 65536).toNat ≤ (e' % 65536).toNat := by omega
    have hfactor : (cubicFactor (e % 65536).toNat : ℚ) ≤ cubicFactor (e' % 65536).toNat := by
      exact_mod_cast Nat.add_le_add_left (Nat.div_le_div_right (cubicSum_mono hfrac)) _
    rw [← heq]
    exact mul_le_mul_of_nonneg_right hfactor hpos.le

/-- The number of bits to shift by fits its type. -/
def ShiftFits (e : Int) : Prop := (e / 65536 - 16).natAbs < 2 ^ 32

instance (e : Int) : Decidable (ShiftFits e) := inferInstanceAs (Decidable (_ < _))

theorem calculateASERT_le {t : Nat}
    (ht : calculateASERT refTarget spacing td h powLimit halfLife = some t)
    (hfits : ShiftFits (asertExponent spacing td h halfLife)) :
    t ≤ powLimit ∧ powLimit < 2 ^ 256 := by
  obtain ⟨hargs, rfl⟩ := asertTarget_eq_some_iff.1 ht
  have hle := asertFormula_le refTarget powLimit (asertExponent spacing td h halfLife)
  rw [← scaledTarget_eq_formula (by decide) hargs hfits, cast_le] at hle
  exact ⟨hle, hargs.limit.trans (by decide)⟩

theorem calculateASERT_mono {t t' : Nat}
    (ht : calculateASERT refTarget spacing td h powLimit halfLife = some t)
    (ht' : calculateASERT refTarget spacing td' h' powLimit halfLife = some t')
    (hfits : ShiftFits (asertExponent spacing td h halfLife))
    (hfits' : ShiftFits (asertExponent spacing td' h' halfLife))
    (hle : td - spacing * (h + 1) ≤ td' - spacing * (h' + 1)) : t ≤ t' := by
  obtain ⟨hargs, rfl⟩ := asertTarget_eq_some_iff.1 ht
  obtain ⟨hargs', rfl⟩ := asertTarget_eq_some_iff.1 ht'
  rw [← cast_le (α := Int), scaledTarget_eq_formula (by decide) hargs hfits,
    scaledTarget_eq_formula (by decide) hargs' hfits']
  refine min_le_min_left _ (max_le_max_left _ (Int.floor_le_floor ?_))
  rw [mul_assoc, mul_assoc]
  refine mul_le_mul_of_nonneg_left (scaling_mono ?_) (cast_nonneg _)
  exact Int.tdiv_le_tdiv hargs.halfLife_pos (Int.mul_le_mul_of_nonneg_right hle (by decide))

end

section
variable {params : PowParams} {b b' : BlockPtr} {pblock : CBlockHeader} {n n' : Nat}

section

variable (params : PowParams) (b : BlockPtr)

def timeDiff : Int :=
  blockTime b - anchorTime (getAncestor b params.nAsertAnchorHeight)

def heightDiff : Int :=
  nHeight b - nHeight (getAncestor b params.nAsertAnchorHeight)

/-- `exponent` for the block after `b`. -/
def workExponent : Int :=
  asertExponent params.nPowTargetSpacing (timeDiff params b) (heightDiff params b)
    params.nDAAHalfLife

end

section
variable (h : getNextASERTWorkRequired params b pblock = some n)
include h

/-- What `GetNextASERTWorkRequired` returns: the limit for a late block where that is allowed, and
otherwise the calculated target. -/
theorem getNextASERTWorkRequired_cases :
    (minDifficultyAllowed params b (some pblock) ∧ n = getCompact params.powLimit) ∨
    (minDifficultyAllowed params b (some pblock) = false ∧ ∃ t, n = getCompact t ∧
      calculateASERT (setCompact (blockBits (getAncestor b params.nAsertAnchorHeight))).1
        params.nPowTargetSpacing (timeDiff params b) (heightDiff params b) params.powLimit
        params.nDAAHalfLife = some t) := by
  rw [getNextASERTWorkRequired, nextAsertWork, Option.ite_none_left_eq_some] at h
  obtain ⟨-, h⟩ := h
  change (if minDifficultyAllowed params b (some pblock) then
      some (getCompact params.powLimit) else Option.map getCompact (calculateASERT
        (setCompact (blockBits (getAncestor b params.nAsertAnchorHeight))).1
        params.nPowTargetSpacing (timeDiff params b) (heightDiff params b) params.powLimit
        params.nDAAHalfLife)) = some n at h
  split at h
  next hlate =>
    rw [Option.some.injEq] at h
    exact .inl ⟨hlate, h.symm⟩
  next hlate =>
  obtain ⟨t, ht, hn⟩ := Option.map_eq_some_iff.1 h
  exact .inr ⟨by simpa using hlate, t, hn.symm, ht⟩

/-- The required targets of two chains with the same anchor target compare as their blocks'
deviations from the schedule do, unless only the earlier block may have the minimum difficulty. -/
theorem required_mono
    (h' : getNextASERTWorkRequired params b' pblock = some n')
    (hbits : blockBits (getAncestor b params.nAsertAnchorHeight) =
      blockBits (getAncestor b' params.nAsertAnchorHeight))
    (hfits : ShiftFits (workExponent params b)) (hfits' : ShiftFits (workExponent params b'))
    (hlate : minDifficultyAllowed params b (some pblock) →
      minDifficultyAllowed params b' (some pblock))
    (hle : timeDiff params b - params.nPowTargetSpacing * (heightDiff params b + 1) ≤
      timeDiff params b' - params.nPowTargetSpacing * (heightDiff params b' + 1)) :
    (setCompact n).1 ≤ (setCompact n').1 := by
  rcases getNextASERTWorkRequired_cases h with ⟨hmin, rfl⟩ | ⟨-, t, rfl, ht⟩
  · rcases getNextASERTWorkRequired_cases h' with ⟨-, rfl⟩ | ⟨hnot, -⟩
    · exact le_refl _
    · simp [hlate hmin] at hnot
  obtain ⟨htle, hlimit⟩ := calculateASERT_le ht hfits
  rcases getNextASERTWorkRequired_cases h' with ⟨-, rfl⟩ | ⟨-, t', rfl, ht'⟩
  · exact setCompact_getCompact_mono hlimit htle
  rw [← hbits] at ht'
  obtain ⟨htle', -⟩ := calculateASERT_le ht' hfits'
  exact setCompact_getCompact_mono (htle'.trans_lt hlimit)
    (calculateASERT_mono ht ht' hfits hfits' hle)

end

def setTime : BlockPtr → Nat → BlockPtr
  | [], _ => []
  | header :: prev, time => { header with nTime := time } :: prev

@[simp] theorem nHeight_setTime (b : BlockPtr) (time : Nat) :
    nHeight (setTime b time) = nHeight b := by
  cases b with
  | nil => rfl
  | cons header prev => rfl

theorem getAncestor_setTime (b : BlockPtr) (time : Nat) (height : Int) :
    getAncestor (setTime b time) height = getAncestor b height ∨
      (getAncestor (setTime b time) height = setTime b time ∧ getAncestor b height = b) := by
  rw [getAncestor, getAncestor, nHeight_setTime]
  by_cases hout : height > nHeight b ∨ height < 0
  · rw [if_pos hout, if_pos hout]
    exact .inl rfl
  rw [if_neg hout, if_neg hout]
  cases hdrop : (nHeight b - height).toNat with
  | zero => exact .inr ⟨rfl, rfl⟩
  | succ k =>
    left
    cases b with
    | nil => rfl
    | cons header prev => rfl

theorem timeDiff_setTime (params : PowParams) {b : BlockPtr} {time : Nat} (h : blockTime b ≤ time) :
    timeDiff params b ≤ timeDiff params (setTime b time) := by
  cases b with
  | nil => exact le_refl _
  | cons header prev =>
    have hnew : blockTime (setTime (header :: prev) time) = time := rfl
    have hold : blockTime (header :: prev) = header.nTime := rfl
    rw [timeDiff, timeDiff]
    rcases getAncestor_setTime (header :: prev) time params.nAsertAnchorHeight with heq | ⟨hs, hb⟩
    · rw [heq]
      omega
    rw [hs, hb]
    by_cases hprev : prev ≠ []
    · have hanchor : anchorTime (setTime (header :: prev) time) = anchorTime (header :: prev) := by
        show (if prev ≠ [] then blockTime prev else _) = if prev ≠ [] then blockTime prev else _
        rw [if_pos hprev, if_pos hprev]
      omega
    · -- the first block is its own anchor: its deviation is none
      have hanchor header : anchorTime (header :: prev) = header.nTime :=
        if_neg hprev
      show header.nTime - anchorTime (header :: prev) ≤
        time - anchorTime ({ header with nTime := time } :: prev)
      rw [hanchor, hanchor, Int.sub_self, Int.sub_self]

end

/-- **ASERT is monotone** as long as the number of bits to shift by fits the 32 bits it is
converted to: the target does not fall with the time, and does not rise with the height.  The same
holds for the target that is required after a block when only its time, or only its height,
changes, unless the new time ends the exception for late blocks. -/
theorem asert_monotone : (∀ refTarget powLimit spacing halfLife td td' h t t', td ≤ td' →
      calculateASERT refTarget spacing td h powLimit halfLife = some t →
      calculateASERT refTarget spacing td' h powLimit halfLife = some t' →
      ShiftFits (asertExponent spacing td h halfLife) →
      ShiftFits (asertExponent spacing td' h halfLife) → t ≤ t') ∧
    (∀ refTarget powLimit spacing halfLife td h h' t t', 0 ≤ spacing → h ≤ h' →
      calculateASERT refTarget spacing td h powLimit halfLife = some t →
      calculateASERT refTarget spacing td h' powLimit halfLife = some t' →
      ShiftFits (asertExponent spacing td h halfLife) →
      ShiftFits (asertExponent spacing td h' halfLife) → t' ≤ t) ∧
    (∀ params b pblock time n n', blockTime b ≤ (time : Nat) →
      getNextASERTWorkRequired params b pblock = some n →
      getNextASERTWorkRequired params (setTime b time) pblock = some n' →
      ShiftFits (workExponent params b) → ShiftFits (workExponent params (setTime b time)) →
      (minDifficultyAllowed params b (some pblock) →
        minDifficultyAllowed params (setTime b time) (some pblock)) →
      (setCompact n).1 ≤ (setCompact n').1) ∧
    (∀ params b b' pblock n n', 0 ≤ params.nPowTargetSpacing →
      getAncestor b params.nAsertAnchorHeight = getAncestor b' params.nAsertAnchorHeight →
      blockTime b = blockTime b' → nHeight b ≤ nHeight b' →
      getNextASERTWorkRequired params b pblock = some n →
      getNextASERTWorkRequired params b' pblock = some n' →
      ShiftFits (workExponent params b) → ShiftFits (workExponent params b') →
      (setCompact n').1 ≤ (setCompact n).1) := by
  refine ⟨?_, ?_, ?_, ?_⟩
  · intro refTarget powLimit spacing halfLife td td' h t t' hle ht ht' hfits hfits'
    exact calculateASERT_mono ht ht' hfits hfits' (by omega)
  · intro refTarget powLimit spacing halfLife td h h' t t' hspacing hle ht ht' hfits hfits'
    have hmul : spacing * (h + 1) ≤ spacing * (h' + 1) :=
      Int.mul_le_mul_of_nonneg_left (by omega) hspacing
    exact calculateASERT_mono ht' ht hfits' hfits (by omega)
  · intro params b pblock time n n' hle h h' hfits hfits' hlate
    have hheight : heightDiff params (setTime b time) = heightDiff params b := by
      rw [heightDiff, heightDiff, nHeight_setTime]
      rcases getAncestor_setTime b time params.nAsertAnchorHeight with heq | ⟨hs, hb⟩
      · rw [heq]
      · rw [hs, hb, nHeight_setTime]
    have hbits : blockBits (getAncestor b params.nAsertAnchorHeight) =
        blockBits (getAncestor (setTime b time) params.nAsertAnchorHeight) := by
      rcases getAncestor_setTime b time params.nAsertAnchorHeight with heq | ⟨hs, hb⟩
      · rw [heq]
      rw [hs, hb]
      cases b with
      | nil => rfl
      | cons header prev => rfl
    have htime := timeDiff_setTime params hle
    refine required_mono h h' hbits hfits hfits' hlate ?_
    rw [hheight]
    omega
  · intro params b b' pblock n n' hspacing hanchor htime hle h h' hfits hfits'
    have hlate : minDifficultyAllowed params b (some pblock) =
        minDifficultyAllowed params b' (some pblock) := by
      rw [minDifficultyAllowed, minDifficultyAllowed, htime]
    have hdiff : timeDiff params b = timeDiff params b' := by
      rw [timeDiff, timeDiff, htime, hanchor]
    have hheight : heightDiff params b ≤ heightDiff params b' := by
      rw [heightDiff, heightDiff, hanchor]
      omega
    have hmul : params.nPowTargetSpacing * (heightDiff params b + 1) ≤
        params.nPowTargetSpacing * (heightDiff params b' + 1) :=
      Int.mul_le_mul_of_nonneg_left (by omega) hspacing
    refine required_mono h' h (by rw [hanchor]) hfits' hfits (fun hmin => hlate ▸ hmin) ?_
    omega

theorem asert_monotone_days : ∃ t t',
    calculateASERT (0xffff * 256 ^ 25) 600 87600 1 mainPowLimit 86400 = some t ∧
      calculateASERT (0xffff * 256 ^ 25) 600 174000 1 mainPowLimit 86400 = some t' ∧ t ≤ t' := by
  have hday : calculateASERT (0xffff * 256 ^ 25) 600 87600 1 mainPowLimit 86400 =
      some (0xffff * 256 ^ 25 * 2) := by decide +kernel
  have hdays : calculateASERT (0xffff * 256 ^ 25) 600 174000 1 mainPowLimit 86400 =
      some (0xffff * 256 ^ 25 * 4) := by decide +kernel
  exact ⟨_, _, hday, hdays,
    asert_monotone.1 _ _ _ _ _ _ _ _ _ (by decide) hday hdays (by decide) (by decide)⟩

/-- Parameters of a network where late blocks may have the minimum difficulty. -/
def lateBlockParams : PowParams := { asertParams with fPowAllowMinDifficultyBlocks := true }

/-- With a half-life of a second, `2 ^ 32` half-lives are a shift by no bits, and one second more
takes the target from the limit to `65536`.  And where late blocks may have the minimum difficulty,
a later parent ends that exception. -/
theorem asert_drops : (calculateASERT 1 600 (2 ^ 32 + 615) 0 mainPowLimit 1 = some mainPowLimit ∧
      calculateASERT 1 600 (2 ^ 32 + 616) 0 mainPowLimit 1 = some 65536) ∧
    getNextASERTWorkRequired lateBlockParams (setTime halfLifeChain 600) (timedHeader 2000 0) =
      some (getCompact mainPowLimit) ∧
    getNextASERTWorkRequired lateBlockParams (setTime halfLifeChain 1200) (timedHeader 2000 0) =
      some 0x1c00ffff ∧ (setCompact 0x1c00ffff).1 < (setCompact (getCompact mainPowLimit)).1 := by
  decide +kernel

end BitcoinPurity
