import Mathlib

/-!
# Fee rates

`FeeFrac` of `util/feefrac.h` and `CFeeRate::GetFee`.  Products are exact, as they are in the source
for sizes of 32 bits; `GetFee` is the exact ceiling, without the rounding of `double`.

`FeeFrac.lt_iff_key`: on positive sizes the comparison is that of the feerates, and of the sizes the
other way where these agree, hence a linear order.  `FeeFrac.spaceship_order`: so it is with
`MulFallback`, and with the empty value.
-/

namespace BitcoinPurity

structure FeeFrac where
  fee : Int
  size : Int
  deriving DecidableEq, Repr

namespace FeeFrac

/-- `operator<`, generated from `operator<=>`. -/
def lt (a b : FeeFrac) : Bool :=
  if a.fee * b.size = b.fee * a.size then decide (b.size < a.size)
  else decide (a.fee * b.size < b.fee * a.size)

def min (a b : FeeFrac) : FeeFrac := if b.lt a then b else a

def key (a : FeeFrac) : ℚ ×ₗ ℤ := toLex ((a.fee : ℚ) / a.size, -a.size)

variable {a b : FeeFrac}

section
variable (ha : 0 < a.size)
include ha

theorem rate_lt_iff (hb : 0 < b.size) :
    (a.fee : ℚ) / a.size < b.fee / b.size ↔ a.fee * b.size < b.fee * a.size := by
  rw [div_lt_div_iff₀ (by exact_mod_cast ha) (by exact_mod_cast hb)]
  exact_mod_cast Iff.rfl

theorem rate_eq_iff (hb : 0 < b.size) :
    (a.fee : ℚ) / a.size = b.fee / b.size ↔ a.fee * b.size = b.fee * a.size := by
  rw [div_eq_div_iff (by exact_mod_cast ha.ne') (by exact_mod_cast hb.ne')]
  exact_mod_cast Iff.rfl

/-- **The comparison is a linear order on positive sizes.** -/
theorem lt_iff_key (hb : 0 < b.size) : a.lt b ↔ a.key < b.key := by
  rw [lt, key, key, Prod.Lex.toLex_lt_toLex, rate_lt_iff ha hb, rate_eq_iff ha hb]
  by_cases h : a.fee * b.size = b.fee * a.size
  · simp [h]
  · simp [h]

theorem key_inj (hb : 0 < b.size) : a.key = b.key ↔ a = b := by
  constructor
  · intro h
    obtain ⟨hrate, hsize⟩ := Prod.mk.inj (toLex_inj.1 h)
    have hsize : a.size = b.size := neg_inj.1 hsize
    have hcross := (rate_eq_iff ha hb).1 hrate
    rw [hsize] at hcross
    have hfee := Int.eq_of_mul_eq_mul_right hb.ne' hcross
    cases a
    simp_all
  · rintro rfl
    rfl

end

theorem cross_le_of_not_lt (h : a.lt b = false) : b.fee * a.size ≤ a.fee * b.size := by
  rw [lt] at h
  grind

theorem size_min_pos (ha : 0 < a.size) (hb : 0 < b.size) : 0 < (min a b).size := by
  rw [min]
  by_cases h : b.lt a
  · rwa [if_pos h]
  · rwa [if_neg h]

theorem min_eq_or : min a b = a ∨ min a b = b := by
  by_cases h : b.lt a
  · exact .inr (if_pos h)
  · exact .inl (if_neg h)

theorem min_cross_le : (min a b).fee * a.size ≤ a.fee * (min a b).size := by
  rw [min]
  by_cases h : b.lt a
  · rw [if_pos h]
    rw [lt] at h
    grind
  · rw [if_neg h]

/-! ### On machine integers -/

/-- `MulFallback`: an `int64_t` times an `int32_t`, as a signed high and an unsigned low part that
are compared in this order. -/
def mulFallback (a b : Int) : Int ×ₗ Int :=
  let low := (a % 2 ^ 32 * b).bmod (2 ^ 64)
  let high := (a / 2 ^ 32 * b).bmod (2 ^ 64)
  toLex ((high + low / 2 ^ 32).bmod (2 ^ 64), low % 2 ^ 32)

/-- A signed integer of `k + 1` bits. -/
def Fits (k : Nat) (x : Int) : Prop := -2 ^ k ≤ x ∧ x < 2 ^ k

/-- The fields fit their types, and only the empty value has size 0. -/
structure Valid (a : FeeFrac) : Prop where
  fee_fits : Fits 63 a.fee
  size_fits : Fits 31 a.size
  size_pos : 0 < a.size ∨ a = ⟨0, 0⟩

section Operators
variable {γ : Type} [LinearOrder γ] (mul : Int → Int → γ)

variable (a b : FeeFrac)

/-- `operator<=>`, over the `Mul` of the platform. -/
def spaceship : Ordering :=
  let crossA := mul a.fee b.size
  let crossB := mul b.fee a.size
  if crossA = crossB then cmp b.size a.size else cmp crossA crossB

/-- `operator<<` -/
def shiftLeft : Bool := mul a.fee b.size < mul b.fee a.size

/-- `operator>>` -/
def shiftRight : Bool := mul a.fee b.size > mul b.fee a.size

/-- Products of an `int64_t` and an `int32_t` are ordered as the integers. -/
def MulExact : Prop :=
  ∀ {a b c d : Int}, Fits 63 a → Fits 31 b → Fits 63 c → Fits 31 d →
    cmp (mul a b) (mul c d) = cmp (a * b) (c * d)

end Operators

/-- The feerate, above every number for the empty value, and then the size downwards. -/
def rank (a : FeeFrac) : WithTop ℚ ×ₗ ℤ :=
  toLex (if a.size = 0 then ⊤ else ((a.fee / a.size : ℚ) : WithTop ℚ), -a.size)

theorem mulFallback_eq {a b : Int} (ha : Fits 63 a) (hb : Fits 31 b) :
    mulFallback a b = toLex (a * b / 2 ^ 32, a * b % 2 ^ 32) := by
  obtain ⟨ha, ha'⟩ := ha
  have hsplit : a * b = 2 ^ 32 * (a / 2 ^ 32 * b) + a % 2 ^ 32 * b := by
    rw [← mul_assoc, ← add_mul, Int.mul_ediv_add_emod]
  have hb : |b| ≤ 2 ^ 31 := abs_le.2 ⟨hb.1, hb.2.le⟩
  have hlow : |a % 2 ^ 32| ≤ 2 ^ 32 - 1 := by rw [abs_le]; omega
  have hhigh : |a / 2 ^ 32| ≤ 2 ^ 31 := by rw [abs_le]; omega
  have hlow := mul_le_mul hlow hb (abs_nonneg b) (by norm_num)
  have hhigh := mul_le_mul hhigh hb (abs_nonneg b) (by norm_num)
  rw [← abs_mul, abs_le] at hlow hhigh
  rw [mulFallback, hsplit]
  generalize a % 2 ^ 32 * b = low, a / 2 ^ 32 * b = high at *
  -- no part overflows, so that the sum is the product shifted
  simp (disch := omega) only [Int.bmod_eq_of_le]
  congr 2 <;> omega

theorem mulExact_mulFallback : MulExact mulFallback := by
  intro a b c d ha hb hc hd
  have hmono : StrictMono fun x : Int => toLex (x / 2 ^ 32, x % 2 ^ 32) := by
    intro x y h
    rw [Prod.Lex.toLex_lt_toLex]
    omega
  rw [mulFallback_eq ha hb, mulFallback_eq hc hd, hmono.cmp_map_eq]

theorem rank_lt_iff (ha : a.Valid) (hb : b.Valid) : a.rank < b.rank ↔
    a.fee * b.size < b.fee * a.size ∨ a.fee * b.size = b.fee * a.size ∧ b.size < a.size := by
  rw [rank, rank, Prod.Lex.toLex_lt_toLex]
  rcases ha.size_pos with ha | rfl
  · rcases hb.size_pos with hb | rfl
    · rw [if_neg ha.ne', if_neg hb.ne']
      simp [rate_lt_iff ha hb, rate_eq_iff ha hb]
    · simp [ha, ha.ne']
  · rcases hb.size_pos with hb | rfl
    · simp [hb.ne', hb.le]
    · simp

theorem rank_inj (ha : a.Valid) (hb : b.Valid) (h : a.rank = b.rank) : a = b := by
  obtain ⟨hrate, hsize⟩ := Prod.mk.inj (toLex_inj.1 h)
  have hsize : a.size = b.size := neg_inj.1 hsize
  rcases ha.size_pos with ha | rfl
  · have hb : 0 < b.size := hsize ▸ ha
    rw [if_neg ha.ne', if_neg hb.ne', WithTop.coe_inj] at hrate
    rw [← key_inj ha hb, key, key, hrate, hsize]
  · rcases hb.size_pos with hb | rfl
    · exact absurd hsize hb.ne
    · rfl

theorem cross_lt_iff (ha : a.Valid) (hb : b.Valid) : a.fee * b.size < b.fee * a.size ↔
    a.size ≠ 0 ∧ b.size ≠ 0 ∧ (a.fee : ℚ) / a.size < b.fee / b.size := by
  rcases ha.size_pos with ha | rfl
  · rcases hb.size_pos with hb | rfl
    · simp [rate_lt_iff ha hb, ha.ne', hb.ne']
    · simp
  · simp

/-- **The comparison of fees and sizes is exact.**  `MulFallback` orders products as the integers
they stand for, and with it, or with any other exact product, `<=>` is the linear order by feerate
and then by decreasing size, in which the empty value is last; `<<` and `>>` compare the feerates
of values that are not empty. -/
theorem spaceship_order : MulExact mulFallback ∧ MulExact (fun a b : Int => a * b) ∧
    ∀ {γ : Type} [LinearOrder γ] (mul : Int → Int → γ), MulExact mul →
      ∀ a b : FeeFrac, a.Valid → b.Valid →
        spaceship mul a b = cmp a.rank b.rank ∧ (spaceship mul a b = .eq ↔ a = b) ∧
        (shiftLeft mul a b ↔
          a.size ≠ 0 ∧ b.size ≠ 0 ∧ (a.fee : ℚ) / a.size < b.fee / b.size) ∧
        (shiftRight mul a b ↔ a.size ≠ 0 ∧ b.size ≠ 0 ∧ (b.fee : ℚ) / b.size < a.fee / a.size) := by
  refine ⟨mulExact_mulFallback, fun _ _ _ _ => rfl, ?_⟩
  intro γ _ mul hmul a b ha hb
  have hcross := hmul ha.fee_fits hb.size_fits hb.fee_fits ha.size_fits
  have hship : spaceship mul a b = cmp a.rank b.rank := by
    simp only [spaceship, eq_iff_eq_of_cmp_eq_cmp hcross, hcross]
    simp only [cmp, cmpUsing, rank_lt_iff ha hb, rank_lt_iff hb ha]
    split_ifs <;> first | rfl | omega
  refine ⟨hship, ?_, ?_, ?_⟩
  · rw [hship, cmp_eq_eq_iff]
    exact ⟨rank_inj ha hb, congrArg _⟩
  · rw [shiftLeft, decide_eq_true_iff, lt_iff_lt_of_cmp_eq_cmp hcross, cross_lt_iff ha hb]
  · have hswap := cmp_eq_cmp_symm.1 hcross
    rw [shiftRight, decide_eq_true_iff, gt_iff_lt, lt_iff_lt_of_cmp_eq_cmp hswap,
      cross_lt_iff hb ha]
    exact and_left_comm

theorem spaceship_order_empty :
    spaceship mulFallback ⟨-1, 2⟩ ⟨0, 0⟩ = cmp (rank ⟨-1, 2⟩) (rank ⟨0, 0⟩) :=
  (spaceship_order.2.2 mulFallback spaceship_order.1 _ _
    ⟨⟨by decide, by decide⟩, ⟨by decide, by decide⟩, .inl (by decide)⟩
    ⟨⟨by decide, by decide⟩, ⟨by decide, by decide⟩, .inr rfl⟩).1

end FeeFrac

/-- `GetFee` of a `CFeeRate` with so many satoshis per kvB. -/
def getFee (nSatoshisPerK numBytes : Int) : Int :=
  let nFee := -(-(nSatoshisPerK * numBytes) / 1000)
  if nFee = 0 ∧ numBytes ≠ 0 then
    if 0 < nSatoshisPerK then 1 else if nSatoshisPerK < 0 then -1 else nFee
  else nFee

/-- **`GetFee` is the ceiling.** -/
theorem getFee_le_iff {rate size x : Int} (hr : 0 ≤ rate) (hs : 0 ≤ size) :
    getFee rate size ≤ x ↔ rate * size ≤ 1000 * x := by
  have hceil : -(-(rate * size) / 1000) ≤ x ↔ rate * size ≤ 1000 * x := by omega
  rw [getFee]
  split
  next hzero =>
    by_cases hpos : 0 < rate
    · -- a positive amount does not round to 0
      have : 0 < rate * size := Int.mul_pos hpos (lt_of_le_of_ne hs hzero.2.symm)
      omega
    · rw [if_neg hpos, if_neg (not_lt.2 hr)]
      exact hceil
  · exact hceil

theorem lt_getFee_iff {rate size x : Int} (hr : 0 ≤ rate) (hs : 0 ≤ size) :
    x < getFee rate size ↔ 1000 * x < rate * size := by
  rw [← not_le, getFee_le_iff hr hs, not_le]

end BitcoinPurity
