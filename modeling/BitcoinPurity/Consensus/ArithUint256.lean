import BitcoinPurity.Lib.Limbs

/-!
# 256-bit arithmetic

The shifts and the multiplication of `base_uint<256>`: the class keeps eight limbs of 32 bits, and
its operators are loops over them.  Each computes the operation on numbers modulo `2 ^ 256`
(`shl256_eq`, `shr256_eq`, `mul256_eq`).
-/

namespace BitcoinPurity

open Limbs List Nat

/-! ## Algorithm -/

variable (pn : List Nat)

/-- The writes of one turn of the loop of `operator<<=`. -/
def shiftLeftWrites (shift i : Nat) : List (Nat × Nat) :=
  let k := shift / 32
  let shift := shift % 32
  (if i + k + 1 < pn.length ∧ shift ≠ 0 then [(i + k + 1, pn.getD i 0 >>> (32 - shift))] else []) ++
    if i + k < pn.length then [(i + k, (pn.getD i 0 <<< shift) % 2 ^ 32)] else []

/-- `base_uint::operator<<=` -/
def shiftLeft (shift : Nat) : List Nat :=
  scatter (List.replicate pn.length 0) ((List.range pn.length).flatMap (shiftLeftWrites pn shift))

/-- The writes of one turn of the loop of `operator>>=`. -/
def shiftRightWrites (shift i : Nat) : List (Nat × Nat) :=
  let k := shift / 32
  let shift := shift % 32
  (if k + 1 ≤ i ∧ shift ≠ 0 then [(i - k - 1, (pn.getD i 0 <<< (32 - shift)) % 2 ^ 32)] else []) ++
    if k ≤ i then [(i - k, pn.getD i 0 >>> shift)] else []

/-- `base_uint::operator>>=` -/
def shiftRight (shift : Nat) : List Nat :=
  scatter (List.replicate pn.length 0) ((List.range pn.length).flatMap (shiftRightWrites pn shift))

/-- The loop of `base_uint::operator*=(uint32_t)`, from a limb on. -/
def mulWord (b32 : Nat) : Nat → List Nat → List Nat
  | _, [] => []
  | carry, l :: pn =>
    let n := (carry + b32 * l) % 2 ^ 64
    n % 2 ^ 32 :: mulWord b32 (n / 2 ^ 32) pn

/-- A row of `operator*=(const base_uint&)`, from a limb on. -/
def mulRow (m : Nat) : Nat → List Nat → List Nat → List Nat
  | carry, l :: a, k :: b =>
    let n := (carry + l + m * k) % 2 ^ 64
    n % 2 ^ 32 :: mulRow m (n / 2 ^ 32) a b
  | _, _, _ => []

/-- The operators on the numbers that eight limbs hold. -/
def shl256 (x shift : Nat) : Nat := value 32 (shiftLeft (limbs 32 8 x) shift)

def shr256 (x shift : Nat) : Nat := value 32 (shiftRight (limbs 32 8 x) shift)

def mul256 (x b32 : Nat) : Nat := value 32 (mulWord b32 0 (limbs 32 8 x))

/-! ## Shifts -/

section
variable {pn : List Nat} {shift : Nat}

theorem fits_zeros (w n : Nat) : Fits w (replicate n 0) := by
  intro l hl
  rw [eq_of_mem_replicate hl]
  exact Nat.two_pow_pos w

theorem mem_shiftLeftWrites {i : Nat} {p : Nat × Nat} : p ∈ shiftLeftWrites pn shift i ↔
    (i + shift / 32 + 1 < pn.length ∧ shift % 32 ≠ 0) ∧
        p = (i + shift / 32 + 1, pn.getD i 0 >>> (32 - shift % 32)) ∨
      i + shift / 32 < pn.length ∧ p = (i + shift / 32, (pn.getD i 0 <<< (shift % 32)) % 2 ^ 32) := by
  simp only [shiftLeftWrites, mem_append, mem_ite_nil_right, mem_singleton]

theorem mem_shiftRightWrites {i : Nat} {p : Nat × Nat} : p ∈ shiftRightWrites pn shift i ↔
    (shift / 32 + 1 ≤ i ∧ shift % 32 ≠ 0) ∧
        p = (i - shift / 32 - 1, (pn.getD i 0 <<< (32 - shift % 32)) % 2 ^ 32) ∨
      shift / 32 ≤ i ∧ p = (i - shift / 32, pn.getD i 0 >>> (shift % 32)) := by
  simp only [shiftRightWrites, mem_append, mem_ite_nil_right, mem_singleton]

/-- The bit at a place of the whole number, from the limb and the place in it. -/
theorem testBit_at {i c n : Nat} (hc : c < 32) (hn : n = 32 * i + c) :
    (pn.getD (n / 32) 0).testBit (n % 32) = (pn.getD i 0).testBit c := by
  rw [show n / 32 = i by omega, show n % 32 = c by omega]

theorem testBit_word {x n b : Nat} : ((x <<< n) % 2 ^ 32).testBit b ↔ b < 32 ∧ n ≤ b ∧
    x.testBit (b - n) := by
  simp only [Nat.testBit_mod_two_pow, Nat.testBit_shiftLeft, Bool.and_eq_true, decide_eq_true_eq]

theorem testBit_scattered {writes : Nat → List (Nat × Nat)} {n j b : Nat} (hj : j < n) :
    ((scatter (replicate n 0) ((range n).flatMap writes)).getD j 0).testBit b ↔
      ∃ i < n, ∃ v, (j, v) ∈ writes i ∧ v.testBit b := by
  have hzero : (replicate n 0).getD j 0 = 0 := by simp
  rw [testBit_scatter (by simpa using hj), hzero, zero_testBit]
  simp only [Bool.false_eq_true, false_or, mem_flatMap, mem_range]
  grind

theorem fits_scattered {writes : Nat → List (Nat × Nat)} {n : Nat}
    (hw : ∀ i, ∀ p ∈ writes i, p.2 < 2 ^ 32) :
    Fits 32 (scatter (replicate n 0) ((range n).flatMap writes)) := by
  refine fits_scatter (fits_zeros 32 _) fun p hp => ?_
  obtain ⟨i, -, hp⟩ := mem_flatMap.1 hp
  exact hw i p hp

variable (h : Fits 32 pn)
include h

theorem getD_lt (i : Nat) : pn.getD i 0 < 2 ^ 32 := by
  by_cases hi : i < pn.length
  · rw [getD_eq_getElem _ _ hi]
    exact h _ (getElem_mem hi)
  · rw [getD_eq_default _ _ (by omega)]
    decide

theorem fits_shiftLeft : Fits 32 (shiftLeft pn shift) := by
  refine fits_scattered fun i p hp => ?_
  obtain ⟨-, rfl⟩ | ⟨-, rfl⟩ := mem_shiftLeftWrites.1 hp
  · exact lt_of_le_of_lt (shiftRight_le _ _) (getD_lt h i)
  · exact mod_lt _ (by decide)

theorem fits_shiftRight : Fits 32 (shiftRight pn shift) := by
  refine fits_scattered fun i p hp => ?_
  obtain ⟨-, rfl⟩ | ⟨-, rfl⟩ := mem_shiftRightWrites.1 hp
  · exact mod_lt _ (by decide)
  · exact lt_of_le_of_lt (shiftRight_le _ _) (getD_lt h i)

theorem lt_of_testBit {i c : Nat} (hbit : (pn.getD i 0).testBit c) : c < 32 ∧ i < pn.length := by
  constructor
  · by_contra hc
    rw [Nat.testBit_lt_two_pow ((getD_lt h i).trans_le
      (Nat.pow_le_pow_right (by decide) (not_lt.1 hc)))] at hbit
    cases hbit
  · grind

theorem testBit_shiftLeft {j b : Nat} (hj : j < pn.length) (hb : b < 32) :
    ((shiftLeft pn shift).getD j 0).testBit b ↔ shift ≤ 32 * j + b ∧
        (pn.getD ((32 * j + b - shift) / 32) 0).testBit ((32 * j + b - shift) % 32) := by
  rw [shiftLeft, testBit_scattered hj]
  constructor
  · rintro ⟨i, hi, v, hv, hbit⟩
    obtain ⟨hc, hp⟩ | ⟨hc, hp⟩ := mem_shiftLeftWrites.1 hv
    · cases hp
      rw [Nat.testBit_shiftRight] at hbit
      have hlt := (lt_of_testBit h hbit).1
      grind
    · cases hp
      rw [testBit_word] at hbit
      grind
  · rintro ⟨hle, hbit⟩
    obtain ⟨hc, hi⟩ := lt_of_testBit h hbit
    refine ⟨_, hi, ?_⟩
    by_cases hs : shift % 32 ≤ b
    · -- the bit stays at its side of the border between two limbs
      refine ⟨_, mem_shiftLeftWrites.2 (.inr ⟨by omega, Prod.ext (by omega) rfl⟩), ?_⟩
      rw [show (32 * j + b - shift) % 32 = b - shift % 32 by omega] at hbit
      exact testBit_word.2 ⟨hb, hs, hbit⟩
    · refine ⟨_, mem_shiftLeftWrites.2 (.inl ⟨by omega, Prod.ext (by omega) rfl⟩), ?_⟩
      rwa [Nat.testBit_shiftRight, show 32 - shift % 32 + b = (32 * j + b - shift) % 32 by omega]

theorem value_shiftLeft :
    value 32 (shiftLeft pn shift) = (value 32 pn <<< shift) % 2 ^ (32 * pn.length) := by
  have hlen : (shiftLeft pn shift).length = pn.length := by simp [shiftLeft]
  refine value_eq_of_testBit (by decide) (fits_shiftLeft h) ?_ fun j hj b hb => ?_
  · rw [hlen]
    exact Nat.mod_lt _ (Nat.two_pow_pos _)
  · rw [hlen] at hj
    rw [testBit_shiftLeft h hj hb, Nat.testBit_mod_two_pow, Nat.testBit_shiftLeft,
      testBit_value (by decide) h]
    grind

theorem testBit_shiftRight {j b : Nat} (hj : j < pn.length) (hb : b < 32) :
    ((shiftRight pn shift).getD j 0).testBit b ↔
      (pn.getD ((shift + (32 * j + b)) / 32) 0).testBit ((shift + (32 * j + b)) % 32) := by
  rw [shiftRight, testBit_scattered hj]
  constructor
  · rintro ⟨i, hi, v, hv, hbit⟩
    obtain ⟨hc, hp⟩ | ⟨hc, hp⟩ := mem_shiftRightWrites.1 hv
    · cases hp
      rw [testBit_word] at hbit
      grind
    · cases hp
      rw [Nat.testBit_shiftRight] at hbit
      have hlt := (lt_of_testBit h hbit).1
      rwa [testBit_at (i := i) hlt (by omega)]
  · intro hbit
    obtain ⟨hc, hi⟩ := lt_of_testBit h hbit
    refine ⟨_, hi, ?_⟩
    by_cases hs : shift % 32 + b < 32
    · refine ⟨_, mem_shiftRightWrites.2 (.inr ⟨by omega, Prod.ext (by omega) rfl⟩), ?_⟩
      rwa [Nat.testBit_shiftRight, show shift % 32 + b = (shift + (32 * j + b)) % 32 by omega]
    refine ⟨_, mem_shiftRightWrites.2 (.inl ⟨by omega, Prod.ext (by omega) rfl⟩), ?_⟩
    rw [show (shift + (32 * j + b)) % 32 = b - (32 - shift % 32) by omega] at hbit
    exact testBit_word.2 ⟨hb, by omega, hbit⟩

theorem value_shiftRight : value 32 (shiftRight pn shift) = value 32 pn >>> shift := by
  have hlen : (shiftRight pn shift).length = pn.length := by simp [shiftRight]
  refine value_eq_of_testBit (by decide) (fits_shiftRight h) ?_ fun j hj b hb => ?_
  · rw [hlen]
    exact lt_of_le_of_lt (shiftRight_le _ _) (value_lt h)
  · rw [hlen] at hj
    rw [testBit_shiftRight h hj hb, Nat.testBit_shiftRight, testBit_value (by decide) h]

end

/-! ## Products -/

theorem value_zeros (w n : Nat) : value w (replicate n 0) = 0 := by
  induction n with
  | zero => rfl
  | succ n ih => rw [replicate_succ, value, ih, mul_zero]

theorem mulWord_eq (b32 carry : Nat) (pn : List Nat) :
    mulWord b32 carry pn = mulRow b32 carry (replicate pn.length 0) pn := by
  induction pn generalizing carry with
  | nil => rfl
  | cons l pn ih => rw [mulWord, length_cons, replicate_succ, mulRow, ih, add_zero]

/-- The low limb of a sum, and the rest of the sum above it. -/
theorem add_mul_mod_limb (l x n : Nat) : (l + 2 ^ 32 * x) % 2 ^ (32 * (n + 1)) =
    2 ^ 32 * ((l / 2 ^ 32 + x) % 2 ^ (32 * n)) + l % 2 ^ 32 := by
  rw [mul_succ, add_comm (32 * n), pow_add, mod_mul, add_mul_mod_self_left,
    add_mul_div_left _ _ (by decide), add_comm]

/-- **A row adds a multiple of `b`**, as far as the limbs of `a` go. -/
theorem value_mulRow {m carry : Nat} {a b : List Nat} (hm : m < 2 ^ 32)
    (hc : carry < 2 ^ 32) (ha : Fits 32 a) (hb : Fits 32 b) (hlen : a.length ≤ b.length) :
    value 32 (mulRow m carry a b) =
      (carry + value 32 a + m * value 32 b) % 2 ^ (32 * a.length) := by
  induction a generalizing carry b with
  | nil => simp [mulRow, value, mod_one]
  | cons l a ih =>
    cases b with
    | nil => cases hlen
    | cons k b =>
      obtain ⟨hl, ha⟩ := forall_mem_cons.1 ha
      obtain ⟨hk, hb⟩ := forall_mem_cons.1 hb
      have hprod : m * k ≤ (2 ^ 32 - 1) * (2 ^ 32 - 1) := Nat.mul_le_mul (by omega) (by omega)
      have hn : carry + l + m * k < 2 ^ 64 := by omega
      have hsum : carry + value 32 (l :: a) + m * value 32 (k :: b) =
          (carry + l + m * k) + 2 ^ 32 * (value 32 a + m * value 32 b) := by
        rw [value, value, mul_add, mul_add, mul_left_comm]
        omega
      rw [mulRow, mod_eq_of_lt hn, value, ih (by omega) ha hb (le_of_succ_le_succ hlen),
        hsum, length_cons, add_mul_mod_limb, add_assoc]

/-! ## The operators on numbers -/

section
variable {x : Nat}

theorem shl256_eq (hx : x < 2 ^ 256) (shift : Nat) : shl256 x shift = (x <<< shift) % 2 ^ 256 := by
  rw [shl256, value_shiftLeft (fits_limbs 32 8 x), length_limbs, value_limbs_of_lt hx]

theorem shr256_eq (hx : x < 2 ^ 256) (shift : Nat) : shr256 x shift = x >>> shift := by
  rw [shr256, value_shiftRight (fits_limbs 32 8 x), value_limbs_of_lt hx]

theorem mul256_eq (hx : x < 2 ^ 256) {b32 : Nat} (hb : b32 < 2 ^ 32) :
    mul256 x b32 = x * b32 % 2 ^ 256 := by
  rw [mul256, mulWord_eq, value_mulRow hb (by decide) (fits_zeros _ _) (fits_limbs _ _ _) (by simp),
    value_limbs_of_lt hx, value_zeros, length_replicate, length_limbs, zero_add, zero_add, mul_comm]

end

end BitcoinPurity
