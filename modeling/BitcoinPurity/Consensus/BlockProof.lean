import BitcoinPurity.Consensus.ArithUint256
import BitcoinPurity.Consensus.Pow

/-!
# Products, quotients and block proofs

The product and the quotient of `base_uint<256>`, and `GetBlockProof` on limbs.

The product adds up a row for each limb of one factor; the quotient is found bit by bit, by
subtracting the divisor from high shifts to low.  Each operator computes the operation on numbers
modulo `2 ^ 256`, so a block's proof is `2 ^ 256 / (target + 1)` (`arith_exact`).
-/

namespace BitcoinPurity

open Limbs List Nat

/-! ## Algorithm -/

/-- The rows from a limb `pn[j]` on, over the limbs of the result from `a[j]` on. -/
def mulRows (b : List Nat) : List Nat → List Nat → List Nat
  | m :: pn, a =>
    let row := mulRow m 0 a b
    row.headD 0 :: mulRows b pn row.tail
  | [], _ => []

/-- `operator++` -/
def increment : List Nat → List Nat
  | [] => []
  | l :: pn => if (l + 1) % 2 ^ 32 = 0 then 0 :: increment pn else (l + 1) :: pn

/-- `CompareTo`: the limbs above decide first. -/
def compareTo : List Nat → List Nat → Ordering
  | l :: pn, k :: b => (compareTo pn b).then (compare l k)
  | _, _ => .eq

/-- The loop of `bits()` in a limb, from a bit down; `0` for a zero limb. -/
def limbBits (l : Nat) : Nat → Nat
  | 0 => if l = 0 then 0 else 1
  | nbits + 1 => if l.testBit (nbits + 1) then nbits + 2 else limbBits l nbits

/-- `bits()`, from the highest limb that is not zero. -/
def bitsLoop : List Nat → Nat
  | [] => 0
  | l :: pn => if bitsLoop pn = 0 then limbBits l 31 else 32 + bitsLoop pn

def mulUint256 (x b : Nat) : Nat :=
  value 32 (mulRows (limbs 32 8 b) (limbs 32 8 x) (replicate 8 0))

/-- The loop of `operator+=` is that of a row with the factor one. -/
def add256 (x b : Nat) : Nat := value 32 (mulRow 1 0 (limbs 32 8 x) (limbs 32 8 b))

def not256 (x : Nat) : Nat := value 32 ((limbs 32 8 x).map (2 ^ 32 - 1 - ·))

def neg256 (x : Nat) : Nat := value 32 (increment (limbs 32 8 (not256 x)))

def setBit256 (x shift : Nat) : Nat :=
  value 32 (scatter (limbs 32 8 x) [(shift / 32, 1 <<< (shift % 32))])

/-- The loop of `operator/=`, with the rounds left and the quotient so far. -/
def divLoop : Nat → Nat → Nat → Nat → Nat
  | 0, _, _, q => q
  | shift + 1, num, div, q =>
    if compareTo (limbs 32 8 num) (limbs 32 8 div) ≠ .lt then
      divLoop shift (add256 num (neg256 div)) (shr256 div 1) (setBit256 q shift)
    else divLoop shift num (shr256 div 1) q

/-- `base_uint::operator/=`; `none` is its exception. -/
def div256 (x b : Nat) : Option Nat :=
  let numBits := bitsLoop (limbs 32 8 x)
  let divBits := bitsLoop (limbs 32 8 b)
  if divBits = 0 then none
  else if divBits > numBits then some 0
  else some (divLoop (numBits - divBits + 1) x (shl256 b (numBits - divBits)) 0)

/-- `GetBlockProof` by the operators. -/
def getBlockProof256 (nBits : Nat) : Option Nat :=
  let (bnTarget, fNegative, fOverflow) := setCompact nBits
  if fNegative || fOverflow || bnTarget == 0 then some 0
  else (div256 (not256 bnTarget) (add256 bnTarget 1)).map (add256 · 1)

/-! ## Sums and products -/

section
variable {m carry l k : Nat} {pn a b : List Nat}

theorem fits_mulRow : Fits 32 (mulRow m carry a b) := by
  fun_induction mulRow m carry a b with
  | case1 carry l a k b n ih => exact forall_mem_cons.2 ⟨mod_lt _ (by decide), ih⟩
  | case2 => exact fun l hl => nomatch hl

theorem length_mulRow (h : a.length ≤ b.length) : (mulRow m carry a b).length = a.length := by
  induction a generalizing carry b with
  | nil => rfl
  | cons l a ih =>
    cases b with
    | nil => cases h
    | cons k b => exact congrArg succ (ih (le_of_succ_le_succ h))

/-- **The rows add up to the product.** -/
theorem value_mulRows (hp : Fits 32 pn) (ha : Fits 32 a) (hb : Fits 32 b)
    (hlen : a.length = pn.length) (hle : a.length ≤ b.length) : value 32 (mulRows b pn a) =
      (value 32 a + value 32 pn * value 32 b) % 2 ^ (32 * a.length) := by
  induction pn generalizing a with
  | nil =>
    rw [length_eq_zero_iff.1 hlen]
    simp [mulRows, value, mod_one]
  | cons m pn ih =>
    obtain ⟨hm, hp⟩ := forall_mem_cons.1 hp
    have hrow := value_mulRow hm (by decide : 0 < 2 ^ 32) ha hb hle
    have hfit : Fits 32 (mulRow m 0 a b) := fits_mulRow
    have hl : (mulRow m 0 a b).length = a.length := length_mulRow hle
    have hsum : value 32 a + value 32 (m :: pn) * value 32 b =
        (0 + value 32 a + m * value 32 b) + 2 ^ 32 * (value 32 pn * value 32 b) := by
      rw [value, add_mul, mul_assoc]
      omega
    rw [mulRows, hsum, ← mod_add_mod, ← hrow]
    generalize mulRow m 0 a b = row at hfit hl
    cases row with
    | nil => rw [hlen] at hl; cases hl
    | cons h row =>
      obtain ⟨hh, hfit⟩ := forall_mem_cons.1 hfit
      have hlen' : row.length = pn.length := succ.inj (hl.trans hlen)
      have hval : value 32 (h :: row) + 2 ^ 32 * (value 32 pn * value 32 b) =
          h + 2 ^ 32 * (value 32 row + value 32 pn * value 32 b) := by
        rw [value, mul_add]
        omega
      rw [hval, headD_cons, tail_cons, value, ih hp hfit hlen' (by rw [length_cons] at hl; omega),
        ← hl, length_cons, add_mul_mod_limb, div_eq_of_lt hh, mod_eq_of_lt hh, zero_add]

theorem value_increment (h : Fits 32 pn) :
    value 32 (increment pn) = (value 32 pn + 1) % 2 ^ (32 * pn.length) := by
  induction pn with
  | nil => simp [increment, value]
  | cons l pn ih =>
    obtain ⟨hl, hp⟩ := forall_mem_cons.1 h
    have hsum : value 32 (l :: pn) + 1 = (l + 1) + 2 ^ 32 * value 32 pn := by
      rw [value]
      omega
    rw [hsum, length_cons, add_mul_mod_limb, increment]
    split
    · next hc =>
      rw [value, ih hp, hc, show (l + 1) / 2 ^ 32 = 1 by omega, add_comm 1]
    · next hc =>
      rw [value, show (l + 1) / 2 ^ 32 = 0 by omega, zero_add, mod_eq_of_lt (value_lt hp),
        mod_eq_of_lt (by omega : l + 1 < 2 ^ 32)]

theorem value_not (h : Fits 32 pn) :
    value 32 (pn.map (2 ^ 32 - 1 - ·)) + value 32 pn + 1 = 2 ^ (32 * pn.length) := by
  induction pn with
  | nil => rfl
  | cons l pn ih =>
    obtain ⟨hl, hp⟩ := forall_mem_cons.1 h
    rw [length_cons, mul_succ, pow_add, ← ih hp, map_cons, value, value]
    omega

theorem compareTo_spec (ha : Fits 32 a) (hb : Fits 32 b) (hlen : a.length = b.length) :
    (compareTo a b = .lt ↔ value 32 a < value 32 b) ∧
      (compareTo a b = .eq ↔ value 32 a = value 32 b) := by
  induction a generalizing b with
  | nil =>
    rw [length_eq_zero_iff.1 hlen.symm]
    simp [compareTo]
  | cons l a ih =>
    match b with
    | k :: b =>
      obtain ⟨hl, ha⟩ := forall_mem_cons.1 ha
      obtain ⟨hk, hb⟩ := forall_mem_cons.1 hb
      obtain ⟨hlt, heq⟩ := ih ha hb (succ.inj hlen)
      rw [compareTo, value, value, Ordering.then_eq_lt, Ordering.then_eq_eq, hlt, heq,
        compare_lt_iff_lt, compare_eq_iff_eq]
      omega

/-! ## Bits -/

theorem limbBits_le_iff {n : Nat} (h : l < 2 ^ (n + 1)) (i : Nat) :
    limbBits l n ≤ i ↔ l < 2 ^ i := by
  induction n with
  | zero =>
    obtain rfl | rfl : l = 0 ∨ l = 1 := by omega
    · exact iff_of_true (Nat.zero_le i) (Nat.two_pow_pos i)
    · simp [limbBits, Nat.one_le_iff_ne_zero]
  | succ n ih =>
    rw [limbBits]
    split
    · next hbit =>
      constructor
      · intro hi
        exact h.trans_le (Nat.pow_le_pow_right (by decide) hi)
      · intro hi
        exact (Nat.pow_lt_pow_iff_right (by decide)).1 ((ge_two_pow_of_testBit hbit).trans_lt hi)
    · next hbit =>
      refine ih (not_le.1 fun hge => hbit ?_)
      exact testBit_of_two_pow_le_and_two_pow_add_one_gt hge h

theorem bitsLoop_le_iff (h : Fits 32 pn) (n : Nat) : bitsLoop pn ≤ n ↔ value 32 pn < 2 ^ n := by
  induction pn generalizing n with
  | nil => exact iff_of_true (Nat.zero_le n) (Nat.two_pow_pos n)
  | cons l pn ih =>
    obtain ⟨hl, hp⟩ := forall_mem_cons.1 h
    have hzero := ih hp 0
    rw [bitsLoop, value]
    split
    · next hz =>
      rw [limbBits_le_iff hl, show value 32 pn = 0 by omega, mul_zero, zero_add]
    · next hz =>
      by_cases hn : 32 ≤ n
      · obtain ⟨i, rfl⟩ := exists_add_of_le hn
        rw [Nat.add_le_add_iff_left, ih hp, pow_add]
        omega
      · have hpow : 2 ^ n ≤ 2 ^ 32 := Nat.pow_le_pow_right (by decide) (by omega)
        omega

/-- **The size of a number.** -/
theorem bits256_le_iff {x : Nat} (hx : x < 2 ^ 256) (n : Nat) :
    bitsLoop (limbs 32 8 x) ≤ n ↔ x < 2 ^ n := by
  rw [bitsLoop_le_iff (fits_limbs 32 8 x), value_limbs_of_lt hx]

end

/-! ## The operators on numbers -/

section
variable {x b : Nat} (hx : x < 2 ^ 256)
include hx

theorem not256_eq : not256 x = 2 ^ 256 - 1 - x := by
  have h := value_not (fits_limbs 32 8 x)
  rw [length_limbs, value_limbs_of_lt hx] at h
  unfold not256
  omega

theorem neg256_eq : neg256 x = (2 ^ 256 - x) % 2 ^ 256 := by
  rw [neg256, not256_eq hx, value_increment (fits_limbs _ _ _), length_limbs,
    value_limbs_of_lt (by omega)]
  omega

theorem setBit256_eq {shift : Nat} (hs : shift < 256) : setBit256 x shift = x ||| 2 ^ shift := by
  have hbit : 2 ^ shift < 2 ^ 256 := Nat.pow_lt_pow_right (by decide) hs
  refine value_eq_of_testBit (by decide) (fits_scatter (fits_limbs 32 8 x) ?_) ?_ ?_
  · rw [forall_mem_singleton, one_shiftLeft]
    exact Nat.pow_lt_pow_right (by decide) (mod_lt _ (by decide))
  · rw [length_scatter, length_limbs]
    exact or_lt_two_pow hx hbit
  · intro j hj i hi
    rw [length_scatter] at hj
    have hold : ((limbs 32 8 x).getD j 0).testBit i = x.testBit (32 * j + i) := by
      have h := testBit_value (by decide) (fits_limbs 32 8 x) (32 * j + i)
      rw [value_limbs_of_lt hx, testBit_at hi rfl] at h
      exact h.symm
    rw [testBit_scatter hj, hold, testBit_or, Bool.or_eq_true, testBit_two_pow, decide_eq_true_eq]
    simp only [mem_singleton, exists_eq_left, one_shiftLeft, testBit_two_pow, decide_eq_true_eq]
    refine or_congr_right ?_
    omega

variable (hb : b < 2 ^ 256)
include hb

theorem mulUint256_eq : mulUint256 x b = x * b % 2 ^ 256 := by
  rw [mulUint256, value_mulRows (fits_limbs _ _ _) (fits_zeros _ _) (fits_limbs _ _ _) (by simp)
    (by simp), value_limbs_of_lt hx, value_limbs_of_lt hb, value_zeros, length_replicate, zero_add]

theorem add256_eq : add256 x b = (x + b) % 2 ^ 256 := by
  rw [add256, value_mulRow (by decide) (by decide) (fits_limbs _ _ _) (fits_limbs _ _ _) (by simp),
    value_limbs_of_lt hx, value_limbs_of_lt hb, length_limbs, zero_add, one_mul]

theorem compare256_iff : compareTo (limbs 32 8 x) (limbs 32 8 b) ≠ .lt ↔ b ≤ x := by
  rw [ne_eq, (compareTo_spec (fits_limbs _ _ _) (fits_limbs _ _ _) (by simp)).1,
    value_limbs_of_lt hx, value_limbs_of_lt hb, not_lt]

end

/-! ## Division -/

theorem double_half (d n : Nat) : d * 2 ^ (n + 1) / 2 = d * 2 ^ n := by
  rw [pow_succ, ← mul_assoc, Nat.mul_div_cancel _ (by decide)]

/-- **The loop of the division**: with `n` rounds left the divisor is `d * 2 ^ n / 2`, what is left
of the dividend is below `d * 2 ^ n`, and the quotient so far is a multiple of `2 ^ n`. -/
theorem divLoop_eq {d n num q : Nat} (hn : n ≤ 256) (hd : d * 2 ^ n / 2 < 2 ^ 256)
    (hnum : num < 2 ^ 256) (hlt : num < d * 2 ^ n) (hq : q < 2 ^ 256) (hdvd : 2 ^ n ∣ q) :
    divLoop n num (d * 2 ^ n / 2) q = q + num / d := by
  induction n generalizing num q with
  | zero => rw [divLoop, Nat.div_eq_of_lt (by simpa using hlt), add_zero]
  | succ n ih =>
    rw [double_half] at hd ⊢
    have hle : d * 2 ^ n / 2 < 2 ^ 256 := lt_of_le_of_lt (Nat.div_le_self _ _) hd
    have hbit : 2 ^ n < 2 ^ (n + 1) := Nat.pow_lt_pow_right (by decide) (lt_succ_self n)
    have hdvd' : 2 ^ n ∣ q := (pow_dvd_pow 2 (le_succ n)).trans hdvd
    rw [pow_succ, ← mul_assoc] at hlt
    rw [divLoop, shr256_eq hd, shiftRight_one]
    simp only [compare256_iff hnum hd]
    split
    · next hge =>
      have hsub : add256 num (neg256 (d * 2 ^ n)) = num - d * 2 ^ n := by
        rw [neg256_eq hd, add256_eq hnum (mod_lt _ (by decide))]
        omega
      have hset : setBit256 q n = q + 2 ^ n ∧ q + 2 ^ n < 2 ^ 256 := by
        have hor : q ||| 2 ^ n = q + 2 ^ n := by
          obtain ⟨c, rfl⟩ := hdvd
          rw [mul_comm, ← shiftLeft_eq, shiftLeft_add_eq_or_of_lt hbit]
        rw [setBit256_eq hq (by omega), ← hor]
        exact ⟨rfl, or_lt_two_pow hq (hbit.trans_le (Nat.pow_le_pow_right (by decide) hn))⟩
      have hpow : 2 ^ n ≤ num / d := by
        rw [Nat.le_div_iff_mul_le (Nat.pos_of_ne_zero (by rintro rfl; simp at hlt)), mul_comm]
        exact hge
      rw [hsub, hset.1, ih (by omega) hle (by omega) (by omega) hset.2
        ((Nat.dvd_add_right hdvd').2 dvd_rfl), Nat.sub_mul_div]
      omega
    · exact ih (by omega) hle hnum (by omega) hq hdvd'

/-- **`operator/=`** throws for zero only, and divides otherwise. -/
theorem div256_eq {x b : Nat} (hx : x < 2 ^ 256) (hb : b < 2 ^ 256) :
    div256 x b = if b = 0 then none else some (x / b) := by
  have hxs := bits256_le_iff hx
  have hbs := bits256_le_iff hb
  unfold div256
  generalize bitsLoop (limbs 32 8 x) = numBits at hxs
  generalize bitsLoop (limbs 32 8 b) = divBits at hbs
  have hzero : divBits = 0 ↔ b = 0 := by
    have := hbs 0
    omega
  simp only [hzero]
  split
  · rfl
  obtain ⟨k, rfl⟩ : ∃ k, divBits = k + 1 := ⟨divBits - 1, by omega⟩
  have hbk : 2 ^ k ≤ b := not_lt.1 fun h => absurd ((hbs k).2 h) (by omega)
  have hxn : x < 2 ^ numBits := (hxs numBits).1 le_rfl
  split
  · next hlt =>
    have hpow : 2 ^ numBits ≤ 2 ^ k := Nat.pow_le_pow_right (by decide) (by omega)
    rw [Nat.div_eq_of_lt (by omega)]
  obtain ⟨s, rfl⟩ : ∃ s, numBits = k + 1 + s := ⟨numBits - (k + 1), by omega⟩
  have h256 : k + 1 + s ≤ 256 := (hxs 256).2 hx
  have hshift : b * 2 ^ s < 2 ^ 256 := by
    calc b * 2 ^ s < 2 ^ (k + 1) * 2 ^ s :=
          Nat.mul_lt_mul_of_pos_right ((hbs (k + 1)).1 le_rfl) (Nat.two_pow_pos s)
      _ = 2 ^ (k + 1 + s) := (pow_add ..).symm
      _ ≤ 2 ^ 256 := Nat.pow_le_pow_right (by decide) h256
  have hxb : x < b * 2 ^ (s + 1) := by
    calc x < 2 ^ (k + 1 + s) := hxn
      _ = 2 ^ k * 2 ^ (s + 1) := by rw [← pow_add, add_right_comm, add_assoc]
      _ ≤ b * 2 ^ (s + 1) := Nat.mul_le_mul_right _ hbk
  rw [show k + 1 + s - (k + 1) = s by omega, shl256_eq hb, shiftLeft_eq, mod_eq_of_lt hshift,
    ← double_half, divLoop_eq (by omega) (double_half b s ▸ hshift) hx hxb (by decide)
      (Nat.dvd_zero _), zero_add]

/-! ## Block proof -/

/-- A compact target is not the largest number: it is a mantissa of 23 bits, or even. -/
theorem setCompact_lt (nBits : Nat) : (setCompact nBits).1 + 1 < 2 ^ 256 := by
  have hlt : (setCompact nBits).1 < 2 ^ 256 := by
    simp only [setCompact]
    split
    · refine (shiftRight_le _ _).trans_lt (and_le_right.trans_lt (by decide))
    · exact mod_lt _ (by decide)
  obtain ⟨m, j, hm, hj⟩ := setCompact_form nBits
  cases j with
  | zero => omega
  | succ j =>
    rw [pow_succ, ← mul_assoc] at hj
    omega

/-- **256-bit arithmetic is exact.**  `GetBlockProof` does not throw, and is
`2 ^ 256 / (target + 1)` for a target that is neither flagged nor zero. -/
theorem arith_exact (a b : Fin (2 ^ 256)) (b32 : Fin (2 ^ 32)) (shift nBits : Nat) :
    mul256 a b32 = a * b32 % 2 ^ 256 ∧ mulUint256 a b = a * b % 2 ^ 256 ∧
      shl256 a shift = a * 2 ^ shift % 2 ^ 256 ∧ shr256 a shift = a / 2 ^ shift ∧
      div256 a b = (if b.val = 0 then none else some (a.val / b)) ∧
      getBlockProof256 nBits = some (getBlockProof nBits) ∧
      getBlockProof nBits =
        if (setCompact nBits).2.1 || (setCompact nBits).2.2 || (setCompact nBits).1 == 0 then 0
        else 2 ^ 256 / ((setCompact nBits).1 + 1) := by
  refine ⟨mul256_eq a.2 b32.2, mulUint256_eq a.2 b.2, ?_, ?_, div256_eq a.2 b.2, ?_⟩
  · rw [shl256_eq a.2, shiftLeft_eq]
  · rw [shr256_eq a.2, shiftRight_eq_div_pow]
  have ht := setCompact_lt nBits
  unfold getBlockProof256 getBlockProof
  generalize setCompact nBits = c at ht
  obtain ⟨t, fNegative, fOverflow⟩ := c
  dsimp only at ht ⊢
  split
  · exact ⟨rfl, rfl⟩
  next hflags =>
  have hpos : t ≠ 0 := by
    rintro rfl
    simp at hflags
  have hle : (2 ^ 256 - 1 - t) / (t + 1) ≤ 2 ^ 256 - 1 - t := Nat.div_le_self _ _
  constructor
  · rw [not256_eq (by omega), add256_eq (by omega) (by decide), mod_eq_of_lt ht,
      div256_eq (by omega) ht, if_neg (succ_ne_zero t), Option.map_some,
      add256_eq (by omega) (by decide), mod_eq_of_lt (by omega)]
  · rw [← Nat.add_div_right _ (succ_pos t), show 2 ^ 256 - 1 - t + succ t = 2 ^ 256 by omega]

end BitcoinPurity
