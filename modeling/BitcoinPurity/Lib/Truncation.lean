import Mathlib.Algebra.Order.Group.Nat
import Mathlib.Algebra.Order.Ring.Int

/-!
Numbers cut to a mantissa below `M` with an exponent of base `B`: the digits below the least
exponent at which the number fits are dropped.

Where `B` divides `M` the cut is monotone across exponents (`IsExponent.truncate_mono`), and it
leaves numbers alone that have such a form (`IsExponent.truncate_eq`).
-/

namespace Truncation

variable {B M x y k l : Nat}

/-- `k` is the least exponent at which `x` fits below `M`. -/
structure IsExponent (B M x k : Nat) : Prop where
  fits : x < M * B ^ k
  least : ∀ j < k, M * B ^ j ≤ x

/-- Drop the lowest `k` digits. -/
def truncate (B k x : Nat) : Nat := x / B ^ k * B ^ k

theorem truncate_le (B k x : Nat) : truncate B k x ≤ x := Nat.div_mul_le_self x (B ^ k)

theorem IsExponent.le (hx : IsExponent B M x k) (hy : IsExponent B M y l) (h : x ≤ y) : k ≤ l := by
  by_contra hlt
  have h1 := hx.least l (by omega)
  have h2 := hy.fits
  omega

/-- **The cut is monotone.** -/
theorem IsExponent.truncate_mono (hB : 0 < B) (hM : B ∣ M) (hx : IsExponent B M x k)
    (hy : IsExponent B M y l) (h : x ≤ y) : truncate B k x ≤ truncate B l y := by
  rcases Nat.lt_or_eq_of_le (hx.le hy h) with hkl | rfl
  · -- `y` has a digit more: its leading digits alone are above `x`
    obtain ⟨m, rfl⟩ := hM
    obtain ⟨j, rfl⟩ : ∃ j, l = j + 1 := ⟨l - 1, by omega⟩
    have hpow : B * m * B ^ j = m * B ^ (j + 1) := by
      rw [pow_succ, Nat.mul_comm B m, Nat.mul_assoc, Nat.mul_comm B]
    have hlow := hy.least j (Nat.lt_succ_self j)
    rw [hpow] at hlow
    have hdigits : m ≤ y / B ^ (j + 1) :=
      (Nat.le_div_iff_mul_le (Nat.pow_pos hB)).mpr hlow
    calc truncate B k x ≤ x := truncate_le B k x
      _ ≤ B * m * B ^ k := Nat.le_of_lt hx.fits
      _ ≤ B * m * B ^ j := Nat.mul_le_mul_left _ (Nat.pow_le_pow_right hB (by omega))
      _ = m * B ^ (j + 1) := hpow
      _ ≤ truncate B (j + 1) y := Nat.mul_le_mul_right _ hdigits
  · exact Nat.mul_le_mul_right _ (Nat.div_le_div_right h)

theorem IsExponent.truncate_eq (hB : 0 < B) (hx : IsExponent B M x k) {m j : Nat} (hm : m < M)
    (he : x = m * B ^ j) : truncate B k x = x := by
  have hkj : k ≤ j := by
    by_contra hlt
    have h1 := hx.least j (by omega)
    have h2 : m * B ^ j < M * B ^ j := Nat.mul_lt_mul_of_pos_right hm (Nat.pow_pos hB)
    omega
  refine Nat.div_mul_cancel ?_
  rw [he]
  exact Dvd.dvd.mul_left (Nat.pow_dvd_pow B hkj) m

/-- A mantissa that could not be a digit longer is determined by the value, and so is its
exponent. -/
theorem scaled_inj (hB : 0 < B) {m n : Nat} (hm : m < M) (hn : n < M) (hm' : M ≤ m * B)
    (hn' : M ≤ n * B) (h : m * B ^ k = n * B ^ l) : m = n ∧ k = l := by
  have hle {m n k l : Nat} (hm : m < M) (hn : M ≤ n * B) (h : m * B ^ k = n * B ^ l) : l ≤ k := by
    by_contra hlt
    have hlow : n * B * B ^ k ≤ n * B ^ l := by
      rw [Nat.mul_assoc, ← Nat.pow_succ']
      exact Nat.mul_le_mul_left _ (Nat.pow_le_pow_right hB (by omega))
    have hpos : 0 < B ^ k := Nat.pow_pos hB
    have hup : m * B ^ k < n * B * B ^ k := Nat.mul_lt_mul_of_pos_right (by omega) hpos
    omega
  obtain rfl : k = l := Nat.le_antisymm (hle hn hm' h.symm) (hle hm hn' h)
  exact ⟨Nat.eq_of_mul_eq_mul_right (Nat.pow_pos hB) h, rfl⟩

end Truncation
