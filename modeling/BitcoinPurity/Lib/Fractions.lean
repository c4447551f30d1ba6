import Mathlib.Algebra.GroupWithZero.Units.Basic

/-!
A product that is kept as a fraction, so that factors can be taken out without an inversion each
time: what comes in is multiplied into the numerator, what goes out into the denominator, and
`reduce` divides once.

`reduce_scale_reduce_scale`: to put in what was taken out and take out what was put in restores a
reduced fraction.
-/

namespace Fractions

/-- A numerator and a denominator. -/
structure Fraction (F : Type*) where
  numerator : F
  denominator : F
  deriving DecidableEq, Repr

namespace Fraction
variable {F : Type*} [CommGroupWithZero F]

def one : Fraction F := ⟨1, 1⟩

/-- Put the factor `p` in and take the factor `q` out. -/
def scale (p q : F) (h : Fraction F) : Fraction F := ⟨h.numerator * p, h.denominator * q⟩

def reduce (h : Fraction F) : Fraction F := ⟨h.numerator / h.denominator, 1⟩

theorem scale_one (h : Fraction F) : h.scale 1 1 = h := by simp [scale]

theorem scale_scale (p q p' q' : F) (h : Fraction F) :
    (h.scale p q).scale p' q' = h.scale (p * p') (q * q') := by
  simp [scale, mul_assoc]

/-- **Undoing**: the factors back out and in again restore a reduced fraction. -/
theorem reduce_scale_reduce_scale {p q : F} (hp : p ≠ 0) (hq : q ≠ 0) {h : Fraction F}
    (hred : h.denominator = 1) : ((h.scale p q).reduce.scale q p).reduce = h := by
  obtain ⟨n, d⟩ := h
  subst hred
  simp only [scale, reduce, one_mul]
  rw [div_mul_cancel₀ _ hq, mul_div_assoc, div_self hp, mul_one]

end Fraction

end Fractions
