import Mathlib.Algebra.Order.Ring.Int
import Mathlib.Data.Nat.Bitwise

/-!
Numbers as lists of limbs of `w` bits, least significant first.

The bits of the number are those of its limbs (`testBit_value`), so an operation that scatters bits
over limbs that begin at zero is described by what each limb gets (`testBit_scatter`).
-/

namespace Limbs

open List Nat

variable {w : Nat} {ls : List Nat}

def value (w : Nat) : List Nat → Nat
  | [] => 0
  | l :: ls => 2 ^ w * value w ls + l

/-- The `n` lowest limbs of a number. -/
def limbs (w : Nat) : Nat → Nat → List Nat
  | 0, _ => []
  | n + 1, x => x % 2 ^ w :: limbs w n (x / 2 ^ w)

def Fits (w : Nat) (ls : List Nat) : Prop := ∀ l ∈ ls, l < 2 ^ w

@[simp] theorem length_limbs (w n x : Nat) : (limbs w n x).length = n := by
  induction n generalizing x with
  | zero => rfl
  | succ n ih => rw [limbs, length_cons, ih]

theorem fits_limbs (w n x : Nat) : Fits w (limbs w n x) := by
  induction n generalizing x with
  | zero => simp [Fits, limbs]
  | succ n ih =>
    intro l hl
    rcases mem_cons.1 hl with rfl | hl
    · exact Nat.mod_lt _ (Nat.two_pow_pos w)
    · exact ih _ l hl

theorem value_limbs (w n x : Nat) : value w (limbs w n x) = x % 2 ^ (w * n) := by
  induction n generalizing x with
  | zero => rw [limbs, value, mul_zero, pow_zero, mod_one]
  | succ n ih =>
    rw [limbs, value, ih, mul_succ, add_comm (w * n), pow_add, mod_mul, add_comm]

variable {x j : Nat} {writes : List (Nat × Nat)}

theorem value_limbs_of_lt {n : Nat} (h : x < 2 ^ (w * n)) : value w (limbs w n x) = x := by
  rw [value_limbs, mod_eq_of_lt h]

theorem value_lt (h : Fits w ls) : value w ls < 2 ^ (w * ls.length) := by
  induction ls with
  | nil => simp [value]
  | cons l ls ih =>
    have hl : l < 2 ^ w := h l mem_cons_self
    have hv := ih fun x hx => h x (.tail _ hx)
    calc value w (l :: ls) < 2 ^ w * value w ls + 2 ^ w := Nat.add_lt_add_left hl _
      _ = 2 ^ w * (value w ls + 1) := (Nat.mul_succ _ _).symm
      _ ≤ 2 ^ w * 2 ^ (w * ls.length) := mul_le_mul_left _ hv
      _ = 2 ^ (w * (l :: ls).length) := by
        rw [← pow_add, length_cons, mul_succ, add_comm]

/-- **The bits of a number** are those of its limbs. -/
theorem testBit_value (hw : 0 < w) (h : Fits w ls) (i : Nat) :
    (value w ls).testBit i = (ls.getD (i / w) 0).testBit (i % w) := by
  induction ls generalizing i with
  | nil => simp [value]
  | cons l ls ih =>
    rw [value, testBit_two_pow_mul_add _ (h l mem_cons_self)]
    by_cases hi : i < w
    · rw [if_pos hi, div_eq_of_lt hi, mod_eq_of_lt hi, getD_cons_zero]
    obtain ⟨j, rfl⟩ : ∃ j, i = j + w := ⟨i - w, by omega⟩
    rw [if_neg hi, Nat.add_sub_cancel, ih (fun x hx => h x (.tail _ hx)), Nat.add_mod_right,
      Nat.add_div_right _ hw, getD_cons_succ]

/-! ## Scattering bits -/

def scatter (ls : List Nat) (writes : List (Nat × Nat)) : List Nat :=
  writes.foldl (fun ls p => ls.modify p.1 (· ||| p.2)) ls

@[simp] theorem length_scatter (ls : List Nat) (writes : List (Nat × Nat)) :
    (scatter ls writes).length = ls.length := by
  induction writes generalizing ls with
  | nil => rfl
  | cons p writes ih =>
    exact (ih _).trans (length_modify _ _ _)

theorem getD_modify_or (p : Nat × Nat) (hj : j < ls.length) : (ls.modify p.1 (· ||| p.2)).getD j 0 =
      if p.1 = j then ls.getD j 0 ||| p.2 else ls.getD j 0 := by
  rw [getD_eq_getElem?_getD, getElem?_modify, getD_eq_getElem?_getD, getElem?_eq_getElem hj]
  by_cases h : p.1 = j <;> simp

/-- **What each limb gets**: the bits of the writes to it. -/
theorem testBit_scatter (hj : j < ls.length) (b : Nat) : ((scatter ls writes).getD j 0).testBit b ↔
      (ls.getD j 0).testBit b ∨ ∃ p ∈ writes, p.1 = j ∧ p.2.testBit b := by
  induction writes generalizing ls with
  | nil => simp [scatter]
  | cons p writes ih =>
    have hj' : j < (ls.modify p.1 (· ||| p.2)).length := by rwa [length_modify]
    show ((scatter (ls.modify p.1 (· ||| p.2)) writes).getD j 0).testBit b ↔ _
    rw [ih hj', getD_modify_or p hj]
    grind

theorem fits_scatter (h : Fits w ls)
    (hwrites : ∀ p ∈ writes, p.2 < 2 ^ w) : Fits w (scatter ls writes) := by
  induction writes generalizing ls with
  | nil => exact h
  | cons p writes ih =>
    refine ih (fun l hl => ?_) fun q hq => hwrites q (.tail _ hq)
    obtain ⟨j, hj, rfl⟩ := mem_iff_getElem.1 hl
    rw [length_modify] at hj
    have hlt : ls[j] < 2 ^ w := h _ (getElem_mem hj)
    rw [getElem_modify]
    by_cases hp : p.1 = j
    · rw [if_pos hp]
      exact or_lt_two_pow hlt (hwrites p mem_cons_self)
    · rwa [if_neg hp]

theorem value_eq_of_testBit (hw : 0 < w) (h : Fits w ls) (hx : x < 2 ^ (w * ls.length))
    (hbits : ∀ j < ls.length, ∀ b < w,
      (ls.getD j 0).testBit b ↔ x.testBit (w * j + b)) : value w ls = x := by
  refine eq_of_testBit_eq fun i => ?_
  by_cases hi : i < w * ls.length
  · have hj : i / w < ls.length := Nat.div_lt_of_lt_mul hi
    rw [testBit_value hw h, Bool.eq_iff_iff, hbits _ hj _ (Nat.mod_lt i hw), Nat.div_add_mod]
  · have hpow : 2 ^ (w * ls.length) ≤ 2 ^ i := Nat.pow_le_pow_right (by decide) (by omega)
    rw [Nat.testBit_lt_two_pow ((value_lt h).trans_le hpow), testBit_lt_two_pow (hx.trans_le hpow)]

end Limbs
