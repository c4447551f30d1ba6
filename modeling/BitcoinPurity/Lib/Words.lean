import Mathlib.Algebra.Order.Ring.Int

/-!
Unsigned machine words.

A word of width `w` is the residue modulo `2 ^ w` of the integer it stands for.  Additions and
subtractions may be done on the integers and reduced at the end (`word_add`, `word_sub`), and
where the integer is in range the word is the integer (`word_eq`).
-/

namespace Words

variable {w : Nat} {x : Int}

/-- The word of width `w` for an integer. -/
def word (w : Nat) (x : Int) : Nat := (x % 2 ^ w).toNat

theorem cast_word (w : Nat) (x : Int) : (word w x : Int) = x % 2 ^ w :=
  Int.toNat_of_nonneg (Int.emod_nonneg x (pow_ne_zero w (by decide)))

theorem word_add (w : Nat) (x y : Int) : word w (word w x + y) = word w (x + y) := by
  unfold word
  rw [show ((x % 2 ^ w).toNat) = x % 2 ^ w from cast_word w x, Int.emod_add_emod]

theorem word_sub (w : Nat) (x y : Int) : word w (word w x - y) = word w (x - y) := by
  rw [sub_eq_add_neg, word_add, ← sub_eq_add_neg]

/-- **In range** the word is the integer. -/
theorem word_eq (h0 : 0 ≤ x) (h : x < 2 ^ w) : (word w x : Int) = x := by
  rw [cast_word, Int.emod_eq_of_lt h0 h]

end Words
