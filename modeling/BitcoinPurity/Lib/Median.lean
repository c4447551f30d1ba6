import Mathlib.Data.List.Sort

/-!
The upper median of a list, and of a sliding window over one.

`le_upper_iff` counts: `m` is at most the median if and only if at most half of the elements are
below `m`.  `upper_take_le`: a window whose new element is above its median does not lower it.
-/

namespace Median

open List

variable {α : Type*} [LinearOrder α]

/-- In a sorted list, `m` is at most the element at `i` if at most `i` elements are below `m`. -/
theorem le_getElem_iff {l : List α} (h : l.Pairwise (· ≤ ·)) {i : Nat} (hi : i < l.length)
    (m : α) : m ≤ l[i] ↔ l.countP (fun x => decide (x < m)) ≤ i := by
  induction l generalizing i with
  | nil => simp at hi
  | cons x l ih =>
    obtain ⟨hx, hl⟩ := pairwise_cons.1 h
    by_cases hm : m ≤ x
    · -- nothing is below `m`
      have hall : ∀ y ∈ x :: l, m ≤ y := by grind
      grind
    · grind

/-- The element at half the length of the sorted list. -/
def upper (l : List α) (d : α) : α := (l.insertionSort (· ≤ ·)).getD (l.length / 2) d

theorem le_upper_iff {l : List α} (hl : l ≠ []) (d m : α) :
    m ≤ upper l d ↔ l.countP (fun x => decide (x < m)) ≤ l.length / 2 := by
  have hi : l.length / 2 < (l.insertionSort (· ≤ ·)).length := by
    have := length_pos_iff.mpr hl
    rw [length_insertionSort]
    omega
  unfold upper
  rw [getD_eq_getElem?_getD, getElem?_eq_getElem hi, Option.getD_some,
    le_getElem_iff (pairwise_insertionSort _ l) hi, (perm_insertionSort _ l).countP_eq]

/-- **A window of the last `n` elements** does not lose median by an element above it. -/
theorem upper_take_le {l : List α} (hl : l ≠ []) {n : Nat} (hn : 0 < n) {x d : α}
    (hx : upper (l.take n) d ≤ x) : upper (l.take n) d ≤ upper ((x :: l).take n) d := by
  obtain ⟨k, rfl⟩ : ∃ k, n = k + 1 := ⟨n - 1, by omega⟩
  have hne : l.take (k + 1) ≠ [] := by simpa using hl
  rw [take_succ_cons, le_upper_iff (by simp)]
  have hm := (le_upper_iff hne d (upper (l.take (k + 1)) d)).1 le_rfl
  have hsub : (l.take k).Sublist (l.take (k + 1)) := take_sublist_take_left (Nat.le_succ k)
  have hcount := hsub.countP_le (p := fun y => decide (y < upper (l.take (k + 1)) d))
  have hlen : (l.take (k + 1)).length ≤ (x :: l.take k).length := by
    simp only [length_take, length_cons]
    omega
  rw [countP_cons_of_neg (by simpa using hx)]
  omega

end Median
