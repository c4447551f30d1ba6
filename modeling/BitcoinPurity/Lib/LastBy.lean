import Mathlib.Order.Lattice

/-!
The greatest element of a finite set that is kept as a list, under a comparison
function that is a strict total order.  It is what `*s.rbegin()` returns on an
ordered set.
-/

namespace LastBy

open List

variable {α : Type*}

/-- Greatest element under `less`; `none` on the empty list. -/
def lastBy (less : α → α → Bool) : List α → Option α
  | [] => none
  | x :: xs =>
    match lastBy less xs with
    | none => some x
    | some y => if less x y then some y else some x

variable {less : α → α → Bool} {l : List α}

theorem lastBy_eq_none (h : lastBy less l = none) : l = [] := by
  cases l with
  | nil => rfl
  | cons x xs =>
    unfold lastBy at h
    split at h
    · cases h
    · split at h <;> cases h

theorem lastBy_mem {x : α} (h : lastBy less l = some x) : x ∈ l := by
  induction l with
  | nil => cases h
  | cons y ys ih =>
    unfold lastBy at h
    grind

/-- The greatest element, when the comparison is that of keys on the elements of the list. -/
theorem le_key_lastBy {β : Type*} [LinearOrder β] {key : α → β}
    (hless : ∀ a ∈ l, ∀ b ∈ l, less a b ↔ key a < key b) {x : α}
    (h : lastBy less l = some x) : ∀ y ∈ l, key y ≤ key x := by
  induction l generalizing x with
  | nil => cases h
  | cons z zs ih =>
    have ih {w : α} := @ih (fun a ha b hb => hless a (.tail _ ha) b (.tail _ hb)) w
    rw [lastBy] at h
    cases hw : lastBy less zs with
    | none =>
      rw [hw] at h
      cases h
      rw [lastBy_eq_none hw]
      intro y hy
      rw [mem_singleton.1 hy]
    | some w =>
      rw [hw] at h
      have hz : less z w ↔ key z < key w :=
        hless z mem_cons_self w (.tail _ (lastBy_mem hw))
      grind

theorem lastBy_max [IsStrictTotalOrder α fun a b => less a b = true] {x : α}
    (h : lastBy less l = some x) : ∀ y ∈ l, less x y = false := by
  -- the elements are their own keys
  let _ : LinearOrder α := linearOrderOfSTO fun a b => less a b = true
  intro y hy
  have hle : y ≤ x := @le_key_lastBy α less l α _ id (fun _ _ _ _ => Iff.rfl) x h y hy
  exact Bool.eq_false_iff.2 (not_lt.2 hle)

end LastBy
