import Mathlib.Data.List.Infix

/-!
Rooted trees as paths.

A node of a tree is the list of labels from the node down to the root, so that
`tail` is the parent, `length` the depth and `<:+` ("is a suffix of") the
ancestor relation.  The empty list stands for the missing parent of the root.

* `meet a b`: the last common ancestor, with its universal property
  (`suffix_meet`).
* `drop_suffix_iff`: `b` still contains all of `a` except its last `d` nodes
  iff the part of `a` above the last common ancestor has at most `d` nodes.
-/

namespace Branch

open List

variable {α : Type*}

variable {a b : List α}

theorem suffix_tail_of_ne (h : a <:+ b) (hne : a ≠ b) : a <:+ b.tail := by
  cases b with
  | nil => exact absurd (suffix_nil.1 h) hne
  | cons x b =>
    rcases suffix_cons_iff.1 h with h | h
    · exact absurd h hne
    · exact h

theorem suffix_of_suffix_tail (h : a <:+ b.tail) : a <:+ b :=
  h.trans (tail_suffix b)

theorem tail_suffix_tail (h : a <:+ b) : a.tail <:+ b.tail := by
  by_cases he : a = b
  · rw [he]
  · exact (tail_suffix a).trans (suffix_tail_of_ne h he)

theorem not_suffix_tail (hb : b ≠ []) : ¬ b <:+ b.tail := by
  intro h
  have h1 := h.length_le
  have h2 := length_pos_iff.mpr hb
  rw [length_tail] at h1
  omega

theorem suffix_total {c : List α} (ha : a <:+ c) (hb : b <:+ c) : a <:+ b ∨ b <:+ a := by
  rcases Nat.le_total a.length b.length with h | h
  · exact .inl (suffix_of_suffix_length_le ha hb h)
  · exact .inr (suffix_of_suffix_length_le hb ha h)

theorem suffix_eq_of_length {c : List α} (ha : a <:+ c) (hb : b <:+ c) (h : a.length = b.length) :
    a = b :=
  (suffix_of_suffix_length_le ha hb (Nat.le_of_eq h)).eq_of_length h

theorem suffix_antisymm (h : a <:+ b) (h' : b <:+ a) : a = b :=
  h.eq_of_length (Nat.le_antisymm h.length_le h'.length_le)

section
variable [DecidableEq α]

/-- Last common ancestor: walk down from the first node until the second one contains it. -/
def meet : List α → List α → List α
  | [], _ => []
  | x :: a, b => if (x :: a) <:+ b then x :: a else meet a b

variable (a b : List α)

theorem meet_suffix_left : meet a b <:+ a := by
  induction a with
  | nil => simp [meet]
  | cons x a ih =>
    unfold meet
    grind

theorem meet_suffix_right : meet a b <:+ b := by
  induction a with
  | nil => exact nil_suffix
  | cons x a ih =>
    unfold meet
    split
    · assumption
    · exact ih

theorem suffix_meet {a b c : List α} (ha : c <:+ a) (hb : c <:+ b) : c <:+ meet a b := by
  induction a with
  | nil => simpa [meet] using ha
  | cons x a ih =>
    unfold meet
    split
    · exact ha
    next hn =>
    rcases suffix_cons_iff.1 ha with h | h
    · exact absurd (h ▸ hb) hn
    · exact ih h

theorem meet_eq_left {a b : List α} (h : a <:+ b) : meet a b = a :=
  suffix_antisymm (meet_suffix_left a b) (suffix_meet (suffix_refl a) h)

theorem meet_comm : meet a b = meet b a :=
  suffix_antisymm (suffix_meet (meet_suffix_right a b) (meet_suffix_left a b))
    (suffix_meet (meet_suffix_right b a) (meet_suffix_left b a))

/-- `b` contains all of `a` but its last `d` nodes iff `a` is at most `d` nodes
above the last common ancestor. -/
theorem drop_suffix_iff (d : Nat) :
    a.drop d <:+ b ↔ a.length - (meet a b).length ≤ d := by
  constructor
  · intro h
    have := (suffix_meet (drop_suffix d a) h).length_le
    rw [length_drop] at this
    omega
  · intro h
    have hl : (a.drop d).length ≤ (meet a b).length := by
      rw [length_drop]; omega
    exact (suffix_of_suffix_length_le (drop_suffix d a) (meet_suffix_left a b) hl).trans
      (meet_suffix_right a b)

end

end Branch
