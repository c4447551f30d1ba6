import Mathlib.Data.List.Basic

/-!
Sequences in which every element names the one before it by a key, as the headers of a chain name
their parents by hash.
-/

namespace Links

variable {α κ : Type*} (key prev : α → κ)

/-- Every element names the one before it, the first one `k`. -/
def Linked : κ → List α → Prop
  | _, [] => True
  | k, a :: l => prev a = k ∧ Linked (key a) l

/-- The key of the last element; `k` if there is none. -/
def lastKey : κ → List α → κ
  | k, [] => k
  | _, a :: l => lastKey (key a) l

variable {key prev}

@[simp] theorem lastKey_nil (k : κ) : lastKey key k [] = k := rfl

@[simp] theorem lastKey_cons (k : κ) (a : α) (l : List α) :
    lastKey key k (a :: l) = lastKey key (key a) l := rfl

@[simp] theorem linked_nil (k : κ) : Linked key prev k [] := trivial

@[simp] theorem linked_cons {k : κ} {a : α} {l : List α} :
    Linked key prev k (a :: l) ↔ prev a = k ∧ Linked key prev (key a) l := Iff.rfl

theorem lastKey_append (k : κ) (l l' : List α) :
    lastKey key k (l ++ l') = lastKey key (lastKey key k l) l' := by
  induction l generalizing k with
  | nil => rfl
  | cons a l ih => exact ih (key a)

theorem linked_append {k : κ} {l l' : List α} :
    Linked key prev k (l ++ l') ↔ Linked key prev k l ∧ Linked key prev (lastKey key k l) l' := by
  induction l generalizing k with
  | nil => simp
  | cons a l ih => simp [ih, and_assoc]

theorem Linked.of_prefix {k : κ} {l l' : List α} (h : Linked key prev k l') (hl : l <+: l') :
    Linked key prev k l := by
  obtain ⟨t, rfl⟩ := hl
  exact (linked_append.mp h).1

theorem lastKey_id (f : α → κ) (a : α) (l : List α) : f (lastKey id a l) = lastKey f (f a) l := by
  induction l generalizing a with
  | nil => rfl
  | cons b l ih => exact ih b

theorem lastKey_eq_getLast? (k : κ) (l : List α) :
    lastKey key k l = (l.getLast?.map key).getD k := by
  induction l generalizing k with
  | nil => rfl
  | cons a l ih =>
    rw [lastKey_cons, ih, List.getLast?_cons]
    cases l.getLast? <;> rfl

end Links
