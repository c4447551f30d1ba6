import Mathlib.Logic.Relation

/-!
Ancestors in a graph that changes: how the transitive closure of "is a parent of" moves when a set
of nodes is removed together with everything below it, when a node without parents is removed, and
when a node without children is added.
-/

namespace Ancestry

open Relation

variable {α : Type*} {E E' : α → α → Prop} {D : α → Prop} {a b : α}

section
variable (hE : ∀ a b, E' a b ↔ E a b ∧ ¬ D a ∧ ¬ D b)
include hE

/-- Removing a set with all its descendants leaves the ancestors of the other nodes as they are. -/
theorem transGen_removeClosed
    (hD : ∀ a b, D a → E a b → D b) : TransGen E' a b ↔ TransGen E a b ∧ ¬ D b := by
  constructor
  · intro h
    refine ⟨TransGen.mono (fun x y hxy => ((hE x y).1 hxy).1) _ _ h, ?_⟩
    cases h with
    | single hab => exact ((hE _ _).1 hab).2.2
    | tail _ hab => exact ((hE _ _).1 hab).2.2
  · rintro ⟨h, hb⟩
    induction h with
    | single hab => exact .single ((hE _ _).2 ⟨hab, fun ha => hb (hD _ _ ha hab), hb⟩)
    | tail _ hcb ih => grind

/-- Removing a set with all its ancestors takes them from the ancestors of the other nodes. -/
theorem transGen_removeUp
    (hD : ∀ a b, D b → E a b → D a) : TransGen E' a b ↔ TransGen E a b ∧ ¬ D a := by
  rw [← transGen_swap, ← transGen_swap (r := E)]
  refine transGen_removeClosed (fun x y => ?_) fun x y hx hxy => hD _ _ hx hxy
  exact (hE y x).trans (and_congr_right fun _ => and_comm)

end

/-- Within a set that has the parents of its members nothing but the relation on the set leads to
a member. -/
theorem reflTransGen_restrict {B : α → Prop} (hE : ∀ a b, E' a b ↔ E a b ∧ B a ∧ B b)
    (hB : ∀ a b, B b → E a b → B a) (hb : B b) : ReflTransGen E' a b ↔ ReflTransGen E a b := by
  constructor
  · exact ReflTransGen.mono (fun x y hxy => ((hE x y).1 hxy).1) _ _
  · intro h
    suffices ReflTransGen E' a b ∧ B a from this.1
    induction h using ReflTransGen.head_induction_on with
    | refl => exact ⟨.refl, hb⟩
    | head hac _ ih =>
      have ha := hB _ _ ih.2 hac
      exact ⟨ih.1.head ((hE _ _).2 ⟨hac, ha, ih.2⟩), ha⟩

section

variable {x : α} {P : α → Prop} (hE : ∀ a b, E' a b ↔ E a b ∨ (b = x ∧ P a))
  (hout : ∀ b, ¬ E x b) (hin : ∀ a, ¬ E a x) (hP : ¬ P x)

include hE hout hP in
theorem not_edge_of_added (b : α) : ¬ E' x b := by
  rw [hE]
  rintro (h | ⟨-, h⟩)
  · exact hout b h
  · exact hP h

include hE hout in
/-- Adding a node without children leaves the ancestors of the other nodes as they are. -/
theorem transGen_add_of_ne {a b : α} (hb : b ≠ x) : TransGen E' a b ↔ TransGen E a b := by
  constructor
  · intro h
    induction h with
    | single hab => grind
    | @tail c d hac hcd ih => grind
  · exact TransGen.mono (fun c d hcd => (hE c d).2 (.inl hcd)) _ _

include hE hout hin hP in
theorem transGen_add_self {a : α} : TransGen E' a x ↔ ∃ p, P p ∧ ReflTransGen E a p := by
  rw [TransGen.tail'_iff]
  constructor
  · rintro ⟨p, hap, hpx⟩
    have hp : P p := by grind
    have hpne : p ≠ x := fun h => hP (h ▸ hp)
    refine ⟨p, hp, ?_⟩
    rcases reflTransGen_iff_eq_or_transGen.1 hap with rfl | hap
    · exact .refl
    · exact ((transGen_add_of_ne hE hout hpne).1 hap).to_reflTransGen
  · rintro ⟨p, hp, hap⟩
    exact ⟨p, ReflTransGen.mono (fun c d hcd => (hE c d).2 (.inl hcd)) _ _ hap,
      (hE p x).2 (.inr ⟨rfl, hp⟩)⟩

end

end Ancestry
