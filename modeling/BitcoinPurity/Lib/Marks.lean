import BitcoinPurity.Lib.Branch

/-!
Two marks on the nodes of a tree, where a node is the path down to the root (`Branch`): `root` is
set where a fault was found, `child` on nodes that inherit it from below.

* `Contiguous`: a node that only inherits has a marked parent, so every marked node has a root
  at or below it (`Contiguous.root_below`).  Steps that only spread marks keep it
  (`Contiguous.spread`); so does clearing a whole branch when the inherited marks that hang on
  the branch become roots (`Contiguous.clearBranch`).
* `Anchored`: the weaker property that a `child` mark has a root properly below it, for trees
  where marks skip nodes.
-/

/-- Marks on the nodes of a tree. -/
@[ext]
structure Marks (α : Type*) where
  root : List α → Bool
  child : List α → Bool

namespace Marks

variable {α : Type*} {M M' M'' : Marks α}

section

variable (M : Marks α) (b : List α)

def marked : Bool := M.root b || M.child b

/-- The node has an inherited mark and none of its own. -/
def inherits : Bool := M.child b && !M.root b

def flags : Bool × Bool := (M.root b, M.child b)

theorem marked_eq : M.marked b = ((M.flags b).1 || (M.flags b).2) := rfl

theorem inherits_eq : M.inherits b = ((M.flags b).2 && !(M.flags b).1) := rfl

end

variable {b : List α}

theorem marked_of_root (h : M.root b) : M.marked b := by
  simp [marked, h]

theorem marked_of_child (h : M.child b) : M.marked b := by
  simp [marked, h]

theorem inherits_iff : M.inherits b ↔ M.marked b ∧ M.root b = false := by
  unfold inherits marked
  cases M.root b <;> simp

/-! ## Contiguous marks -/

/-- A node that only inherits its mark has a marked parent. -/
def Contiguous (M : Marks α) : Prop := ∀ b, M.inherits b → M.marked b.tail

theorem Contiguous.root_below (h : Contiguous M) (h0 : M.marked [] = false)
    (hb : M.marked b) : ∃ a, a <:+ b ∧ M.root a := by
  induction b with
  | nil =>
    simp [h0] at hb
  | cons x b ih =>
    cases hr : M.root (x :: b) with
    | true => exact ⟨x :: b, List.suffix_refl _, hr⟩
    | false =>
      obtain ⟨a, ha, har⟩ := ih (h (x :: b) (inherits_iff.mpr ⟨hb, hr⟩))
      exact ⟨a, ha.trans (List.suffix_cons x b), har⟩

/-- `M'` comes from `M` by spreading: marks stay, a new inherited mark has a marked parent, and
whatever is newly marked lies above a marked node or above a node of `P`. -/
structure Spreads (P : List α → Prop) (M M' : Marks α) : Prop where
  mono : ∀ b, M.marked b → M'.marked b
  inherits : ∀ b, M'.inherits b → M.inherits b ∨ M'.marked b.tail
  source : ∀ b, M'.marked b → ∃ a, a <:+ b ∧ (M.marked a ∨ P a)

namespace Spreads

variable {P Q : List α → Prop}

theorem refl (M : Marks α) : Spreads P M M :=
  ⟨fun _ h => h, fun _ h => .inl h, fun b h => ⟨b, List.suffix_refl b, .inl h⟩⟩

theorem trans (h : Spreads P M M') (h' : Spreads P M' M'') : Spreads P M M'' where
  mono b hb := h'.mono b (h.mono b hb)
  inherits b hb := by
    rcases h'.inherits b hb with hb | hb
    · exact (h.inherits b hb).imp_right fun ht => h'.mono _ ht
    · exact .inr hb
  source b hb := by
    obtain ⟨a, hab, ha | ha⟩ := h'.source b hb
    · obtain ⟨c, hca, hc⟩ := h.source a ha
      exact ⟨c, hca.trans hab, hc⟩
    · exact ⟨a, hab, .inr ha⟩

theorem weaken (h : Spreads P M M') (hPQ : ∀ a, P a → Q a) : Spreads Q M M' where
  mono := h.mono
  inherits := h.inherits
  source b hb := by
    obtain ⟨a, hab, ha⟩ := h.source b hb
    exact ⟨a, hab, ha.imp_right (hPQ a)⟩

end Spreads

variable {P : List α → Prop}

theorem Contiguous.spread (h : Contiguous M) (hs : Spreads P M M') : Contiguous M' := by
  intro b hb
  rcases hs.inherits b hb with hb | hb
  · exact hs.mono _ (h b hb)
  · exact hb

/-- No node at or below `t` is marked. -/
def Clear (M : Marks α) (t : List α) : Prop := ∀ b, b <:+ t → M.marked b = false

theorem Clear.mono {t u : List α} (h : Clear M t) (hu : u <:+ t) : Clear M u :=
  fun b hb => h b (hb.trans hu)

theorem Clear.spread {t : List α} (h : Clear M t) (hs : Spreads P M M')
    (hP : ∀ a, P a → ¬ a <:+ t) : Clear M' t := by
  intro b hb
  by_contra hn
  obtain ⟨a, hab, ha | ha⟩ := hs.source b (by simpa using hn)
  · simp [h a (hab.trans hb)] at ha
  · exact hP a ha (hab.trans hb)

theorem Clear.of_marked {t : List α} (h : Clear M t)
    (hm : ∀ b, M'.marked b → M.marked b) : Clear M' t := by
  intro b hb
  by_contra hn
  simpa [h b hb] using hm b (by simpa using hn)

/-- Clearing everything above and below `p` keeps contiguous marks contiguous, when the
inherited marks whose parent is cleared become roots. -/
theorem Contiguous.clearBranch {p : List α} (h : Contiguous M)
    (hon : ∀ b, b <:+ p ∨ p <:+ b → M'.inherits b = false)
    (hoff : ∀ b, ¬ (b <:+ p ∨ p <:+ b) → M'.marked b = M.marked b ∧
      (M'.inherits b → M.inherits b ∧ ¬ b.tail <:+ p)) : Contiguous M' := by
  intro b hb
  by_cases hbp : b <:+ p ∨ p <:+ b
  · simp [hon b hbp] at hb
  obtain ⟨hi, ht⟩ := (hoff b hbp).2 hb
  -- the parent is not on the branch either
  have htp : ¬ (b.tail <:+ p ∨ p <:+ b.tail) := by
    rintro (h1 | h1)
    · exact ht h1
    · exact hbp (.inr (Branch.suffix_of_suffix_tail h1))
  rw [(hoff b.tail htp).1]
  exact h b hi

/-! ## Anchored marks -/

/-- A `child` mark has a root properly below it. -/
def Anchored (M : Marks α) : Prop :=
  ∀ b, M.child b → ∃ a, a <:+ b ∧ a ≠ b ∧ M.root a

theorem Anchored.of_marked (h : Anchored M) {a b : List α} (hab : a <:+ b) (hne : a ≠ b)
    (ha : M.marked a) : ∃ c, c <:+ b ∧ c ≠ b ∧ M.root c := by
  cases hr : M.root a with
  | true => exact ⟨a, hab, hne, hr⟩
  | false =>
    obtain ⟨c, hca, -, hc⟩ := h a (by simpa [marked, hr] using ha)
    refine ⟨c, hca.trans hab, ?_, hc⟩
    rintro rfl
    exact hne (Branch.suffix_antisymm hab hca)

/-- Steps that keep the roots and set `child` marks only above marked nodes. -/
structure Inherits (M M' : Marks α) : Prop where
  root : ∀ b, M.root b → M'.root b
  child : ∀ b, M'.child b → M.child b ∨ ∃ a, a <:+ b ∧ a ≠ b ∧ M.marked a

theorem Anchored.inherit (h : Anchored M) (hs : Inherits M M') : Anchored M' := by
  intro b hb
  have key : ∃ a, a <:+ b ∧ a ≠ b ∧ M.root a := by
    rcases hs.child b hb with hb | ⟨a, hab, hne, ha⟩
    · exact h b hb
    · exact h.of_marked hab hne ha
  obtain ⟨a, hab, hne, ha⟩ := key
  exact ⟨a, hab, hne, hs.root a ha⟩

end Marks
