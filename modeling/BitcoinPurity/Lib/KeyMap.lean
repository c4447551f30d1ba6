import Mathlib.Data.List.Perm.Basic

/-!
A map that is kept in the order of its keys (`std::map`), as the list of its entries.  `ofList`
fills it from a list of entries, a later entry taking the place of an earlier one with its key.
A list whose keys are distinct fills it with its own entries (`ofList_perm`), and what the map is
then depends on the entries only (`ofList_congr`).
-/

namespace KeyMap

open List

variable {κ β : Type*} [LT κ] [DecidableLT κ] [DecidableEq κ]

/-- `map[k] = v` -/
def insert (k : κ) (v : β) : List (κ × β) → List (κ × β)
  | [] => [(k, v)]
  | (k', v') :: m =>
    if k < k' then (k, v) :: (k', v') :: m
    else if k = k' then (k, v) :: m
    else (k', v') :: insert k v m

def ofList (l : List (κ × β)) : List (κ × β) := l.foldl (fun m f => insert f.1 f.2 m) []

def Ordered (m : List (κ × β)) : Prop := m.Pairwise fun f g => f.1 < g.1

variable {m l : List (κ × β)}

theorem mem_insert {k : κ} {v : β} {f : κ × β} (h : f ∈ insert k v m) : f = (k, v) ∨ f ∈ m := by
  induction m with
  | nil => simpa [insert] using h
  | cons g m ih =>
    rw [insert] at h
    grind

theorem insert_perm {k : κ} {v : β} (h : ∀ f ∈ m, f.1 ≠ k) : (insert k v m).Perm ((k, v) :: m) := by
  induction m with
  | nil => exact .refl _
  | cons g m ih =>
    rw [insert]
    by_cases h1 : k < g.1
    · rw [if_pos h1]
    rw [if_neg h1, if_neg fun hk => h g mem_cons_self hk.symm]
    exact ((ih fun f hf => h f (mem_cons_of_mem _ hf)).cons g).trans (.swap ..)

theorem foldl_insert_perm (h : ((m ++ l).map Prod.fst).Nodup) :
    (l.foldl (fun m f => insert f.1 f.2 m) m).Perm (m ++ l) := by
  induction l generalizing m with
  | nil => simp
  | cons f l ih =>
    have hf : ∀ g ∈ m, g.1 ≠ f.1 := by grind
    have hmove : (insert f.1 f.2 m ++ l).Perm (m ++ f :: l) :=
      ((insert_perm hf).append_right l).trans perm_middle.symm
    exact (ih ((hmove.map Prod.fst).nodup_iff.2 h)).trans hmove

/-- **Distinct keys fill the map with their entries.** -/
theorem ofList_perm (h : (l.map Prod.fst).Nodup) : (ofList l).Perm l :=
  foldl_insert_perm h

section

variable [IsTrans κ (· < ·)] [Std.Trichotomous (fun x y : κ => x < y)]

theorem insert_ordered {k : κ} {v : β} {m : List (κ × β)} (h : Ordered m) :
    Ordered (insert k v m) := by
  induction m with
  | nil => exact pairwise_singleton ..
  | cons g m ih =>
    obtain ⟨hg, hm⟩ := pairwise_cons.1 h
    rw [insert]
    split
    next h1 =>
      refine List.Pairwise.cons (fun f hf => ?_) h
      rcases mem_cons.1 hf with rfl | hf
      · exact h1
      · exact IsTrans.trans _ _ _ h1 (hg f hf)
    next h1 =>
    split
    next h2 =>
      subst h2
      exact List.Pairwise.cons hg hm
    next h2 =>
    refine List.Pairwise.cons (fun f hf => ?_) (ih hm)
    rcases mem_insert hf with rfl | hf
    · exact Not.imp_symm (Std.Trichotomous.trichotomous _ _ h1) h2
    · exact hg f hf

theorem ofList_ordered (l : List (κ × β)) : Ordered (ofList l) := by
  suffices h : ∀ m : List (κ × β), Ordered m →
      Ordered (l.foldl (fun m f => insert f.1 f.2 m) m) from h [] .nil
  induction l with
  | nil => exact fun m hm => hm
  | cons f l ih => exact fun m hm => ih _ (insert_ordered hm)

/-- **The map depends on the entries only**, not on the order in which they are put. -/
theorem ofList_congr [Std.Irrefl (fun x y : κ => x < y)] {l l' : List (κ × β)}
    (h : (l.map Prod.fst).Nodup) (hp : l.Perm l') : ofList l = ofList l' := by
  have h' : (l'.map Prod.fst).Nodup := (hp.map Prod.fst).nodup_iff.1 h
  have hsame := ((ofList_perm h).trans hp).trans (ofList_perm h').symm
  refine List.Perm.eq_of_pairwise ?_ (ofList_ordered l) (ofList_ordered l') hsame
  intro f g _ _ hfg hgf
  exact absurd (IsTrans.trans _ _ _ hfg hgf) (Std.Irrefl.irrefl f.1)

end

theorem insert_map {γ : Type*} (g : β → γ) (k : κ) (v : β) (m : List (κ × β)) :
    insert k (g v) (m.map fun f => (f.1, g f.2)) = (insert k v m).map fun f => (f.1, g f.2) := by
  induction m with
  | nil => rfl
  | cons f m ih =>
    simp only [map_cons, insert]
    grind

theorem ofList_map {γ : Type*} (g : β → γ) (l : List (κ × β)) :
    ofList (l.map fun f => (f.1, g f.2)) = (ofList l).map fun f => (f.1, g f.2) := by
  suffices h : ∀ m : List (κ × β), (l.map fun f => (f.1, g f.2)).foldl (fun m f => insert f.1 f.2 m)
        (m.map fun f => (f.1, g f.2)) =
      (l.foldl (fun m f => insert f.1 f.2 m) m).map fun f => (f.1, g f.2) from h []
  induction l with
  | nil => exact fun _ => rfl
  | cons f l ih =>
    intro m
    simp only [map_cons, foldl_cons, insert_map]
    exact ih _

end KeyMap
