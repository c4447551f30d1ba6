import Mathlib.Algebra.BigOperators.Finprod
import BitcoinPurity.Lib.Writes

/-!
The total weight of a finite map.

In a map `κ → Option ν` with finitely many entries each entry `v` weighs `w v`.  A write changes
the total by what is written less what was there (`total_update`), from which:

* `total_write_le`: where no entry has a negative weight, writes add at most what they write.
* `total_erase`, `total_write_fresh`: erasing distinct keys takes away what they held, adding
  entries under distinct new keys adds them.
-/

namespace Tally

open Writes List Function

variable {κ ν G : Type*}

/-! ## Definitions -/

/-- Finitely many keys have an entry. -/
def IsFinite (m : κ → Option ν) : Prop := {k | m k ≠ none}.Finite

/-- Every entry of the first map is one of the second. -/
def Sub (m' m : κ → Option ν) : Prop := ∀ k v, m' k = some v → m k = some v

def weight [Zero G] (w : ν → G) : Option ν → G
  | none => 0
  | some v => w v

/-- The total weight. -/
noncomputable def total [AddCommMonoid G] (w : ν → G) (m : κ → Option ν) : G :=
  ∑ᶠ k, weight w (m k)

/-! ## Finiteness -/

theorem Sub.refl (m : κ → Option ν) : Sub m m := fun _ _ h => h

theorem Sub.trans {m1 m2 m3 : κ → Option ν} (h : Sub m1 m2) (h' : Sub m2 m3) : Sub m1 m3 :=
  fun k v hk => h' k v (h k v hk)

variable {m m' : κ → Option ν}

theorem IsFinite.of_sub (h : IsFinite m) (hsub : Sub m' m) : IsFinite m' := by
  refine Set.Finite.subset h fun k hk => ?_
  obtain ⟨v, hv⟩ := Option.ne_none_iff_exists'.1 hk
  show m k ≠ none
  rw [hsub k v hv]
  simp

theorem IsFinite.update [DecidableEq κ] (h : IsFinite m) (k : κ) (v : Option ν) :
    IsFinite (update m k v) := by
  refine Set.Finite.subset (h.insert k) fun k' hk' => ?_
  grind

theorem IsFinite.write [DecidableEq κ] (h : IsFinite m) (ws : List (κ × Option ν)) :
    IsFinite (write m ws) := by
  induction ws generalizing m with
  | nil => exact h
  | cons x ws ih => exact ih (h.update x.1 x.2)

theorem IsFinite.hasFiniteSupport [AddCommMonoid G] (h : IsFinite m) (w : ν → G) :
    Function.HasFiniteSupport fun k => weight w (m k) := by
  refine Set.Finite.subset h fun k hk hnone => ?_
  rw [mem_support, hnone] at hk
  exact hk rfl

/-! ## Erased entries -/

theorem sub_write_of_erases [DecidableEq κ] {ws : List (κ × Option ν)} (h : ∀ x ∈ ws, x.2 = none) :
    Sub (write m ws) m := by
  intro k v hk
  by_cases hmem : k ∈ ws.map (·.1)
  · obtain ⟨x, hx, -, hval⟩ := exists_write_of_mem hmem
    simp [hval, h x hx] at hk
  · rwa [write_of_not_mem hmem] at hk

theorem Sub.write [DecidableEq κ] (h : Sub m' m) (ws : List (κ × Option ν)) :
    Sub (write m' ws) (write m ws) := by
  intro k v hk
  by_cases hmem : k ∈ ws.map (·.1)
  · rwa [write_of_mem hmem m m']
  · rw [write_of_not_mem hmem] at hk ⊢
    exact h k v hk

/-! ## Totals -/

section
variable [AddCommGroup G] {w : ν → G} {m m' : κ → Option ν}

@[simp] theorem weight_none : weight w (none : Option ν) = 0 := rfl

@[simp] theorem weight_some (v : ν) : weight w (some v) = w v := rfl

@[simp] theorem total_none : total w (fun _ : κ => (none : Option ν)) = 0 := finsum_zero

/-- **One write**: what was there goes, what is written comes. -/
theorem total_update [DecidableEq κ] (h : IsFinite m) (k : κ) (v : Option ν) :
    total w (update m k v) = total w m - weight w (m k) + weight w v := by
  have hdiff : total w (update m k v) - total w m = weight w v - weight w (m k) := by
    unfold total
    rw [← finsum_sub_distrib ((h.update k v).hasFiniteSupport w) (h.hasFiniteSupport w),
      finsum_eq_single _ k, update_self]
    intro k' hne
    rw [update_of_ne hne, sub_self]
  rw [sub_add_eq_add_sub, add_sub_assoc, ← hdiff, add_sub_cancel]

variable {ws : List (κ × Option ν)}

/-- **Distinct keys**: each write counts by itself. -/
theorem total_write_nodup [DecidableEq κ] (h : IsFinite m) (hws : (ws.map (·.1)).Nodup) :
    total w (write m ws) = total w m + (ws.map fun x => weight w x.2 - weight w (m x.1)).sum := by
  induction ws generalizing m with
  | nil => simp
  | cons x ws ih =>
    rw [map_cons, nodup_cons] at hws
    have hrest : (ws.map fun y => weight w y.2 - weight w (update m x.1 x.2 y.1)) =
        ws.map fun y => weight w y.2 - weight w (m y.1) := by
      apply map_congr_left
      grind
    rw [write_cons, ih (h.update x.1 x.2) hws.2, hrest, total_update h x.1 x.2, map_cons,
      sum_cons, sub_add_eq_add_sub, add_sub_assoc, add_assoc]

/-- **Erasing** distinct keys. -/
theorem total_erase [DecidableEq κ] (h : IsFinite m) {ks : List κ} (hks : ks.Nodup) :
    total w (write m (ks.map fun k => (k, none))) =
      total w m - (ks.map fun k => weight w (m k)).sum := by
  have hkeys : ((ks.map fun k => (k, (none : Option ν))).map (·.1)).Nodup := by
    simpa [comp_def] using hks
  rw [total_write_nodup h hkeys, sub_eq_add_neg, sum_neg]
  simp [comp_def]

/-- **Adding** entries under distinct new keys. -/
theorem total_write_fresh [DecidableEq κ] (h : IsFinite m)
    (hws : (ws.map (·.1)).Nodup) (hfresh : ∀ x ∈ ws, m x.1 = none) :
    total w (write m ws) = total w m + (ws.map fun x => weight w x.2).sum := by
  rw [total_write_nodup h hws]
  congr 2
  apply map_congr_left
  intro x hx
  rw [hfresh x hx, weight_none, sub_zero]

variable [PartialOrder G]

theorem weight_nonneg (hw : ∀ k v, m k = some v → 0 ≤ w v) (k : κ) : 0 ≤ weight w (m k) := by
  cases hk : m k with
  | none => exact le_refl 0
  | some v => exact hw k v hk

variable [IsOrderedAddMonoid G]

theorem total_le_of_sub (h : IsFinite m) (hw : ∀ k v, m k = some v → 0 ≤ w v)
    (hsub : Sub m' m) : total w m' ≤ total w m := by
  refine finsum_le_finsum' ((h.of_sub hsub).hasFiniteSupport w) (h.hasFiniteSupport w) fun k => ?_
  cases hk : m' k with
  | none => exact weight_nonneg hw k
  | some v => rw [hsub k v hk]

theorem total_nonneg (h : IsFinite m) (hw : ∀ k v, m k = some v → 0 ≤ w v) : 0 ≤ total w m := by
  have hsub : Sub (fun _ => none) m := by
    intro k v hk
    cases hk
  have hle := total_le_of_sub h hw hsub
  rwa [total_none] at hle

/-- **Writes** add at most what they write. -/
theorem total_write_le [DecidableEq κ] (h : IsFinite m) (hw : ∀ k v, m k = some v → 0 ≤ w v)
    (hws : ∀ x ∈ ws, ∀ v, x.2 = some v → 0 ≤ w v) :
    total w (write m ws) ≤ total w m + (ws.map fun x => weight w x.2).sum := by
  induction ws generalizing m with
  | nil => simp
  | cons x ws ih =>
    have hw' : ∀ k v, update m x.1 x.2 k = some v → 0 ≤ w v := by grind
    rw [map_cons, sum_cons, ← add_assoc]
    calc total w (write (update m x.1 x.2) ws)
        ≤ total w (update m x.1 x.2) + (ws.map fun y => weight w y.2).sum :=
          ih (h.update x.1 x.2) hw' fun y hy => hws y (mem_cons_of_mem x hy)
      _ = total w m - weight w (m x.1) + weight w x.2 + (ws.map fun y => weight w y.2).sum := by
          rw [total_update h]
      _ ≤ total w m + weight w x.2 + (ws.map fun y => weight w y.2).sum := by
          gcongr
          exact sub_le_self _ (weight_nonneg hw x.1)

end

end Tally
