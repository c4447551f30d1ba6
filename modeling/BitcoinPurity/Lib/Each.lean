import Mathlib.Data.Finset.Max

/-!
Loops over the elements of a finite set in ascending order (`for` over a `std::set`), with a body
that may fail.

`forEach_spec` is the rule: an invariant that speaks of the elements done so far, and that the body
carries from one element to the next, holds of all of them in the end, and no pass fails.
-/

namespace Each

open List

variable {α σ : Type*} [LinearOrder α]

/-- The least `n` elements in ascending order. -/
def ascending : Nat → Finset α → List α
  | 0, _ => []
  | n + 1, s => if h : s.Nonempty then s.min' h :: ascending n (s.erase (s.min' h)) else []

def forEach (s : Finset α) (body : α → σ → Option σ) (state : σ) : Option σ :=
  (ascending s.card s).foldlM (fun state x => body x state) state

variable {s : Finset α} {body : α → σ → Option σ} {state : σ}

theorem mem_ascending {n : Nat} {x : α} (hn : s.card ≤ n) : x ∈ ascending n s ↔ x ∈ s := by
  induction n generalizing s with
  | zero =>
    rw [Finset.card_eq_zero.1 (Nat.le_zero.1 hn)]
    simp [ascending]
  | succ n ih =>
    rw [ascending]
    by_cases h : s.Nonempty
    · have hmin := s.min'_mem h
      grind
    · rw [Finset.not_nonempty_iff_eq_empty.1 h]
      simp

theorem nodup_ascending {n : Nat} (hn : s.card ≤ n) : (ascending n s).Nodup := by
  induction n generalizing s with
  | zero => exact nodup_nil
  | succ n ih =>
    rw [ascending]
    by_cases h : s.Nonempty
    · have hmin := s.min'_mem h
      have hcard : (s.erase (s.min' h)).card ≤ n := by
        rw [Finset.card_erase_of_mem hmin]
        omega
      rw [dif_pos h, nodup_cons, mem_ascending hcard]
      exact ⟨Finset.notMem_erase _ _, ih hcard⟩
    · rw [dif_neg h]
      exact nodup_nil

/-- The rule for a list without repetitions, with the elements done before it. -/
theorem foldlM_spec {l : List α} {I : Finset α → σ → Prop} {done : Finset α} (hl : l.Nodup)
    (hfresh : ∀ x ∈ l, x ∉ done) (h0 : I done state)
    (hstep : ∀ d x st, x ∈ l → x ∉ d → I d st → ∃ st', body x st = some st' ∧ I (insert x d) st') :
    ∃ state', l.foldlM (fun state x => body x state) state = some state' ∧
      I (done ∪ l.toFinset) state' := by
  induction l generalizing state done with
  | nil => exact ⟨state, rfl, by simpa using h0⟩
  | cons x l ih =>
    obtain ⟨hx, hl⟩ := nodup_cons.1 hl
    obtain ⟨st, hbody, hI⟩ := hstep done x state mem_cons_self (hfresh x mem_cons_self) h0
    have hfresh' : ∀ y ∈ l, y ∉ insert x done := by grind
    obtain ⟨st', heq, hI'⟩ := ih hl hfresh' hI fun d y st hy => hstep d y st (mem_cons_of_mem _ hy)
    refine ⟨st', ?_, ?_⟩
    · rw [foldlM_cons, hbody]
      exact heq
    · rw [toFinset_cons, Finset.union_insert, ← Finset.insert_union]
      exact hI'

/-- **The loop rule.** -/
theorem forEach_spec (I : Finset α → σ → Prop) (h0 : I ∅ state)
    (hstep : ∀ d x st, x ∈ s → x ∉ d → I d st → ∃ st', body x st = some st' ∧ I (insert x d) st') :
    ∃ state', forEach s body state = some state' ∧ I s state' := by
  have hmem x : x ∈ ascending s.card s ↔ x ∈ s := mem_ascending le_rfl
  obtain ⟨st, heq, hI⟩ := foldlM_spec (nodup_ascending le_rfl)
    (fun x _ => Finset.notMem_empty x) h0
    fun d x st hx => hstep d x st ((hmem x).1 hx)
  refine ⟨st, heq, ?_⟩
  have hall : (ascending s.card s).toFinset = s := by
    ext x
    rw [mem_toFinset, hmem]
  rwa [hall, Finset.empty_union] at hI

/-- The rule for a loop whose state is known after any part of the set. -/
theorem forEach_eq {g : Finset α → σ} (h0 : state = g ∅)
    (hstep : ∀ d x, x ∈ s → x ∉ d → body x (g d) = some (g (insert x d))) :
    forEach s body state = some (g s) := by
  obtain ⟨st, heq, hst⟩ : ∃ st, forEach s body state = some st ∧ st = g s := by
    refine forEach_spec (fun d st => st = g d) h0 ?_
    rintro d x st hx hxd rfl
    exact ⟨_, hstep d x hx hxd, rfl⟩
  rw [heq, hst]

end Each
