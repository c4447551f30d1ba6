import Mathlib.Data.List.Basic

/-!
Lists of writes to a map, the last write to a key wins.

A list of writes fixes the keys it mentions and leaves the others alone (`write_of_mem`,
`write_of_not_mem`).  So undoing one list and redoing another converges from every mixture of the
map before and the map after: `write_mixture`.
-/

namespace Writes

open List Function

variable {κ ν : Type*} [DecidableEq κ]

def write (m : κ → ν) (ws : List (κ × ν)) : κ → ν :=
  ws.foldl (fun m w => update m w.1 w.2) m

@[simp] theorem write_nil (m : κ → ν) : write m [] = m := rfl

@[simp] theorem write_cons (m : κ → ν) (w : κ × ν) (ws : List (κ × ν)) :
    write m (w :: ws) = write (update m w.1 w.2) ws := rfl

theorem write_append (m : κ → ν) (ws ws' : List (κ × ν)) :
    write m (ws ++ ws') = write (write m ws) ws' :=
  foldl_append

variable {k : κ} {ws : List (κ × ν)} {m : κ → ν}

theorem write_of_not_mem (h : k ∉ ws.map (·.1)) (m : κ → ν) : write m ws k = m k := by
  induction ws generalizing m with
  | nil => rfl
  | cons w ws ih =>
    simp only [map_cons, mem_cons, not_or] at h
    rw [write_cons, ih h.2, update_of_ne h.1]

/-- A key that is mentioned gets the value of one of its writes, whatever the map. -/
theorem exists_write_of_mem (h : k ∈ ws.map (·.1)) :
    ∃ w ∈ ws, w.1 = k ∧ ∀ m, write m ws k = w.2 := by
  induction ws with
  | nil => cases h
  | cons w ws ih =>
    by_cases hk : k ∈ ws.map (·.1)
    · obtain ⟨w', hw', h1, h2⟩ := ih hk
      exact ⟨w', mem_cons_of_mem w hw', h1, fun m => h2 _⟩
    obtain rfl : k = w.1 := (mem_cons.1 h).resolve_right hk
    refine ⟨w, mem_cons_self, rfl, fun m => ?_⟩
    rw [write_cons, write_of_not_mem hk, update_self]

theorem write_of_mem (h : k ∈ ws.map (·.1)) (m m' : κ → ν) : write m ws k = write m' ws k := by
  obtain ⟨w, -, -, hw⟩ := exists_write_of_mem h
  rw [hw, hw]

/-- What holds of every value of the map and of every value written holds afterwards. -/
theorem write_forall {Q : ν → Prop} (hm : ∀ k, Q (m k)) (hws : ∀ w ∈ ws, Q w.2) (k : κ) :
    Q (write m ws k) := by
  by_cases hk : k ∈ ws.map (·.1)
  · obtain ⟨w, hw, -, hval⟩ := exists_write_of_mem hk
    exact hval m ▸ hws w hw
  · exact write_of_not_mem hk m ▸ hm k

theorem write_eq_self (h : ∀ w ∈ ws, m w.1 = w.2) : write m ws = m := by
  induction ws with
  | nil => rfl
  | cons w ws ih =>
    rw [write_cons, ← h w (by simp), update_eq_self]
    exact ih fun w' hw' => h w' (mem_cons_of_mem w hw')

theorem write_write_of_subset {ws' : List (κ × ν)} (h : ∀ k ∈ ws.map (·.1), k ∈ ws'.map (·.1))
    (m : κ → ν) : write (write m ws) ws' = write m ws' := by
  funext k
  by_cases hk : k ∈ ws'.map (·.1)
  · exact write_of_mem hk _ _
  · rw [write_of_not_mem hk, write_of_not_mem hk, write_of_not_mem (fun hw => hk (h k hw))]

/-- If `back` leads from `old` to a map `fork` and `forth` from there to `new`, they lead to `new`
from every mixture of `old` and `new`. -/
theorem write_mixture {old new : κ → ν} {back forth : List (κ × ν)}
    (hnew : write (write old back) forth = new) (hm : ∀ k, m k = old k ∨ m k = new k) :
    write (write m back) forth = new := by
  funext k
  have hk := congrFun hnew k
  by_cases hf : k ∈ forth.map (·.1)
  · rw [write_of_mem hf _ (write old back), hk]
  rw [write_of_not_mem hf] at hk ⊢
  by_cases hb : k ∈ back.map (·.1)
  · rw [write_of_mem hb m old, hk]
  rw [write_of_not_mem hb] at hk ⊢
  rcases hm k with h | h
  · rw [h, hk]
  · exact h

end Writes
