import Mathlib.Algebra.Order.BigOperators.Group.Finset

/-!
Counters over finitely many threads.

`count f th` adds up what `f` says of every thread.  When one thread moves the counter changes by
that thread's part: `count_update`.
-/

namespace Threads

open Finset

variable {ι τ : Type*} [Fintype ι]

def count (f : τ → Nat) (th : ι → τ) : Nat := ∑ i, f (th i)

theorem count_eq_zero {f : τ → Nat} {th : ι → τ} : count f th = 0 ↔ ∀ i, f (th i) = 0 := by
  simp [count]

theorem le_count (f : τ → Nat) (th : ι → τ) (i : ι) : f (th i) ≤ count f th :=
  single_le_sum (f := fun j => f (th j)) (fun _ _ => Nat.zero_le _) (mem_univ i)

/-- **One thread moves.** -/
theorem count_update [DecidableEq ι] (f : τ → Nat) (th : ι → τ) (i : ι) (x : τ) :
    count f (Function.update th i x) + f (th i) = count f th + f x := by
  have hrest : ∑ j ∈ univ.erase i, f (Function.update th i x j) = ∑ j ∈ univ.erase i, f (th j) := by
    apply sum_congr rfl
    intro j hj
    rw [Function.update_of_ne (ne_of_mem_erase hj)]
  have hnew := sum_erase_add univ (fun j => f (Function.update th i x j)) (mem_univ i)
  have hold := sum_erase_add univ (fun j => f (th j)) (mem_univ i)
  simp only [Function.update_self] at hnew
  unfold count
  omega

end Threads
