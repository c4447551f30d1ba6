import Mathlib.Init

/-!
Loops that end because what is left to do gets smaller, written with a bound on the number of
passes.

`Fuel.adequate` is the adequacy rule: when every pass leaves less to do, a bound as large as
the initial amount is enough, and any larger one gives the same result.
-/

namespace Fuel

variable {σ β : Type} {size : σ → Nat} {f : Nat → σ → β}

/-- **Enough fuel.**  `hdone`: with nothing left to do a pass changes nothing.  `hpass`: two loops
that agree on every smaller amount agree after one pass. -/
theorem adequate {n : Nat} {s : σ} (hdone : ∀ s, size s = 0 → f 1 s = f 0 s)
    (hpass : ∀ n m s, (∀ s', size s' < size s → f n s' = f m s') → f (n + 1) s = f (m + 1) s)
    (h : size s ≤ n) : f n s = f (size s) s := by
  have hsucc : ∀ n s, size s ≤ n → f (n + 1) s = f n s := by
    intro n
    induction n with
    | zero => exact fun s hn => hdone s (Nat.le_zero.1 hn)
    | succ n ih => exact fun s hn => hpass _ _ s fun s' hlt => ih s' (by omega)
  induction h with
  | refl => rfl
  | step h ih => exact (hsucc _ s h).trans ih

end Fuel
