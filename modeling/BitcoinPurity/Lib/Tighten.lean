import Mathlib.Init

/-!
# Tightening a fallible computation

A check that is made stricter may fail more often, but where it still succeeds it must
succeed with the same result.  `Tightens x y` says this of two `Except` computations:
every success of `x` is the same success of `y`.  The lemmas below follow the shape of a
`do` block: `Tightens.guard`, `Tightens.added`, `Tightens.bind`, `Tightens.ite`.
-/

namespace Tighten

variable {ε α β : Type}

/-! ## Definitions -/

/-- Every success of `x` is the same success of `y`. -/
def Tightens (x y : Except ε α) : Prop := ∀ a, x = .ok a → y = .ok a

/-- Fail with `e` when the condition holds. -/
def failIf (c : Bool) (e : ε) : Except ε Unit := if c then .error e else .ok ()

/-! ## Lemmas -/

@[simp] theorem failIf_eq_ok {c : Bool} {e : ε} {u : Unit} : failIf c e = .ok u ↔ c = false := by
  cases c <;> simp [failIf]

theorem bind_eq_ok {x : Except ε α} {f : α → Except ε β} {b : β} :
    x >>= f = .ok b ↔ ∃ a, x = .ok a ∧ f a = .ok b := by
  cases x with
  | error e => simp [Bind.bind, Except.bind]
  | ok a => simp [Bind.bind, Except.bind]

@[simp] theorem failIf_eq_error {c : Bool} {e e' : ε} : failIf c e = .error e' ↔ c ∧ e = e' := by
  cases c <;> simp [failIf]

theorem bind_eq_error {x : Except ε α} {f : α → Except ε β} {e : ε} :
    x >>= f = .error e ↔ x = .error e ∨ ∃ a, x = .ok a ∧ f a = .error e := by
  cases x with
  | error e' => simp [Bind.bind, Except.bind]
  | ok a => simp [Bind.bind, Except.bind]

namespace Tightens

theorem refl (x : Except ε α) : Tightens x x := fun _ h => h

/-- Sequencing: stricter first, and then stricter on every intermediate value. -/
theorem bind {x y : Except ε α} {f g : α → Except ε β} (h : Tightens x y)
    (hk : ∀ a, Tightens (f a) (g a)) : Tightens (x >>= f) (y >>= g) := by
  intro b hb
  obtain ⟨a, ha, hfa⟩ := bind_eq_ok.1 hb
  exact bind_eq_ok.2 ⟨a, h a ha, hk a b hfa⟩

theorem guard {c d : Bool} {e : ε} (h : d → c) : Tightens (failIf c e) (failIf d e) := by
  intro u hu
  rw [failIf_eq_ok] at hu ⊢
  cases d with
  | false => rfl
  | true => exact absurd (h rfl) (by simp [hu])

theorem added {x : Except ε Unit} : Tightens x (.ok ()) := fun _ _ => rfl

theorem ite {p : Prop} [Decidable p] {x x' y y' : Except ε α} (ht : p → Tightens x x')
    (hf : ¬ p → Tightens y y') : Tightens (if p then x else y) (if p then x' else y') := by
  by_cases hp : p
  · simpa [hp] using ht hp
  · simpa [hp] using hf hp

end Tightens

end Tighten
