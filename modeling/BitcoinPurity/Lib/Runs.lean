import Mathlib.Data.Option.Basic

/-!
Runs of a system whose steps are partial functions on its state: a step that cannot be
taken, or does not complete, is `none`.

`Reach.invariant` is the induction rule, `reach_of_runAll` turns an evaluated list of steps
into a reachable state.  `Inevitable` says that every run comes to a state with a property, and
`Inevitable.of_measure` proves it from a measure that every step lowers.
-/

namespace Runs

variable {σ α : Type*} {step : α → σ → Option σ}

/-- The states reached from `init`. -/
inductive Reach (step : α → σ → Option σ) (init : σ) : σ → Prop
  | start : Reach step init init
  | next {s s' : σ} (h : Reach step init s) (a : α) (hs : step a s = some s') : Reach step init s'

variable {I : σ → Prop} {init s : σ} {as : List α}

/-- What holds at the start and is kept by every step holds in every reachable state. -/
theorem Reach.invariant (h : Reach step init s) (h0 : I init)
    (hstep : ∀ s a s', I s → step a s = some s' → I s') : I s := by
  induction h with
  | start => exact h0
  | next _ a hs ih => exact hstep _ a _ ih hs

def runAll (step : α → σ → Option σ) : List α → σ → Option σ
  | [], s => some s
  | a :: as, s => (step a s).bind (runAll step as)

theorem runAll_invariant {s' : σ} (hr : runAll step as s = some s') (h0 : I s)
    (hstep : ∀ a ∈ as, ∀ s s', I s → step a s = some s' → I s') : I s' := by
  induction as generalizing s with
  | nil =>
    cases hr
    exact h0
  | cons a as ih =>
    obtain ⟨s1, h1, h2⟩ := Option.bind_eq_some_iff.mp hr
    grind

theorem Reach.append {s' : σ} (h : Reach step init s) (hr : runAll step as s = some s') :
    Reach step init s' :=
  runAll_invariant hr h fun a _ _ _ hs h1 => hs.next a h1

theorem reach_of_runAll (h : runAll step as init = some s) : Reach step init s :=
  Reach.start.append h

/-- Every run of `r` from the state comes to one with `P`: there is a step to take until then,
and whichever is taken leads there. -/
inductive Inevitable (r : σ → σ → Prop) (P : σ → Prop) : σ → Prop
  | now {s : σ} (h : P s) : Inevitable r P s
  | later {s : σ} (hex : ∃ s', r s s') (hall : ∀ s', r s s' → Inevitable r P s') :
      Inevitable r P s

/-- **Termination**: under an invariant, until `P` holds some step is possible and every step
lowers the measure. -/
theorem Inevitable.of_measure {r : σ → σ → Prop} {P : σ → Prop} (μ : σ → Nat)
    (hprogress : ∀ s, I s → ¬ P s → ∃ s', r s s')
    (hlower : ∀ s s', I s → ¬ P s → r s s' → I s' ∧ μ s' < μ s) (h : I s) : Inevitable r P s := by
  induction hn : μ s using Nat.strongRecOn generalizing s with
  | _ n ih =>
    by_cases hP : P s
    · exact .now hP
    refine .later (hprogress s h hP) fun s' hr => ?_
    grind

end Runs
