import BitcoinPurity.Lib.Runs
import BitcoinPurity.Script.Interpreter

/-!
# The condition stack

`ConditionStack` keeps only the size of a stack of booleans and the place of its first false.
Through any calls it shows what the booleans themselves show (`ConditionStack.run_eq_bools`).
-/

namespace BitcoinPurity

open Runs

inductive ConditionOp
  | pushBack (f : Bool) | popBack | toggleTop
deriving DecidableEq, Repr

def ConditionOp.isPush : ConditionOp → Bool
  | .pushBack _ => true
  | _ => false

/-- One call on the booleans, the last one first. -/
def stepBools : ConditionOp → List Bool → Option (List Bool)
  | .pushBack f, v => some (f :: v)
  | .popBack, _ :: v => some v
  | .toggleTop, f :: v => some ((!f) :: v)
  | _, [] => none

theorem length_runAll_stepBools {ops : List ConditionOp} {v v' : List Bool}
    (h : runAll stepBools ops v = some v') :
    v'.length ≤ v.length + ops.countP ConditionOp.isPush := by
  induction ops generalizing v with
  | nil =>
    cases h
    exact Nat.le_refl _
  | cons op ops ih =>
    obtain ⟨v1, hs, hr⟩ := Option.bind_eq_some_iff.1 h
    have hlen := ih hr
    rw [List.countP_cons]
    cases op <;> cases v <;> cases hs <;> simp [ConditionOp.isPush] at hlen ⊢ <;> omega

namespace ConditionStack

/-- One call; `assert(m_stack_size > 0)` fails on an empty stack. -/
def step : ConditionOp → ConditionStack → Option ConditionStack
  | .pushBack f, c => some (c.pushBack f)
  | .popBack, c => if c.empty then none else some c.popBack
  | .toggleTop, c => if c.empty then none else some c.toggleTop

/-- What is kept of the booleans. -/
def ofBools : List Bool → ConditionStack
  | [] => {}
  | f :: v => (ofBools v).pushBack f

theorem ofBools_spec (v : List Bool) : (ofBools v).stackSize = v.length ∧
    (ofBools v).allTrue = v.all id ∧ ∀ p ∈ (ofBools v).firstFalsePos, p < v.length := by
  induction v with
  | nil => simp [ofBools, allTrue]
  | cons f v ih =>
    obtain ⟨hsize, hall, hpos⟩ := ih
    refine ⟨congrArg (· + 1) hsize, ?_⟩
    rw [List.all_cons, ← hall, ofBools, pushBack, allTrue, allTrue, List.length_cons]
    cases hp : (ofBools v).firstFalsePos with
    | none => cases f <;> simp [hsize]
    | some p =>
      have hlt := hpos p hp
      simp
      omega

theorem step_ofBools (op : ConditionOp) (v : List Bool) :
    step op (ofBools v) = (stepBools op v).map ofBools := by
  cases v with
  | nil => cases op <;> rfl
  | cons f v =>
    obtain ⟨hsize, -, hpos⟩ := ofBools_spec v
    -- the first false below the top is not at the top
    have hne : (ofBools v).firstFalsePos ≠ some (ofBools v).stackSize := by
      intro he
      have hlt := hpos _ he
      omega
    cases op with
    | pushBack g => rfl
    | popBack =>
      show some (popBack _) = some _
      rw [ofBools, pushBack, popBack, Nat.add_sub_cancel]
      generalize ofBools v = c at hne ⊢
      cases c
      cases f <;> grind
    | toggleTop =>
      show some (toggleTop _) = some (pushBack _ _)
      simp only [ofBools, pushBack, toggleTop, Nat.add_sub_cancel]
      cases f <;> grind

theorem runAll_ofBools (ops : List ConditionOp) (v : List Bool) :
    runAll step ops (ofBools v) = (runAll stepBools ops v).map ofBools := by
  induction ops generalizing v with
  | nil => rfl
  | cons op ops ih =>
    rw [runAll, runAll, step_ofBools]
    cases stepBools op v with
    | none => rfl
    | some v1 => exact ih v1

/-- **`ConditionStack` is a stack of booleans.**  Whatever is called, `empty()` and `all_true()` are
those of the booleans, and an assertion fails exactly where no boolean is left.  Below `2 ^ 32 - 1`
calls of `push_back` both members fit their `uint32_t`, and no place is `NO_FALSE`. -/
theorem run_eq_bools (ops : List ConditionOp)
    (h : ops.countP ConditionOp.isPush < 2 ^ 32 - 1) :
    (runAll step ops {}).map (fun c => (c.empty, c.allTrue)) =
        (runAll stepBools ops []).map (fun v => (v.isEmpty, v.all id)) ∧
      ∀ c, runAll step ops {} = some c →
        c.stackSize < 2 ^ 32 - 1 ∧ ∀ p ∈ c.firstFalsePos, p < 2 ^ 32 - 1 := by
  rw [show ({} : ConditionStack) = ofBools [] from rfl, runAll_ofBools]
  cases hv : runAll stepBools ops [] with
  | none => simp
  | some v =>
    have hlen := length_runAll_stepBools hv
    obtain ⟨hsize, hall, hpos⟩ := ofBools_spec v
    refine ⟨?_, fun c hc => ?_⟩
    · rw [Option.map_some, Option.map_some, hall, empty, hsize]
      cases v <;> rfl
    · grind

theorem run_eq_bools_nested :
    (runAll step [.pushBack true, .pushBack false, .toggleTop, .popBack, .toggleTop] {}).map
      (fun c => (c.empty, c.allTrue)) = some (false, false) :=
  (run_eq_bools _ (by decide)).1

end ConditionStack

end BitcoinPurity
