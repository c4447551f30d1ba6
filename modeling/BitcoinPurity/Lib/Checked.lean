import Mathlib.Algebra.Order.Ring.Int

/-!
Computations that can fail, and whose behaviour is undefined on some inputs.

`Meets m Q`: `m` does not run into undefined behaviour, and what it returns has `Q`.  The rules go
along the structure of a `do` block.
-/

namespace Checked

variable {ε α β : Type}

inductive Fault (ε : Type)
  | undefined
  | failed (e : ε)
  deriving DecidableEq, Repr

def Fault.message : Fault ε → Option ε
  | .undefined => none
  | .failed e => some e

def stopIf (c : Prop) [Decidable c] (e : ε) : Except (Fault ε) Unit :=
  if c then .error (.failed e) else .ok ()

/-- The elements from `i` on; undefined where the buffer has fewer than `n`. -/
def slice (buf : List β) (i n : Nat) : Except (Fault ε) (List β) :=
  if i + n ≤ buf.length then .ok ((buf.drop i).take n) else .error .undefined

/-- Addition of words that is not meant to wrap. -/
def add (w a b : Nat) : Except (Fault ε) Nat :=
  if a + b < 2 ^ w then .ok (a + b) else .error .undefined

def Meets (m : Except (Fault ε) α) (Q : α → Prop) : Prop :=
  match m with
  | .ok a => Q a
  | .error e => e ≠ .undefined

variable {m : Except (Fault ε) α} {P Q : α → Prop} {e : ε}

theorem Meets.bind {f : α → Except (Fault ε) β} {R : β → Prop} (h : Meets m P)
    (hf : ∀ a, P a → Meets (f a) R) : Meets (m >>= f) R := by
  cases m with
  | ok a => exact hf a h
  | error e => exact h

theorem Meets.ne_undefined (h : Meets m Q) : m ≠ .error .undefined := by
  rintro rfl
  exact h rfl

theorem meets_stopIf {c : Prop} [Decidable c] : Meets (stopIf c e) fun _ => ¬ c := by
  unfold stopIf
  split
  · nofun
  · next hc => exact hc

theorem meets_slice {buf : List β} {i n : Nat} (h : i + n ≤ buf.length) :
    Meets (slice (ε := ε) buf i n) (·.length = n) := by
  rw [slice, if_pos h]
  show ((buf.drop i).take n).length = n
  rw [List.length_take, List.length_drop]
  omega

theorem meets_add {w a b : Nat} (h : a + b < 2 ^ w) : Meets (add (ε := ε) w a b) (· = a + b) := by
  rw [add, if_pos h]
  rfl

end Checked
