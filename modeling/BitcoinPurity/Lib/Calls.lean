import Mathlib.Data.Prod.Basic

/-!
Programs that reach their state only through calls.

`Prog ι ω ε α` makes calls `i : ι`, goes on with their answers in `ω i`, and returns a value or
stops with an error.  A `Handler` says what the calls do on some type of states, and `run`
executes a program with it, so that one program has a meaning on every implementation of the
calls.

* `run_simulates`: when each call of one handler is matched by another one, every program is.
* `run_invariant`: what every call keeps, every program keeps.
* `Meets`: pre- and postconditions, with a condition on the errors; `Meets.bind` composes them.
-/

namespace Calls

/-- A computation over calls `ι` answered in `ω`, which may stop with an error. -/
inductive Prog (ι : Type) (ω : ι → Type) (ε α : Type)
  | pure (a : α)
  | stop (e : ε)
  | call (i : ι) (k : ω i → Prog ι ω ε α)

/-- What the calls do on states `σ`. -/
abbrev Handler (ι : Type) (ω : ι → Type) (ε σ : Type) := (i : ι) → σ → Except ε (ω i × σ)

variable {ι : Type} {ω : ι → Type} {ε α β σ τ : Type}

namespace Prog

def bind : Prog ι ω ε α → (α → Prog ι ω ε β) → Prog ι ω ε β
  | .pure a, f => f a
  | .stop e, _ => .stop e
  | .call i k, f => .call i fun o => (k o).bind f

instance : Monad (Prog ι ω ε) where
  pure := .pure
  bind := .bind

def ask (i : ι) : Prog ι ω ε (ω i) := .call i .pure

/-- A computation that makes no call. -/
def ofExcept : Except ε α → Prog ι ω ε α
  | .ok a => .pure a
  | .error e => .stop e

/-- Stop with an error on a condition. -/
def stopIf (c : Bool) (e : ε) : Prog ι ω ε Unit := if c then .stop e else .pure ()

def getOr (e : ε) : Option α → Prog ι ω ε α
  | some a => .pure a
  | none => .stop e

/-- Go on with `f` where the program stops.  An error of a call is not caught. -/
def onStop : Prog ι ω ε α → (ε → Prog ι ω ε α) → Prog ι ω ε α
  | .pure a, _ => .pure a
  | .stop e, f => f e
  | .call i k, f => .call i fun o => (k o).onStop f

def run (h : Handler ι ω ε σ) : Prog ι ω ε α → σ → Except ε (α × σ)
  | .pure a, s => .ok (a, s)
  | .stop e, _ => .error e
  | .call i k, s =>
    match h i s with
    | .ok r => (k r.1).run h r.2
    | .error e => .error e

end Prog

open Prog

section
variable {h : Handler ι ω ε σ} {s : σ}

@[simp] theorem run_pure (a : α) : (Pure.pure a : Prog ι ω ε α).run h s = .ok (a, s) := rfl

@[simp] theorem run_stop (e : ε) : (Prog.stop e : Prog ι ω ε α).run h s = .error e := rfl

@[simp] theorem run_ask (i : ι) : (ask i : Prog ι ω ε (ω i)).run h s = h i s := by
  unfold ask Prog.run
  cases h i s with
  | ok r => rfl
  | error e => rfl

@[simp] theorem run_bind (p : Prog ι ω ε α) (f : α → Prog ι ω ε β) : (p >>= f).run h s =
      match p.run h s with
      | .ok r => (f r.1).run h r.2
      | .error e => .error e := by
  show (p.bind f).run h s = _
  induction p generalizing s with
  | pure a => rfl
  | stop e => rfl
  | call i k ih =>
    simp only [Prog.bind, Prog.run]
    cases h i s with
    | ok r => exact ih r.1
    | error e => rfl

@[simp] theorem run_ofExcept_ok (a : α) :
    (ofExcept (.ok a) : Prog ι ω ε α).run h s = .ok (a, s) := rfl

@[simp] theorem run_stopIf_false (e : ε) :
    (stopIf false e : Prog ι ω ε Unit).run h s = .ok ((), s) := rfl

variable {p : Prog ι ω ε α} {r : α × σ}

theorem run_bind_ok {f : α → Prog ι ω ε β} {r : β × σ} : (p >>= f).run h s = .ok r ↔
      ∃ a s', p.run h s = .ok (a, s') ∧ (f a).run h s' = .ok r := by
  rw [run_bind]
  cases hp : p.run h s with
  | ok r' => grind
  | error e => simp

theorem run_ofExcept_eq_ok {x : Except ε α} :
    (ofExcept x : Prog ι ω ε α).run h s = .ok r ↔ x = .ok r.1 ∧ r.2 = s := by
  cases x with
  | ok a =>
    simp only [run_ofExcept_ok, Except.ok.injEq, Prod.ext_iff]
    exact and_congr_right fun _ => eq_comm
  | error e =>
    show Except.error e = .ok r ↔ _
    simp

theorem run_stopIf_eq_ok {c : Bool} {e : ε} {r : Unit × σ} :
    (stopIf c e : Prog ι ω ε Unit).run h s = .ok r ↔ c = false ∧ r.2 = s := by
  cases c with
  | true => simp [stopIf]
  | false =>
    simp only [stopIf, true_and]
    show Except.ok ((), s) = .ok r ↔ _
    grind

theorem run_getOr_eq_ok {x : Option α} {e : ε} :
    (getOr e x : Prog ι ω ε α).run h s = .ok r ↔ x = some r.1 ∧ r.2 = s := by
  cases x with
  | none => simp [getOr]
  | some a =>
    show Except.ok (a, s) = .ok r ↔ _
    grind

/-- A program that returns never gets to `f`; one that stops goes on with it, in the state where
it stopped. -/
theorem run_onStop (p : Prog ι ω ε α) (f : ε → Prog ι ω ε α) :
    (∃ r, p.run h s = .ok r ∧ (p.onStop f).run h s = .ok r) ∨ ∃ e, p.run h s = .error e ∧
        ((p.onStop f).run h s = .error e ∨ ∃ s', (p.onStop f).run h s = (f e).run h s') := by
  induction p generalizing s with
  | pure a => exact .inl ⟨(a, s), rfl, rfl⟩
  | stop e => exact .inr ⟨e, rfl, .inr ⟨s, rfl⟩⟩
  | call i k ih =>
    simp only [Prog.onStop, Prog.run]
    cases h i s with
    | ok r => exact ih r.1
    | error e => exact .inr ⟨e, rfl, .inl rfl⟩

theorem run_onStop_eq_ok {f : ε → Prog ι ω ε α}
    (hf : ∀ e s r, (f e).run h s ≠ .ok r) (hr : (p.onStop f).run h s = .ok r) :
    p.run h s = .ok r := by
  rcases run_onStop p f with ⟨r', h1, h2⟩ | ⟨e, -, h2 | ⟨s', h2⟩⟩
  · rw [h1, ← h2, hr]
  · simp [hr] at h2
  · rw [hr] at h2
    exact absurd h2.symm (hf e s' r)

/-- **Invariants**: what every call keeps, every program keeps. -/
theorem run_invariant {I : σ → Prop} (hcall : ∀ i s r, I s → h i s = .ok r → I r.2)
    (p : Prog ι ω ε α) (hs : I s) (hr : p.run h s = .ok r) : I r.2 := by
  induction p generalizing s with
  | pure a =>
    cases hr
    exact hs
  | stop e => cases hr
  | call i k ih =>
    simp only [Prog.run] at hr
    cases hi : h i s with
    | ok r' =>
      rw [hi] at hr
      exact ih r'.1 (hcall i s r' hs hi) hr
    | error e =>
      simp [hi] at hr

end

/-- **Simulation**: if every call that succeeds on the first states succeeds on related second
ones, with the same answer and related results, so does every program. -/
theorem run_simulates {h : Handler ι ω ε σ} {h' : Handler ι ω ε τ} {R : σ → τ → Prop}
    (hcall : ∀ i s t o s', R s t → h i s = .ok (o, s') → ∃ t', h' i t = .ok (o, t') ∧ R s' t')
    (p : Prog ι ω ε α) {s s' : σ} {t : τ} {a : α} (hR : R s t) (hr : p.run h s = .ok (a, s')) :
    ∃ t', p.run h' t = .ok (a, t') ∧ R s' t' := by
  induction p generalizing s t with
  | pure b =>
    cases hr
    exact ⟨t, rfl, hR⟩
  | stop e => cases hr
  | call i k ih =>
    simp only [Prog.run] at hr ⊢
    cases hi : h i s with
    | ok r => grind
    | error e =>
      simp [hi] at hr

/-! ## Pre- and postconditions -/

/-- From a state with `P` the program returns with `Q`, or stops with an error in `E`. -/
def Meets (h : Handler ι ω ε σ) (E : ε → Prop) (P : σ → Prop) (p : Prog ι ω ε α)
    (Q : α → σ → Prop) : Prop :=
  ∀ s, P s →
    match p.run h s with
    | .ok r => Q r.1 r.2
    | .error e => E e

namespace Meets
variable {h : Handler ι ω ε σ} {E : ε → Prop} {P P' : σ → Prop} {Q : α → σ → Prop}

variable {p : Prog ι ω ε α} {e : ε} {s : σ} {Q' : α → σ → Prop}

theorem ok (hp : Meets h E P p Q) (hs : P s) {r : α × σ} (hr : p.run h s = .ok r) : Q r.1 r.2 := by
  have := hp s hs
  rwa [hr] at this

theorem error (hp : Meets h E P p Q) (hs : P s) (hr : p.run h s = .error e) : E e := by
  have := hp s hs
  rwa [hr] at this

theorem pure {a : α} (hP : ∀ s, P s → Q a s) : Meets h E P (Pure.pure a : Prog ι ω ε α) Q :=
  fun s hs => hP s hs

theorem stop (he : E e) : Meets h E P (Prog.stop e : Prog ι ω ε α) Q := fun _ _ => he

theorem bind {R : β → σ → Prop} {f : α → Prog ι ω ε β} (hp : Meets h E P p Q)
    (hf : ∀ a, Meets h E (Q a) (f a) R) : Meets h E P (p >>= f) R := by
  intro s hs
  rw [run_bind]
  have := hp s hs
  cases hr : p.run h s with
  | ok r =>
    rw [hr] at this
    exact hf r.1 r.2 this
  | error e =>
    rw [hr] at this
    exact this

theorem ask {i : ι} (herr : ∀ s e, P s → h i s = .error e → E e) :
    Meets h E P (Prog.ask i : Prog ι ω ε (ω i)) fun o s' => ∃ s, P s ∧ h i s = .ok (o, s') := by
  intro s hs
  rw [run_ask]
  cases hr : h i s with
  | ok r => exact ⟨s, hs, hr⟩
  | error e => exact herr s e hs hr

theorem onStop {f : ε → Prog ι ω ε α} (hp : Meets h E P p Q)
    (hf : ∀ e, E e → Meets h E (fun _ => True) (f e) Q) : Meets h E P (p.onStop f) Q := by
  intro s hs
  have hmeets := hp s hs
  rcases run_onStop p f with ⟨r, h1, h2⟩ | ⟨e, h1, h2 | ⟨s', h2⟩⟩
  · rw [h1] at hmeets
    rwa [h2]
  · rw [h1] at hmeets
    rwa [h2]
  · rw [h1] at hmeets
    rw [h2]
    exact hf e hmeets s' trivial

theorem pointwise (hp : ∀ s, P s → Meets h E (fun s' => s' = s) p Q) :
    Meets h E P p Q := fun s hs => hp s hs s rfl

theorem of_fact {φ : Prop} (hp : φ → Meets h E P p Q) :
    Meets h E (fun s => φ ∧ P s) p Q := fun s hs => hp hs.1 s hs.2

theorem of_ok (hp : Meets h E P p Q')
    (hok : ∀ s r, P s → p.run h s = .ok r → Q r.1 r.2) : Meets h E P p Q := by
  intro s hs
  have := hp s hs
  cases hr : p.run h s with
  | ok r => exact hok s r hs hr
  | error e =>
    rw [hr] at this
    exact this

theorem weaken (hp : Meets h E P p Q) (hP : ∀ s, P' s → P s)
    (hQ : ∀ a s, Q a s → Q' a s) : Meets h E P' p Q' :=
  of_ok (fun s hs => hp s (hP s hs)) fun s r hs hr => hQ r.1 r.2 (hp.ok (hP s hs) hr)

theorem ofExcept {x : Except ε α} (herr : ∀ e, x = .error e → E e) :
    Meets h E P (ofExcept x) fun a s => x = .ok a ∧ P s := by
  intro s hs
  cases x with
  | ok a => exact ⟨rfl, hs⟩
  | error e => exact herr e rfl

theorem stopIf {c : Bool} (he : E e) : Meets h E P (stopIf c e) fun _ s => c = false ∧ P s := by
  intro s hs
  cases c with
  | true => exact he
  | false => exact ⟨rfl, hs⟩

theorem getOr {x : Option α} (he : E e) : Meets h E P (getOr e x) fun a s => x = some a ∧ P s := by
  intro s hs
  cases x with
  | none => exact he
  | some a => exact ⟨rfl, hs⟩

end Meets

end Calls
