import Mathlib.Tactic.Ring

/-!
Codecs: a function that writes values as strings, and a reader that takes a value from the front of
a string.

`Codec write read valid` says that the reader accepts exactly the strings that begin with what is
written for a valid value, and leaves the rest.  So what has been written is read back whatever
follows it (`Codec.run_append`), and no value has two strings (`Codec.bijOn`).  The rules go
through a reader step by step: `run_bind`, `Codec.run_bind`, `Codec.check`, `Codec.times`.

The last section has the numbers of a fixed number of bytes, least significant byte first.
-/

namespace Codecs

open List

/-- A reader of values from the front of a string. -/
abbrev Reader (β ε : Type) := StateT (List β) (Except ε)

variable {β ε α γ : Type}

/-! ## Running a reader -/

variable {bs rest : List β} {r : Reader β ε α} {f : α → Reader β ε γ}

theorem run_pure {a b : α} :
    (pure a : Reader β ε α).run bs = .ok (b, rest) ↔ a = b ∧ bs = rest := by
  show Except.ok (a, bs) = .ok (b, rest) ↔ _
  rw [Except.ok.injEq, Prod.mk.injEq]

theorem run_throw {e : ε} {r : α × List β} : ¬ (throw e : Reader β ε α).run bs = .ok r := by
  intro h
  cases h

/-- One step: the first reader, and then the next one on what it leaves. -/
theorem run_bind {c : γ} : (r >>= f).run bs = .ok (c, rest) ↔
      ∃ a mid, r.run bs = .ok (a, mid) ∧ (f a).run mid = .ok (c, rest) := by
  rw [StateT.run_bind]
  cases hr : r.run bs with
  | error e => simp [bind, Except.bind]
  | ok p =>
    constructor
    · exact fun h => ⟨p.1, p.2, rfl, h⟩
    · rintro ⟨a, mid, heq, h⟩
      cases heq
      exact h

theorem bind_of_run {a : α} {mid : List β}
    (h : r.run bs = .ok (a, mid)) : (r >>= f).run bs = (f a).run mid := by
  rw [StateT.run_bind, h]
  rfl

/-! ## Codecs -/

/-- **The reader accepts what is written for valid values, and nothing else.** -/
def Codec (write : α → List β) (read : Reader β ε α) (valid : α → Prop) : Prop :=
  ∀ bs a rest, read.run bs = .ok (a, rest) ↔ valid a ∧ bs = write a ++ rest

section
variable {write : α → List β} {read : Reader β ε α} {valid : α → Prop} {a : α}
  {bs rest : List β}

variable (h : Codec write read valid)
include h

theorem Codec.run_append (ha : valid a) (rest : List β) :
    read.run (write a ++ rest) = .ok (a, rest) := (h _ _ _).2 ⟨ha, rfl⟩

/-- The valid values are in bijection with the strings that are read to the end. -/
theorem Codec.bijOn : Set.BijOn write {a | valid a} {bs | ∃ a, read.run bs = .ok (a, [])} := by
  have hback : ∀ a, valid a → read.run (write a) = .ok (a, []) := by
    intro a ha
    simpa using h.run_append ha []
  refine ⟨fun a ha => ⟨a, hback a ha⟩, fun a ha b hb heq => ?_, ?_⟩
  · grind
  · rintro bs ⟨a, hread⟩
    obtain ⟨ha, hbs⟩ := (h _ _ _).1 hread
    exact ⟨a, ha, by rw [hbs, append_nil]⟩

variable {f : α → Reader β ε γ} {valid' : γ → Prop} {write' : γ → List β} {read' : Reader β ε γ}

theorem Codec.run_bind {c : γ} : (read >>= f).run bs = .ok (c, rest) ↔
      ∃ a mid, (valid a ∧ bs = write a ++ mid) ∧ (f a).run mid = .ok (c, rest) := by
  rw [Codecs.run_bind]
  exact exists₂_congr fun a mid => and_congr_left fun _ => h bs a mid

theorem Codec.bind_append (ha : valid a)
    (rest : List β) : (read >>= f).run (write a ++ rest) = (f a).run rest :=
  bind_of_run (h.run_append ha rest)

theorem Codec.map {f : α → γ} {g : γ → α} (hf : ∀ a, valid a → valid' (f a) ∧ g (f a) = a)
    (hg : ∀ c, valid' c → valid (g c) ∧ f (g c) = c) :
    Codec (fun c => write (g c)) (do let a ← read; return f a) valid' := by
  intro bs c rest
  rw [h.run_bind]
  constructor
  · rintro ⟨a, mid, ⟨ha, rfl⟩, hpure⟩
    obtain ⟨rfl, rfl⟩ := run_pure.1 hpure
    exact ⟨(hf a ha).1, by simp [(hf a ha).2]⟩
  · rintro ⟨hc, rfl⟩
    exact ⟨g c, rest, ⟨(hg c hc).1, rfl⟩, run_pure.2 ⟨(hg c hc).2, rfl⟩⟩

theorem Codec.check {bad : α → Prop} [DecidablePred bad] (e : ε) :
    Codec write (do let a ← read; if bad a then throw e else return a)
      (fun a => valid a ∧ ¬ bad a) := by
  intro bs a rest
  rw [h.run_bind]
  constructor
  · rintro ⟨a', mid, ⟨ha, rfl⟩, hcheck⟩
    split at hcheck
    · exact absurd hcheck run_throw
    next hbad =>
    obtain ⟨rfl, rfl⟩ := run_pure.1 hcheck
    exact ⟨⟨ha, hbad⟩, rfl⟩
  · rintro ⟨⟨ha, hbad⟩, rfl⟩
    refine ⟨a, rest, ⟨ha, rfl⟩, ?_⟩
    rw [if_neg hbad]
    exact run_pure.2 ⟨rfl, rfl⟩

theorem Codec.both {δ : Type} {valid'' : δ → Prop} {f : α → γ → δ} {g : δ → α} {k : δ → γ}
    (h' : Codec write' read' valid')
    (hf : ∀ a c, valid a → valid' c → valid'' (f a c) ∧ g (f a c) = a ∧ k (f a c) = c)
    (hg : ∀ d, valid'' d → valid (g d) ∧ valid' (k d) ∧ f (g d) (k d) = d) :
    Codec (fun d => write (g d) ++ write' (k d))
      (do let a ← read; let c ← read'; return f a c) valid'' := by
  intro bs d rest
  rw [h.run_bind]
  constructor
  · rintro ⟨a, mid, ⟨ha, rfl⟩, hnext⟩
    obtain ⟨c, mid', ⟨hc, rfl⟩, hpure⟩ := h'.run_bind.1 hnext
    obtain ⟨rfl, rfl⟩ := run_pure.1 hpure
    grind
  · rintro ⟨hd, rfl⟩
    obtain ⟨ha, hc, heq⟩ := hg d hd
    refine ⟨g d, write' (k d) ++ rest, ⟨ha, append_assoc _ _ _⟩, ?_⟩
    exact h'.run_bind.2 ⟨k d, rest, ⟨hc, rfl⟩, run_pure.2 ⟨heq, rfl⟩⟩

theorem Codec.pair (h' : Codec write' read' valid') :
    Codec (fun p : α × γ => write p.1 ++ write' p.2)
      (do let a ← read; let c ← read'; return (a, c)) (fun p => valid p.1 ∧ valid' p.2) :=
  h.both h' (fun _ _ ha hc => ⟨⟨ha, hc⟩, rfl, rfl⟩) fun _ hp => ⟨hp.1, hp.2, rfl⟩

def readTimes (read : Reader β ε α) : Nat → Reader β ε (List α)
  | 0 => return []
  | n + 1 => do
    let a ← read
    let l ← readTimes read n
    return a :: l

theorem Codec.times (n : Nat) : Codec (fun l : List α => l.flatMap write) (readTimes read n)
      (fun l => l.length = n ∧ ∀ a ∈ l, valid a) := by
  induction n with
  | zero =>
    intro bs l rest
    rw [readTimes, run_pure]
    grind
  | succ n ih =>
    intro bs l rest
    rw [readTimes, h.run_bind]
    constructor
    · rintro ⟨a, mid, ⟨ha, rfl⟩, hnext⟩
      obtain ⟨l', mid', ⟨⟨hlen, hl⟩, rfl⟩, hpure⟩ := ih.run_bind.1 hnext
      obtain ⟨rfl, rfl⟩ := run_pure.1 hpure
      grind
    · rintro ⟨⟨hlen, hl⟩, rfl⟩
      cases l with
      | nil => simp at hlen
      | cons a l =>
        refine ⟨a, l.flatMap write ++ rest, ⟨hl a mem_cons_self, by simp⟩, ?_⟩
        have hvalid : l.length = n ∧ ∀ x ∈ l, valid x :=
          ⟨by simpa using hlen, fun x hx => hl x (.tail _ hx)⟩
        exact ih.run_bind.2 ⟨l, rest, ⟨hvalid, rfl⟩, run_pure.2 ⟨rfl, rfl⟩⟩

end

/-! ## Single characters and blocks -/

variable (e : ε)

/-- Read a character; `e` at the end of the string. -/
def readOne : Reader β ε β
  | [] => .error e
  | b :: bs => .ok (b, bs)

theorem codec_readOne : Codec (fun b : β => [b]) (readOne e) (fun _ => True) := by
  intro bs b rest
  cases bs with
  | nil => exact iff_of_false (by rintro ⟨⟩) (by simp)
  | cons c bs =>
    show Except.ok (c, bs) = .ok (b, rest) ↔ _
    simp

def readBlock (n : Nat) : Reader β ε (List β) := fun bs =>
  if n ≤ bs.length then .ok (bs.take n, bs.drop n) else .error e

theorem codec_readBlock (n : Nat) :
    Codec (fun block : List β => block) (readBlock e n) (fun block => block.length = n) := by
  intro bs block rest
  show (if n ≤ bs.length then Except.ok (bs.take n, bs.drop n) else .error e) =
    .ok (block, rest) ↔ _
  split
  next hn =>
    rw [Except.ok.injEq, Prod.mk.injEq]
    constructor
    · rintro ⟨rfl, rfl⟩
      exact ⟨length_take_of_le hn, (take_append_drop n bs).symm⟩
    · grind
  next hn => grind

/-! ## Numbers of a fixed number of bytes -/

/-- The bytes of a number, least significant byte first. -/
def fixedBytes : Nat → Nat → List UInt8
  | 0, _ => []
  | k + 1, n => n.toUInt8 :: fixedBytes k (n / 256)

def fixedNat : List UInt8 → Nat
  | [] => 0
  | b :: bs => b.toNat + 256 * fixedNat bs

@[simp] theorem length_fixedBytes (k n : Nat) : (fixedBytes k n).length = k := by
  induction k generalizing n with
  | zero => rfl
  | succ k ih => simp [fixedBytes, ih]

theorem fixedNat_lt (bs : List UInt8) : fixedNat bs < 256 ^ bs.length := by
  induction bs with
  | nil => simp [fixedNat]
  | cons b bs ih =>
    have hb := b.toNat_lt
    rw [fixedNat, length_cons, Nat.pow_succ]
    omega

theorem fixedNat_fixedBytes (k n : Nat) : fixedNat (fixedBytes k n) = n % 256 ^ k := by
  induction k generalizing n with
  | zero =>
    rw [Nat.pow_zero, Nat.mod_one]
    rfl
  | succ k ih =>
    rw [fixedBytes, fixedNat, ih, Nat.pow_succ', Nat.mod_mul]
    simp

theorem fixedBytes_fixedNat (bs : List UInt8) : fixedBytes bs.length (fixedNat bs) = bs := by
  induction bs with
  | nil => rfl
  | cons b bs ih =>
    have hb := b.toNat_lt
    have hlow : (b.toNat + 256 * fixedNat bs).toUInt8 = b := by
      apply UInt8.toNat_inj.1
      simp
    have hhigh : (b.toNat + 256 * fixedNat bs) / 256 = fixedNat bs := by omega
    rw [length_cons, fixedNat, fixedBytes, hlow, hhigh, ih]

/-- The last byte takes what does not fit the others. -/
theorem fixedBytes_concat (k n s : Nat) :
    fixedBytes (k + 1) (n + 256 ^ k * s) = fixedBytes k n ++ [(n / 256 ^ k + s).toUInt8] := by
  induction k generalizing n with
  | zero => simp [fixedBytes]
  | succ k ih =>
    rw [fixedBytes, Nat.pow_succ', Nat.mul_assoc, Nat.add_mul_div_left _ _ (by decide), ih,
      ← Nat.div_div_eq_div_mul, fixedBytes]
    simp

/-- Read a number of `k` bytes. -/
def readNat (k : Nat) : Reader UInt8 ε Nat := do
  let bs ← readBlock e k
  return fixedNat bs

theorem codec_readNat (k : Nat) :
    Codec (fixedBytes k) (readNat e k) (fun n => n < 256 ^ k) := by
  refine (codec_readBlock e k).map (fun bs hbs => ?_) fun n hn => ?_
  · subst hbs
    exact ⟨fixedNat_lt bs, fixedBytes_fixedNat bs⟩
  · exact ⟨length_fixedBytes k n, by rw [fixedNat_fixedBytes, Nat.mod_eq_of_lt hn]⟩

end Codecs
