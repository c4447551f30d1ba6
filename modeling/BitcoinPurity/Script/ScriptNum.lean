import Mathlib.Data.Nat.Log
import BitcoinPurity.Primitives.Serialize

/-!
# Script numbers and pushes are canonical

`CScriptNum::serialize` against `set_vch` and the check for the shortest encoding, and
`CScript::operator<<` against `GetScriptOp` and `CheckMinimalPush` (`script_canonical`).
-/

namespace BitcoinPurity

open Codecs Nat List

/-! ## Numbers -/

theorem leNat_eq_fixedNat (xs : Bytes) : leNat xs = fixedNat xs := by
  induction xs with
  | nil => rfl
  | cons x xs ih => rw [leNat, fixedNat, ih]

theorem signBit : ∀ x < 256, (UInt8.ofNat x &&& 0x80 ≠ 0 ↔ 128 ≤ x) ∧
    (UInt8.ofNat x &&& 0x7f = 0 ↔ x % 128 = 0) ∧
    (x < 128 → UInt8.ofNat x ||| 0x80 = UInt8.ofNat (x + 128)) := by
  decide +kernel

theorem lastByte (k n : Nat) :
    fixedBytes (k + 1) n = fixedBytes k n ++ [UInt8.ofNat (n / 256 ^ k)] :=
  fixedBytes_concat k n 0

section
variable {p N : Nat} (hN : N < 256 ^ (p + 1))
include hN

theorem div_lt_byte : N / 256 ^ p < 256 := Nat.div_lt_of_lt_mul hN

theorem setVch_fixedBytes : setVch (fixedBytes (p + 1) N) =
    if 128 * 256 ^ p ≤ N then -((N : Int) - (128 * 256 ^ p : Nat)) else N := by
  have hsign := (signBit _ (div_lt_byte hN)).1
  rw [le_div_iff_mul_le (Nat.pow_pos (by decide))] at hsign
  rw [setVch, leNat_eq_fixedNat, fixedNat_fixedBytes, mod_eq_of_lt hN, length_fixedBytes,
    lastByte, getLastD_concat]
  simp only [hsign, Nat.add_sub_cancel]
  push_cast
  rfl

theorem notMinimallyEncoded_fixedBytes : notMinimallyEncoded (fixedBytes (p + 1) N) = false ↔
    256 ^ p ≤ 2 * (N % (128 * 256 ^ p)) := by
  have hlast := (signBit _ (div_lt_byte hN)).2.1
  rw [notMinimallyEncoded, length_fixedBytes, lastByte, getLastD_concat]
  cases p with
  | zero =>
    simp at hlast ⊢
    rw [hlast]
    omega
  | succ q =>
    have hsecond := (signBit (N / 256 ^ q % 256) (by omega)).1
    rw [show UInt8.ofNat (N / 256 ^ q % 256) = UInt8.ofNat (N / 256 ^ q) from
      UInt8.ofNat_mod_size] at hsecond
    have hmag := le_div_iff_mul_le (x := 128) (y := N % (256 ^ q * 32768))
      (Nat.pow_pos (n := q) (by decide : 0 < 256))
    rw [mod_mul_right_div_self] at hmag
    rw [lastByte]
    simp only [pow_succ, ← Nat.div_div_eq_div_mul] at hlast ⊢
    simp [hlast]
    grind

end

/-- What the sign adds to the last byte. -/
def signOf (n : Int) : Nat := if n < 0 then 128 else 0

theorem leBytes_eq {k n : Nat} (hn : n ≠ 0) (h : n < 256 ^ k) :
    ∃ q, leBytes k n = fixedBytes (q + 1) n ∧ 256 ^ q ≤ n ∧ n < 256 ^ (q + 1) := by
  induction k generalizing n with
  | zero => omega
  | succ k ih =>
    rw [leBytes, if_neg hn]
    by_cases hq : n / 256 = 0
    · refine ⟨0, ?_, by omega, by omega⟩
      rw [hq]
      cases k <;> rfl
    · obtain ⟨q, hbytes, hle, hlt⟩ := ih hq (by rw [pow_succ] at h; omega)
      refine ⟨q + 1, by rw [hbytes]; rfl, ?_, ?_⟩ <;> rw [pow_succ] <;> omega

theorem serialize_eq {n : Int} (hn : n ≠ 0) (h : n.natAbs < 2 ^ 63) : ∃ p,
    serialize n = fixedBytes (p + 1) (n.natAbs + 256 ^ p * signOf n) ∧
      256 ^ p ≤ 2 * n.natAbs ∧ n.natAbs < 128 * 256 ^ p := by
  obtain ⟨q, hbytes, hle, hlt⟩ := leBytes_eq (k := 8) (Int.natAbs_ne_zero.2 hn) (by omega)
  have hc := signBit _ (div_lt_byte hlt)
  rw [le_div_iff_mul_le (Nat.pow_pos (by decide))] at hc
  simp only [serialize, if_neg hn, hbytes, lastByte q, getLastD_concat, hc.1,
    dropLast_concat, decide_eq_true_iff]
  split
  next hge =>
    refine ⟨q + 1, ?_, by rw [pow_succ]; omega, by omega⟩
    rw [fixedBytes_concat, div_eq_of_lt hlt, zero_add, lastByte q, signOf]
    split <;> rfl
  next hge =>
    refine ⟨q, ?_, by omega, by omega⟩
    rw [fixedBytes_concat, signOf]
    split
    · rw [hc.2.2 (by rw [div_lt_iff_lt_mul (Nat.pow_pos (by decide))]; omega)]
    · rfl

theorem serialize_decodes {n : Int} (h : n.natAbs < 2 ^ 63) :
    (serialize n).length ≤ 8 ∧ setVch (serialize n) = n := by
  by_cases hn : n = 0
  · subst hn
    decide
  obtain ⟨p, hser, hle, hlt⟩ := serialize_eq hn h
  have hp : p < 8 := (Nat.pow_lt_pow_iff_right (a := 256) (by decide)).1 (by omega)
  rw [hser, length_fixedBytes, signOf]
  refine ⟨hp, ?_⟩
  split
  · rw [setVch_fixedBytes (by rw [pow_succ]; omega), if_pos (by omega)]
    omega
  · rw [setVch_fixedBytes (by rw [pow_succ]; omega), if_neg (by omega)]
    omega

theorem minimallyEncoded_iff {v : Bytes} (h : v.length ≤ 8) :
    notMinimallyEncoded v = false ↔ v = serialize (setVch v) := by
  have hv := fixedBytes_fixedNat v
  have hN := fixedNat_lt v
  rcases hlen : v.length with _ | p
  · rw [length_eq_zero_iff.1 hlen]
    decide
  rw [hlen] at h hv hN
  generalize fixedNat v = N at hv hN
  subst hv
  have hpow : 256 ^ p ≤ 256 ^ 7 := Nat.pow_le_pow_right (by decide) (by omega)
  have hpos : 0 < 256 ^ p := Nat.pow_pos (by decide)
  have hval : (setVch (fixedBytes (p + 1) N)).natAbs = N % (128 * 256 ^ p) ∧
      (setVch (fixedBytes (p + 1) N) ≠ 0 →
        N = N % (128 * 256 ^ p) + 256 ^ p * signOf (setVch (fixedBytes (p + 1) N))) := by
    rw [setVch_fixedBytes hN]
    rw [pow_succ] at hN
    split
    next hge =>
      rw [mod_eq_sub_mod hge, mod_eq_of_lt (by omega)]
      refine ⟨by omega, fun hn => ?_⟩
      rw [signOf, if_pos (by omega)]
      omega
    next hlt =>
      rw [mod_eq_of_lt (by omega)]
      refine ⟨by omega, fun hn => ?_⟩
      rw [signOf, if_neg (by omega)]
      omega
  rw [notMinimallyEncoded_fixedBytes hN]
  generalize hM : N % (128 * 256 ^ p) = M at *
  have hlt : M < 128 * 256 ^ p := hM ▸ mod_lt _ (by omega)
  generalize setVch (fixedBytes (p + 1) N) = n at *
  obtain ⟨rfl, hN⟩ := hval
  constructor
  · intro hmin
    have hn : n ≠ 0 := by omega
    obtain ⟨q, hser, hle, hlt'⟩ := serialize_eq hn (by omega)
    have hq : q = p := (log_eq_of_pow_le_of_lt_pow hle (by rw [pow_succ]; omega)).symm.trans
      (log_eq_of_pow_le_of_lt_pow hmin (by rw [pow_succ]; omega))
    rw [hser, hq, ← hN hn]
  · intro hv
    have hlen := congrArg length hv
    have hn : n ≠ 0 := by
      rintro rfl
      rw [length_fixedBytes] at hlen
      cases hlen
    obtain ⟨q, hser, hle, -⟩ := serialize_eq hn (by omega)
    rw [hser, length_fixedBytes, length_fixedBytes] at hlen
    cases hlen
    exact hle

/-! ## Pushes -/

/-- `GetScriptOp` at the start of a script.  `end()` takes the size as an `int32_t`, so that the end
of a script of 2^31 bytes lies before its start. -/
def getScriptOp (script : CScript) : Option (UInt8 × Bytes × CScript) :=
  if 2 ^ 31 ≤ script.length then none else getOp script

theorem readLE_writeLE {k n : Nat} {v : Bytes} (h : n < 256 ^ k) :
    readLE k (writeLE k n ++ v) = some (n, v) := by
  have hlen := length_fixedBytes k n
  rw [writeLE_eq_fixedBytes, readLE, if_neg (by simp), take_left' hlen, drop_left' hlen,
    leNat_eq_fixedNat, fixedNat_fixedBytes, mod_eq_of_lt h]

theorem getOp_cons {opcode : UInt8} {xs v : Bytes} (hop : opcode ≤ opPushData4)
    (hsize : operandSize opcode xs = some (v.length, v)) :
    getOp (opcode :: xs) = some (opcode, v, []) := by
  simp [getOp, hop, hsize]

/-- The opcode of the push of so many bytes. -/
def pushOpcode (size : Nat) : UInt8 :=
  if size < 76 then UInt8.ofNat size
  else if size ≤ 0xff then opPushData1 else if size ≤ 0xffff then opPushData2 else opPushData4

theorem getOp_pushData {v : Bytes} (h : v.length < 2 ^ 32) :
    getOp (pushData v) = some (pushOpcode v.length, v, []) := by
  rw [pushData, appendDataSize, pushOpcode, show opPushData1.toNat = 76 from rfl]
  split_ifs with h0 h1 h2
  · have hop : (UInt8.ofNat v.length).toNat = v.length := by rw [UInt8.toNat_ofNat']; omega
    refine getOp_cons (UInt8.le_iff_toNat_le.2 (by rw [hop]; exact (by omega : v.length ≤ 78))) ?_
    rw [operandSize, if_pos (UInt8.lt_iff_toNat_lt.2 (by rw [hop]; exact h0)), hop]
    rfl
  · exact getOp_cons (by decide) (readLE_writeLE (k := 1) (by omega))
  · exact getOp_cons (by decide) (readLE_writeLE (k := 2) (by omega))
  · exact getOp_cons (by decide) (readLE_writeLE (k := 4) (by omega))

theorem checkMinimalPush_pushOpcode (v : Bytes) : checkMinimalPush v (pushOpcode v.length) = false ↔
    ∃ b, v = [b] ∧ (1 ≤ b ∧ b ≤ 16 ∨ b = 0x81) := by
  rcases v with _ | ⟨b, _ | ⟨c, v⟩⟩
  · simp [checkMinimalPush, pushOpcode, op0]
  · simp [checkMinimalPush, pushOpcode]
    grind
  · rw [checkMinimalPush, if_neg (by simp), if_neg (by simp), if_neg (by simp), pushOpcode]
    split_ifs
    any_goals omega
    all_goals simp
    simp at *
    omega

/-- **Script numbers and pushes are canonical.** -/
theorem script_canonical :
    (∀ n : Int, n.natAbs < 2 ^ 63 → (serialize n).length ≤ 8 ∧ setVch (serialize n) = n) ∧
    (∀ v : Bytes, v.length ≤ 8 → (notMinimallyEncoded v = false ↔ v = serialize (setVch v))) ∧
    ∀ v : Bytes, (pushData v).length < 2 ^ 31 → ∃ opcode,
      getScriptOp (pushData v) = some (opcode, v, []) ∧
      (checkMinimalPush v opcode = false ↔ ∃ b, v = [b] ∧ (1 ≤ b ∧ b ≤ 16 ∨ b = 0x81)) := by
  refine ⟨fun n h => ?_, fun v h => minimallyEncoded_iff h, fun v h => ?_⟩
  · exact serialize_decodes h
  · have hlen := h
    rw [pushData, length_append] at hlen
    exact ⟨pushOpcode v.length, by rw [getScriptOp, if_neg (not_le.2 h), getOp_pushData (by omega)],
      checkMinimalPush_pushOpcode v⟩

theorem script_canonical_minusOne :
    setVch (serialize (-1)) = -1 ∧ (notMinimallyEncoded [0x81] = false ↔ [0x81] = serialize (-1)) ∧
      ∃ opcode, getScriptOp (pushData [7, 7]) = some (opcode, [7, 7], []) :=
  ⟨(script_canonical.1 (-1) (by decide)).2, script_canonical.2.1 [0x81] (by decide),
    (script_canonical.2.2 [7, 7] (by decide)).imp fun _ h => h.1⟩

theorem getScriptOp_long {v : Bytes} (h : 2 ^ 31 ≤ v.length) : getScriptOp (pushData v) = none := by
  rw [getScriptOp, if_pos (by rw [pushData, length_append]; omega)]

/-- A push of 2^31 bytes is not read back. -/
theorem push_not_read : getScriptOp (pushData (replicate (2 ^ 31) 0)) = none :=
  getScriptOp_long (by rw [length_replicate])

end BitcoinPurity
