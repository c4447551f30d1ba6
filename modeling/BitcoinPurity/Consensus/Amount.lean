import Mathlib.Algebra.Order.BigOperators.Group.List
import BitcoinPurity.Coins.View
import BitcoinPurity.Lib.Tighten

/-!
# Amounts and context-free transaction checks

`MoneyRange`, `CTransaction::GetValueOut`, `GetBlockSubsidy`, `CheckTransaction` and
`CheckOutputSizes`.  Amounts are integers; each `int64_t` addition on them goes through `int64`,
which ends with `BlockError.overflow` where the addition has undefined behaviour.

`getValueOut_eq`: on a transaction that passes `CheckTransaction`, `GetValueOut` is the sum of the
values, in range.
-/

namespace BitcoinPurity

open Tighten

/-! ## Algorithm -/

def COIN : Int := 100000000

def maxMoney : Int := 21000000 * COIN

def moneyRange (nValue : Int) : Bool := decide (0 ≤ nValue ∧ nValue ≤ maxMoney)

/-- The result of an `int64_t` addition. -/
def int64 (sum : Int) : Except BlockError Int :=
  if -2 ^ 63 ≤ sum ∧ sum < 2 ^ 63 then .ok sum else .error .overflow

def getValueOutLoop : Int → List CTxOut → Except BlockError Int
  | nValueOut, [] => do
    failIf (!moneyRange nValueOut) .assertFailed
    .ok nValueOut
  | nValueOut, txOut :: vout => do
    failIf (!moneyRange txOut.nValue) .valueOutOfRange
    let sum ← int64 (nValueOut + txOut.nValue)
    failIf (!moneyRange sum) .valueOutOfRange
    getValueOutLoop sum vout

def getValueOut (tx : CTransaction) : Except BlockError Int := getValueOutLoop 0 tx.vout

def getBlockSubsidy (nHeight nSubsidyHalvingInterval : Nat) : Int :=
  let halvings := nHeight / nSubsidyHalvingInterval
  if halvings ≥ 64 then 0 else (50 * COIN) >>> halvings

def maxBlockWeight : Nat := 4000000

def witnessScaleFactor : Nat := 4

def getSizeOfCompactSize (n : Nat) : Nat :=
  if n < 253 then 1 else if n ≤ 0xffff then 3 else if n ≤ 0xffffffff then 5 else 9

def scriptSize (script : CScript) : Nat := getSizeOfCompactSize script.length + script.length

def serializeSizeNoWitness (tx : CTransaction) : Nat :=
  4 + getSizeOfCompactSize tx.vin.length
    + (tx.vin.map fun txin => 36 + scriptSize txin.scriptSig + 4).sum
    + getSizeOfCompactSize tx.vout.length
    + (tx.vout.map fun txOut => 8 + scriptSize txOut.scriptPubKey).sum + 4

/-- The loop over the outputs in `CheckTransaction`. -/
def checkOutputValues : Int → List CTxOut → Except BlockError Unit
  | _, [] => .ok ()
  | nValueOut, txOut :: vout => do
    failIf (decide (txOut.nValue < 0)) (.invalid .badTxnsVoutNegative)
    failIf (decide (txOut.nValue > maxMoney)) (.invalid .badTxnsVoutToolarge)
    let sum ← int64 (nValueOut + txOut.nValue)
    failIf (!moneyRange sum) (.invalid .badTxnsTxouttotalToolarge)
    checkOutputValues sum vout

/-- The last checks of `CheckTransaction`: the length of a coinbase's script, or that no other
transaction spends the null outpoint. -/
def checkPrevouts (tx : CTransaction) : Except BlockError Unit :=
  if tx.isCoinBase then
    let size := (tx.vin.head?.map (·.scriptSig.length)).getD 0
    failIf (decide (size < 2 ∨ size > 100)) (.invalid .badCbLength)
  else failIf (tx.vin.any (·.prevout.isNull)) (.invalid .badTxnsPrevoutNull)

def checkTransaction (tx : CTransaction) : Except BlockError Unit := do
  failIf tx.vin.isEmpty (.invalid .badTxnsVinEmpty)
  failIf tx.vout.isEmpty (.invalid .badTxnsVoutEmpty)
  failIf (decide (serializeSizeNoWitness tx * witnessScaleFactor > maxBlockWeight))
    (.invalid .badTxnsOversize)
  checkOutputValues 0 tx.vout
  failIf (!decide (tx.vin.map (·.prevout)).Nodup) (.invalid .badTxnsInputsDuplicate)
  checkPrevouts tx

def maxOutputScriptSize : Nat := 34

def maxOutputDataSize : Nat := 83

def checkOutputSizes (tx : CTransaction) : Bool :=
  tx.vout.all fun txOut =>
    match txOut.scriptPubKey with
    | [] => true
    | op :: script =>
      decide ((op :: script).length ≤ if op = opReturn then maxOutputDataSize
        else maxOutputScriptSize)

/-! ## Lemmas -/

variable {n x y : Int} {vout : List CTxOut} {tx : CTransaction}

@[simp] theorem moneyRange_iff : moneyRange n ↔ 0 ≤ n ∧ n ≤ maxMoney := by
  simp [moneyRange]

theorem maxMoney_eq : maxMoney = 2100000000000000 := rfl

theorem int64_eq_ok : int64 x = .ok y ↔ (-2 ^ 63 ≤ x ∧ x < 2 ^ 63) ∧ x = y := by
  unfold int64
  grind

theorem int64_of_range (hx : 0 ≤ x ∧ x ≤ maxMoney) (hy : 0 ≤ y ∧ y ≤ maxMoney) :
    int64 (x + y) = .ok (x + y) := by
  rw [maxMoney_eq] at hx hy
  rw [int64_eq_ok]
  omega

def valueSum (vout : List CTxOut) : Int := (vout.map (·.nValue)).sum

@[simp] theorem valueSum_nil : valueSum [] = 0 := rfl

@[simp] theorem valueSum_cons (txOut : CTxOut) (vout : List CTxOut) :
    valueSum (txOut :: vout) = txOut.nValue + valueSum vout := by
  simp [valueSum]

theorem valueSum_nonneg (h : ∀ txOut ∈ vout, 0 ≤ txOut.nValue) : 0 ≤ valueSum vout := by
  apply List.sum_nonneg
  intro x hx
  obtain ⟨txOut, hmem, rfl⟩ := List.mem_map.1 hx
  exact h txOut hmem

/-- What `CheckTransaction` guarantees about the amounts: each value, and the sum, is in range. -/
structure ValuesOk (vout : List CTxOut) : Prop where
  each : ∀ txOut ∈ vout, 0 ≤ txOut.nValue ∧ txOut.nValue ≤ maxMoney
  total : valueSum vout ≤ maxMoney

theorem checkOutputValues_ok (hn : 0 ≤ n ∧ n ≤ maxMoney) (h : checkOutputValues n vout = .ok ()) :
    (∀ txOut ∈ vout, 0 ≤ txOut.nValue ∧ txOut.nValue ≤ maxMoney) ∧
      n + valueSum vout ≤ maxMoney := by
  induction vout generalizing n with
  | nil => simpa using hn.2
  | cons txOut vout ih =>
    simp only [checkOutputValues, bind_eq_ok, failIf_eq_ok, decide_eq_false_iff_not,
      Bool.not_eq_false', moneyRange_iff, int64_eq_ok] at h
    obtain ⟨-, hlo, -, hhi, sum, ⟨-, rfl⟩, -, hr, hrest⟩ := h
    obtain ⟨heach, htot⟩ := ih hr hrest
    refine ⟨?_, ?_⟩
    · grind
    · rw [valueSum_cons]
      omega

/-- **What `CheckTransaction` guarantees.** -/
theorem checkTransaction_ok (h : checkTransaction tx = .ok ()) :
    ValuesOk tx.vout ∧ (tx.vin.map (·.prevout)).Nodup := by
  simp only [checkTransaction, bind_eq_ok, failIf_eq_ok, Bool.not_eq_false', decide_eq_true_eq] at h
  obtain ⟨-, -, -, -, -, -, u, hvals, -, hdup, -⟩ := h
  obtain ⟨heach, htot⟩ := checkOutputValues_ok (by decide) hvals
  exact ⟨⟨heach, by simpa using htot⟩, hdup⟩

theorem getValueOutLoop_eq (hn : 0 ≤ n)
    (heach : ∀ txOut ∈ vout, 0 ≤ txOut.nValue ∧ txOut.nValue ≤ maxMoney)
    (htot : n + valueSum vout ≤ maxMoney) : getValueOutLoop n vout = .ok (n + valueSum vout) := by
  induction vout generalizing n with
  | nil =>
    rw [valueSum_nil, Int.add_zero] at htot ⊢
    refine bind_eq_ok.2 ⟨(), ?_, rfl⟩
    rw [failIf_eq_ok, Bool.not_eq_false', moneyRange_iff]
    exact ⟨hn, htot⟩
  | cons txOut vout ih =>
    have hout := heach txOut (by simp)
    have hrest : ∀ t ∈ vout, 0 ≤ t.nValue ∧ t.nValue ≤ maxMoney :=
      fun t ht => heach t (List.mem_cons_of_mem _ ht)
    have hsum : 0 ≤ valueSum vout := valueSum_nonneg fun t ht => (hrest t ht).1
    rw [valueSum_cons] at htot ⊢
    simp only [getValueOutLoop, bind_eq_ok, failIf_eq_ok, Bool.not_eq_false', moneyRange_iff]
    refine ⟨(), hout, _, int64_of_range ⟨hn, by omega⟩ hout, (), ⟨by omega, by omega⟩, ?_⟩
    rw [ih (by omega) hrest (by omega), Int.add_assoc]

theorem getValueOut_eq (h : ValuesOk tx.vout) : getValueOut tx = .ok (valueSum tx.vout) := by
  have := getValueOutLoop_eq (Int.le_refl 0) h.each (by simpa using h.total)
  rwa [Int.zero_add] at this

/-! No addition overflows, on any outputs. -/

theorem getValueOutLoop_no_overflow
    (hn : 0 ≤ n ∧ n ≤ maxMoney) : getValueOutLoop n vout ≠ .error .overflow := by
  induction vout generalizing n with
  | nil => simp [getValueOutLoop, bind_eq_error]
  | cons txOut vout ih =>
    intro h
    simp only [getValueOutLoop, bind_eq_error, failIf_eq_error, failIf_eq_ok, Bool.not_eq_false',
      moneyRange_iff, reduceCtorEq, and_false, false_or] at h
    obtain ⟨-, hout, hsum | ⟨sum, -, -, hr, hrest⟩⟩ := h
    · simp [int64_of_range hn hout] at hsum
    · exact ih hr hrest

theorem getValueOut_no_overflow (tx : CTransaction) : getValueOut tx ≠ .error .overflow :=
  getValueOutLoop_no_overflow (by decide)

theorem checkOutputValues_no_overflow
    (hn : 0 ≤ n ∧ n ≤ maxMoney) : checkOutputValues n vout ≠ .error .overflow := by
  induction vout generalizing n with
  | nil => simp [checkOutputValues]
  | cons txOut vout ih =>
    intro h
    simp only [checkOutputValues, bind_eq_error, failIf_eq_error, failIf_eq_ok,
      decide_eq_false_iff_not, Bool.not_eq_false', moneyRange_iff, reduceCtorEq, and_false,
      false_or] at h
    obtain ⟨-, hlo, -, hhi, hsum | ⟨sum, -, -, hr, hrest⟩⟩ := h
    · rw [int64_of_range hn ⟨by omega, by omega⟩] at hsum
      cases hsum
    · exact ih hr hrest

theorem checkTransaction_no_overflow (tx : CTransaction) :
    checkTransaction tx ≠ .error .overflow := by
  intro h
  simp only [checkTransaction, bind_eq_error, failIf_eq_error, reduceCtorEq, and_false,
    false_or] at h
  obtain ⟨-, -, -, -, -, -, hvals | ⟨-, -, -, -, hlast⟩⟩ := h
  · exact checkOutputValues_no_overflow (by decide) hvals
  · unfold checkPrevouts at hlast
    split at hlast
    · simp at hlast
    · simp at hlast

end BitcoinPurity
