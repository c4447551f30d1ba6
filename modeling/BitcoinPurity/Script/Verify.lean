import BitcoinPurity.Script.Interpreter

/-!
# Verifying a spend

`ExecuteWitnessScript`, `VerifyWitnessProgram` and `VerifyScript` of
`script/interpreter.cpp`: the bare, P2SH, witness v0 (P2WSH and P2WPKH), P2SH-wrapped witness,
taproot key path, tapscript, anchor and unknown witness program paths, with the
`SCRIPT_VERIFY_REDUCED_DATA` limits and the exemption of the P2SH redeem script.

A witness stack is in the order of the transaction, so its last element is the top;
`executeWitnessScript` turns it over.
-/

namespace BitcoinPurity

open Tighten

/-! ## Hashes of the taproot tree -/

def witnessSerializeSize (witness : List Bytes) : Nat :=
  (writeCompactSize witness.length).length + (witness.map fun b => (serializeBytes b).length).sum

section

variable (crypto : Crypto)

/-- `TaggedHash` followed by `GetSHA256`. -/
def taggedHash (tag : String) (b : Bytes) : Bytes :=
  let taghash := crypto.sha256 tag.toUTF8.toList
  crypto.sha256 (taghash ++ taghash ++ b)

def computeTapleafHash (leafVersion : UInt8) (script : Bytes) : Bytes :=
  taggedHash crypto "TapLeaf" (leafVersion :: serializeBytes script)

def computeTapbranchHash (a b : Bytes) : Bytes :=
  taggedHash crypto "TapBranch" (if a < b then a ++ b else b ++ a)

/-- Hash the leaf with each of the `n` nodes of the path, in order. -/
def merklePath : Nat → Bytes → Bytes → Bytes
  | 0, _, k => k
  | n + 1, path, k => merklePath n (path.drop 32) (computeTapbranchHash crypto k (path.take 32))

def taprootControlBaseSize : Nat := 33
def taprootControlNodeSize : Nat := 32
def taprootControlMaxSize : Nat := taprootControlBaseSize + taprootControlNodeSize * 128
def taprootControlMaxSizeReduced : Nat := taprootControlBaseSize + taprootControlNodeSize * 7

def computeTaprootMerkleRoot (control tapleafHash : Bytes) : Bytes :=
  merklePath crypto ((control.length - taprootControlBaseSize) / taprootControlNodeSize)
    (control.drop taprootControlBaseSize) tapleafHash

def verifyTaprootCommitment (control program tapleafHash : Bytes) : Bool :=
  crypto.checkTapTweak program ((control.drop 1).take (taprootControlBaseSize - 1))
    (computeTaprootMerkleRoot crypto control tapleafHash) (control.getD 0 0 &&& 1 != 0)

end

/-! ## Witness programs -/

section

variable (crypto : Crypto) (checker : BaseSignatureChecker) (flags : ScriptFlags)

/-- What the scan for `OP_SUCCESSx` found. -/
inductive OpSuccessScan
  | found | badOpcode | absent
  deriving DecidableEq, Repr

/-- The scan of a tapscript for an `OP_SUCCESSx`.  The fuel is the number of bytes left. -/
def scanOpSuccess : Nat → CScript → OpSuccessScan
  | 0, _ => .absent
  | _ + 1, [] => .absent
  | fuel + 1, b :: pc =>
    match getOp (b :: pc) with
    | none => .badOpcode
    | some (opcode, _, pc) => if isOpSuccess opcode then .found else scanOpSuccess fuel pc

section

variable (stack : List Bytes) (script : CScript) (sigversion : SigVersion)

/-- Run the interpreter on a witness stack and require one true element at the end. -/
def runWitnessScript (execdata : ScriptExecutionData) : Result Unit := do
  errorIf (stack.any fun elem => decide (elem.length > maxElementSize flags)) .pushSize
  let r ← evalScript crypto checker flags sigversion stack.reverse script execdata
  errorIf (r.1.length != 1) .cleanStack
  errorIf (!castToBool (r.1.headD [])) .evalFalse

def executeWitnessScript (execdata : ScriptExecutionData) : Result Unit :=
  if sigversion = .tapscript then
    -- OP_SUCCESSx overrides everything, the element size limits included
    match scanOpSuccess script.length script with
    | .badOpcode => setError .badOpcode
    | .found => rejectIf flags scriptVerifyDiscourageOpSuccess true .discourageOpSuccess
    | .absent => do
      errorIf (decide (stack.length > maxStackSize)) .stackSize
      runWitnessScript crypto checker flags stack script sigversion execdata
  else runWitnessScript crypto checker flags stack script sigversion execdata

end

def impliedP2PKH (program : Bytes) : CScript :=
  [opDup, opHash160] ++ pushData program ++ [opEqualVerify, opCheckSig]

/-- Witness version 0: P2WSH by the size of a SHA-256 hash, P2WPKH by that of a key hash. -/
def verifyWitnessV0 (stack : List Bytes) (program : Bytes) : Result Unit :=
  if program.length = 32 then
    match stack.getLast? with
    | none => setError .witnessProgramWitnessEmpty
    | some script => do
      errorIf (crypto.sha256 script != program) .witnessProgramMismatch
      executeWitnessScript crypto checker flags stack.dropLast script .witnessV0 {}
  else if program.length = 20 then do
    errorIf (stack.length != 2) .witnessProgramMismatch
    executeWitnessScript crypto checker flags stack (impliedP2PKH program) .witnessV0 {}
  else setError .witnessProgramWrongLength

/-- Whether the witness carries an annex. -/
def hasAnnex (stack : List Bytes) : Bool :=
  decide (stack.length ≥ 2) && (stack.getLastD []).head? == some 0x50

def maxControlSize : Nat :=
  if hasFlag flags scriptVerifyReducedData then taprootControlMaxSizeReduced else taprootControlMaxSize

/-- A spend by the key (one element left) or by a script (at least two). -/
def verifyTaprootSpend (witness stack : List Bytes) (program : Bytes)
    (execdata : ScriptExecutionData) : Result Unit :=
  if stack.length = 1 then do
    let _ ← checker.checkSchnorrSignature (stack.headD []) program .taproot execdata
    .ok ()
  else do
    let control := stack.getLastD []
    let script := stack.dropLast.getLastD []
    errorIf (decide (control.length < taprootControlBaseSize)) .taprootWrongControlSize
    errorIf (decide (control.length > maxControlSize flags)) .taprootWrongControlSize
    errorIf ((control.length - taprootControlBaseSize) % taprootControlNodeSize != 0)
      .taprootWrongControlSize
    let leafVersion := control.getD 0 0 &&& 0xfe
    let tapleafHash := computeTapleafHash crypto leafVersion script
    errorIf (!verifyTaprootCommitment crypto control program tapleafHash) .witnessProgramMismatch
    if leafVersion = 0xc0 then
      executeWitnessScript crypto checker flags stack.dropLast.dropLast script .tapscript
        { execdata with
          tapleafHash := some tapleafHash
          validationWeightLeft := some (witnessSerializeSize witness + 50) }
    else
      rejectIf flags scriptVerifyDiscourageUpgradableTaprootVersion true
        .discourageUpgradableTaprootVersion

/-- Witness version 1 with a 32-byte program: drop the annex and check the spend. -/
def verifyTaproot (witness : List Bytes) (program : Bytes) : Result Unit :=
  if hasFlag flags scriptVerifyTaproot then
    if witness.length = 0 then setError .witnessProgramWitnessEmpty
    else if hasAnnex witness then do
      rejectIf flags scriptVerifyReducedData true .pushSize
      verifyTaprootSpend crypto checker flags witness witness.dropLast program
        { annex := some (some (crypto.sha256 (serializeBytes (witness.getLastD [])))) }
    else
      verifyTaprootSpend crypto checker flags witness witness program { annex := some none }
  else .ok ()

def verifyWitnessProgram (witness : List Bytes) (witversion : Nat) (program : Bytes)
    (isP2SH : Bool) : Result Unit :=
  if witversion = 0 then verifyWitnessV0 crypto checker flags witness program
  else if witversion = 1 ∧ program.length = 32 ∧ isP2SH = false then
    verifyTaproot crypto checker flags witness program
  else if witness.isEmpty ∧ isP2SH = false ∧ isPayToAnchor witversion program then .ok ()
  else
    rejectIf flags scriptVerifyDiscourageUpgradableWitnessProgram true
      .discourageUpgradableWitnessProgram

/-! ## VerifyScript -/

/-- `stack.resize(1)` keeps the bottom element. -/
def resizeOne (stack : List Bytes) : List Bytes := [stack.getLastD []]

variable (scriptSig scriptPubKey : CScript)

/-- Evaluate the scriptSig and then the scriptPubKey on its stack; the result is the stack
after each of the two. -/
def evalSigAndPubKey : Result (List Bytes × List Bytes) := do
  -- the push of a P2SH redeem script is exempt from the reduced element size
  let sigFlags := if isPayToScriptHash scriptPubKey then flags &&& ~~~scriptVerifyReducedData
    else flags
  let r ← evalScript crypto checker sigFlags .base [] scriptSig {}
  let r' ← evalScript crypto checker flags .base r.1 scriptPubKey {}
  errorIf r'.1.isEmpty .evalFalse
  errorIf (!castToBool (r'.1.headD [])) .evalFalse
  .ok (r.1, r'.1)

/-- A bare witness program.  The result is `hadWitness` and the stack. -/
def verifyBareWitness (witness stack : List Bytes) : Result (Bool × List Bytes) :=
  if hasFlag flags scriptVerifyWitness then
    match isWitnessProgram scriptPubKey with
    | some (version, program) => do
      errorIf (scriptSig.length != 0) .witnessMalleated
      verifyWitnessProgram crypto checker flags witness version program false
      .ok (true, resizeOne stack)
    | none => .ok (false, stack)
  else .ok (false, stack)

/-- Evaluate the redeem script on the rest of the stack that the scriptSig left.  The result
is the redeem script and the final stack. -/
def evalRedeemScript (scriptSig : CScript) (stackCopy : List Bytes) :
    Result (CScript × List Bytes) := do
  errorIf (!isPushOnly scriptSig) .sigPushOnly
  match stackCopy with
  | [] => .error .abort
  | pubKey2 :: stack => do
    rejectIf flags scriptVerifyReducedData
      (stack.any fun elem => decide (elem.length > maxScriptElementSizeReduced)) .pushSize
    let r ← evalScript crypto checker flags .base stack pubKey2 {}
    errorIf r.1.isEmpty .evalFalse
    errorIf (!castToBool (r.1.headD [])) .evalFalse
    .ok (pubKey2, r.1)

def verifyP2SHWitness (scriptSig pubKey2 : CScript) (witness stack : List Bytes)
    (hadWitness : Bool) : Result (Bool × List Bytes) :=
  if hasFlag flags scriptVerifyWitness then
    match isWitnessProgram pubKey2 with
    | some (version, program) => do
      errorIf (scriptSig != pushData pubKey2) .witnessMalleatedP2SH
      verifyWitnessProgram crypto checker flags witness version program true
      .ok (true, resizeOne stack)
    | none => .ok (hadWitness, stack)
  else .ok (hadWitness, stack)

def verifyPayToScriptHash (witness stackCopy : List Bytes)
    (r : Bool × List Bytes) : Result (Bool × List Bytes) :=
  if hasFlag flags scriptVerifyP2SH && isPayToScriptHash scriptPubKey then do
    let e ← evalRedeemScript crypto checker flags scriptSig stackCopy
    verifyP2SHWitness crypto checker flags scriptSig e.1 witness e.2 r.1
  else .ok r

/-- The clean stack rule, and no witness where none was used. -/
def checkLeftovers (witness : List Bytes) (r : Bool × List Bytes) : Result Unit := do
  failIf (hasFlag flags scriptVerifyCleanStack &&
    !(hasFlag flags scriptVerifyP2SH && hasFlag flags scriptVerifyWitness)) .abort
  rejectIf flags scriptVerifyCleanStack (r.2.length != 1) .cleanStack
  failIf (hasFlag flags scriptVerifyWitness && !hasFlag flags scriptVerifyP2SH) .abort
  rejectIf flags scriptVerifyWitness (!r.1 && !witness.isEmpty) .witnessUnexpected

def verifyPrograms (witness stackCopy stack : List Bytes) : Result Unit := do
  let r ← verifyBareWitness crypto checker flags scriptSig scriptPubKey witness stack
  let r ← verifyPayToScriptHash crypto checker flags scriptSig scriptPubKey witness stackCopy r
  checkLeftovers flags witness r

/-- `VerifyScript`; no witness is an empty one. -/
def verifyScript (witness : Option (List Bytes)) : Result Unit := do
  rejectIf flags scriptVerifySigPushOnly (!isPushOnly scriptSig) .sigPushOnly
  let r ← evalSigAndPubKey crypto checker flags scriptSig scriptPubKey
  verifyPrograms crypto checker flags scriptSig scriptPubKey (witness.getD []) r.1 r.2

end

/-! ## Lemmas -/

theorem scanOpSuccess_fuel {fuel : Nat} {pc : CScript} (h : pc.length ≤ fuel) :
    scanOpSuccess fuel pc = scanOpSuccess pc.length pc := by
  refine Fuel.adequate ?_ ?_ h
  · intro pc hpc
    cases List.eq_nil_of_length_eq_zero hpc
    rfl
  · intro n m pc ih
    cases pc with
    | nil => rfl
    | cons b pc =>
      simp only [scanOpSuccess]
      split
      · rfl
      next hop => rw [ih _ (getOp_length_lt hop)]

end BitcoinPurity
