import BitcoinPurity.Lib.Tighten
import BitcoinPurity.Script.Script

/-!
# The script interpreter

`EvalScript` of `script/interpreter.cpp` with the checks it calls: signature and public key
encodings, `FindAndDelete`, `EvalChecksig`, `OP_CHECKMULTISIG`, the condition stack, and the
limits on element size, operations and stack depth.

A stack is a list with its top first.  `return set_error(e)` is the failure `.script e`, a
failed `assert` is `.abort`, and an exception caught at the end of `EvalScript` is
`SCRIPT_ERR_UNKNOWN_ERROR`.  Hash functions, the low-S test and the signature checker are
parameters.

`evalLoop_fuel` and `findAndDeleteLoop_fuel` say that the fuel of the loops over a script, its
number of bytes, is enough: any more gives the same result.
-/

namespace BitcoinPurity

open Tighten

/-! ## Flags -/

/-- The `unsigned int` that holds the `SCRIPT_VERIFY_*` bits. -/
abbrev ScriptFlags := BitVec 32

def scriptVerifyP2SH : ScriptFlags := 1 <<< 0
def scriptVerifyStrictEnc : ScriptFlags := 1 <<< 1
def scriptVerifyDerSig : ScriptFlags := 1 <<< 2
def scriptVerifyLowS : ScriptFlags := 1 <<< 3
def scriptVerifyNullDummy : ScriptFlags := 1 <<< 4
def scriptVerifySigPushOnly : ScriptFlags := 1 <<< 5
def scriptVerifyMinimalData : ScriptFlags := 1 <<< 6
def scriptVerifyDiscourageUpgradableNops : ScriptFlags := 1 <<< 7
def scriptVerifyCleanStack : ScriptFlags := 1 <<< 8
def scriptVerifyCheckLockTimeVerify : ScriptFlags := 1 <<< 9
def scriptVerifyCheckSequenceVerify : ScriptFlags := 1 <<< 10
def scriptVerifyWitness : ScriptFlags := 1 <<< 11
def scriptVerifyDiscourageUpgradableWitnessProgram : ScriptFlags := 1 <<< 12
def scriptVerifyMinimalIf : ScriptFlags := 1 <<< 13
def scriptVerifyNullFail : ScriptFlags := 1 <<< 14
def scriptVerifyWitnessPubkeyType : ScriptFlags := 1 <<< 15
def scriptVerifyConstScriptCode : ScriptFlags := 1 <<< 16
def scriptVerifyTaproot : ScriptFlags := 1 <<< 17
def scriptVerifyDiscourageUpgradableTaprootVersion : ScriptFlags := 1 <<< 18
def scriptVerifyDiscourageOpSuccess : ScriptFlags := 1 <<< 19
def scriptVerifyDiscourageUpgradablePubkeyType : ScriptFlags := 1 <<< 20
def scriptVerifyReducedData : ScriptFlags := 1 <<< 21

def reducedDataMandatoryVerifyFlags : ScriptFlags :=
  scriptVerifyReducedData ||| scriptVerifyDiscourageUpgradableWitnessProgram |||
    scriptVerifyDiscourageUpgradableTaprootVersion ||| scriptVerifyDiscourageOpSuccess

/-- `(flags & f) != 0` -/
def hasFlag (flags f : ScriptFlags) : Bool := flags &&& f != 0

def maxElementSize (flags : ScriptFlags) : Nat :=
  if hasFlag flags scriptVerifyReducedData then maxScriptElementSizeReduced else maxScriptElementSize

/-! ## Failures -/

/-- The errors of `script_error.h` that the interpreter reports. -/
inductive ScriptError
  | unknownError | evalFalse | opReturn
  | scriptSize | pushSize | opCount | stackSize | sigCount | pubkeyCount
  | verify | equalVerify | checkMultiSigVerify | checkSigVerify | numEqualVerify
  | badOpcode | disabledOpcode | invalidStackOperation | invalidAltStackOperation
  | unbalancedConditional | negativeLocktime | unsatisfiedLocktime
  | sigHashType | sigDer | minimalData | sigPushOnly | sigHighS | sigNullDummy | pubkeyType
  | cleanStack | minimalIf | sigNullFail
  | discourageUpgradableNops | discourageUpgradableWitnessProgram
  | discourageUpgradableTaprootVersion | discourageOpSuccess | discourageUpgradablePubkeyType
  | witnessProgramWrongLength | witnessProgramWitnessEmpty | witnessProgramMismatch
  | witnessMalleated | witnessMalleatedP2SH | witnessUnexpected | witnessPubkeyType
  | schnorrSigSize | schnorrSigHashType | schnorrSig | taprootWrongControlSize
  | tapscriptValidationWeight | tapscriptCheckMultiSig | tapscriptMinimalIf
  | opCodeSeparator | sigFindAndDelete
  deriving DecidableEq, Repr

/-- How a run ends without a result: `false` with `serror` set, or a failed `assert`. -/
inductive Failure
  | script (e : ScriptError)
  | abort
  deriving DecidableEq, Repr

abbrev Result := Except Failure

/-- `return set_error(serror, e)` -/
def setError {α : Type} (e : ScriptError) : Result α := .error (.script e)

/-- `if (bad) return set_error(serror, e)` -/
def errorIf (bad : Bool) (e : ScriptError) : Result Unit := failIf bad (.script e)

/-- `if ((flags & f) && bad) return set_error(serror, e)` -/
def rejectIf (flags f : ScriptFlags) (bad : Bool) (e : ScriptError) : Result Unit :=
  errorIf (hasFlag flags f && bad) e

/-! ## Parameters -/

inductive SigVersion
  | base | witnessV0 | taproot | tapscript
  deriving DecidableEq, Repr

/-- The versions with the limits on script size and operations. -/
def SigVersion.preTapscript : SigVersion → Bool
  | .base | .witnessV0 => true
  | .taproot | .tapscript => false

/-- Each field is set once its `_init` companion is; `annex` holds the hash of a present
annex. -/
structure ScriptExecutionData where
  tapleafHash : Option Bytes := none
  codeseparatorPos : Option Nat := none
  annex : Option (Option Bytes) := none
  validationWeightLeft : Option Int := none
  outputHash : Option Bytes := none
  deriving DecidableEq, Repr

/-- The cryptographic functions the interpreter calls directly. -/
structure Crypto where
  ripemd160 : Bytes → Bytes
  sha1 : Bytes → Bytes
  sha256 : Bytes → Bytes
  checkLowS : Bytes → Bool
  checkTapTweak : (q p merkleRoot : Bytes) → (parity : Bool) → Bool

def Crypto.hash160 (crypto : Crypto) (b : Bytes) : Bytes := crypto.ripemd160 (crypto.sha256 b)
def Crypto.hash256 (crypto : Crypto) (b : Bytes) : Bytes := crypto.sha256 (crypto.sha256 b)

/-- The virtual functions of `BaseSignatureChecker`.  A Schnorr check may fill in the cached
output hash of the execution data, and reports its own error. -/
structure BaseSignatureChecker where
  checkECDSASignature : (sig pubkey : Bytes) → (scriptCode : CScript) → SigVersion → Bool
  checkSchnorrSignature : (sig pubkey : Bytes) → SigVersion → ScriptExecutionData →
    Result ScriptExecutionData
  checkLockTime : Int → Bool
  checkSequence : Int → Bool

/-! ## Encodings of keys and signatures -/

def isCompressedOrUncompressedPubKey (pubkey : Bytes) : Bool :=
  if pubkey.length < 33 then false
  else if pubkey.getD 0 0 = 0x04 then pubkey.length == 65
  else if pubkey.getD 0 0 = 0x02 ∨ pubkey.getD 0 0 = 0x03 then pubkey.length == 33
  else false

def isCompressedPubKey (pubkey : Bytes) : Bool :=
  pubkey.length == 33 && (pubkey.getD 0 0 == 0x02 || pubkey.getD 0 0 == 0x03)

/-- Strict DER: `0x30 total 0x02 lenR R 0x02 lenS S hashtype`. -/
def isValidSignatureEncoding (sig : Bytes) : Bool :=
  let byte (i : Nat) : UInt8 := sig.getD i 0
  let lenR := (byte 3).toNat
  let lenS := (byte (5 + lenR)).toNat
  if sig.length < 9 then false
  else if sig.length > 73 then false
  else if byte 0 ≠ 0x30 then false
  else if (byte 1).toNat ≠ sig.length - 3 then false
  else if 5 + lenR ≥ sig.length then false
  else if lenR + lenS + 7 ≠ sig.length then false
  else if byte 2 ≠ 0x02 then false
  else if lenR = 0 then false
  else if byte 4 &&& 0x80 ≠ 0 then false
  else if lenR > 1 ∧ byte 4 = 0 ∧ byte 5 &&& 0x80 = 0 then false
  else if byte (lenR + 4) ≠ 0x02 then false
  else if lenS = 0 then false
  else if byte (lenR + 6) &&& 0x80 ≠ 0 then false
  else if lenS > 1 ∧ byte (lenR + 6) = 0 ∧ byte (lenR + 7) &&& 0x80 = 0 then false
  else true

def isDefinedHashtypeSignature (sig : Bytes) : Bool :=
  if sig.length = 0 then false
  else
    -- the hash type without SIGHASH_ANYONECANPAY lies between SIGHASH_ALL and SIGHASH_SINGLE
    let nHashType := sig.getLastD 0 &&& 0x7f
    decide (1 ≤ nHashType ∧ nHashType ≤ 3)

def isLowDERSignature (crypto : Crypto) (sig : Bytes) : Result Unit := do
  errorIf (!isValidSignatureEncoding sig) .sigDer
  errorIf (!crypto.checkLowS sig.dropLast) .sigHighS

/-- The `SCRIPT_VERIFY_LOW_S` branch of `CheckSignatureEncoding`. -/
def checkLowDERSignature (crypto : Crypto) (flags : ScriptFlags) (sig : Bytes) : Result Unit :=
  if hasFlag flags scriptVerifyLowS then isLowDERSignature crypto sig else .ok ()

def checkSignatureEncoding (crypto : Crypto) (flags : ScriptFlags) (sig : Bytes) : Result Unit :=
  if sig.length = 0 then .ok ()
  else do
    rejectIf flags (scriptVerifyDerSig ||| scriptVerifyLowS ||| scriptVerifyStrictEnc)
      (!isValidSignatureEncoding sig) .sigDer
    checkLowDERSignature crypto flags sig
    rejectIf flags scriptVerifyStrictEnc (!isDefinedHashtypeSignature sig) .sigHashType

def checkPubKeyEncoding (flags : ScriptFlags) (sigversion : SigVersion) (pubkey : Bytes) :
    Result Unit := do
  rejectIf flags scriptVerifyStrictEnc (!isCompressedOrUncompressedPubKey pubkey) .pubkeyType
  rejectIf flags scriptVerifyWitnessPubkeyType
    (sigversion == .witnessV0 && !isCompressedPubKey pubkey) .witnessPubkeyType

/-! ## FindAndDelete -/

/-- Skip the copies of `b` that start at the iterator, counting them. -/
def skipCopies (b : CScript) : Nat → CScript → Nat → CScript × Nat
  | 0, pc, nFound => (pc, nFound)
  | fuel + 1, pc, nFound =>
    if b.isPrefixOf pc then skipCopies b fuel (pc.drop b.length) (nFound + 1) else (pc, nFound)

/-- The loop of `FindAndDelete`, from the point where the copies of `b` at the iterator are
skipped: `result` is what has been kept so far. -/
def findAndDeleteLoop (b : CScript) : Nat → CScript → CScript → Nat → CScript × Nat
  | 0, pc, result, nFound => (result ++ pc, nFound)
  | fuel + 1, pc, result, nFound =>
    let (pc2, nFound) := skipCopies b pc.length pc nFound
    match getOp pc2 with
    | none => (result ++ pc2, nFound)
    | some (_, _, pc) =>
      findAndDeleteLoop b fuel pc (result ++ pc2.take (pc2.length - pc.length)) nFound

/-- Remove the copies of `b` that start at an instruction, and count them. -/
def findAndDelete (script b : CScript) : CScript × Nat :=
  if b.isEmpty then (script, 0)
  else
    let (result, nFound) := findAndDeleteLoop b script.length script [] 0
    if nFound > 0 then (result, nFound) else (script, nFound)

/-! ## The condition stack -/

/-- The size of the implied stack of Booleans and the position of its first `false`. -/
structure ConditionStack where
  stackSize : Nat := 0
  firstFalsePos : Option Nat := none
  deriving DecidableEq, Repr

namespace ConditionStack

section

variable (c : ConditionStack)

def empty : Bool := c.stackSize == 0

def allTrue : Bool := c.firstFalsePos.isNone

def pushBack (f : Bool) : ConditionStack :=
  { stackSize := c.stackSize + 1
    firstFalsePos := if c.firstFalsePos = none ∧ f = false then some c.stackSize
      else c.firstFalsePos }

def popBack : ConditionStack :=
  { stackSize := c.stackSize - 1
    firstFalsePos := if c.firstFalsePos = some (c.stackSize - 1) then none
      else c.firstFalsePos }

def toggleTop : ConditionStack :=
  if c.firstFalsePos = none then { c with firstFalsePos := some (c.stackSize - 1) }
  else if c.firstFalsePos = some (c.stackSize - 1) then { c with firstFalsePos := none }
  else c

end

end ConditionStack

/-! ## Execution state -/

/-- The locals of `EvalScript`; `codeHash` is the script from `pbegincodehash` on. -/
structure EvalState where
  stack : List Bytes
  altstack : List Bytes := []
  vfExec : ConditionStack := {}
  codeHash : CScript
  nOpCount : Nat := 0
  opcodePos : Nat := 0
  execdata : ScriptExecutionData
  deriving DecidableEq, Repr

def vchTrue : Bytes := [1]
def vchFalse : Bytes := []

def boolBytes (b : Bool) : Bytes := if b then vchTrue else vchFalse

/-- Push the outcome of a check or, in its `VERIFY` form, fail unless it succeeded. -/
def pushOutcome (verify fSuccess : Bool) (e : ScriptError) (rest : List Bytes) :
    Result (List Bytes) :=
  if verify then
    if fSuccess then .ok rest else setError e
  else .ok (boolBytes fSuccess :: rest)

/-- The constructor of `CScriptNum`; its exceptions end the script. -/
def scriptNum (fRequireMinimal : Bool) (vch : Bytes) (nMaxNumSize : Nat) : Result Int := do
  errorIf (decide (vch.length > nMaxNumSize)) .unknownError
  errorIf (fRequireMinimal && notMinimallyEncoded vch) .unknownError
  .ok (setVch vch)

def defaultMaxNumSize : Nat := 4

/-! ## Instructions that read no flag -/

def evalStackOp (op : StackOp) (s : EvalState) : Result EvalState :=
  match op, s.stack with
  | .toAltStack, x :: st => .ok { s with stack := st, altstack := x :: s.altstack }
  | .fromAltStack, st =>
    match s.altstack with
    | x :: alt => .ok { s with stack := x :: st, altstack := alt }
    | [] => setError .invalidAltStackOperation
  | .drop2, _ :: _ :: st => .ok { s with stack := st }
  | .dup2, x2 :: x1 :: st => .ok { s with stack := x2 :: x1 :: x2 :: x1 :: st }
  | .dup3, x3 :: x2 :: x1 :: st =>
    .ok { s with stack := x3 :: x2 :: x1 :: x3 :: x2 :: x1 :: st }
  | .over2, x4 :: x3 :: x2 :: x1 :: st =>
    .ok { s with stack := x2 :: x1 :: x4 :: x3 :: x2 :: x1 :: st }
  | .rot2, x6 :: x5 :: x4 :: x3 :: x2 :: x1 :: st =>
    .ok { s with stack := x2 :: x1 :: x6 :: x5 :: x4 :: x3 :: st }
  | .swap2, x4 :: x3 :: x2 :: x1 :: st => .ok { s with stack := x2 :: x1 :: x4 :: x3 :: st }
  | .ifDup, x :: st => .ok { s with stack := if castToBool x then x :: x :: st else x :: st }
  | .depth, st => .ok { s with stack := serialize st.length :: st }
  | .drop, _ :: st => .ok { s with stack := st }
  | .dup, x :: st => .ok { s with stack := x :: x :: st }
  | .nip, x2 :: _ :: st => .ok { s with stack := x2 :: st }
  | .over, x2 :: x1 :: st => .ok { s with stack := x1 :: x2 :: x1 :: st }
  | .rot, x3 :: x2 :: x1 :: st => .ok { s with stack := x1 :: x3 :: x2 :: st }
  | .swap, x2 :: x1 :: st => .ok { s with stack := x1 :: x2 :: st }
  | .tuck, x2 :: x1 :: st => .ok { s with stack := x2 :: x1 :: x2 :: st }
  | .size, x :: st => .ok { s with stack := serialize x.length :: x :: st }
  | _, _ => setError .invalidStackOperation

def evalVerify (s : EvalState) : Result EvalState :=
  match s.stack with
  | x :: st => if castToBool x then .ok { s with stack := st } else setError .verify
  | [] => setError .invalidStackOperation

def evalEqual (verify : Bool) (s : EvalState) : Result EvalState :=
  match s.stack with
  | x2 :: x1 :: st => do
    let st ← pushOutcome verify (x1 == x2) .equalVerify st
    .ok { s with stack := st }
  | _ => setError .invalidStackOperation

def Crypto.digest (crypto : Crypto) : HashOp → Bytes → Bytes
  | .ripemd160 => crypto.ripemd160
  | .sha1 => crypto.sha1
  | .sha256 => crypto.sha256
  | .hash160 => crypto.hash160
  | .hash256 => crypto.hash256

def evalHash (crypto : Crypto) (op : HashOp) (s : EvalState) : Result EvalState :=
  match s.stack with
  | x :: st => .ok { s with stack := crypto.digest op x :: st }
  | [] => setError .invalidStackOperation

/-- `OP_ELSE` and `OP_ENDIF` change the innermost condition in their own way. -/
def evalCondition (change : ConditionStack → ConditionStack) (s : EvalState) : Result EvalState :=
  if s.vfExec.empty then setError .unbalancedConditional
  else .ok { s with vfExec := change s.vfExec }

/-! ## Numeric instructions -/

def UnaryOp.apply : UnaryOp → Int → Int
  | .add1, bn => bn + 1
  | .sub1, bn => bn - 1
  | .negate, bn => -bn
  | .abs, bn => if bn < 0 then -bn else bn
  | .not, bn => if bn = 0 then 1 else 0
  | .notEqual0, bn => if bn ≠ 0 then 1 else 0

def BinaryOp.apply : BinaryOp → Int → Int → Int
  | .add, bn1, bn2 => bn1 + bn2
  | .sub, bn1, bn2 => bn1 - bn2
  | .boolAnd, bn1, bn2 => if bn1 ≠ 0 ∧ bn2 ≠ 0 then 1 else 0
  | .boolOr, bn1, bn2 => if bn1 ≠ 0 ∨ bn2 ≠ 0 then 1 else 0
  | .numEqual, bn1, bn2 => if bn1 = bn2 then 1 else 0
  | .numEqualVerify, bn1, bn2 => if bn1 = bn2 then 1 else 0
  | .numNotEqual, bn1, bn2 => if bn1 ≠ bn2 then 1 else 0
  | .lessThan, bn1, bn2 => if bn1 < bn2 then 1 else 0
  | .greaterThan, bn1, bn2 => if bn1 > bn2 then 1 else 0
  | .lessThanOrEqual, bn1, bn2 => if bn1 ≤ bn2 then 1 else 0
  | .greaterThanOrEqual, bn1, bn2 => if bn1 ≥ bn2 then 1 else 0
  | .min, bn1, bn2 => if bn1 < bn2 then bn1 else bn2
  | .max, bn1, bn2 => if bn1 > bn2 then bn1 else bn2

def evalUnary (fRequireMinimal : Bool) (op : UnaryOp) (s : EvalState) : Result EvalState :=
  match s.stack with
  | x :: st => do
    let bn ← scriptNum fRequireMinimal x defaultMaxNumSize
    .ok { s with stack := serialize (op.apply bn) :: st }
  | [] => setError .invalidStackOperation

def evalBinary (fRequireMinimal : Bool) (op : BinaryOp) (s : EvalState) : Result EvalState :=
  match s.stack with
  | x2 :: x1 :: st => do
    let bn1 ← scriptNum fRequireMinimal x1 defaultMaxNumSize
    let bn2 ← scriptNum fRequireMinimal x2 defaultMaxNumSize
    let vch := serialize (op.apply bn1 bn2)
    if op = .numEqualVerify then
      if castToBool vch then .ok { s with stack := st } else setError .numEqualVerify
    else .ok { s with stack := vch :: st }
  | _ => setError .invalidStackOperation

def evalWithin (fRequireMinimal : Bool) (s : EvalState) : Result EvalState :=
  match s.stack with
  | x3 :: x2 :: x1 :: st => do
    let bn1 ← scriptNum fRequireMinimal x1 defaultMaxNumSize
    let bn2 ← scriptNum fRequireMinimal x2 defaultMaxNumSize
    let bn3 ← scriptNum fRequireMinimal x3 defaultMaxNumSize
    .ok { s with stack := boolBytes (decide (bn2 ≤ bn1 ∧ bn1 < bn3)) :: st }
  | _ => setError .invalidStackOperation

/-- `OP_PICK` copies the element `n` places down, `OP_ROLL` moves it. -/
def evalPick (fRequireMinimal roll : Bool) (s : EvalState) : Result EvalState :=
  match s.stack with
  | x :: y :: st => do
    let n ← scriptNum fRequireMinimal x defaultMaxNumSize
    if n < 0 ∨ n ≥ (y :: st).length then setError .invalidStackOperation
    else
      let vch := (y :: st).getD n.toNat []
      .ok { s with stack := vch :: if roll then (y :: st).eraseIdx n.toNat else y :: st }
  | _ => setError .invalidStackOperation

/-! ## Instructions under a flag -/

section

variable (crypto : Crypto) (checker : BaseSignatureChecker) (flags : ScriptFlags)
  (sigversion : SigVersion)

def requireMinimal : Bool := hasFlag flags scriptVerifyMinimalData

/-- A lock time or sequence operand: up to five bytes and not negative. -/
def lockTimeOperand (vch : Bytes) : Result Int := do
  let n ← scriptNum (requireMinimal flags) vch 5
  errorIf (decide (n < 0)) .negativeLocktime
  .ok n

def evalCheckLockTimeVerify (s : EvalState) : Result Unit :=
  if hasFlag flags scriptVerifyCheckLockTimeVerify then
    match s.stack with
    | x :: _ => do
      let nLockTime ← lockTimeOperand flags x
      errorIf (!checker.checkLockTime nLockTime) .unsatisfiedLocktime
    | [] => setError .invalidStackOperation
  else .ok () -- not enabled; treated as a NOP2

def evalCheckSequenceVerify (s : EvalState) : Result Unit :=
  if hasFlag flags scriptVerifyCheckSequenceVerify then
    match s.stack with
    | x :: _ => do
      let nSequence ← lockTimeOperand flags x
      -- with the disable flag in the operand the instruction is a NOP
      errorIf (!nSequence.toNat.testBit 31 && !checker.checkSequence nSequence)
        .unsatisfiedLocktime
    | [] => setError .invalidStackOperation
  else .ok () -- not enabled; treated as a NOP3

/-- An argument of `OP_IF` other than the empty vector and the one byte 1. -/
def notMinimalIf (vch : Bytes) : Bool :=
  decide (vch.length > 1) || vch.length == 1 && vch.getD 0 0 != 1

def evalIf (fExec notIf : Bool) (s : EvalState) : Result EvalState :=
  if fExec then
    match s.stack with
    | vch :: st => do
      errorIf (sigversion == .tapscript && notMinimalIf vch) .tapscriptMinimalIf
      -- REDUCED_DATA bans the instruction in tapscript, under the same error
      rejectIf flags scriptVerifyReducedData (sigversion == .tapscript) .tapscriptMinimalIf
      rejectIf flags scriptVerifyMinimalIf (sigversion == .witnessV0 && notMinimalIf vch) .minimalIf
      .ok { s with stack := st, vfExec := s.vfExec.pushBack (castToBool vch != notIf) }
    | [] => setError .unbalancedConditional
  else .ok { s with vfExec := s.vfExec.pushBack false }

/-- Drop a signature from the script code of a pre-segwit script. -/
def dropSignature (sig : Bytes) (scriptCode : CScript) : Result CScript :=
  if sigversion = .base then do
    let r := findAndDelete scriptCode (pushData sig)
    rejectIf flags scriptVerifyConstScriptCode (decide (r.2 > 0)) .sigFindAndDelete
    .ok r.1
  else .ok scriptCode

variable (sig pubkey : Bytes)

def evalChecksigPreTapscript (codeHash : CScript) : Result Bool := do
  let scriptCode ← dropSignature flags sigversion sig codeHash
  checkSignatureEncoding crypto flags sig
  checkPubKeyEncoding flags sigversion pubkey
  let fSuccess := checker.checkECDSASignature sig pubkey scriptCode sigversion
  rejectIf flags scriptVerifyNullFail (!fSuccess && sig.length != 0) .sigNullFail
  .ok fSuccess

/-- The signature budget of a tapscript: 50 units for every signature that is not empty. -/
def spendValidationWeight (sig : Bytes) (execdata : ScriptExecutionData) :
    Result ScriptExecutionData :=
  if sig.length = 0 then .ok execdata
  else
    match execdata.validationWeightLeft with
    | none => .error .abort
    | some w =>
      if w - 50 < 0 then setError .tapscriptValidationWeight
      else .ok { execdata with validationWeightLeft := some (w - 50) }

/-- An empty signature is not checked: it only makes the instruction push false. -/
def checkTapscriptSignature (execdata : ScriptExecutionData) : Result ScriptExecutionData :=
  if sig.length = 0 then .ok execdata
  else checker.checkSchnorrSignature sig pubkey .tapscript execdata

def evalChecksigTapscript (execdata : ScriptExecutionData) :
    Result (Bool × ScriptExecutionData) := do
  let success := sig.length != 0
  let execdata ← spendValidationWeight sig execdata
  if pubkey.length = 0 then setError .pubkeyType
  else if pubkey.length = 32 then do
    let execdata ← checkTapscriptSignature checker sig pubkey execdata
    .ok (success, execdata)
  else do
    rejectIf flags scriptVerifyDiscourageUpgradablePubkeyType true .discourageUpgradablePubkeyType
    .ok (success, execdata)

def evalChecksig (s : EvalState) : Result (Bool × ScriptExecutionData) :=
  match sigversion with
  | .base | .witnessV0 => do
    let fSuccess ← evalChecksigPreTapscript crypto checker flags sigversion sig pubkey s.codeHash
    .ok (fSuccess, s.execdata)
  | .tapscript => evalChecksigTapscript checker flags sig pubkey s.execdata
  | .taproot => .error .abort

def evalCheckSig (verify : Bool) (s : EvalState) : Result EvalState :=
  match s.stack with
  | pubkey :: sig :: st => do
    let r ← evalChecksig crypto checker flags sigversion sig pubkey s
    let st ← pushOutcome verify r.1 .checkSigVerify st
    .ok { s with stack := st, execdata := r.2 }
  | _ => setError .invalidStackOperation

def evalCheckSigAdd (s : EvalState) : Result EvalState :=
  if sigversion.preTapscript then setError .badOpcode
  else
    match s.stack with
    | pubkey :: n :: sig :: st => do
      let num ← scriptNum (requireMinimal flags) n defaultMaxNumSize
      let r ← evalChecksig crypto checker flags sigversion sig pubkey s
      .ok { s with stack := serialize (num + if r.1 then 1 else 0) :: st, execdata := r.2 }
    | _ => setError .invalidStackOperation

def dropSignatures : List Bytes → CScript → Result CScript
  | [], scriptCode => .ok scriptCode
  | sig :: sigs, scriptCode => do
    let scriptCode ← dropSignature flags sigversion sig scriptCode
    dropSignatures sigs scriptCode

/-- Match the signatures to the keys in order, giving up once fewer keys than signatures are
left. -/
def checkMultiSigLoop (scriptCode : CScript) : List Bytes → List Bytes → Result Bool
  | [], _ => .ok true
  | _ :: _, [] => .ok false
  | sig :: sigs, pubkey :: keys => do
    checkSignatureEncoding crypto flags sig
    checkPubKeyEncoding flags sigversion pubkey
    let fOk := checker.checkECDSASignature sig pubkey scriptCode sigversion
    let left := if fOk then sigs else sig :: sigs
    if left.length > keys.length then .ok false else checkMultiSigLoop scriptCode left keys

/-- Pop the arguments of a multisig: the first `ikey2` are not signatures, and after a failure
the others have to be empty. -/
def popMultiSigArguments (fSuccess : Bool) : Nat → Nat → List Bytes → Result (List Bytes)
  | 0, _, st => .ok st
  | _ + 1, _, [] => setError .unknownError
  | i + 1, ikey2, x :: st => do
    rejectIf flags scriptVerifyNullFail (!fSuccess && ikey2 == 0 && x.length != 0) .sigNullFail
    popMultiSigArguments fSuccess i (ikey2 - 1) st

/-- Check the signature count and the depth of the stack, and match the signatures. -/
def evalMultiSigArguments (nKeysCount nSigsCount : Nat) (s : EvalState) : Result Bool := do
  errorIf (decide (s.stack.length < nKeysCount + nSigsCount + 3)) .invalidStackOperation
  let keys := (s.stack.drop 1).take nKeysCount
  let sigs := (s.stack.drop (nKeysCount + 2)).take nSigsCount
  let scriptCode ← dropSignatures flags sigversion sigs s.codeHash
  checkMultiSigLoop crypto checker flags sigversion scriptCode sigs keys

/-- Remove the arguments and the extra dummy element, and push the outcome. -/
def finishMultiSig (verify fSuccess : Bool) (nKeysCount nSigsCount : Nat) (st : List Bytes) :
    Result (List Bytes) := do
  let st ← popMultiSigArguments flags fSuccess (nKeysCount + nSigsCount + 2) (nKeysCount + 2) st
  match st with
  | dummy :: st => do
    rejectIf flags scriptVerifyNullDummy (dummy.length != 0) .sigNullDummy
    pushOutcome verify fSuccess .checkMultiSigVerify st
  | [] => setError .invalidStackOperation

def evalCheckMultiSig (verify : Bool) (s : EvalState) : Result EvalState :=
  if sigversion = .tapscript then setError .tapscriptCheckMultiSig
  else
    match s.stack with
    | x :: _ => do
      let nKeysCount ← scriptNum (requireMinimal flags) x defaultMaxNumSize
      errorIf (decide (nKeysCount < 0 ∨ nKeysCount > maxPubkeysPerMultisig)) .pubkeyCount
      let nOpCount := s.nOpCount + nKeysCount.toNat
      errorIf (decide (nOpCount > maxOpsPerScript)) .opCount
      errorIf (decide (s.stack.length < nKeysCount.toNat + 2)) .invalidStackOperation
      let nSigsCount ← scriptNum (requireMinimal flags)
        (s.stack.getD (nKeysCount.toNat + 1) []) defaultMaxNumSize
      errorIf (decide (nSigsCount < 0 ∨ nSigsCount > nKeysCount)) .sigCount
      let fSuccess ← evalMultiSigArguments crypto checker flags sigversion nKeysCount.toNat
        nSigsCount.toNat s
      let st ← finishMultiSig flags verify fSuccess nKeysCount.toNat nSigsCount.toNat s.stack
      .ok { s with stack := st, nOpCount := nOpCount }
    | [] => setError .invalidStackOperation

/-! ## EvalScript -/

/-- The switch over the opcodes; `pc` is the suffix after the instruction. -/
def evalOpcode (fExec : Bool) (op : Opcode) (pc : CScript) (s : EvalState) : Result EvalState :=
  match op with
  | .num n => .ok { s with stack := serialize n :: s.stack }
  | .nop => .ok s
  | .checkLockTimeVerify => do
    evalCheckLockTimeVerify checker flags s
    .ok s
  | .checkSequenceVerify => do
    evalCheckSequenceVerify checker flags s
    .ok s
  | .upgradableNop => do
    rejectIf flags scriptVerifyDiscourageUpgradableNops true .discourageUpgradableNops
    .ok s
  | .ifOp notIf => evalIf flags sigversion fExec notIf s
  | .elseOp => evalCondition .toggleTop s
  | .endIf => evalCondition .popBack s
  | .verify => evalVerify s
  | .returnOp => setError .opReturn
  | .stack op => evalStackOp op s
  | .pick roll => evalPick (requireMinimal flags) roll s
  | .equal verify => evalEqual verify s
  | .unary op => evalUnary (requireMinimal flags) op s
  | .binary op => evalBinary (requireMinimal flags) op s
  | .within => evalWithin (requireMinimal flags) s
  | .hash op => evalHash crypto op s
  | .codeSeparator =>
    .ok { s with codeHash := pc
                 execdata := { s.execdata with codeseparatorPos := some s.opcodePos } }
  | .checkSig verify => evalCheckSig crypto checker flags sigversion verify s
  | .checkSigAdd => evalCheckSigAdd crypto checker flags sigversion s
  | .checkMultiSig verify => evalCheckMultiSig crypto checker flags sigversion verify s
  | .push | .disabled | .invalid => setError .badOpcode

def countOp (opcode : UInt8) (s : EvalState) : EvalState :=
  if sigversion.preTapscript && decide (opcode > op16) then
    { s with nOpCount := s.nOpCount + 1 }
  else s

/-- Execute a push, an instruction of the switch, or, in a branch not taken, only the
conditionals. -/
def execute (opcode : UInt8) (data : Bytes) (pc : CScript) (s : EvalState) : Result EvalState :=
  let fExec := s.vfExec.allTrue
  if fExec && decide (opcode ≤ opPushData4) then do
    rejectIf flags scriptVerifyMinimalData (!checkMinimalPush data opcode) .minimalData
    .ok { s with stack := data :: s.stack }
  else if fExec || decide (opIf ≤ opcode ∧ opcode ≤ opEndIf) then
    evalOpcode crypto checker flags sigversion fExec (.ofByte opcode) pc s
  else .ok s

/-- One pass of the loop on an instruction that was read: the limits, then its execution. -/
def evalStep (opcode : UInt8) (data : Bytes) (pc : CScript) (s : EvalState) : Result EvalState := do
  errorIf (decide (data.length > maxElementSize flags)) .pushSize
  let s := countOp sigversion opcode s
  errorIf (sigversion.preTapscript && decide (opcode > op16) &&
    decide (s.nOpCount > maxOpsPerScript)) .opCount
  errorIf (Opcode.ofByte opcode == .disabled) .disabledOpcode
  rejectIf flags scriptVerifyConstScriptCode (opcode == opCodeSeparator && sigversion == .base)
    .opCodeSeparator
  let s ← execute crypto checker flags sigversion opcode data pc s
  errorIf (decide (s.stack.length + s.altstack.length > maxStackSize)) .stackSize
  .ok { s with opcodePos := s.opcodePos + 1 }

/-- The loop over the instructions.  The fuel is the number of bytes left. -/
def evalLoop : Nat → CScript → EvalState → Result EvalState
  | 0, _, s => .ok s
  | _ + 1, [], s => .ok s
  | fuel + 1, b :: pc, s =>
    match getOp (b :: pc) with
    | none => setError .badOpcode
    | some (opcode, data, pc) => do
      let s ← evalStep crypto checker flags sigversion opcode data pc s
      evalLoop fuel pc s

def evalScript (stack : List Bytes) (script : CScript) (execdata : ScriptExecutionData) :
    Result (List Bytes × ScriptExecutionData) := do
  failIf (sigversion == .taproot) .abort
  errorIf (sigversion.preTapscript && decide (script.length > maxScriptSize)) .scriptSize
  let s ← evalLoop crypto checker flags sigversion script.length script
    { stack, codeHash := script
      execdata := { execdata with codeseparatorPos := some 0xFFFFFFFF } }
  errorIf (!s.vfExec.empty) .unbalancedConditional
  .ok (s.stack, s.execdata)

end

/-! ## Lemmas -/

variable {b pc : CScript} {fuel : Nat}

theorem skipCopies_length_le (b : CScript) (fuel : Nat) (pc : CScript) (nFound : Nat) :
    (skipCopies b fuel pc nFound).1.length ≤ pc.length := by
  induction fuel generalizing pc nFound with
  | zero => exact Nat.le_refl _
  | succ fuel ih =>
    simp only [skipCopies]
    grind

theorem findAndDeleteLoop_fuel (b : CScript)
    (h : pc.length ≤ fuel) (result : CScript) (nFound : Nat) :
    findAndDeleteLoop b fuel pc result nFound = findAndDeleteLoop b pc.length pc result nFound := by
  refine congrFun (congrFun (Fuel.adequate ?_ ?_ h) result) nFound
  · intro pc hpc
    cases List.eq_nil_of_length_eq_zero hpc
    rfl
  · intro n m pc ih
    funext result k
    simp only [findAndDeleteLoop]
    split
    · rfl
    next hop =>
      have hlt := getOp_length_lt hop
      have hle := skipCopies_length_le b pc.length pc k
      exact congrFun (congrFun (ih _ (by omega)) _) _

theorem evalLoop_fuel (crypto : Crypto) (checker : BaseSignatureChecker) (flags : ScriptFlags)
    (sigversion : SigVersion) (h : pc.length ≤ fuel) (s : EvalState) :
    evalLoop crypto checker flags sigversion fuel pc s =
      evalLoop crypto checker flags sigversion pc.length pc s := by
  refine congrFun (Fuel.adequate ?_ ?_ h) s
  · intro pc hpc
    cases List.eq_nil_of_length_eq_zero hpc
    rfl
  · intro n m pc ih
    funext s
    cases pc with
    | nil => rfl
    | cons b pc =>
      simp only [evalLoop]
      split
      · rfl
      next hop => exact bind_congr fun s' => congrFun (ih _ (getOp_length_lt hop)) s'

end BitcoinPurity
