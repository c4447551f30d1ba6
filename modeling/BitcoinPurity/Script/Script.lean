import Mathlib.Algebra.Order.Ring.Int
import BitcoinPurity.Lib.Fuel

/-!
# Scripts as byte strings

The byte level of `script/script.h` and `script/script.cpp`: reading one instruction
(`GetScriptOp`), the opcode table, the output templates the interpreter recognises
(`IsPayToScriptHash`, `IsWitnessProgram`, `IsPayToAnchor`), `CScript::operator<<`, and
`CScriptNum` with its little-endian sign-magnitude encoding.

A script is the list of its bytes and an iterator into it is the suffix it points at, so
`getOp` returns the suffix after the instruction.  `getOp_length_lt` is the progress fact
every loop over a script rests on.
-/

namespace BitcoinPurity

/-- `std::vector<unsigned char>`, the type of a stack element. -/
abbrev Bytes := List UInt8

/-- A serialized script; an iterator into it is a suffix of it. -/
abbrev CScript := List UInt8

/-! ## Limits -/

def maxScriptElementSize : Nat := 520
def maxScriptElementSizeReduced : Nat := 256
def maxOpsPerScript : Nat := 201
def maxPubkeysPerMultisig : Nat := 20
def maxScriptSize : Nat := 10000
def maxStackSize : Nat := 1000

/-! ## Opcodes -/

def op0 : UInt8 := 0x00
def opPushData1 : UInt8 := 0x4c
def opPushData2 : UInt8 := 0x4d
def opPushData4 : UInt8 := 0x4e
def op1 : UInt8 := 0x51
def op16 : UInt8 := 0x60
def opIf : UInt8 := 0x63
def opEndIf : UInt8 := 0x68
def opReturn : UInt8 := 0x6a
def opDup : UInt8 := 0x76
def opEqual : UInt8 := 0x87
def opEqualVerify : UInt8 := 0x88
def opHash160 : UInt8 := 0xa9
def opCodeSeparator : UInt8 := 0xab
def opCheckSig : UInt8 := 0xac

/-- The instructions that only move stack elements or push a size. -/
inductive StackOp
  | toAltStack | fromAltStack | drop2 | dup2 | dup3 | over2 | rot2 | swap2 | ifDup | depth
  | drop | dup | nip | over | rot | swap | tuck | size
  deriving DecidableEq, Repr

/-- `OP_1ADD` to `OP_0NOTEQUAL`, one number in and one out. -/
inductive UnaryOp
  | add1 | sub1 | negate | abs | not | notEqual0
  deriving DecidableEq, Repr

/-- `OP_ADD` to `OP_MAX`, two numbers in and one out. -/
inductive BinaryOp
  | add | sub | boolAnd | boolOr | numEqual | numEqualVerify | numNotEqual | lessThan
  | greaterThan | lessThanOrEqual | greaterThanOrEqual | min | max
  deriving DecidableEq, Repr

inductive HashOp
  | ripemd160 | sha1 | sha256 | hash160 | hash256
  deriving DecidableEq, Repr

/-- The cases of the interpreter's switch.  The `Bool` of a constructor tells apart two
opcodes that share a case: `OP_NOTIF` from `OP_IF`, `OP_ROLL` from `OP_PICK`, and the
`VERIFY` form of a check from the plain one. -/
inductive Opcode
  | push
  | num (n : Int)
  | nop
  | checkLockTimeVerify
  | checkSequenceVerify
  | upgradableNop
  | ifOp (notIf : Bool)
  | elseOp
  | endIf
  | verify
  | returnOp
  | stack (op : StackOp)
  | pick (roll : Bool)
  | equal (verify : Bool)
  | unary (op : UnaryOp)
  | binary (op : BinaryOp)
  | within
  | hash (op : HashOp)
  | codeSeparator
  | checkSig (verify : Bool)
  | checkSigAdd
  | checkMultiSig (verify : Bool)
  | disabled
  | invalid
  deriving DecidableEq, Repr

/-- The opcodes from `OP_NOP` on; `OP_RESERVED`, `OP_VER`, `OP_VERIF`, `OP_VERNOTIF`,
`OP_RESERVED1`, `OP_RESERVED2` and the bytes above `OP_CHECKSIGADD` have no case. -/
def Opcode.table : Nat → Opcode
  | 0x61 => .nop
  | 0x63 => .ifOp false
  | 0x64 => .ifOp true
  | 0x67 => .elseOp
  | 0x68 => .endIf
  | 0x69 => .verify
  | 0x6a => .returnOp
  | 0x6b => .stack .toAltStack
  | 0x6c => .stack .fromAltStack
  | 0x6d => .stack .drop2
  | 0x6e => .stack .dup2
  | 0x6f => .stack .dup3
  | 0x70 => .stack .over2
  | 0x71 => .stack .rot2
  | 0x72 => .stack .swap2
  | 0x73 => .stack .ifDup
  | 0x74 => .stack .depth
  | 0x75 => .stack .drop
  | 0x76 => .stack .dup
  | 0x77 => .stack .nip
  | 0x78 => .stack .over
  | 0x79 => .pick false
  | 0x7a => .pick true
  | 0x7b => .stack .rot
  | 0x7c => .stack .swap
  | 0x7d => .stack .tuck
  | 0x7e => .disabled -- OP_CAT
  | 0x7f => .disabled -- OP_SUBSTR
  | 0x80 => .disabled -- OP_LEFT
  | 0x81 => .disabled -- OP_RIGHT
  | 0x82 => .stack .size
  | 0x83 => .disabled -- OP_INVERT
  | 0x84 => .disabled -- OP_AND
  | 0x85 => .disabled -- OP_OR
  | 0x86 => .disabled -- OP_XOR
  | 0x87 => .equal false
  | 0x88 => .equal true
  | 0x8b => .unary .add1
  | 0x8c => .unary .sub1
  | 0x8d => .disabled -- OP_2MUL
  | 0x8e => .disabled -- OP_2DIV
  | 0x8f => .unary .negate
  | 0x90 => .unary .abs
  | 0x91 => .unary .not
  | 0x92 => .unary .notEqual0
  | 0x93 => .binary .add
  | 0x94 => .binary .sub
  | 0x95 => .disabled -- OP_MUL
  | 0x96 => .disabled -- OP_DIV
  | 0x97 => .disabled -- OP_MOD
  | 0x98 => .disabled -- OP_LSHIFT
  | 0x99 => .disabled -- OP_RSHIFT
  | 0x9a => .binary .boolAnd
  | 0x9b => .binary .boolOr
  | 0x9c => .binary .numEqual
  | 0x9d => .binary .numEqualVerify
  | 0x9e => .binary .numNotEqual
  | 0x9f => .binary .lessThan
  | 0xa0 => .binary .greaterThan
  | 0xa1 => .binary .lessThanOrEqual
  | 0xa2 => .binary .greaterThanOrEqual
  | 0xa3 => .binary .min
  | 0xa4 => .binary .max
  | 0xa5 => .within
  | 0xa6 => .hash .ripemd160
  | 0xa7 => .hash .sha1
  | 0xa8 => .hash .sha256
  | 0xa9 => .hash .hash160
  | 0xaa => .hash .hash256
  | 0xab => .codeSeparator
  | 0xac => .checkSig false
  | 0xad => .checkSig true
  | 0xae => .checkMultiSig false
  | 0xaf => .checkMultiSig true
  | 0xb1 => .checkLockTimeVerify
  | 0xb2 => .checkSequenceVerify
  | 0xb0 | 0xb3 | 0xb4 | 0xb5 | 0xb6 | 0xb7 | 0xb8 | 0xb9 => .upgradableNop
  | 0xba => .checkSigAdd
  | _ => .invalid

def Opcode.ofByte (opcode : UInt8) : Opcode :=
  if opcode ≤ opPushData4 then .push
  else if opcode = 0x4f ∨ op1 ≤ opcode ∧ opcode ≤ op16 then .num ((opcode.toNat : Int) - 0x50)
  else Opcode.table opcode.toNat

/-- The opcodes that make a tapscript succeed unconditionally. -/
def isOpSuccess (opcode : UInt8) : Bool :=
  opcode == 80 || opcode == 98 || (126 ≤ opcode && opcode ≤ 129) ||
  (131 ≤ opcode && opcode ≤ 134) || (137 ≤ opcode && opcode ≤ 138) ||
  (141 ≤ opcode && opcode ≤ 142) || (149 ≤ opcode && opcode ≤ 153) ||
  (187 ≤ opcode && opcode ≤ 254)

/-! ## Reading a script -/

def leNat : Bytes → Nat
  | [] => 0
  | b :: bs => b.toNat + 256 * leNat bs

def readLE (k : Nat) (pc : CScript) : Option (Nat × CScript) :=
  if pc.length < k then none else some (leNat (pc.take k), pc.drop k)

/-- The size of the immediate operand, and the suffix where it starts. -/
def operandSize (opcode : UInt8) (pc : CScript) : Option (Nat × CScript) :=
  if opcode < opPushData1 then some (opcode.toNat, pc)
  else if opcode = opPushData1 then readLE 1 pc
  else if opcode = opPushData2 then readLE 2 pc
  else readLE 4 pc

/-- `GetScriptOp`: the opcode, the data it pushes and the suffix after the instruction. -/
def getOp : CScript → Option (UInt8 × Bytes × CScript)
  | [] => none
  | opcode :: pc =>
    if opcode ≤ opPushData4 then
      match operandSize opcode pc with
      | none => none
      | some (nSize, pc) =>
        if pc.length < nSize then none else some (opcode, pc.take nSize, pc.drop nSize)
    else some (opcode, [], pc)

/-- The loop of `CScript::IsPushOnly`.  The fuel is the number of bytes left. -/
def isPushOnlyFrom : Nat → CScript → Bool
  | 0, _ => true
  | fuel + 1, pc =>
    if pc.isEmpty then true
    else match getOp pc with
      | none => false
      | some (opcode, _, pc) => if opcode > op16 then false else isPushOnlyFrom fuel pc

def isPushOnly (script : CScript) : Bool := isPushOnlyFrom script.length script

def isPayToScriptHash (script : CScript) : Bool :=
  script.length == 23 && script.getD 0 0 == opHash160 && script.getD 1 0 == 0x14 &&
    script.getD 22 0 == opEqual

/-- The overload of `IsPayToAnchor` on a parsed witness program. -/
def isPayToAnchor (version : Nat) (program : Bytes) : Bool :=
  version == 1 && program.length == 2 && program.getD 0 0 == 0x4e && program.getD 1 0 == 0x73

/-- `DecodeOP_N` on an opcode that is `OP_0` or between `OP_1` and `OP_16`. -/
def decodeOpN (opcode : UInt8) : Nat := if opcode = op0 then 0 else opcode.toNat - 0x50

def isWitnessProgram (script : CScript) : Option (Nat × Bytes) :=
  if script.length < 4 ∨ script.length > 42 then none
  else
    let version := script.getD 0 0
    if version ≠ op0 ∧ (version < op1 ∨ version > op16) then none
    else if (script.getD 1 0).toNat + 2 = script.length then
      some (decodeOpN version, script.drop 2)
    else none

/-- Whether the push used the shortest instruction for its data. -/
def checkMinimalPush (data : Bytes) (opcode : UInt8) : Bool :=
  if data.length = 0 then opcode == op0
  else if data.length = 1 ∧ 1 ≤ data.getD 0 0 ∧ data.getD 0 0 ≤ 16 then false
  else if data.length = 1 ∧ data.getD 0 0 = 0x81 then false
  else if data.length ≤ 75 then opcode.toNat == data.length
  else if data.length ≤ 255 then opcode == opPushData1
  else if data.length ≤ 65535 then opcode == opPushData2
  else true

/-! ## Writing a script -/

/-- The `k` low bytes of a number, little-endian (`WriteLE16`, `WriteLE32`). -/
def writeLE : Nat → Nat → Bytes
  | 0, _ => []
  | k + 1, n => UInt8.ofNat n :: writeLE k (n / 256)

def writeCompactSize (n : Nat) : Bytes :=
  if n < 253 then [UInt8.ofNat n]
  else if n ≤ 0xffff then 253 :: writeLE 2 n
  else if n ≤ 0xffffffff then 254 :: writeLE 4 n
  else 255 :: writeLE 8 n

def serializeBytes (b : Bytes) : Bytes := writeCompactSize b.length ++ b

def appendDataSize (size : Nat) : CScript :=
  if size < opPushData1.toNat then [UInt8.ofNat size]
  else if size ≤ 0xff then [opPushData1, UInt8.ofNat size]
  else if size ≤ 0xffff then opPushData2 :: writeLE 2 size
  else opPushData4 :: writeLE 4 size

/-- The instruction that `CScript::operator<<` appends for a byte vector. -/
def pushData (b : Bytes) : CScript := appendDataSize b.length ++ b

/-! ## Script numbers -/

/-- The bytes of a `uint64_t`, little-endian and without leading zeros.  The fuel is the
width in bytes. -/
def leBytes : Nat → Nat → Bytes
  | 0, _ => []
  | k + 1, n => if n = 0 then [] else UInt8.ofNat n :: leBytes k (n / 256)

def serialize (value : Int) : Bytes :=
  if value = 0 then []
  else
    let neg := decide (value < 0)
    let result := leBytes 8 value.natAbs
    let back := result.getLastD 0
    if back &&& 0x80 ≠ 0 then result ++ [if neg then 0x80 else 0]
    else if neg then result.dropLast ++ [back ||| 0x80]
    else result

/-- `CScriptNum::set_vch` on at most eight bytes: the top bit is the sign. -/
def setVch (vch : Bytes) : Int :=
  if vch.getLastD 0 &&& 0x80 ≠ 0 then
    -((leNat vch : Int) - 0x80 * 256 ^ (vch.length - 1))
  else leNat vch

/-- The condition under which the constructor of `CScriptNum` rejects an encoding as not
minimal. -/
def notMinimallyEncoded (vch : Bytes) : Bool :=
  0 < vch.length && vch.getLastD 0 &&& 0x7f == 0 &&
    (vch.length ≤ 1 || vch.getD (vch.length - 2) 0 &&& 0x80 == 0)

/-- `CastToBool`: any nonzero byte, except a lone sign bit at the end (negative zero). -/
def castToBool : Bytes → Bool
  | [] => false
  | [b] => b != 0 && b != 0x80
  | b :: bs => b != 0 || castToBool bs

/-! ## Lemmas -/

variable {pc pc' : CScript}

theorem readLE_length {k n : Nat} (h : readLE k pc = some (n, pc')) : pc'.length ≤ pc.length := by
  unfold readLE at h
  split at h
  · cases h
  · cases h
    simp

theorem operandSize_length {opcode : UInt8} {n : Nat}
    (h : operandSize opcode pc = some (n, pc')) : pc'.length ≤ pc.length := by
  unfold operandSize at h
  split at h
  · cases h
    exact Nat.le_refl _
  split at h
  · exact readLE_length h
  split at h
  · exact readLE_length h
  · exact readLE_length h

/-- **Reading an instruction consumes at least its opcode byte.** -/
theorem getOp_length_lt {opcode : UInt8} {data : Bytes}
    (h : getOp pc = some (opcode, data, pc')) : pc'.length < pc.length := by
  cases pc with
  | nil => cases h
  | cons b pc =>
    simp only [getOp] at h
    split at h
    · split at h
      · cases h
      next hsize =>
        have hle := operandSize_length hsize
        grind
    · cases h
      simp

theorem isPushOnlyFrom_fuel {fuel : Nat} (h : pc.length ≤ fuel) :
    isPushOnlyFrom fuel pc = isPushOnlyFrom pc.length pc := by
  refine Fuel.adequate ?_ ?_ h
  · intro pc hpc
    cases List.eq_nil_of_length_eq_zero hpc
    rfl
  · intro n m pc ih
    simp only [isPushOnlyFrom]
    split
    · rfl
    split
    · rfl
    next hop =>
      rw [ih _ (getOp_length_lt hop)]

end BitcoinPurity
