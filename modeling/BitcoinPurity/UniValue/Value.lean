import BitcoinPurity.Script.Script

/-!
# JSON values

`UniValue` with its writer: `write` without indentation, `json_escape` and the escape table.
Numbers keep the text they were read from.  An object has its keys and its values in two lists,
as in the source; every object that is read or built has as many values as keys.
-/

namespace BitcoinPurity

def ascii (s : String) : Bytes := s.toList.map fun c => c.toNat.toUInt8

/-- `UniValue`, by its type. -/
inductive UniValue
  | null
  | bool (val : Bool)
  | num (val : Bytes)
  | str (val : Bytes)
  | arr (values : List UniValue)
  | obj (keys : List Bytes) (values : List UniValue)
  deriving Repr

namespace UniValue

theorem induct {P : UniValue → Prop} (hnull : P null) (hbool : ∀ b, P (bool b))
    (hnum : ∀ s, P (num s)) (hstr : ∀ s, P (str s))
    (harr : ∀ values, (∀ v ∈ values, P v) → P (arr values))
    (hobj : ∀ keys values, (∀ v ∈ values, P v) → P (obj keys values)) (v : UniValue) : P v := by
  induction h : sizeOf v using Nat.strongRecOn generalizing v with
  | _ n ih =>
    subst h
    cases v with
    | null => exact hnull
    | bool b => exact hbool b
    | num s => exact hnum s
    | str s => exact hstr s
    | arr values =>
      refine harr values fun v hv => ih _ ?_ v rfl
      have := List.sizeOf_lt_of_mem hv
      simp only [arr.sizeOf_spec]
      omega
    | obj keys values =>
      refine hobj keys values fun v hv => ih _ ?_ v rfl
      have := List.sizeOf_lt_of_mem hv
      simp only [obj.sizeOf_spec]
      omega

/-! ## Writing -/

def hexChar (n : UInt8) : UInt8 := if n < 10 then 0x30 + n else 0x57 + n

def escapes (ch : UInt8) : Option Bytes :=
  if ch = 0x08 then some (ascii "\\b")
  else if ch = 0x09 then some (ascii "\\t")
  else if ch = 0x0a then some (ascii "\\n")
  else if ch = 0x0c then some (ascii "\\f")
  else if ch = 0x0d then some (ascii "\\r")
  else if ch = 0x22 then some (ascii "\\\"")
  else if ch = 0x5c then some (ascii "\\\\")
  else if ch < 0x20 ∨ ch = 0x7f then some (ascii "\\u00" ++ [hexChar (ch / 16), hexChar (ch % 16)])
  else none

def jsonEscape : Bytes → Bytes
  | [] => []
  | ch :: inS => (escapes ch).getD [ch] ++ jsonEscape inS

mutual

/-- `write`, with `prettyIndent` 0. -/
def write : UniValue → Bytes
  | .null => ascii "null"
  | .bool val => if val then ascii "true" else ascii "false"
  | .num val => val
  | .str val => ascii "\"" ++ jsonEscape val ++ ascii "\""
  | .arr values => ascii "[" ++ writeArray values ++ ascii "]"
  | .obj keys values => ascii "\x7b" ++ writeObject keys values ++ ascii "\x7d"

def writeArray : List UniValue → Bytes
  | [] => []
  | v :: values => write v ++ (if values.isEmpty then [] else ascii ",") ++ writeArray values

def writeObject : List Bytes → List UniValue → Bytes
  | key :: keys, v :: values =>
    ascii "\"" ++ jsonEscape key ++ ascii "\":" ++ write v ++
      (if values.isEmpty then [] else ascii ",") ++ writeObject keys values
  | _, _ => []

end

/-! ## Looking up -/

def isObject : UniValue → Bool
  | .obj _ _ => true
  | _ => false

def lookup (key : Bytes) : List Bytes → List UniValue → Option UniValue
  | k :: keys, v :: values => if k = key then some v else lookup key keys values
  | _, _ => none

def hasKey (key : Bytes) : UniValue → Bool
  | .obj keys _ => decide (key ∈ keys)
  | _ => false

/-- `find_value`: `NullUniValue` when there is no such key. -/
def findValue (key : Bytes) : UniValue → UniValue
  | .obj keys values => (lookup key keys values).getD .null
  | _ => .null

/-- `get_str`; `none` for the exception. -/
def getStr : UniValue → Option Bytes
  | .str val => some val
  | _ => none

/-- Whether a byte is a decimal digit (`json_isdigit`). -/
def jsonIsDigit (ch : UInt8) : Bool := decide (0x30 ≤ ch ∧ ch ≤ 0x39)

/-- `std::from_chars` on digits up to the end of the text. -/
def fromDigits (digits : Bytes) : Option Nat :=
  if digits.isEmpty || !digits.all jsonIsDigit then none
  else some (digits.foldl (fun n ch => 10 * n + (ch.toNat - 0x30)) 0)

/-- `getInt<int>`; `none` for the exception. -/
def getInt : UniValue → Option Int
  | .num (0x2d :: digits) => do
    let n ← fromDigits digits
    if n ≤ 2 ^ 31 then some (-n) else none
  | .num digits => do
    let n ← fromDigits digits
    if n < 2 ^ 31 then some n else none
  | _ => none

/-- `getInt<uint64_t>`; `none` for the exception. -/
def getUInt64 : UniValue → Option Nat
  | .num digits => do
    let n ← fromDigits digits
    if n < 2 ^ 64 then some n else none
  | _ => none

end UniValue

end BitcoinPurity
