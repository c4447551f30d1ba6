import BitcoinPurity.UniValue.Value

/-!
# Reading JSON

`getJsonToken` with the string filter of `univalue_utffilter.h`, and `UniValue::read`.

A pointer into the text is the suffix that it points at.  The tokens of a text do not depend on
what `read` makes of them, so they are listed first (`tokens`); the loop of `read` then takes one
after the other.  A pointer on the stack is a container that is still open: it is added to the
container below when it is closed.
-/

namespace BitcoinPurity

open Option

namespace UniValue

/-! ## The string filter -/

/-- `JSONUTF8StringFilter` -/
structure StringFilter where
  str : Bytes := []
  isValid : Bool := true
  codepoint : Nat := 0
  state : Nat := 0
  surpair : Nat := 0
  deriving DecidableEq, Repr

namespace StringFilter

section

variable (w : StringFilter)

def appendCodepoint (cp : Nat) : StringFilter :=
  if cp ≤ 0x7f then { w with str := w.str ++ [cp.toUInt8] }
  else if cp ≤ 0x7ff then
    { w with str := w.str ++ [(0xc0 ||| (cp >>> 6)).toUInt8, (0x80 ||| (cp &&& 0x3f)).toUInt8] }
  else if cp ≤ 0xffff then
    { w with str := w.str ++ [(0xe0 ||| (cp >>> 12)).toUInt8,
        (0x80 ||| ((cp >>> 6) &&& 0x3f)).toUInt8, (0x80 ||| (cp &&& 0x3f)).toUInt8] }
  else if cp ≤ 0x1fffff then
    { w with str := w.str ++ [(0xf0 ||| (cp >>> 18)).toUInt8,
        (0x80 ||| ((cp >>> 12) &&& 0x3f)).toUInt8, (0x80 ||| ((cp >>> 6) &&& 0x3f)).toUInt8,
        (0x80 ||| (cp &&& 0x3f)).toUInt8] }
  else w

def pushBackU (cp : Nat) : StringFilter :=
  let w := if w.state ≠ 0 then { w with isValid := false } else w
  if 0xd800 ≤ cp ∧ cp < 0xdc00 then
    if w.surpair ≠ 0 then { w with isValid := false } else { w with surpair := cp }
  else if 0xdc00 ≤ cp ∧ cp < 0xe000 then
    if w.surpair ≠ 0 then
      { w.appendCodepoint (0x10000 ||| ((w.surpair - 0xd800) <<< 10) ||| (cp - 0xdc00)) with
        surpair := 0 }
    else { w with isValid := false }
  else if w.surpair ≠ 0 then { w with isValid := false }
  else w.appendCodepoint cp

def pushBack (ch : UInt8) : StringFilter :=
  let n := ch.toNat
  if w.state = 0 then
    if n < 0x80 then { w with str := w.str ++ [ch] }
    else if n < 0xc0 then { w with isValid := false }
    else if n < 0xe0 then { w with codepoint := (n &&& 0x1f) <<< 6, state := 6 }
    else if n < 0xf0 then { w with codepoint := (n &&& 0x0f) <<< 12, state := 12 }
    else if n < 0xf8 then { w with codepoint := (n &&& 0x07) <<< 18, state := 18 }
    else { w with isValid := false }
  else
    let w := if n &&& 0xc0 ≠ 0x80 then { w with isValid := false } else w
    let state := w.state - 6
    let w := { w with state := state, codepoint := w.codepoint ||| ((n &&& 0x3f) <<< state) }
    if state = 0 then w.pushBackU w.codepoint else w

def finalize : Bool :=
  w.isValid && decide (w.state = 0) && decide (w.surpair = 0)

end

end StringFilter

/-! ## Tokens -/

/-- `jtokentype` with `tokenVal`. -/
inductive JToken
  | err
  | none
  | objOpen
  | objClose
  | arrOpen
  | arrClose
  | colon
  | comma
  | kwNull
  | kwTrue
  | kwFalse
  | number (val : Bytes)
  | string (val : Bytes)
  deriving DecidableEq, Repr

def jsonIsSpace (ch : UInt8) : Bool := ch == 0x20 || ch == 0x09 || ch == 0x0a || ch == 0x0d

def hexValue (ch : UInt8) : Option Nat :=
  if jsonIsDigit ch then some (ch.toNat - 0x30)
  else if 0x61 ≤ ch ∧ ch ≤ 0x66 then some (ch.toNat - 0x61 + 10)
  else if 0x41 ≤ ch ∧ ch ≤ 0x46 then some (ch.toNat - 0x41 + 10)
  else none

def hatoui (d₁ d₂ d₃ d₄ : UInt8) : Option Nat := do
  let a ← hexValue d₁
  let b ← hexValue d₂
  let c ← hexValue d₃
  let d ← hexValue d₄
  return 16 * (16 * (16 * a + b) + c) + d

/-- What an escaped character stands for, `\u` apart. -/
def unescape (ch : UInt8) : Option UInt8 :=
  if ch = 0x22 then some 0x22
  else if ch = 0x5c then some 0x5c
  else if ch = 0x2f then some 0x2f
  else if ch = 0x62 then some 0x08
  else if ch = 0x66 then some 0x0c
  else if ch = 0x6e then some 0x0a
  else if ch = 0x72 then some 0x0d
  else if ch = 0x74 then some 0x09
  else none

/-- The scanning loop of a string, after its opening quote: the filter, and the text after the
closing quote. -/
def scanString : Bytes → StringFilter → Option (StringFilter × Bytes)
  | [], _ => none
  | ch :: raw, w =>
    if ch < 0x20 then none
    else if ch = 0x5c then
      match raw with
      | [] => none
      | esc :: raw =>
        match unescape esc with
        | some c => scanString raw (w.pushBack c)
        | none =>
          if esc = 0x75 then
            match raw with
            -- one more character has to follow the four digits
            | d₁ :: d₂ :: d₃ :: d₄ :: next :: raw =>
              match hatoui d₁ d₂ d₃ d₄ with
              | some cp => scanString (next :: raw) (w.pushBackU cp)
              | none => none
            | _ => none
          else none
    else if ch = 0x22 then some (w, raw)
    else scanString raw (w.pushBack ch)

variable (raw : Bytes)

/-- The fraction or the exponent of a number, if the text goes on with one: the part of the text
that belongs to it and the rest, `none` without a digit. -/
def scanFrac : Option (Bytes × Bytes) :=
  match raw with
  | 0x2e :: raw =>
    if (raw.takeWhile jsonIsDigit).isEmpty then none
    else some (0x2e :: raw.takeWhile jsonIsDigit, raw.dropWhile jsonIsDigit)
  | raw => some ([], raw)

def scanSign : Bytes × Bytes :=
  match raw with
  | s :: raw => if s = 0x2d ∨ s = 0x2b then ([s], raw) else ([], s :: raw)
  | [] => ([], [])

@[inherit_doc scanFrac] def scanExp : Option (Bytes × Bytes) :=
  match raw with
  | ch :: raw =>
    if ch = 0x65 ∨ ch = 0x45 then
      let (sign, raw) := scanSign raw
      if (raw.takeWhile jsonIsDigit).isEmpty then none
      else some (ch :: sign ++ raw.takeWhile jsonIsDigit, raw.dropWhile jsonIsDigit)
    else some ([], ch :: raw)
  | [] => some ([], [])

def scanNumber (first : UInt8) (raw : Bytes) : Option (Bytes × Bytes) :=
  -- a leading zero is followed by no digit; behind the end stands a zero byte
  let firstDigit := if jsonIsDigit first then first :: raw else raw
  if firstDigit.head? = some 0x30 ∧ firstDigit.tail.head?.any jsonIsDigit then none
  else if first = 0x2d ∧ raw ≠ [] ∧ !(raw.head?.any jsonIsDigit) then none
  else do
    let (frac, rest) ← scanFrac (raw.dropWhile jsonIsDigit)
    let (exp, rest) ← scanExp rest
    return (first :: (raw.takeWhile jsonIsDigit ++ frac ++ exp), rest)

def punctuation (ch : UInt8) : Option JToken :=
  if ch = 0x7b then some .objOpen
  else if ch = 0x7d then some .objClose
  else if ch = 0x5b then some .arrOpen
  else if ch = 0x5d then some .arrClose
  else if ch = 0x3a then some .colon
  else if ch = 0x2c then some .comma
  else none

def keyword : JToken × Bytes :=
  if raw.take 4 = ascii "null" then (.kwNull, raw.drop 4)
  else if raw.take 4 = ascii "true" then (.kwTrue, raw.drop 4)
  else if raw.take 5 = ascii "false" then (.kwFalse, raw.drop 5)
  else (.err, raw)

/-- `getJsonToken` after the whitespace: the token, and the text after it. -/
def getToken : JToken × Bytes :=
  match raw with
  | [] => (.none, [])
  | ch :: rest =>
    match punctuation ch with
    | some tok => (tok, rest)
    | none =>
      if ch = 0x6e ∨ ch = 0x74 ∨ ch = 0x66 then keyword raw
      else if ch = 0x2d ∨ jsonIsDigit ch then
        match scanNumber ch rest with
        | some (val, rest) => (.number val, rest)
        | none => (.err, raw)
      else if ch = 0x22 then
        match scanString rest {} with
        | some (w, rest) => if w.finalize then (.string w.str, rest) else (.err, raw)
        | none => (.err, raw)
      else (.err, raw)

def getJsonToken : JToken × Bytes := getToken (raw.dropWhile jsonIsSpace)

/-- The tokens of a text up to the end (`none`) or the first error, for at most `fuel` tokens. -/
def tokensLoop : Nat → Bytes → List JToken
  | 0, _ => []
  | fuel + 1, raw =>
    let (tok, rest) := getJsonToken raw
    if tok = .none ∨ tok = .err then [tok] else tok :: tokensLoop fuel rest

/-- The tokens of a text: each takes at least one byte. -/
def tokens : List JToken := tokensLoop (raw.length + 1) raw

/-! ## The parser -/

def maxJsonDepth : Nat := 512

/-- `expectMask` -/
structure Expect where
  objName : Bool := false
  colon : Bool := false
  arrValue : Bool := false
  value : Bool := false
  notValue : Bool := false
  deriving DecidableEq, Repr

/-- A container on the stack. -/
structure Frame where
  isObj : Bool
  keys : List Bytes := []
  values : List UniValue := []

def Frame.close (f : Frame) : UniValue := if f.isObj then .obj f.keys f.values else .arr f.values

/-- `jsonTokenIsValue`, or a token that opens a container. -/
def isValueOpen : JToken → Bool
  | .kwNull | .kwTrue | .kwFalse | .number _ | .string _ | .objOpen | .arrOpen => true
  | _ => false

/-- What is expected after the checks on the token; `none` if the token is refused. -/
def checkExpect (e : Expect) (tok : JToken) : Option Expect := do
  let e ←
    if e.value then
      if isValueOpen tok then some { e with value := false } else none
    else if e.arrValue then
      if isValueOpen tok || tok == .arrClose then some { e with arrValue := false }
      else none
    else if e.objName then
      match tok with
      | .objClose | .string _ => some e
      | _ => none
    else if e.colon then
      if tok = .colon then some { e with colon := false } else none
    else if tok = .colon then none
    else some e
  if e.notValue then
    if isValueOpen tok then none else some { e with notValue := false }
  else some e

/-- A value that is complete: it is the result, or is added to the container on top. -/
def addValue (e : Expect) (stack : List Frame) (v : UniValue) : UniValue ⊕ (Expect × List Frame) :=
  match stack with
  | [] => .inl v
  | top :: stack =>
    .inr ({ e with notValue := true }, { top with values := top.values ++ [v] } :: stack)

/-- The switch of `read`: the result when the stack is empty, or what is expected next and the
stack. -/
def readToken (lastTok : JToken) (e : Expect) (stack : List Frame) (tok : JToken) :
    Option (UniValue ⊕ (Expect × List Frame)) := do
  let e ← checkExpect e tok
  match tok with
  | .objOpen =>
    if stack.length + 1 > maxJsonDepth then none
    return .inr ({ e with objName := true }, { isObj := true } :: stack)
  | .arrOpen =>
    if stack.length + 1 > maxJsonDepth then none
    return .inr ({ e with arrValue := true }, { isObj := false } :: stack)
  | .objClose | .arrClose =>
    match stack with
    | [] => none
    | top :: stack =>
      if lastTok = .comma then none
      if top.isObj ≠ (tok == .objClose) then none
      return addValue { e with objName := false } stack top.close
  | .colon =>
    match stack with
    | [] => none
    | top :: stack =>
      if !top.isObj then none
      return .inr ({ e with value := true }, top :: stack)
  | .comma =>
    match stack with
    | [] => none
    | top :: stack =>
      if lastTok = .comma ∨ lastTok = .arrOpen then none
      if top.isObj then return .inr ({ e with objName := true }, top :: stack)
      return .inr ({ e with arrValue := true }, top :: stack)
  | .kwNull => return addValue e stack .null
  | .kwTrue => return addValue e stack (.bool true)
  | .kwFalse => return addValue e stack (.bool false)
  | .number val => return addValue e stack (.num val)
  | .string val =>
    match e.objName, stack with
    | true, top :: stack =>
      return .inr ({ e with objName := false, colon := true, notValue := true },
        { top with keys := top.keys ++ [val] } :: stack)
    | _, _ => return addValue e stack (.str val)
  | .err | .none => none

/-- The loop of `read`: the value, and the tokens after it. -/
def readLoop (lastTok : JToken) (e : Expect) (stack : List Frame) :
    List JToken → Option (UniValue × List JToken)
  | [] => none
  | tok :: toks =>
    match readToken lastTok e stack tok with
    | none => none
    | some (.inl v) => some (v, toks)
    | some (.inr (e, stack)) => readLoop tok e stack toks

/-- `UniValue::read`; `none` when it returns false. -/
def read : Option UniValue :=
  match readLoop .none {} [] (tokens raw) with
  | some (v, [.none]) => some v
  | _ => none

end UniValue

end BitcoinPurity
