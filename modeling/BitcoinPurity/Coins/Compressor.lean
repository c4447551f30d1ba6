import BitcoinPurity.Consensus.Amount
import BitcoinPurity.Primitives.Serialize

/-!
# Compressed coins

The compact format of `compressor.h`, in which the coins database and the undo files keep coins:
`WriteVarInt` and `ReadVarInt`, `CompressAmount`, `CompressScript`, and on them `Coin::Serialize`
and `TxInUndoFormatter`.  The elliptic curve is a parameter.

`coins_roundtrip`: a coin is read back from its record, in both formats.
-/

namespace BitcoinPurity

open Codecs Words List Option Nat

/-! ## Algorithm -/

/-- The loop of `WriteVarInt`: the bytes of `tmp` from the first on, which has room for `room`. -/
def varIntTmp : Nat → Nat → Bool → Bytes
  | 0, _, _ => []
  | room + 1, n, more => (n % 128 + if more then 128 else 0).toUInt8 ::
      if n ≤ 0x7f then [] else varIntTmp room (n / 128 - 1) true

def writeVarInt (w n : Nat) : Bytes := (varIntTmp ((w + 6) / 7) n false).reverse

def readVarIntLoop (w : Nat) : Nat → Bytes → Except SerError (Nat × Bytes)
  | _, [] => .error .endOfData
  | n, chData :: bs =>
    if n > (2 ^ w - 1) / 128 then .error .varIntTooLarge
    else if 128 ≤ chData.toNat then
      if n * 128 + chData.toNat % 128 = 2 ^ w - 1 then .error .varIntTooLarge
      else readVarIntLoop w (n * 128 + chData.toNat % 128 + 1) bs
    else .ok (n * 128 + chData.toNat % 128, bs)

def readVarInt (w : Nat) : Reader UInt8 SerError Nat := readVarIntLoop w 0

/-- The loop of `CompressAmount`, which takes off at most `room` zeros: what is left of `n`, and
how many zeros it ended in. -/
def stripZeros : Nat → Nat → Nat × Nat
  | 0, n => (n, 0)
  | room + 1, n =>
    if n % 10 = 0 then ((stripZeros room (n / 10)).1, (stripZeros room (n / 10)).2 + 1)
    else (n, 0)

def compressAmount (n : Nat) : Nat :=
  if n = 0 then 0
  else
    let (n, e) := stripZeros 9 n
    if e < 9 then (1 + (n / 10 * 9 + n % 10 - 1) * 10 + e) % 2 ^ 64
    else (1 + (n - 1) * 10 + 9) % 2 ^ 64

def decompressAmount (x : Nat) : Nat :=
  if x = 0 then 0
  else
    let e := (x - 1) % 10
    let x := (x - 1) / 10
    let n := if e < 9 then x / 9 * 10 + (x % 9 + 1) else x + 1
    n * 10 ^ e % 2 ^ 64

/-- What the format needs of public keys: `CPubKey::IsFullyValid`, and `CPubKey::Decompress` on 33
bytes. -/
structure PubKeys where
  isFullyValid : Bytes → Bool
  decompress : Bytes → Option Bytes

def isToKeyID (script : CScript) : Option Bytes :=
  if script.length = 25 ∧ script[0]? = some opDup ∧ script[1]? = some opHash160 ∧
      script[2]? = some 20 ∧ script[23]? = some opEqualVerify ∧ script[24]? = some opCheckSig then
    some ((script.drop 3).take 20)
  else none

def isToScriptID (script : CScript) : Option Bytes :=
  if script.length = 23 ∧ script[0]? = some opHash160 ∧ script[1]? = some 20 ∧
      script[22]? = some opEqual then
    some ((script.drop 2).take 20)
  else none

def isToPubKey (keys : PubKeys) (script : CScript) : Option Bytes :=
  if script.length = 35 ∧ script[0]? = some 33 ∧ script[34]? = some opCheckSig ∧
      (script[1]? = some 0x02 ∨ script[1]? = some 0x03) then
    some ((script.drop 1).take 33)
  else if script.length = 67 ∧ script[0]? = some 65 ∧ script[66]? = some opCheckSig ∧
      script[1]? = some 0x04 then
    if keys.isFullyValid ((script.drop 1).take 65) then some ((script.drop 1).take 65) else none
  else none

/-- `CompressScript`, from the public key on. -/
def compressPubKey (pubkey : Bytes) : Option Bytes :=
  let first := pubkey.getD 0 0
  if first = 0x02 ∨ first = 0x03 then some (first :: (pubkey.drop 1).take 32)
  else if first = 0x04 then
    some ((0x04 ||| (pubkey.getD 64 0 &&& 0x01)) :: (pubkey.drop 1).take 32)
  else none

def compressScript (keys : PubKeys) (script : CScript) : Option Bytes :=
  if let some keyID := isToKeyID script then some (0x00 :: keyID)
  else if let some scriptID := isToScriptID script then some (0x01 :: scriptID)
  else if let some pubkey := isToPubKey keys script then compressPubKey pubkey
  else none

def getSpecialScriptSize (nSize : Nat) : Nat :=
  if nSize = 0 ∨ nSize = 1 then 20
  else if nSize = 2 ∨ nSize = 3 ∨ nSize = 4 ∨ nSize = 5 then 32
  else 0

def decompressScript (keys : PubKeys) (nSize : Nat) (block : Bytes) : Option CScript :=
  match nSize with
  | 0 => some ([opDup, opHash160, 20] ++ block ++ [opEqualVerify, opCheckSig])
  | 1 => some ([opHash160, 20] ++ block ++ [opEqual])
  | 2 => some ([33, 2] ++ block ++ [opCheckSig])
  | 3 => some ([33, 3] ++ block ++ [opCheckSig])
  | 4 => (keys.decompress (2 :: block)).map fun pubkey => [65] ++ pubkey ++ [opCheckSig]
  | 5 => (keys.decompress (3 :: block)).map fun pubkey => [65] ++ pubkey ++ [opCheckSig]
  | _ => none

def nSpecialScripts : Nat := 6

/-- `ScriptCompression::Ser` -/
def serScript (keys : PubKeys) (script : CScript) : Bytes :=
  (compressScript keys script).getD
    (writeVarInt 32 ((script.length + nSpecialScripts) % 2 ^ 32) ++ script)

/-- `ScriptCompression::Unser` into an empty script, which stays empty when `DecompressScript`
fails. -/
def unserScript (keys : PubKeys) : Reader UInt8 SerError CScript := do
  let nSize ← readVarInt 32
  if nSize < nSpecialScripts then
    let vch ← readBlock .endOfData (getSpecialScriptSize nSize)
    return (decompressScript keys nSize vch).getD []
  else if nSize - nSpecialScripts > maxScriptSize then
    -- an overly long script is replaced with a short invalid one
    let _ ← readBlock .endOfData (nSize - nSpecialScripts)
    return [opReturn]
  else readBlock .endOfData (nSize - nSpecialScripts)

/-- `TxOutCompression`, with `AmountCompression` for the value. -/
def serTxOut (keys : PubKeys) (out : CTxOut) : Bytes :=
  writeVarInt 64 (compressAmount (word 64 out.nValue)) ++ serScript keys out.scriptPubKey

def unserTxOut (keys : PubKeys) : Reader UInt8 SerError CTxOut := do
  let v ← readVarInt 64
  let scriptPubKey ← unserScript keys
  return ⟨signed64 (decompressAmount v), scriptPubKey⟩

/-- The height and the flag of a coin in one word. -/
def Coin.code (coin : Coin) : Nat := (coin.nHeight * 2 + coin.fCoinBase.toNat) % 2 ^ 32

/-- `Coin::Serialize`, with its assertion. -/
def serializeCoin (keys : PubKeys) (coin : Coin) : Option Bytes :=
  if coin.isSpent then none else some (writeVarInt 32 coin.code ++ serTxOut keys coin.out)

def unserializeCoin (keys : PubKeys) : Reader UInt8 SerError Coin := do
  let code ← readVarInt 32
  let out ← unserTxOut keys
  return ⟨out, decide (code % 2 = 1), code / 2⟩

def serTxInUndo (keys : PubKeys) (txout : Coin) : Bytes :=
  writeVarInt 32 txout.code ++
    ((if txout.nHeight > 0 then [0] else []) ++ serTxOut keys txout.out)

def unserTxInUndo (keys : PubKeys) : Reader UInt8 SerError Coin := do
  let nCode ← readVarInt 32
  -- old versions stored the version of the transaction here
  if nCode / 2 > 0 then let _ ← readVarInt 32
  let out ← unserTxOut keys
  return ⟨out, decide (nCode % 2 = 1), nCode / 2⟩

/-! ## Variable-length integers -/

/-- The bytes that `ReadVarInt` has read when its number is `n` and more are to come. -/
def moreBytes : Nat → Bytes
  | 0 => []
  | n + 1 => moreBytes (n / 128) ++ [(n % 128 + 128).toUInt8]
termination_by n => n
decreasing_by omega

variable {n w v : Nat} {bs rest script pubkey out : Bytes} {keys : PubKeys} {coin : Coin}

/-- **What `WriteVarInt` writes**: there is room for it when the number is in range. -/
theorem reverse_varIntTmp {room : Nat} (more : Bool) (hn : n < 128 ^ (room + 1)) :
    (varIntTmp (room + 1) n more).reverse =
      moreBytes (n / 128) ++ [(n % 128 + if more then 128 else 0).toUInt8] := by
  induction room generalizing n more with
  | zero =>
    have hlast : n ≤ 0x7f := by omega
    rw [varIntTmp, if_pos hlast, show n / 128 = 0 by omega, moreBytes]
    rfl
  | succ room ih =>
    rw [varIntTmp, reverse_cons]
    by_cases hlast : n ≤ 0x7f
    · rw [if_pos hlast, show n / 128 = 0 by omega, moreBytes]
      rfl
    have hn' : n / 128 - 1 < 128 ^ (room + 1) := by
      omega
    obtain ⟨m, hm⟩ : ∃ m, n / 128 = m + 1 := ⟨n / 128 - 1, by omega⟩
    rw [if_neg hlast, ih true hn', hm, moreBytes]
    rfl

theorem writeVarInt_eq (hw : 0 < w) (hn : n < 2 ^ w) :
    writeVarInt w n = moreBytes (n / 128) ++ [(n % 128).toUInt8] := by
  obtain ⟨room, hroom⟩ : ∃ room, (w + 6) / 7 = room + 1 := ⟨(w + 6) / 7 - 1, by omega⟩
  have hroomy : n < 128 ^ (room + 1) := by
    calc n < 2 ^ w := hn
      _ ≤ 2 ^ (7 * (room + 1)) := Nat.pow_le_pow_right (by decide) (by omega)
      _ = 128 ^ (room + 1) := by rw [Nat.pow_mul]
  rw [writeVarInt, hroom, reverse_varIntTmp false hroomy]
  rfl

/-- `ReadVarInt` without its bounds. -/
def readMore : Nat → Bytes → Option (Nat × Bytes)
  | _, [] => none
  | n, chData :: bs =>
    if 128 ≤ chData.toNat then readMore (n * 128 + chData.toNat % 128 + 1) bs
    else some (n * 128 + chData.toNat % 128, bs)

theorem le_of_readMore (h : readMore n bs = some (v, rest)) : n * 128 ≤ v := by
  induction bs generalizing n with
  | nil => cases h
  | cons chData bs ih =>
    rw [readMore] at h
    split at h
    · have := ih h
      omega
    cases h
    omega

/-- **The bounds** keep out the numbers that are too large for the type, and no others. -/
theorem readVarIntLoop_iff (hw : 7 ≤ w) :
    readVarIntLoop w n bs = .ok (v, rest) ↔ readMore n bs = some (v, rest) ∧ v < 2 ^ w := by
  have hpow : 2 ^ w = 2 ^ (w - 7) * 128 := by
    rw [← Nat.pow_add 2 (w - 7) 7, Nat.sub_add_cancel hw]
  have hpos : 0 < 2 ^ (w - 7) := Nat.two_pow_pos _
  generalize 2 ^ (w - 7) = m at hpow hpos
  induction bs generalizing n with
  | nil =>
    rw [readVarIntLoop, readMore]
    simp
  | cons chData bs ih =>
    rw [readVarIntLoop, hpow]
    by_cases hbig : n > (m * 128 - 1) / 128
    · rw [if_pos hbig]
      refine iff_of_false (by rintro ⟨⟩) ?_
      rintro ⟨hread, hv⟩
      have := le_of_readMore hread
      omega
    rw [if_neg hbig, readMore]
    by_cases hmore : 128 ≤ chData.toNat
    · rw [if_pos hmore, if_pos hmore, ← hpow]
      refine Iff.trans ?_ ih
      rw [hpow]
      by_cases hmax : n * 128 + chData.toNat % 128 = m * 128 - 1
      · rw [if_pos hmax]
        refine iff_of_false (by rintro ⟨⟩) fun hnext => ?_
        obtain ⟨hread, hv⟩ := ih.1 hnext
        have := le_of_readMore hread
        omega
      · rw [if_neg hmax]
    · grind

theorem readMore_moreBytes (n : Nat) (bs : Bytes) :
    readMore 0 (moreBytes n ++ bs) = readMore n bs := by
  induction n using Nat.strong_induction_on generalizing bs with
  | h n ih =>
    cases n with
    | zero =>
      rw [moreBytes]
      rfl
    | succ n =>
      have hbyte : (n % 128 + 128).toUInt8.toNat = n % 128 + 128 := by
        simp only [UInt8.toNat_ofNat']
        omega
      rw [moreBytes, append_assoc, ih (n / 128) (by omega), singleton_append, readMore,
        if_pos (by omega)]
      congr 1
      omega

theorem moreBytes_readMore (h : readMore n bs = some (v, rest)) :
    moreBytes n ++ bs = moreBytes (v / 128) ++ (v % 128).toUInt8 :: rest := by
  induction bs generalizing n with
  | nil => cases h
  | cons chData bs ih =>
    have hch := chData.toNat_lt
    have hdiv : (n * 128 + chData.toNat % 128) / 128 = n := by omega
    rw [readMore] at h
    split at h
    · rw [← ih h, moreBytes]
      have hbyte : ((n * 128 + chData.toNat % 128) % 128 + 128).toUInt8 = chData := by
        rw [show (n * 128 + chData.toNat % 128) % 128 + 128 = chData.toNat by omega]
        simp
      rw [hdiv, hbyte, append_assoc]
      rfl
    · cases h
      have hbyte : ((n * 128 + chData.toNat % 128) % 128).toUInt8 = chData := by
        rw [show (n * 128 + chData.toNat % 128) % 128 = chData.toNat by omega]
        simp
      rw [hdiv, hbyte]

/-- **An unsigned integer has one encoding**, which `WriteVarInt` writes and `ReadVarInt` reads. -/
theorem codec_varInt (hw : 7 ≤ w) : Codec (writeVarInt w) (readVarInt w) (fun n => n < 2 ^ w) := by
  intro bs n rest
  show readVarIntLoop w 0 bs = .ok (n, rest) ↔ _
  rw [readVarIntLoop_iff hw]
  constructor
  · rintro ⟨hread, hn⟩
    have hbytes := moreBytes_readMore hread
    rw [moreBytes, nil_append] at hbytes
    rw [writeVarInt_eq (by omega) hn, hbytes, append_assoc]
    exact ⟨hn, rfl⟩
  · rintro ⟨hn, rfl⟩
    have hbyte : (n % 128).toUInt8.toNat = n % 128 := by
      simp only [UInt8.toNat_ofNat']
      omega
    rw [writeVarInt_eq (by omega) hn, append_assoc, readMore_moreBytes, singleton_append,
      readMore, hbyte, if_neg (by omega)]
    grind

/-! ## Amounts -/

theorem stripZeros_spec (room n : Nat) :
    n = (stripZeros room n).1 * 10 ^ (stripZeros room n).2 ∧ (stripZeros room n).2 ≤ room ∧
      ((stripZeros room n).2 < room → (stripZeros room n).1 % 10 ≠ 0) := by
  induction room generalizing n with
  | zero => simp [stripZeros]
  | succ room ih =>
    rw [stripZeros]
    split
    · obtain ⟨heq, hle, hlast⟩ := ih (n / 10)
      refine ⟨?_, by omega, fun h => hlast (by omega)⟩
      rw [pow_succ, ← mul_assoc, ← heq]
      omega
    next hzero =>
      exact ⟨by simp, by omega, fun _ => hzero⟩

theorem compressAmount_lt (n : Nat) : compressAmount n < 2 ^ 64 := by
  rw [compressAmount]
  grind

/-- **An amount survives compression.** -/
theorem decompressAmount_compressAmount (hn : (n : Int) ≤ maxMoney) :
    decompressAmount (compressAmount n) = n := by
  have hmoney : n ≤ 2100000000000000 := by
    have : maxMoney = 2100000000000000 := rfl
    omega
  by_cases hzero : n = 0
  · subst hzero
    rfl
  obtain ⟨heq, hle, hlast⟩ := stripZeros_spec 9 n
  rw [compressAmount, if_neg hzero]
  generalize stripZeros 9 n = p at heq hle hlast
  obtain ⟨m, e⟩ := p
  have hm : m ≤ n := by
    rw [heq]
    exact Nat.le_mul_of_pos_right m (Nat.pow_pos (by decide))
  have hm0 : 0 < m := by grind
  have hback : m * 10 ^ e % 2 ^ 64 = n := by
    rw [← heq]
    omega
  simp only at hle ⊢
  by_cases he : e < 9
  · rw [if_pos he, mod_eq_of_lt (by omega), decompressAmount, if_neg (by omega)]
    grind
  · rw [if_neg he, mod_eq_of_lt (by omega), decompressAmount, if_neg (by omega)]
    grind

/-! ## Scripts -/

/-- **Decompression of a key**: the compressed form of a valid uncompressed key gives that key. -/
def PubKeys.Decompresses (keys : PubKeys) : Prop :=
  ∀ pubkey : Bytes, pubkey.length = 65 → pubkey[0]? = some 0x04 → keys.isFullyValid pubkey →
    keys.decompress ((0x02 ||| (pubkey.getD 64 0 &&& 0x01)) :: (pubkey.drop 1).take 32) =
      some pubkey

theorem drop_eq_cons {i : Nat} {a : UInt8} (ha : script[i]? = some a)
    (hrest : script.drop (i + 1) = rest) : script.drop i = a :: rest := by
  obtain ⟨hi, rfl⟩ := List.getElem?_eq_some_iff.1 ha
  rw [List.drop_eq_getElem_cons hi, hrest]

theorem block_append {back : Bytes} {i : Nat} (hback : script.drop (i + n) = back) :
    (script.drop i).take n ++ back = script.drop i := by
  rw [← hback, ← drop_drop, take_append_drop]

theorem isToKeyID_spec {keyID : Bytes} (h : isToKeyID script = some keyID) : keyID.length = 20 ∧
      script = [opDup, opHash160, 20] ++ keyID ++ [opEqualVerify, opCheckSig] := by
  obtain ⟨⟨hlen, h0, h1, h2, h23, h24⟩, ⟨⟩⟩ := ite_none_right_eq_some.1 h
  refine ⟨by simp [hlen], ?_⟩
  have hback := drop_eq_cons h23 (drop_eq_cons h24 (drop_of_length_le hlen.le))
  have hfront := drop_eq_cons h0 (drop_eq_cons h1 (drop_eq_cons h2 rfl))
  rw [append_assoc, block_append hback]
  exact hfront

theorem isToScriptID_spec {scriptID : Bytes} (h : isToScriptID script = some scriptID) :
    scriptID.length = 20 ∧ script = [opHash160, 20] ++ scriptID ++ [opEqual] := by
  obtain ⟨⟨hlen, h0, h1, h22⟩, ⟨⟩⟩ := ite_none_right_eq_some.1 h
  refine ⟨by simp [hlen], ?_⟩
  have hback : script.drop (2 + 20) = [opEqual] :=
    drop_eq_cons h22 (drop_of_length_le hlen.le)
  have hfront := drop_eq_cons h0 (drop_eq_cons h1 rfl)
  rw [append_assoc, block_append hback]
  exact hfront

theorem pushes_key {size first : UInt8} (hlen : script.length = n + 2) (h0 : script[0]? = some size)
    (h1 : script[1]? = some first) (hn : 0 < n) (hlast : script[n + 1]? = some opCheckSig) :
    ((script.drop 1).take n).length = n ∧ ((script.drop 1).take n)[0]? = some first ∧
      script = [size] ++ (script.drop 1).take n ++ [opCheckSig] := by
  refine ⟨by simp [hlen], ?_, ?_⟩
  · rw [getElem?_take_of_lt hn, getElem?_drop, h1]
  · have hback : script.drop (1 + n) = [opCheckSig] := by
      rw [add_comm]
      exact drop_eq_cons hlast (drop_of_length_le hlen.le)
    have hfront := drop_eq_cons h0 rfl
    rw [append_assoc, block_append hback]
    exact hfront

theorem isToPubKey_spec (h : isToPubKey keys script = some pubkey) :
    (pubkey.length = 33 ∧ (pubkey[0]? = some 0x02 ∨ pubkey[0]? = some 0x03) ∧
        script = [33] ++ pubkey ++ [opCheckSig]) ∨
      (pubkey.length = 65 ∧ pubkey[0]? = some 0x04 ∧ keys.isFullyValid pubkey ∧
        script = [65] ++ pubkey ++ [opCheckSig]) := by
  rw [isToPubKey] at h
  split at h
  next hshort =>
    rw [some.injEq] at h
    obtain ⟨hlen, h0, h34, h1⟩ := hshort
    left
    rcases h1 with h1 | h1
    · obtain ⟨hl, hf, hs⟩ := pushes_key hlen h0 h1 (by decide) h34
      rw [h] at hl hf hs
      exact ⟨hl, .inl hf, hs⟩
    obtain ⟨hl, hf, hs⟩ := pushes_key hlen h0 h1 (by decide) h34
    rw [h] at hl hf hs
    exact ⟨hl, .inr hf, hs⟩
  · obtain ⟨⟨hlen, h0, h66, h1⟩, hvalid⟩ := ite_none_right_eq_some.1 h
    obtain ⟨hv, hkey⟩ := ite_none_right_eq_some.1 hvalid
    obtain ⟨hl, hf, hs⟩ := pushes_key hlen h0 h1 (by decide) h66
    grind

theorem and_one_cases (b : UInt8) : b &&& 1 = 0 ∨ b &&& 1 = 1 := by
  have hmod : (b &&& 1).toNat = b.toNat % 2 := by
    exact and_one_is_mod _
  rcases mod_two_eq_zero_or_one b.toNat with h | h
  · exact .inl (UInt8.toNat_inj.1 (hmod.trans h))
  · exact .inr (UInt8.toNat_inj.1 (hmod.trans h))

/-- **What a compressed script is**: the number of its special form, and the block from which that
form is restored. -/
structure Special (keys : PubKeys) (script : CScript) (form : UInt8) (block : Bytes) : Prop where
  known : form.toNat < nSpecialScripts
  size : block.length = getSpecialScriptSize form.toNat
  decompress : decompressScript keys form.toNat block = some script

theorem compressPubKey_short {first : UInt8} (hfirst : first = 0x02 ∨ first = 0x03)
    (hlen : pubkey.length = 33) (h0 : pubkey[0]? = some first)
    (hs : script = [33] ++ pubkey ++ [opCheckSig]) (hout : compressPubKey pubkey = some out) :
    ∃ form block, out = form :: block ∧ Special keys script form block := by
  cases pubkey with
  | nil => cases h0
  | cons c block =>
    obtain rfl : c = first := some.inj h0
    have hblock : block.length = 32 := by simpa using hlen
    have htake : block.take 32 = block := take_of_length_le hblock.le
    have hc : out = c :: block := by
      simp only [compressPubKey, getD_cons_zero, hfirst, if_true, drop_succ_cons,
        drop_zero, htake, some.injEq] at hout
      exact hout.symm
    refine ⟨c, block, hc, ?_⟩
    rcases hfirst with rfl | rfl
    · exact ⟨by decide, hblock, congrArg some hs.symm⟩
    · exact ⟨by decide, hblock, congrArg some hs.symm⟩

theorem compressPubKey_long (hdec : keys.Decompresses) (hlen : pubkey.length = 65)
    (h0 : pubkey[0]? = some 0x04) (hvalid : keys.isFullyValid pubkey)
    (hs : script = [65] ++ pubkey ++ [opCheckSig]) (hout : compressPubKey pubkey = some out) :
    ∃ form block, out = form :: block ∧ Special keys script form block := by
  have hfirst : pubkey.getD 0 0 = 0x04 := by rw [getD_eq_getElem?_getD, h0, getD_some]
  have hblock : ((pubkey.drop 1).take 32).length = 32 := by simp [hlen]
  have hkey := hdec pubkey hlen h0 hvalid
  simp only [compressPubKey, hfirst] at hout
  rw [if_neg (by decide), if_true, some.injEq] at hout
  refine ⟨_, _, hout.symm, ?_⟩
  rcases and_one_cases (pubkey.getD 64 0) with hy | hy
  · rw [hy] at hkey ⊢
    refine ⟨by decide, hblock, ?_⟩
    show (keys.decompress (2 :: _)).map _ = _
    grind
  · rw [hy] at hkey ⊢
    refine ⟨by decide, hblock, ?_⟩
    show (keys.decompress (3 :: _)).map _ = _
    rw [show keys.decompress (3 :: (pubkey.drop 1).take 32) = some pubkey from hkey, hs]
    rfl

theorem compressScript_spec (hdec : keys.Decompresses) (h : compressScript keys script = some out) :
    ∃ form block, out = form :: block ∧ Special keys script form block := by
  rw [compressScript] at h
  cases hkey : isToKeyID script with
  | some keyID =>
    simp only [hkey, some.injEq] at h
    obtain ⟨hlen, hs⟩ := isToKeyID_spec hkey
    exact ⟨0, keyID, h.symm, by decide, hlen, congrArg some hs.symm⟩
  | none =>
  cases hscript : isToScriptID script with
  | some scriptID =>
    simp only [hkey, hscript, some.injEq] at h
    obtain ⟨hlen, hs⟩ := isToScriptID_spec hscript
    exact ⟨1, scriptID, h.symm, by decide, hlen, congrArg some hs.symm⟩
  | none =>
  cases hpub : isToPubKey keys script with
  | some pubkey =>
    simp only [hkey, hscript, hpub] at h
    rcases isToPubKey_spec hpub with ⟨hlen, h0 | h0, hs⟩ | ⟨hlen, h0, hvalid, hs⟩
    · exact compressPubKey_short (.inl rfl) hlen h0 hs h
    · exact compressPubKey_short (.inr rfl) hlen h0 hs h
    · exact compressPubKey_long hdec hlen h0 hvalid hs h
  | none =>
    simp [hkey, hscript, hpub] at h

/-- **A script survives compression.** -/
theorem run_unserScript (hdec : keys.Decompresses) {script : CScript}
    (hlen : script.length ≤ maxScriptSize) (rest : Bytes) :
    (unserScript keys).run (serScript keys script ++ rest) = .ok (script, rest) := by
  have hmax : maxScriptSize = 10000 := rfl
  rw [serScript]
  cases hc : compressScript keys script with
  | some out =>
    obtain ⟨form, block, rfl, hknown, hsize, hback⟩ := compressScript_spec hdec hc
    have hform : form.toNat < 6 := hknown
    have hwrite : writeVarInt 32 form.toNat = [form] := by
      rw [writeVarInt_eq (by decide) (by omega), show form.toNat / 128 = 0 by omega, moreBytes,
        mod_eq_of_lt (by omega)]
      simp
    have hbytes : form :: block ++ rest = writeVarInt 32 form.toNat ++ (block ++ rest) := by
      rw [hwrite]
      rfl
    rw [getD_some, hbytes, unserScript, (codec_varInt (by decide)).bind_append (by omega),
      if_pos hknown, (codec_readBlock _ _).bind_append hsize, hback]
    rfl
  | none =>
    have hword : (script.length + nSpecialScripts) % 2 ^ 32 = script.length + nSpecialScripts :=
      mod_eq_of_lt (by rw [nSpecialScripts]; omega)
    rw [getD_none, hword, append_assoc, unserScript,
      (codec_varInt (by decide)).bind_append (by rw [nSpecialScripts]; omega),
      if_neg (by omega), if_neg (by omega)]
    exact (codec_readBlock _ _).run_append rfl rest

/-! ## Coins -/

theorem run_unserTxOut (hdec : keys.Decompresses) {out : CTxOut}
    (h0 : 0 ≤ out.nValue) (hmoney : out.nValue ≤ maxMoney)
    (hlen : out.scriptPubKey.length ≤ maxScriptSize) (rest : Bytes) :
    (unserTxOut keys).run (serTxOut keys out ++ rest) = .ok (out, rest) := by
  have hmax : maxMoney = 2100000000000000 := rfl
  have hword : (word 64 out.nValue) = out.nValue := word_eq h0 (by omega)
  have hamount : decompressAmount (compressAmount (word 64 out.nValue)) = word 64 out.nValue :=
    decompressAmount_compressAmount (by omega)
  rw [serTxOut, append_assoc, unserTxOut,
    (codec_varInt (by decide)).bind_append (compressAmount_lt _),
    bind_of_run (run_unserScript hdec hlen rest), hamount, signed64_word (by omega)]
  rfl

theorem Coin.code_lt (coin : Coin) : coin.code < 2 ^ 32 := mod_lt _ (by decide)

theorem Coin.code_parts (h : coin.nHeight < 2 ^ 31) :
    coin.code / 2 = coin.nHeight ∧ decide (coin.code % 2 = 1) = coin.fCoinBase := by
  have hflag := coin.fCoinBase.toNat_lt
  have hcode : coin.code = coin.nHeight * 2 + coin.fCoinBase.toNat :=
    mod_eq_of_lt (by omega)
  grind

/-- The range of the coins that blocks create. -/
structure Coin.InRange (coin : Coin) : Prop where
  nonneg : 0 ≤ coin.out.nValue
  money : coin.out.nValue ≤ maxMoney
  height : coin.nHeight < 2 ^ 31
  script : coin.out.scriptPubKey.length ≤ maxScriptSize

theorem run_unserializeCoin (hdec : keys.Decompresses) (h : coin.InRange) :
    ∃ bs, serializeCoin keys coin = some bs ∧
      ∀ rest, (unserializeCoin keys).run (bs ++ rest) = .ok (coin, rest) := by
  have hunspent : coin.isSpent = false := by
    have := h.nonneg
    rw [Coin.isSpent, beq_eq_false_iff_ne]
    omega
  obtain ⟨hheight, hbase⟩ := coin.code_parts h.height
  refine ⟨_, by rw [serializeCoin, hunspent]; rfl, fun rest => ?_⟩
  rw [append_assoc, unserializeCoin, (codec_varInt (by decide)).bind_append coin.code_lt,
    bind_of_run (run_unserTxOut hdec h.nonneg h.money h.script rest), hheight, hbase]
  rfl

theorem run_unserTxInUndo (hdec : keys.Decompresses) (h : coin.InRange) (rest : Bytes) :
    (unserTxInUndo keys).run (serTxInUndo keys coin ++ rest) = .ok (coin, rest) := by
  obtain ⟨hheight, hbase⟩ := coin.code_parts h.height
  have hout := run_unserTxOut hdec h.nonneg h.money h.script rest
  rw [serTxInUndo, append_assoc, append_assoc, unserTxInUndo,
    (codec_varInt (by decide)).bind_append coin.code_lt, hheight, hbase]
  by_cases hpos : coin.nHeight > 0
  · -- the byte in the place of the old version is the number zero
    have hzero : [0] = writeVarInt 32 0 := by decide
    rw [if_pos hpos, if_pos hpos, hzero, (codec_varInt (by decide)).bind_append (by decide),
      bind_of_run hout]
    rfl
  · rw [if_neg hpos, if_neg hpos, nil_append]
    rw [bind_of_run hout]
    rfl

/-- **Coins are read back from their records.** Every coin in range comes back from its
serialization and from its undo record, and exactly the bytes written are consumed; the integers of
a type are in bijection with the strings that `ReadVarInt` accepts; and `DecompressAmount` undoes
`CompressAmount`. -/
theorem coins_roundtrip {keys : PubKeys} (hdec : keys.Decompresses) :
    (∀ coin : Coin, 0 ≤ coin.out.nValue → coin.out.nValue ≤ maxMoney → coin.nHeight < 2 ^ 31 →
      coin.out.scriptPubKey.length ≤ maxScriptSize →
      (∃ bs, serializeCoin keys coin = some bs ∧
        ∀ rest, (unserializeCoin keys).run (bs ++ rest) = .ok (coin, rest)) ∧
      ∀ rest, (unserTxInUndo keys).run (serTxInUndo keys coin ++ rest) = .ok (coin, rest)) ∧
    (∀ w, 7 ≤ w → Codec (writeVarInt w) (readVarInt w) (fun n => n < 2 ^ w) ∧
      Set.BijOn (writeVarInt w) {n | n < 2 ^ w} {bs | ∃ n, (readVarInt w).run bs = .ok (n, [])}) ∧
    ∀ n : Nat, (n : Int) ≤ maxMoney → decompressAmount (compressAmount n) = n := by
  refine ⟨fun coin h0 hmoney hheight hlen => ?_, fun w hw => ?_, fun n hn => ?_⟩
  · have hrange : coin.InRange := ⟨h0, hmoney, hheight, hlen⟩
    exact ⟨run_unserializeCoin hdec hrange, run_unserTxInUndo hdec hrange⟩
  · exact ⟨codec_varInt hw, (codec_varInt hw).bijOn⟩
  · exact decompressAmount_compressAmount hn

def generator : Bytes :=
  [0x04, 0x79, 0xbe, 0x66, 0x7e, 0xf9, 0xdc, 0xbb, 0xac, 0x55, 0xa0, 0x62, 0x95,
    0xce, 0x87, 0x0b, 0x07, 0x02, 0x9b, 0xfc, 0xdb, 0x2d, 0xce, 0x28, 0xd9, 0x59,
    0xf2, 0x81, 0x5b, 0x16, 0xf8, 0x17, 0x98, 0x48, 0x3a, 0xda, 0x77, 0x26, 0xa3,
    0xc4, 0x65, 0x5d, 0xa4, 0xfb, 0xfc, 0x0e, 0x11, 0x08, 0xa8, 0xfd, 0x17, 0xb4,
    0x48, 0xa6, 0x85, 0x54, 0x19, 0x9c, 0x47, 0xd0, 0x8f, 0xfb, 0x10, 0xd4, 0xb8]

/-- Keys of which only the generator is valid. -/
def generatorKeys : PubKeys where
  isFullyValid key := key == generator
  decompress vch := if vch = 0x02 :: (generator.drop 1).take 32 then some generator else none

theorem generatorKeys_decompresses : generatorKeys.Decompresses := by
  intro pubkey _ _ hvalid
  obtain rfl : pubkey = generator := by simpa [generatorKeys] using hvalid
  decide

def generatorCoin : Coin := ⟨⟨50 * COIN, [65] ++ generator ++ [opCheckSig]⟩, true, 1⟩

theorem coins_roundtrip_generator :
    serTxInUndo generatorKeys generatorCoin = [3, 0, 50, 4] ++ (generator.drop 1).take 32 ∧
      (unserTxInUndo generatorKeys).run (serTxInUndo generatorKeys generatorCoin) =
        .ok (generatorCoin, []) := by
  have hundo := ((coins_roundtrip generatorKeys_decompresses).1 generatorCoin (by decide)
    (by decide) (by decide) (by decide)).2 []
  exact ⟨by decide +kernel, hundo⟩

end BitcoinPurity
