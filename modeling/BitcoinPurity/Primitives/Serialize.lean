import BitcoinPurity.Lib.Codecs
import BitcoinPurity.Lib.Words
import BitcoinPurity.Primitives.Transaction

/-!
# Serialization of transactions

`WriteCompactSize` and `ReadCompactSize`, vectors, and the two formats of a transaction
(`SerializeTransaction` and `UnserializeTransaction`).  A reader fails with the exception that the
source throws.

`transaction_codec`: serialization is a canonical codec.
-/

namespace BitcoinPurity

open Codecs Words List

/-! ## Algorithm -/

/-- The exceptions of reading. -/
inductive SerError
  | endOfData
  | nonCanonicalCompactSize
  | sizeTooLarge
  | varIntTooLarge
  | superfluousWitness
  | unknownOptionalData
  deriving DecidableEq, Repr

def maxSize : Nat := 0x02000000

/-- The bytes of a length after the first, where a shorter form would do for less than `least`. -/
def readLength (bytes least : Nat) : Reader UInt8 SerError Nat := do
  let nSizeRet ← readNat .endOfData bytes
  if nSizeRet < least then throw .nonCanonicalCompactSize else return nSizeRet

/-- A length by its first byte, `chSize`. -/
def readSizeTail (chSize : UInt8) : Reader UInt8 SerError Nat :=
  if chSize < 253 then return chSize.toNat
  else if chSize = 253 then readLength 2 253
  else if chSize = 254 then readLength 4 0x10000
  else readLength 8 0x100000000

/-- `ReadCompactSize`, up to the range check. -/
def readSize : Reader UInt8 SerError Nat := do
  let chSize ← readOne .endOfData
  readSizeTail chSize

def readCompactSize : Reader UInt8 SerError Nat := do
  let nSizeRet ← readSize
  if nSizeRet > maxSize then throw .sizeTooLarge else return nSizeRet

def writeVector {α : Type} (write : α → Bytes) (v : List α) : Bytes :=
  writeCompactSize v.length ++ v.flatMap write

/-- `VectorFormatter::Unser`, which reads one element after the other. -/
def readVector {α : Type} (read : Reader UInt8 SerError α) : Reader UInt8 SerError (List α) := do
  let size ← readCompactSize
  readTimes read size

def readByteVector : Reader UInt8 SerError Bytes := do
  let size ← readCompactSize
  readBlock .endOfData size

def writeOutPoint (outpoint : COutPoint) : Bytes :=
  fixedBytes 32 outpoint.hash ++ fixedBytes 4 outpoint.n

def readOutPoint : Reader UInt8 SerError COutPoint := do
  let hash ← readNat .endOfData 32
  let n ← readNat .endOfData 4
  return ⟨hash, n⟩

/-- The witness of an input is not part of it. -/
def writeTxIn (txin : CTxIn) : Bytes :=
  writeOutPoint txin.prevout ++ (serializeBytes txin.scriptSig ++ fixedBytes 4 txin.nSequence)

def readTxIn : Reader UInt8 SerError CTxIn := do
  let prevout ← readOutPoint
  let scriptSig ← readByteVector
  let nSequence ← readNat .endOfData 4
  return ⟨prevout, scriptSig, nSequence, []⟩

/-- The `int64_t` that a word of 64 bits stands for. -/
def signed64 (n : Nat) : Int := if n < 2 ^ 63 then n else n - 2 ^ 64

def writeTxOut (txout : CTxOut) : Bytes :=
  fixedBytes 8 (word 64 txout.nValue) ++ serializeBytes txout.scriptPubKey

def readTxOut : Reader UInt8 SerError CTxOut := do
  let nValue ← readNat .endOfData 8
  let scriptPubKey ← readByteVector
  return ⟨signed64 nValue, scriptPubKey⟩

structure CMutableTransaction where
  version : Nat
  vin : List CTxIn
  vout : List CTxOut
  nLockTime : Nat
  deriving DecidableEq, Repr

def hasWitness (vin : List CTxIn) : Bool := vin.any fun txin => !txin.scriptWitness.isEmpty

def writeWitnesses (vin : List CTxIn) : Bytes :=
  vin.flatMap fun txin => writeVector serializeBytes txin.scriptWitness

/-- Read a witness stack for every input. -/
def readWitnesses : List CTxIn → Reader UInt8 SerError (List CTxIn)
  | [] => return []
  | txin :: vin => do
    let stack ← readVector readByteVector
    let vin ← readWitnesses vin
    return { txin with scriptWitness := stack } :: vin

section

variable (fAllowWitness : Bool)

def serializeTransaction (tx : CMutableTransaction) : Bytes :=
  if fAllowWitness && hasWitness tx.vin then
    fixedBytes 4 tx.version ++ (writeVector writeTxIn [] ++ ([1] ++ (writeVector writeTxIn tx.vin ++
      (writeVector writeTxOut tx.vout ++ (writeWitnesses tx.vin ++ fixedBytes 4 tx.nLockTime)))))
  else
    fixedBytes 4 tx.version ++ (writeVector writeTxIn tx.vin ++
      (writeVector writeTxOut tx.vout ++ fixedBytes 4 tx.nLockTime))

/-- The flags, the inputs and the outputs, when the inputs (or a dummy) have been read. -/
def readFlags (vin : List CTxIn) : Reader UInt8 SerError (UInt8 × List CTxIn × List CTxOut) :=
  if vin.isEmpty && fAllowWitness then do
    let flags ← readOne .endOfData
    if flags ≠ 0 then
      let vin ← readVector readTxIn
      let vout ← readVector readTxOut
      return (flags, vin, vout)
    else return (flags, vin, [])
  else do
    let vout ← readVector readTxOut
    return (0, vin, vout)

/-- The witnesses, when the flag for them is there, and the check of the other flags. -/
def readOptional (flags : UInt8) (vin : List CTxIn) : Reader UInt8 SerError (List CTxIn) :=
  if flags &&& 1 ≠ 0 && fAllowWitness then do
    let vin ← readWitnesses vin
    if !hasWitness vin then throw .superfluousWitness
    else if flags ^^^ 1 ≠ 0 then throw .unknownOptionalData
    else return vin
  else if flags ≠ 0 then throw .unknownOptionalData
  else return vin

def unserializeTransaction : Reader UInt8 SerError CMutableTransaction := do
  let version ← readNat .endOfData 4
  let vin ← readVector readTxIn
  let (flags, vin, vout) ← readFlags fAllowWitness vin
  let vin ← readOptional fAllowWitness flags vin
  let nLockTime ← readNat .endOfData 4
  return ⟨version, vin, vout, nLockTime⟩

end

/-! ## Lengths and vectors -/

theorem writeLE_eq_fixedBytes (k n : Nat) : writeLE k n = fixedBytes k n := by
  induction k generalizing n with
  | zero => rfl
  | succ k ih =>
    rw [writeLE, fixedBytes, ih]

theorem writeCompactSize_cases (n : Nat) : (n < 253 ∧ writeCompactSize n = [n.toUInt8]) ∨
    ((253 ≤ n ∧ n ≤ 0xffff) ∧ writeCompactSize n = 253 :: fixedBytes 2 n) ∨
    ((0xffff < n ∧ n ≤ 0xffffffff) ∧ writeCompactSize n = 254 :: fixedBytes 4 n) ∨
    (0xffffffff < n ∧ writeCompactSize n = 255 :: fixedBytes 8 n) := by
  simp only [writeCompactSize, writeLE_eq_fixedBytes]
  grind

theorem byte_cases (b : UInt8) : b < 253 ∨ b = 253 ∨ b = 254 ∨ b = 255 := by
  have hb := b.toNat_lt
  rw [← UInt8.toNat_inj, ← UInt8.toNat_inj, ← UInt8.toNat_inj]
  show b.toNat < 253 ∨ b.toNat = 253 ∨ b.toNat = 254 ∨ b.toNat = 255
  omega

variable {n : Nat} {mid rest bs : Bytes} {fAllowWitness : Bool} {flags : UInt8}

theorem toUInt8_lt (h : n < 253) : n.toUInt8 < 253 ∧ n.toUInt8.toNat = n := by
  have hn : n.toUInt8.toNat = n := by
    simp
    omega
  refine ⟨?_, hn⟩
  rw [UInt8.lt_iff_toNat_lt, hn]
  exact h

theorem run_marked {marker : UInt8} {bytes least : Nat}
    (hread : readSizeTail marker = readLength bytes least) (hbytes : 256 ^ bytes ≤ 2 ^ 64)
    (hform : ∀ n, least ≤ n → n < 256 ^ bytes → writeCompactSize n = marker :: fixedBytes bytes n)
    (honly : ∀ n t, n < 2 ^ 64 → writeCompactSize n = marker :: t → least ≤ n ∧ n < 256 ^ bytes) :
    (readSizeTail marker).run mid = .ok (n, rest) ↔
      n < 2 ^ 64 ∧ marker :: mid = writeCompactSize n ++ rest := by
  have hcodec : Codec (fixedBytes bytes) (readLength bytes least) _ :=
    (codec_readNat SerError.endOfData bytes).check .nonCanonicalCompactSize
  rw [hread, hcodec mid n rest]
  constructor
  · grind
  · rintro ⟨hn, h⟩
    cases hw : writeCompactSize n with
    | nil =>
      rcases writeCompactSize_cases n with ⟨-, h'⟩ | ⟨-, h'⟩ | ⟨-, h'⟩ | ⟨-, h'⟩ <;>
        rw [h'] at hw <;> cases hw
    | cons b t => grind

theorem run_readSizeTail {chSize : UInt8} : (readSizeTail chSize).run mid = .ok (n, rest) ↔
      n < 2 ^ 64 ∧ chSize :: mid = writeCompactSize n ++ rest := by
  have hcases := writeCompactSize_cases
  rcases byte_cases chSize with hb | rfl | rfl | rfl
  · rw [readSizeTail, if_pos hb, run_pure]
    rcases hcases n with ⟨hn, hw⟩ | ⟨hn, hw⟩ | ⟨hn, hw⟩ | ⟨hn, hw⟩
    · rw [hw, singleton_append, cons.injEq]
      constructor
      · rintro ⟨rfl, rfl⟩
        exact ⟨by omega, by simp, rfl⟩
      · rintro ⟨-, rfl, rfl⟩
        exact ⟨(toUInt8_lt hn).2, rfl⟩
    all_goals
      have hlow : chSize.toNat < 253 := UInt8.lt_iff_toNat_lt.1 hb
      grind
  -- the three markers: the sizes that begin with one are those that need its number of bytes
  all_goals
    refine run_marked rfl (by decide) (fun n hge hlt => ?_) fun n t hn h => ?_
    · grind
    · rcases hcases n with ⟨hn, hw⟩ | ⟨hn, hw⟩ | ⟨hn, hw⟩ | ⟨hn, hw⟩ <;>
        rw [hw, cons.injEq] at h
      · exact absurd (h.1 ▸ (toUInt8_lt hn).1) (by decide)
      all_goals first | omega | exact absurd h.1 (by decide)

theorem codec_readSize : Codec writeCompactSize readSize (fun n => n < 2 ^ 64) := by
  intro bs n rest
  rw [readSize, (codec_readOne SerError.endOfData).run_bind]
  constructor
  · rintro ⟨b, mid, ⟨-, rfl⟩, h⟩
    exact run_readSizeTail.1 h
  · rintro ⟨hn, rfl⟩
    cases hw : writeCompactSize n with
    | nil =>
      rcases writeCompactSize_cases n with ⟨-, h'⟩ | ⟨-, h'⟩ | ⟨-, h'⟩ | ⟨-, h'⟩ <;>
        rw [h'] at hw <;> cases hw
    | cons b t => exact ⟨b, t ++ rest, ⟨trivial, rfl⟩, run_readSizeTail.2 ⟨hn, by rw [hw]; rfl⟩⟩

/-- **A length has one encoding.** -/
theorem codec_compactSize : Codec writeCompactSize readCompactSize (fun n => n ≤ maxSize) := by
  intro bs n rest
  rw [readCompactSize, codec_readSize.check SerError.sizeTooLarge bs n rest]
  have hmax : maxSize < 2 ^ 64 := by decide
  refine and_congr_left fun _ => ?_
  omega

theorem codec_vector {α : Type} {write : α → Bytes} {read : Reader UInt8 SerError α}
    {valid : α → Prop} (h : Codec write read valid) :
    Codec (writeVector write) (readVector read)
      (fun v => v.length ≤ maxSize ∧ ∀ a ∈ v, valid a) := by
  intro bs v rest
  rw [readVector, codec_compactSize.run_bind]
  constructor
  · rintro ⟨size, mid, ⟨hsize, rfl⟩, hnext⟩
    obtain ⟨⟨hlen, hv⟩, rfl⟩ := (h.times size mid v rest).1 hnext
    exact ⟨⟨hlen.trans_le hsize, hv⟩, by rw [writeVector, hlen, append_assoc]⟩
  · rintro ⟨⟨hlen, hv⟩, rfl⟩
    exact ⟨v.length, v.flatMap write ++ rest, ⟨hlen, append_assoc _ _ _⟩,
      (h.times v.length _ v rest).2 ⟨⟨rfl, hv⟩, rfl⟩⟩

theorem codec_byteVector : Codec serializeBytes readByteVector (fun v => v.length ≤ maxSize) := by
  intro bs v rest
  rw [readByteVector, codec_compactSize.run_bind]
  constructor
  · rintro ⟨size, mid, ⟨hsize, rfl⟩, hnext⟩
    obtain ⟨rfl, rfl⟩ := (codec_readBlock SerError.endOfData size mid v rest).1 hnext
    exact ⟨hsize, by rw [serializeBytes, append_assoc]⟩
  · rintro ⟨hlen, rfl⟩
    exact ⟨v.length, v ++ rest, ⟨hlen, append_assoc _ _ _⟩,
      (codec_readBlock SerError.endOfData v.length _ v rest).2 ⟨rfl, rfl⟩⟩

/-! ## Inputs and outputs -/

def COutPoint.Fits (outpoint : COutPoint) : Prop :=
  outpoint.hash < 2 ^ 256 ∧ outpoint.n < 2 ^ 32

/-- The fields are within their types and the lengths within the limit. -/
structure CTxIn.Fits (txin : CTxIn) : Prop where
  prevout : txin.prevout.Fits
  scriptSig : txin.scriptSig.length ≤ maxSize
  nSequence : txin.nSequence < 2 ^ 32
  witness : txin.scriptWitness.length ≤ maxSize ∧
    ∀ item ∈ txin.scriptWitness, item.length ≤ maxSize

structure CTxOut.Fits (txout : CTxOut) : Prop where
  nValue : -2 ^ 63 ≤ txout.nValue ∧ txout.nValue < 2 ^ 63
  scriptPubKey : txout.scriptPubKey.length ≤ maxSize

theorem codec_outPoint : Codec writeOutPoint readOutPoint COutPoint.Fits := by
  refine (codec_readNat SerError.endOfData 32).both (codec_readNat SerError.endOfData 4)
    (fun a c ha hc => ⟨⟨?_, ?_⟩, rfl, rfl⟩) fun d hd => ⟨?_, ?_, rfl⟩
  · exact ha.trans_eq (by norm_num)
  · exact hc.trans_eq (by norm_num)
  · exact hd.1.trans_eq (by norm_num)
  · exact hd.2.trans_eq (by norm_num)

variable (txin : CTxIn)

/-- An input as it is read: without witness. -/
def CTxIn.Bare : Prop := txin.Fits ∧ txin.scriptWitness = []

theorem codec_txIn : Codec writeTxIn readTxIn CTxIn.Bare := by
  have h : Codec _ _ CTxIn.Bare := codec_outPoint.both
    (codec_byteVector.pair (codec_readNat SerError.endOfData 4))
    (f := fun prevout p => ⟨prevout, p.1, p.2, []⟩)
    (k := fun txin => (txin.scriptSig, txin.nSequence))
    (fun a c ha hc => ⟨⟨⟨ha, hc.1, hc.2.trans_eq (by norm_num), by simp⟩, rfl⟩, rfl, rfl⟩)
    (fun d hd => ⟨hd.1.prevout, ⟨hd.1.scriptSig, hd.1.nSequence.trans_eq (by norm_num)⟩, by
      rw [← hd.2]⟩)
  simp only [bind_assoc] at h
  exact h

theorem signed64_word {x : Int} (h : -2 ^ 63 ≤ x ∧ x < 2 ^ 63) : signed64 (word 64 x) = x := by
  have hcast := cast_word 64 x
  rw [signed64]
  split
  · omega
  · omega

theorem word_signed64 (h : n < 2 ^ 64) : word 64 (signed64 n) = n := by
  have hcast := cast_word 64 (signed64 n)
  rw [signed64] at hcast ⊢
  by_cases hlt : n < 2 ^ 63
  · omega
  · omega

theorem signed64_fits (h : n < 2 ^ 64) : -2 ^ 63 ≤ signed64 n ∧ signed64 n < 2 ^ 63 := by
  rw [signed64]
  split
  · omega
  · omega

theorem word_lt (x : Int) : word 64 x < 2 ^ 64 := by
  have hcast := cast_word 64 x
  omega

theorem codec_txOut : Codec writeTxOut readTxOut CTxOut.Fits := by
  refine (codec_readNat SerError.endOfData 8).both codec_byteVector
    (fun a c ha hc => ?_) fun d hd => ?_
  · exact ⟨⟨signed64_fits ha, hc⟩, word_signed64 ha, rfl⟩
  · refine ⟨(word_lt _).trans_eq (by norm_num), hd.scriptPubKey, ?_⟩
    rw [signed64_word hd.nValue]

/-! ## Witnesses -/

def CTxIn.bare : CTxIn := { txin with scriptWitness := [] }

theorem writeVector_bare (vin : List CTxIn) :
    writeVector writeTxIn (vin.map CTxIn.bare) = writeVector writeTxIn vin := by
  rw [writeVector, length_map, flatMap_map]
  rfl

theorem hasWitness_eq_false {vin : List CTxIn} :
    hasWitness vin = false ↔ ∀ txin ∈ vin, txin.scriptWitness = [] := by
  simp [hasWitness]

theorem writeWitnesses_cons (vin : List CTxIn) : writeWitnesses (txin :: vin) =
      writeVector serializeBytes txin.scriptWitness ++ writeWitnesses vin := by
  simp [writeWitnesses]

theorem run_readWitnesses {bare vin : List CTxIn} (hbare : ∀ txin ∈ bare, txin.scriptWitness = []) :
    (readWitnesses bare).run bs = .ok (vin, rest) ↔ vin.map CTxIn.bare = bare ∧
        (∀ txin ∈ vin, txin.scriptWitness.length ≤ maxSize ∧
          ∀ item ∈ txin.scriptWitness, item.length ≤ maxSize) ∧
        bs = writeWitnesses vin ++ rest := by
  have hstack := codec_vector codec_byteVector
  induction bare generalizing vin bs rest with
  | nil =>
    rw [readWitnesses, run_pure, map_eq_nil_iff]
    constructor
    · rintro ⟨rfl, rfl⟩
      simp [writeWitnesses]
    · rintro ⟨rfl, -, rfl⟩
      simp
  | cons b bare ih =>
    have hb := hbare b mem_cons_self
    have hbare' : ∀ txin ∈ bare, txin.scriptWitness = [] :=
      fun txin htxin => hbare txin (.tail _ htxin)
    rw [readWitnesses, hstack.run_bind]
    constructor
    · rintro ⟨stack, mid, ⟨hvalid, rfl⟩, hnext⟩
      obtain ⟨vin', mid', hvin', hpure⟩ := run_bind.1 hnext
      obtain ⟨hmap, hall, rfl⟩ := (ih hbare').1 hvin'
      obtain ⟨rfl, rfl⟩ := run_pure.1 hpure
      refine ⟨?_, ?_, ?_⟩
      · rw [map_cons, hmap, CTxIn.bare, ← hb]
      · grind
      · rw [writeWitnesses_cons, append_assoc]
    · rintro ⟨hmap, hall, rfl⟩
      cases vin with
      | nil => cases hmap
      | cons txin vin =>
        rw [map_cons, cons.injEq] at hmap
        obtain ⟨rfl, hmap⟩ := hmap
        refine ⟨txin.scriptWitness, writeWitnesses vin ++ rest, ⟨hall txin mem_cons_self, ?_⟩,
          run_bind.2 ⟨vin, rest, (ih hbare').2 ⟨hmap, fun t ht => hall t (.tail _ ht), rfl⟩, ?_⟩⟩
        · rw [writeWitnesses_cons, append_assoc]
        · exact run_pure.2 ⟨rfl, rfl⟩

/-! ## Transactions -/

/-- The fields are within their types and the lengths within the limit. -/
structure CMutableTransaction.Fits (tx : CMutableTransaction) : Prop where
  version : tx.version < 2 ^ 32
  vin : tx.vin.length ≤ maxSize ∧ ∀ txin ∈ tx.vin, txin.Fits
  vout : tx.vout.length ≤ maxSize ∧ ∀ txout ∈ tx.vout, txout.Fits
  nLockTime : tx.nLockTime < 2 ^ 32

theorem codec_uint32 :
    Codec (fixedBytes 4) (readNat SerError.endOfData 4) (fun n => n < 2 ^ 32) := by
  intro bs n rest
  rw [codec_readNat SerError.endOfData 4 bs n rest]
  norm_num

theorem codec_vin : Codec (writeVector writeTxIn) (readVector readTxIn)
    (fun vin => vin.length ≤ maxSize ∧ ∀ txin ∈ vin, txin.Bare) := codec_vector codec_txIn

theorem codec_vout : Codec (writeVector writeTxOut) (readVector readTxOut)
    (fun vout => vout.length ≤ maxSize ∧ ∀ txout ∈ vout, txout.Fits) := codec_vector codec_txOut

theorem run_readFlags {vin0 vin : List CTxIn} {vout : List CTxOut} :
    (readFlags fAllowWitness vin0).run bs = .ok ((flags, vin, vout), rest) ↔
      (((vin0.isEmpty && fAllowWitness) = false ∧ flags = 0 ∧ vin = vin0 ∧
          (vout.length ≤ maxSize ∧ ∀ txout ∈ vout, txout.Fits) ∧
          bs = writeVector writeTxOut vout ++ rest) ∨
        ((vin0.isEmpty && fAllowWitness) ∧ flags = 0 ∧ vin = vin0 ∧ vout = [] ∧ bs = 0 :: rest) ∨
        ((vin0.isEmpty && fAllowWitness) ∧ flags ≠ 0 ∧
          (vin.length ≤ maxSize ∧ ∀ txin ∈ vin, txin.Bare) ∧
          (vout.length ≤ maxSize ∧ ∀ txout ∈ vout, txout.Fits) ∧
          bs = flags :: (writeVector writeTxIn vin ++ (writeVector writeTxOut vout ++ rest)))) := by
  rw [readFlags]
  cases hdummy : (vin0.isEmpty && fAllowWitness) with
  | false =>
    rw [if_neg (by decide), codec_vout.run_bind]
    constructor
    · rintro ⟨vout', mid, ⟨hvout, rfl⟩, hpure⟩
      obtain ⟨heq, rfl⟩ := run_pure.1 hpure
      grind
    · rintro (⟨-, rfl, rfl, hvout, rfl⟩ | ⟨h, -⟩ | ⟨h, -⟩)
      · exact ⟨vout, rest, ⟨hvout, rfl⟩, run_pure.2 ⟨rfl, rfl⟩⟩
      · cases h
      · cases h
  | true =>
    rw [if_pos rfl, (codec_readOne SerError.endOfData).run_bind]
    constructor
    · rintro ⟨b, mid, ⟨-, rfl⟩, hnext⟩
      split at hnext
      next hb =>
        obtain ⟨vin', mid', ⟨hvin, rfl⟩, hnext'⟩ := codec_vin.run_bind.1 hnext
        obtain ⟨vout', mid'', ⟨hvout, rfl⟩, hpure⟩ := codec_vout.run_bind.1 hnext'
        obtain ⟨heq, rfl⟩ := run_pure.1 hpure
        grind
      next hb =>
        obtain ⟨heq, rfl⟩ := run_pure.1 hnext
        grind
    · rintro (⟨h, -⟩ | ⟨-, rfl, rfl, rfl, rfl⟩ | ⟨-, hb, hvin, hvout, rfl⟩)
      · cases h
      · exact ⟨0, rest, ⟨trivial, rfl⟩, run_pure.2 ⟨rfl, rfl⟩⟩
      · refine ⟨flags, writeVector writeTxIn vin ++ (writeVector writeTxOut vout ++ rest),
          ⟨trivial, rfl⟩, ?_⟩
        rw [if_pos hb, codec_vin.bind_append hvin, codec_vout.bind_append hvout]
        exact run_pure.2 ⟨rfl, rfl⟩

theorem run_readOptional {bare vin : List CTxIn} (hbare : ∀ txin ∈ bare, txin.scriptWitness = []) :
    (readOptional fAllowWitness flags bare).run bs = .ok (vin, rest) ↔
      ((flags = 0 ∧ vin = bare ∧ bs = rest) ∨
        (fAllowWitness ∧ flags = 1 ∧ hasWitness vin ∧ vin.map CTxIn.bare = bare ∧
          (∀ txin ∈ vin, txin.scriptWitness.length ≤ maxSize ∧
            ∀ item ∈ txin.scriptWitness, item.length ≤ maxSize) ∧
          bs = writeWitnesses vin ++ rest)) := by
  rw [readOptional]
  by_cases hflag : (flags &&& 1 ≠ 0 && fAllowWitness)
  · have hflags : flags ≠ 0 := by
      rintro rfl
      simp at hflag
    rw [if_pos hflag, run_bind]
    rw [Bool.and_eq_true] at hflag
    constructor
    · rintro ⟨vin', mid, hread, hcheck⟩
      obtain ⟨hmap, hall, rfl⟩ := (run_readWitnesses hbare).1 hread
      cases hw : hasWitness vin' with
      | false =>
        rw [hw] at hcheck
        exact absurd hcheck run_throw
      | true =>
        rw [hw, if_neg (by decide)] at hcheck
        split at hcheck
        · exact absurd hcheck run_throw
        next hx =>
        obtain ⟨rfl, rfl⟩ := run_pure.1 hcheck
        exact .inr ⟨hflag.2, UInt8.xor_eq_zero_iff.1 (not_not.1 hx), hw, hmap, hall, rfl⟩
    · rintro (⟨h, -⟩ | ⟨-, rfl, hw, hmap, hall, rfl⟩)
      · exact absurd h hflags
      · refine ⟨vin, rest, (run_readWitnesses hbare).2 ⟨hmap, hall, rfl⟩, ?_⟩
        rw [hw]
        exact run_pure.2 ⟨rfl, rfl⟩
  · rw [if_neg hflag]
    by_cases hzero : flags = 0
    · rw [if_neg (not_not.2 hzero), run_pure]
      grind
    · rw [if_pos hzero]
      refine iff_of_false run_throw ?_
      grind

theorem CTxIn.Fits.bare {txin : CTxIn} (h : txin.Fits) : txin.bare.Bare :=
  ⟨⟨h.prevout, h.scriptSig, h.nSequence, by simp [CTxIn.bare]⟩, rfl⟩

section
variable {tx : CMutableTransaction}

theorem serializeTransaction_witness (h : hasWitness tx.vin) (rest : Bytes) :
    serializeTransaction true tx ++ rest =
      fixedBytes 4 tx.version ++ (writeVector writeTxIn [] ++ (1 :: (writeVector writeTxIn tx.vin ++
        (writeVector writeTxOut tx.vout ++
          (writeWitnesses tx.vin ++ (fixedBytes 4 tx.nLockTime ++ rest)))))) := by
  rw [serializeTransaction, h, Bool.and_true]
  simp

variable {fAllowWitness : Bool}

theorem serializeTransaction_plain (h : hasWitness tx.vin = false) (rest : Bytes) :
    serializeTransaction fAllowWitness tx ++ rest =
      fixedBytes 4 tx.version ++ (writeVector writeTxIn tx.vin ++
        (writeVector writeTxOut tx.vout ++ (fixedBytes 4 tx.nLockTime ++ rest))) := by
  rw [serializeTransaction, h, Bool.and_false]
  simp

theorem run_unserialize_plain (h : tx.Fits) (hw : hasWitness tx.vin = false)
    (hvin : (tx.vin.isEmpty && fAllowWitness) = false) (rest : Bytes) :
    (unserializeTransaction fAllowWitness).run (serializeTransaction fAllowWitness tx ++ rest) =
      .ok (tx, rest) := by
  have hnone := hasWitness_eq_false.1 hw
  have hbare : tx.vin.length ≤ maxSize ∧ ∀ txin ∈ tx.vin, txin.Bare :=
    ⟨h.vin.1, fun txin htxin => ⟨h.vin.2 txin htxin, hnone txin htxin⟩⟩
  rw [serializeTransaction_plain hw, unserializeTransaction, codec_uint32.bind_append h.version,
    codec_vin.bind_append hbare]
  rw [bind_of_run (run_readFlags.2 (.inl ⟨hvin, rfl, rfl, h.vout, rfl⟩))]
  rw [bind_of_run ((run_readOptional hnone).2 (.inl ⟨rfl, rfl, rfl⟩)),
    codec_uint32.bind_append h.nLockTime]
  exact run_pure.2 ⟨rfl, rfl⟩

theorem run_unserialize_witness (h : tx.Fits) (hw : hasWitness tx.vin) (rest : Bytes) :
    (unserializeTransaction true).run (serializeTransaction true tx ++ rest) = .ok (tx, rest) := by
  have hbare : (tx.vin.map CTxIn.bare).length ≤ maxSize ∧
      ∀ txin ∈ tx.vin.map CTxIn.bare, txin.Bare := by
    refine ⟨by rw [length_map]; exact h.vin.1, fun txin htxin => ?_⟩
    obtain ⟨t, ht, rfl⟩ := mem_map.1 htxin
    exact (h.vin.2 t ht).bare
  have hall : ∀ txin ∈ tx.vin, txin.scriptWitness.length ≤ maxSize ∧
      ∀ item ∈ txin.scriptWitness, item.length ≤ maxSize :=
    fun txin htxin => (h.vin.2 txin htxin).witness
  rw [serializeTransaction_witness hw, unserializeTransaction, codec_uint32.bind_append h.version,
    codec_vin.bind_append (by simp)]
  rw [← writeVector_bare, bind_of_run (run_readFlags.2
    (.inr (.inr ⟨rfl, (by decide : (1 : UInt8) ≠ 0), hbare, h.vout, rfl⟩)))]
  rw [bind_of_run ((run_readOptional fun txin htxin => (hbare.2 txin htxin).2).2
      (.inr ⟨rfl, rfl, hw, rfl, hall, rfl⟩)),
    codec_uint32.bind_append h.nLockTime]
  exact run_pure.2 ⟨rfl, rfl⟩

theorem run_unserialize_empty (h : tx.Fits) (hvin : tx.vin = []) (hvout : tx.vout = [])
    (rest : Bytes) :
    (unserializeTransaction true).run (serializeTransaction true tx ++ rest) = .ok (tx, rest) := by
  have hw : hasWitness tx.vin = false := by rw [hvin]; rfl
  rw [serializeTransaction_plain hw, hvin, hvout, unserializeTransaction,
    codec_uint32.bind_append h.version, codec_vin.bind_append (by simp)]
  have hzero : writeVector writeTxOut [] ++ (fixedBytes 4 tx.nLockTime ++ rest) =
      0 :: (fixedBytes 4 tx.nLockTime ++ rest) := rfl
  rw [hzero, bind_of_run (run_readFlags.2 (.inr (.inl ⟨rfl, rfl, rfl, rfl, rfl⟩)))]
  rw [bind_of_run ((run_readOptional (by simp)).2 (.inl ⟨rfl, rfl, rfl⟩)),
    codec_uint32.bind_append h.nLockTime]
  refine run_pure.2 ⟨?_, rfl⟩
  rw [← hvin, ← hvout]

end

/-- **What is accepted with witnesses allowed** is what is written for a transaction that has an
input, or neither inputs nor outputs. -/
theorem unserializeTransaction_iff {tx : CMutableTransaction} {bs rest : Bytes} :
    (unserializeTransaction true).run bs = .ok (tx, rest) ↔
      (tx.Fits ∧ (tx.vin = [] → tx.vout = [])) ∧ bs = serializeTransaction true tx ++ rest := by
  constructor
  · rw [unserializeTransaction, codec_uint32.run_bind]
    rintro ⟨version, mid1, ⟨hversion, rfl⟩, h1⟩
    obtain ⟨vin0, mid2, ⟨hvin0, rfl⟩, h2⟩ := codec_vin.run_bind.1 h1
    obtain ⟨⟨flags, bare, vout⟩, mid3, hflags, h3⟩ := run_bind.1 h2
    obtain ⟨vin, mid4, hoptional, h4⟩ := run_bind.1 h3
    obtain ⟨nLockTime, mid5, ⟨hlock, rfl⟩, h5⟩ := codec_uint32.run_bind.1 h4
    obtain ⟨rfl, rfl⟩ := run_pure.1 h5
    have hnone : ∀ txin ∈ vin0, txin.scriptWitness = [] := fun txin h => (hvin0.2 txin h).2
    have hfits : ∀ txin ∈ vin0, txin.Fits := fun txin h => (hvin0.2 txin h).1
    rcases run_readFlags.1 hflags with ⟨hne, rfl, rfl, hvout, rfl⟩ | ⟨hempty, rfl, rfl, rfl, rfl⟩ |
      ⟨hempty, hflag, hbare, hvout, rfl⟩
    · -- a normal transaction
      rcases (run_readOptional hnone).1 hoptional with ⟨-, rfl, rfl⟩ | ⟨-, h, -⟩
      · refine ⟨⟨⟨hversion, ⟨hvin0.1, hfits⟩, hvout, hlock⟩, ?_⟩, ?_⟩
        · rintro rfl
          simp at hne
        · rw [serializeTransaction_plain (hasWitness_eq_false.2 hnone)]
      · exact absurd h (by decide)
    · -- no inputs and no outputs
      rcases (run_readOptional hnone).1 hoptional with ⟨-, rfl, rfl⟩ | ⟨-, h, -⟩
      · refine ⟨⟨⟨hversion, ⟨hvin0.1, hfits⟩, by simp, hlock⟩, fun _ => rfl⟩, ?_⟩
        rw [serializeTransaction_plain (hasWitness_eq_false.2 hnone)]
        rfl
      · exact absurd h (by decide)
    · -- the extended format
      obtain rfl : vin0 = [] := by simpa using hempty
      rcases (run_readOptional fun txin h => (hbare.2 txin h).2).1 hoptional with
        ⟨h, -⟩ | ⟨-, rfl, hw, hmap, hall, rfl⟩
      · exact absurd h hflag
      have hfits : vin.length ≤ maxSize ∧ ∀ txin ∈ vin, txin.Fits := by
        rw [← hmap, length_map] at hbare
        refine ⟨hbare.1, fun txin htxin => ?_⟩
        obtain ⟨h, -⟩ := hbare.2 txin.bare (mem_map_of_mem htxin)
        exact ⟨h.prevout, h.scriptSig, h.nSequence, hall txin htxin⟩
      refine ⟨⟨⟨hversion, hfits, hvout, hlock⟩, ?_⟩, ?_⟩
      · rintro rfl
        simp [hasWitness] at hw
      · rw [serializeTransaction_witness hw, ← hmap, writeVector_bare]
  · rintro ⟨⟨h, hvin⟩, rfl⟩
    cases hw : hasWitness tx.vin with
    | true => exact run_unserialize_witness h hw rest
    | false =>
      by_cases hempty : tx.vin = []
      · exact run_unserialize_empty h hempty (hvin hempty) rest
      · exact run_unserialize_plain h hw (by simpa using hempty) rest

/-- **Serialization of transactions is a canonical codec.** -/
theorem transaction_codec : (∀ tx : CMutableTransaction, tx.Fits → tx.vin ≠ [] → ∀ rest : Bytes,
      (unserializeTransaction true).run (serializeTransaction true tx ++ rest) = .ok (tx, rest) ∧
      (hasWitness tx.vin = false →
        (unserializeTransaction false).run (serializeTransaction false tx ++ rest) =
          .ok (tx, rest))) ∧
    (∀ (bs : Bytes) (tx : CMutableTransaction),
      (unserializeTransaction true).run bs = .ok (tx, []) → serializeTransaction true tx = bs) ∧
    ∀ (bs bs' : Bytes) (tx : CMutableTransaction),
      (unserializeTransaction true).run bs = .ok (tx, []) →
      (unserializeTransaction true).run bs' = .ok (tx, []) → bs = bs' := by
  have hcanonical bs tx
      (h : (unserializeTransaction true).run bs = .ok (tx, [])) :
      serializeTransaction true tx = bs := by
    rw [(unserializeTransaction_iff.1 h).2, append_nil]
  refine ⟨fun tx h hvin rest => ⟨?_, fun hw => ?_⟩, hcanonical, fun bs bs' tx h h' => ?_⟩
  · exact unserializeTransaction_iff.2 ⟨⟨h, fun hempty => absurd hempty hvin⟩, rfl⟩
  · exact run_unserialize_plain h hw (Bool.and_false _) rest
  · rw [← hcanonical bs tx h, hcanonical bs' tx h']

def emptyItemTx : CMutableTransaction :=
  { version := 2, vin := [⟨⟨7, 0⟩, [], 0xffffffff, [[]]⟩], vout := [⟨-1, [0x51]⟩], nLockTime := 0 }

theorem transaction_codec_emptyItem :
    emptyItemTx.Fits ∧ (unserializeTransaction true).run (serializeTransaction true emptyItemTx ++
      [0x00]) = .ok (emptyItemTx, [0x00]) := by
  have hfits : emptyItemTx.Fits := by
    refine ⟨by decide, ⟨by decide, ?_⟩, ⟨by decide, ?_⟩, by decide⟩
    · intro txin htxin
      obtain rfl := mem_singleton.1 htxin
      exact ⟨by constructor <;> decide, by decide, by decide, by decide⟩
    · intro txout htxout
      obtain rfl := mem_singleton.1 htxout
      exact ⟨by decide, by decide⟩
  exact ⟨hfits, (transaction_codec.1 emptyItemTx hfits (by decide) [0x00]).1⟩

end BitcoinPurity
