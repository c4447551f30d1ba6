import BitcoinPurity.Lib.KeyMap
import BitcoinPurity.UniValue.Read

/-!
# Official data packages

`kernel/official_packages.cpp`: the payload of a manifest that is signed, the check of its
signature and the packages that are read from it.  The hash, the signature scheme and the base64
decoder are parameters (`ManifestEnv`), as are the parameters of the chain the node runs on.
-/

namespace BitcoinPurity

open UniValue

inductive OfficialPackageTrustPolicy
  | remoteSigned
  | localFile
  deriving DecidableEq, Repr

/-- `OfficialDataPackage`; a `uint256` is its 32 bytes. -/
structure OfficialDataPackage where
  id : Bytes
  snapshotHeight : Int
  baseBlockhash : Bytes
  pruneMib : Int
  downloadUri : Bytes
  archiveSha256 : Bytes
  archiveSizeBytes : Nat
  extractedSizeBytes : Nat
  deriving DecidableEq, Repr

inductive ChainType
  | main
  | testnet
  | signet
  | regtest
  | testnet4
  deriving DecidableEq, Repr

/-- What `IsOfficialSnapshotTrusted` reads of `CChainParams`. -/
structure SnapshotParams where
  /-- The `blockhash` of `AssumeutxoForHeight`. -/
  assumeutxoForHeight : Int → Option Bytes
  mapCheckpoints : Int → Option Bytes
  chainType : ChainType
  nPurityActivationHeight : Int

/-- The hash, the keys and the chain parameters that a manifest is checked with. -/
structure ManifestEnv (Key : Type) where
  sha256 : Bytes → Bytes
  decodeBase64 : Bytes → Option Bytes
  isFullyValid : Key → Bool
  verify : Key → Bytes → Bytes → Bool
  embeddedSigningPubKey : Option Key
  chainparams : Option SnapshotParams

def minPruneMib : Int := 550

def isNullHash (hash : Bytes) : Bool := hash.all (· == 0)

/-! ## Texts in hexadecimal -/

def isSpaceChar (c : UInt8) : Bool := decide (c = 0x20 ∨ (0x09 ≤ c ∧ c ≤ 0x0d))

def tryParseHex : Bytes → Option Bytes
  | [] => some []
  | [c] => if isSpaceChar c then some [] else none
  | c₁ :: c₂ :: rest =>
    if isSpaceChar c₁ then tryParseHex (c₂ :: rest)
    else do
      let d₁ ← hexValue c₁
      let d₂ ← hexValue c₂
      let vch ← tryParseHex rest
      return (16 * d₁ + d₂).toUInt8 :: vch

def parseStandardSha256Hex (hex : Bytes) : Option Bytes := do
  let bytes ← tryParseHex hex
  if bytes.length = 32 && !isNullHash bytes then some bytes else none

def removePrefixView (text pre : Bytes) : Bytes :=
  if pre.isPrefixOf text then text.drop pre.length else text

/-- `FromHex<uint256>`: the digits stand in the reverse order of the bytes. -/
def uint256FromHex (text : Bytes) : Option Bytes :=
  if text.length = 64 && text.all (fun c => (hexValue c).isSome) then
    (tryParseHex text).map List.reverse
  else none

def uint256FromUserHex (input : Bytes) : Option Bytes :=
  let input := removePrefixView input (ascii "0x")
  uint256FromHex (List.replicate (64 - input.length) 0x30 ++ input)

/-! ## Download addresses -/

def toLowerAscii (input : Bytes) : Bytes :=
  input.map fun c => if 0x41 ≤ c ∧ c ≤ 0x5a then c + 0x20 else c

def isAllowedDownloadHost (host : Bytes) : Bool :=
  [ascii "downloads.bitcoinpurity.org"].contains (toLowerAscii host)

def httpsPrefix : Bytes := ascii "https://"

def extractUriHost (uri : Bytes) : Option Bytes :=
  if !httpsPrefix.isPrefixOf uri then none
  else
    let uri := uri.drop httpsPrefix.length
    if uri.contains 0x40 then none
    else
      let host := uri.takeWhile fun c => c != 0x2f && c != 0x3a
      -- `end == 0` holds for a separator in the first place, not for an empty rest
      if host.isEmpty && !uri.isEmpty then none else some host

def isOfficialDownloadUriAllowed (uri : Bytes) (trustPolicy : OfficialPackageTrustPolicy) : Bool :=
  if uri.isEmpty then false
  else if trustPolicy = .localFile then true
  else if !httpsPrefix.isPrefixOf uri then false
  else (extractUriHost uri).any isAllowedDownloadHost

/-! ## Packages -/

section

variable (key : Bytes) (entry : UniValue)

/-- A size that is left at 0 when it is absent or not a number. -/
def sizeField : Nat :=
  if entry.hasKey key then ((entry.findValue key).getUInt64).getD 0 else 0

/-- `find_value` of a key that must be there, read as a string. -/
def strField : Option Bytes :=
  if entry.hasKey key then (entry.findValue key).getStr else none

/-- `find_value` of a key that must be there, read as an `int`. -/
def intField : Option Int :=
  if entry.hasKey key then (entry.findValue key).getInt else none

end

/-- `ParsePackage`; `none` for `nullopt`, also where an exception is caught. -/
def parsePackage (entry : UniValue) (trustPolicy : OfficialPackageTrustPolicy) :
    Option OfficialDataPackage :=
  if !entry.isObject then none
  else do
    let id ← (strField (ascii "id") entry).filter fun id => !id.isEmpty
    let snapshotHeight ← (intField (ascii "snapshot_height") entry).filter fun n => decide (0 < n)
    let baseBlockhash ← (strField (ascii "base_blockhash") entry).bind uint256FromUserHex
    let pruneMib ←
      (if entry.hasKey (ascii "prune_mib") then (entry.findValue (ascii "prune_mib")).getInt
        else some 0).filter fun n => decide (¬n < 0 ∧ ¬(0 < n ∧ n < minPruneMib))
    let downloadUri ← (strField (ascii "download_uri") entry).filter fun uri =>
      !uri.isEmpty && isOfficialDownloadUriAllowed uri trustPolicy
    let archiveSha256 ← (strField (ascii "archive_sha256") entry).bind parseStandardSha256Hex
    return {
      id := id
      snapshotHeight := snapshotHeight
      baseBlockhash := baseBlockhash
      pruneMib := pruneMib
      downloadUri := downloadUri
      archiveSha256 := archiveSha256
      archiveSizeBytes := sizeField (ascii "archive_size_bytes") entry
      extractedSizeBytes := sizeField (ascii "extracted_size_bytes") entry }

def isOfficialSnapshotTrusted (params : SnapshotParams) (snapshotHeight : Int)
    (baseBlockhash : Bytes) : Bool :=
  if snapshotHeight ≤ 0 || isNullHash baseBlockhash then false
  else
    match params.assumeutxoForHeight snapshotHeight with
    | some blockhash => blockhash == baseBlockhash
    | none =>
      match params.mapCheckpoints snapshotHeight with
      | some checkpoint => checkpoint == baseBlockhash
      | none =>
        !(params.chainType == .main && decide (params.nPurityActivationHeight < 2 ^ 31 - 1) &&
          decide (snapshotHeight < params.nPurityActivationHeight))

/-! ## The signed payload -/

mutual

def jsonHasDuplicateKeys : UniValue → Bool
  | .obj keys values => !decide keys.Nodup || anyHasDuplicateKeys values
  | .arr values => anyHasDuplicateKeys values
  | _ => false

def anyHasDuplicateKeys : List UniValue → Bool
  | [] => false
  | child :: values => jsonHasDuplicateKeys child || anyHasDuplicateKeys values

end

/-- The object that `pushKV` builds from the entries of a map. -/
def objectOf (fields : List (Bytes × UniValue)) : UniValue :=
  .obj (fields.map Prod.fst) (fields.map Prod.snd)

def getObjMap (keys : List Bytes) (values : List UniValue) : List (Bytes × UniValue) :=
  KeyMap.ofList (keys.zip values)

mutual

/-- `CanonicalizeJsonValue`.  The children are canonicalized before they are put into the map, not
after; `canonicalizeJsonValue_obj` is the order of the source. -/
def canonicalizeJsonValue : UniValue → UniValue
  | .obj keys values => objectOf (getObjMap keys (canonicalizeAll values))
  | .arr values => .arr (canonicalizeAll values)
  | v => v

def canonicalizeAll : List UniValue → List UniValue
  | [] => []
  | child :: values => canonicalizeJsonValue child :: canonicalizeAll values

end

/-- The fields of an object but for the top-level `signature`. -/
def unsignedFields (fields : List (Bytes × UniValue)) : List (Bytes × UniValue) :=
  fields.filter fun f => f.1 != ascii "signature"

def officialPackagesManifestPayload (jsonContents : Bytes) : Bytes :=
  match read jsonContents with
  | some (.obj keys values) =>
    if jsonHasDuplicateKeys (.obj keys values) then []
    else
      let unsignedJson := objectOf (unsignedFields (getObjMap keys values))
      (canonicalizeJsonValue unsignedJson).write
  | _ => []

section

variable {Key : Type} (env : ManifestEnv Key)

variable (jsonContents : Bytes)

def officialPackagesManifestDigest : Bytes :=
  let payload := officialPackagesManifestPayload jsonContents
  if payload.isEmpty then List.replicate 32 0 else env.sha256 payload

def verifyOfficialPackagesManifestSignature (signingPubkey : Key) : Bool :=
  env.isFullyValid signingPubkey &&
  match read jsonContents with
  | some json =>
    if !json.isObject || jsonHasDuplicateKeys json then false
    else
      match json.findValue (ascii "signature") with
      | .str signatureB64 =>
        match env.decodeBase64 signatureB64 with
        | some signatureBytes =>
          let digest := officialPackagesManifestDigest env jsonContents
          !signatureBytes.isEmpty && !isNullHash digest &&
            env.verify signingPubkey digest signatureBytes
        | none => false
      | _ => false
  | none => false

def trustedPackages (params : SnapshotParams) (trustPolicy : OfficialPackageTrustPolicy)
    (list : List UniValue) : List OfficialDataPackage :=
  list.filterMap fun entry => (parsePackage entry trustPolicy).filter fun package =>
    isOfficialSnapshotTrusted params package.snapshotHeight package.baseBlockhash

def parseOfficialDataPackagesFromJson
    (trustPolicy : OfficialPackageTrustPolicy) : List OfficialDataPackage :=
  match read jsonContents with
  | some json =>
    if !json.isObject || jsonHasDuplicateKeys json then []
    else if trustPolicy = .remoteSigned ∧
        !env.embeddedSigningPubKey.any
          (verifyOfficialPackagesManifestSignature env jsonContents) then []
    else
      match env.chainparams with
      | some params =>
        match if json.hasKey (ascii "packages") then json.findValue (ascii "packages")
            else json with
        | .arr list => trustedPackages params trustPolicy list
        | _ => []
      | none => []
  | none => []

end

end BitcoinPurity
