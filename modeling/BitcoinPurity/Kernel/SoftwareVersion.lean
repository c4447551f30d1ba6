import BitcoinPurity.Kernel.OfficialPackages
import Mathlib.Data.List.TakeWhile
import Mathlib.Data.Nat.Digits.Defs
import Mathlib.Data.Prod.Lex

/-!
# Software versions

`kernel/software_updates.cpp`: how a version is read and compared.

The components are read by `std::from_chars` into an `int`, which takes a minus sign, and the
largest `int` stands for a final release.  `compareSoftwareVersions_order` says what holds of all
versions that are read, by their texts, and `softwareVersion_negative` what these two cost.
-/

namespace BitcoinPurity

open UniValue Option

/-! ## Algorithm -/

structure ParsedSoftwareVersion where
  major : Int := 0
  minor : Int := 0
  patch : Int := 0
  rc : Int := -1
  isDev : Bool := false
  deriving DecidableEq, Repr

structure VersionTexts where
  major : Bytes
  minor : Bytes
  patch : Bytes
  rc : Option Bytes
  isDev : Bool

/-- `find`: the text before the first place of the pattern, and the text after it. -/
def cutAt (pattern : Bytes) : Bytes → Option (Bytes × Bytes)
  | [] => none
  | c :: text =>
    if pattern.isPrefixOf (c :: text) then some ([], (c :: text).drop pattern.length)
    else (cutAt pattern text).map fun (before, after) => (c :: before, after)

/-- `isalnum`, in the `C` locale. -/
def isAlnum (c : UInt8) : Bool :=
  jsonIsDigit c || decide (0x41 ≤ c ∧ c ≤ 0x5a ∨ 0x61 ≤ c ∧ c ≤ 0x7a)

/-- `std::from_chars` into an `int`, up to the end of the text. -/
def parseUnsignedComponent (text : Bytes) : Option Int := getInt (.num text)

section

variable (input : Bytes)

def dropBuildMetadata : Bytes :=
  match cutAt (ascii "-") input with
  | some (before, suffix) =>
    if !before.isEmpty && !suffix.isEmpty && suffix.all isAlnum then before else input
  | none => input

def splitDots : Option (Bytes × Bytes × Bytes) := do
  let (major, rest) ← cutAt (ascii ".") input
  let (minor, patch) ← cutAt (ascii ".") rest
  if patch.contains 0x2e then none else some (major, minor, patch)

/-- What `ParseSoftwareVersionString` reads its numbers from. -/
def versionTexts : Option VersionTexts := do
  let input := if input.head? = some 0x76 then input.tail else input
  let dev := cutAt (ascii "-dev") input
  let input := dropBuildMetadata ((dev.map Prod.fst).getD input)
  let rc := cutAt (ascii "rc") input
  let (major, minor, patch) ← splitDots ((rc.map Prod.fst).getD input)
  return ⟨major, minor, patch, rc.map fun (_, after) => after.takeWhile jsonIsDigit, dev.isSome⟩

/-- The number of a candidate has to be positive. -/
def parseRc : Option Bytes → Option Int
  | none => some (-1)
  | some digits => (parseUnsignedComponent digits).filter fun rc => !decide (rc < 1)

def parseSoftwareVersionString : Option ParsedSoftwareVersion := do
  let texts ← versionTexts input
  return {
    rc := ← parseRc texts.rc
    major := ← parseUnsignedComponent texts.major
    minor := ← parseUnsignedComponent texts.minor
    patch := ← parseUnsignedComponent texts.patch
    isDev := texts.isDev }

end

/-- The number that candidates are compared by. -/
def ParsedSoftwareVersion.rcNumber (v : ParsedSoftwareVersion) : Int :=
  if v.rc < 0 then 2 ^ 31 - 1 else v.rc

def compareParsedVersions (lhs rhs : ParsedSoftwareVersion) : Int :=
  if lhs.major ≠ rhs.major then if lhs.major < rhs.major then -1 else 1
  else if lhs.minor ≠ rhs.minor then if lhs.minor < rhs.minor then -1 else 1
  else if lhs.patch ≠ rhs.patch then if lhs.patch < rhs.patch then -1 else 1
  else if lhs.rcNumber ≠ rhs.rcNumber then if lhs.rcNumber < rhs.rcNumber then -1 else 1
  else 0

def compareSoftwareVersions (lhs rhs : Bytes) : Option Int := do
  return compareParsedVersions (← parseSoftwareVersionString lhs) (← parseSoftwareVersionString rhs)

/-! ## Lemmas -/

variable {a b c text : Bytes} {x y z : ParsedSoftwareVersion} {n : Int}

/-! ### Numerals -/

/-- The number that digits stand for. -/
def numeral (digits : Bytes) : Nat := digits.foldl (fun n ch => 10 * n + (ch.toNat - 0x30)) 0

theorem fromDigits_eq_some {m : Nat} (h : fromDigits text = some m) :
    numeral text = m ∧ ∀ c ∈ text, jsonIsDigit c := by
  unfold fromDigits at h
  split at h
  · cases h
  next hdigits =>
  simp only [Bool.or_eq_true, not_or, Bool.not_eq_true, Bool.not_eq_false', List.all_eq_true] at hdigits
  exact ⟨some.inj h, hdigits.2⟩

theorem numeral_dropZeros (d : Bytes) : numeral (d.dropWhile (· == 0x30)) = numeral d := by
  induction d with
  | nil => rfl
  | cons c d ih =>
    rw [List.dropWhile_cons]
    split
    · next hc =>
      rw [ih, eq_of_beq hc]
      rfl
    · rfl

theorem jsonIsDigit_bounds {c : UInt8} (h : jsonIsDigit c) : 0x30 ≤ c.toNat ∧ c.toNat ≤ 0x39 := by
  simpa [jsonIsDigit, UInt8.le_iff_toNat_le] using h

theorem digits_numeral {d : Bytes} (hd : ∀ c ∈ d, jsonIsDigit c) : Nat.digits 10 (numeral d) =
    ((d.dropWhile (· == 0x30)).map fun c => c.toNat - 0x30).reverse := by
  have hvalue : ∀ d, numeral d = Nat.ofDigits 10 (d.map fun c => c.toNat - 0x30).reverse := by
    intro d
    rw [numeral, Nat.ofDigits_eq_foldr, List.foldr_reverse, List.foldl_map]
    simp only [Nat.cast_id, Nat.add_comm]
  rw [← numeral_dropZeros, hvalue]
  refine Nat.digits_ofDigits 10 (by decide) _ (fun l hl => ?_) fun hne => ?_
  · obtain ⟨c, hc, rfl⟩ := List.mem_map.1 (List.mem_reverse.1 hl)
    have := jsonIsDigit_bounds (hd c ((List.dropWhile_sublist _).subset hc))
    omega
  · rw [List.getLast_reverse, List.head_map]
    have hne' : d.dropWhile (· == 0x30) ≠ [] := by simpa using hne
    have hzero : (d.dropWhile (· == 0x30)).head hne' ≠ 0x30 := by
      simpa using List.head_dropWhile_not (· == 0x30) hne'
    have hc := jsonIsDigit_bounds (hd _ ((List.dropWhile_sublist _).subset (List.head_mem hne')))
    rw [ne_eq, ← UInt8.toNat_inj] at hzero
    have : (0x30 : UInt8).toNat = 0x30 := rfl
    omega

/-- Numerals stand for one number iff they are the same up to leading zeros. -/
theorem numeral_eq_iff {d e : Bytes} (hd : ∀ c ∈ d, jsonIsDigit c) (he : ∀ c ∈ e, jsonIsDigit c) :
    numeral d = numeral e ↔ d.dropWhile (· == 0x30) = e.dropWhile (· == 0x30) := by
  refine ⟨fun h => ?_, fun h => by rw [← numeral_dropZeros, h, numeral_dropZeros]⟩
  have hback : ∀ {d : Bytes}, (∀ c ∈ d, jsonIsDigit c) → d.dropWhile (· == 0x30) =
      (((d.dropWhile (· == 0x30)).map fun c => c.toNat - 0x30).map
        fun k => UInt8.ofNat (k + 0x30)) := by
    intro d hd
    rw [List.map_map, List.map_congr_left (g := id), List.map_id]
    intro c hc
    have := jsonIsDigit_bounds (hd c ((List.dropWhile_sublist _).subset hc))
    rw [Function.comp, Nat.sub_add_cancel this.1, UInt8.ofNat_toNat, id]
  have hmap := List.reverse_inj.1 ((digits_numeral hd).symm.trans (h ▸ digits_numeral he))
  rw [hback hd, hmap, ← hback he]

/-! ### Numbers and their texts -/

/-- A minus sign, and a digit other than zero. -/
def NegativeText (text : Bytes) : Prop := text.head? = some 0x2d ∧ ∃ c ∈ text.tail, c ≠ 0x30

theorem parseUnsignedComponent_spec (h : parseUnsignedComponent text = some n) :
    (0 ≤ n ↔ ¬ NegativeText text) ∧
      ((∀ c ∈ text, jsonIsDigit c) → n = numeral text ∧ n < 2 ^ 31) := by
  unfold parseUnsignedComponent getInt at h
  split at h
  · next digits htext =>
    cases htext
    obtain ⟨m, hm, h⟩ := bind_eq_some_iff.1 h
    obtain ⟨rfl, hdigits⟩ := fromDigits_eq_some hm
    split at h <;> cases h
    have hzero := numeral_eq_iff hdigits (e := []) (by simp)
    rw [List.dropWhile_nil, List.dropWhile_eq_nil_iff] at hzero
    refine ⟨?_, fun hall => ?_⟩
    · have : numeral [] = 0 := rfl
      simp only [NegativeText, List.head?_cons, List.tail_cons, true_and, not_exists, not_and,
        not_not]
      grind
    · exact absurd (hall 0x2d (by simp)) (by decide)
  · next digits hdigits htext =>
    cases htext
    obtain ⟨m, hm, h⟩ := bind_eq_some_iff.1 h
    obtain ⟨rfl, -⟩ := fromDigits_eq_some hm
    split at h <;> cases h
    refine ⟨iff_of_true (by omega) fun hneg => ?_, fun _ => ⟨rfl, by omega⟩⟩
    cases text with
    | nil => cases hneg.1
    | cons c digits =>
      cases hneg.1
      exact hdigits digits rfl
  · next hnum => exact absurd rfl (hnum text)

/-- The digits of the largest `int`, with zeros before them. -/
def LargestText (text : Bytes) : Prop := text.dropWhile (· == 0x30) = ascii "2147483647"

theorem parseRc_spec {rc : Option Bytes} (h : parseRc rc = some n)
    (hdigits : ∀ digits, rc = some digits → ∀ c ∈ digits, jsonIsDigit c) :
    n = -1 ∧ rc = none ∨ 1 ≤ n ∧ n < 2 ^ 31 ∧
      ∃ digits, rc = some digits ∧ (n = 2 ^ 31 - 1 ↔ LargestText digits) := by
  cases rc with
  | none =>
    cases h
    exact .inl ⟨rfl, rfl⟩
  | some digits =>
    obtain ⟨hn, hpos⟩ := filter_eq_some_iff.1 h
    obtain ⟨hvalue, hlt⟩ := (parseUnsignedComponent_spec hn).2 (hdigits digits rfl)
    simp only [Bool.not_eq_true', decide_eq_false_iff_not] at hpos
    refine .inr ⟨by omega, hlt, digits, rfl, ?_⟩
    have hlargest : numeral (ascii "2147483647") = 2 ^ 31 - 1 := by decide
    have hiff := numeral_eq_iff (hdigits digits rfl)
      (e := ascii "2147483647") (by decide +kernel)
    rw [hlargest] at hiff
    rw [hvalue]
    exact Iff.trans (by omega) hiff

/-- A version that is read: its texts and their numbers. -/
theorem parseSoftwareVersionString_spec (h : parseSoftwareVersionString a = some x) :
    ∃ texts, versionTexts a = some texts ∧ (0 ≤ x.major ↔ ¬ NegativeText texts.major) ∧
      (0 ≤ x.minor ↔ ¬ NegativeText texts.minor) ∧ (0 ≤ x.patch ↔ ¬ NegativeText texts.patch) ∧
      (x.rc = -1 ∧ texts.rc = none ∨ 1 ≤ x.rc ∧ x.rc < 2 ^ 31 ∧
        ∃ digits, texts.rc = some digits ∧ (x.rc = 2 ^ 31 - 1 ↔ LargestText digits)) := by
  obtain ⟨texts, htexts, h⟩ := bind_eq_some_iff.1 h
  obtain ⟨rc, hrc, h⟩ := bind_eq_some_iff.1 h
  obtain ⟨ma, hma, h⟩ := bind_eq_some_iff.1 h
  obtain ⟨mi, hmi, h⟩ := bind_eq_some_iff.1 h
  obtain ⟨pa, hpa, ⟨⟩⟩ := bind_eq_some_iff.1 h
  refine ⟨texts, htexts, (parseUnsignedComponent_spec hma).1, (parseUnsignedComponent_spec hmi).1,
    (parseUnsignedComponent_spec hpa).1, parseRc_spec hrc ?_⟩
  obtain ⟨dots, -, ⟨⟩⟩ := bind_eq_some_iff.1 htexts
  intro digits hdigits c hc
  obtain ⟨r, -, rfl⟩ := map_eq_some_iff.1 hdigits
  exact List.mem_takeWhile_imp hc

/-- What the comparison is lexicographic on. -/
def ParsedSoftwareVersion.key (v : ParsedSoftwareVersion) : Int ×ₗ Int ×ₗ Int ×ₗ Int :=
  toLex (v.major, toLex (v.minor, toLex (v.patch, v.rcNumber)))

theorem compareParsedVersions_eq (x y : ParsedSoftwareVersion) :
    compareParsedVersions x y = if x.key < y.key then -1 else if y.key < x.key then 1 else 0 := by
  unfold compareParsedVersions ParsedSoftwareVersion.key
  simp only [Prod.Lex.toLex_lt_toLex]
  grind

/-- **The order of versions.**  A component is negative iff its text has a minus sign and a digit
other than zero; there is no candidate number, or a positive one.  The comparison is a total
preorder, lexicographic on the triple, and a candidate is below the final release iff its digits are
not those of the largest `int`. -/
theorem compareSoftwareVersions_order (ha : parseSoftwareVersionString a = some x)
    (hb : parseSoftwareVersionString b = some y) (hc : parseSoftwareVersionString c = some z) :
    ∃ texts, versionTexts a = some texts ∧ (0 ≤ x.major ↔ ¬ NegativeText texts.major) ∧
      (0 ≤ x.minor ↔ ¬ NegativeText texts.minor) ∧ (0 ≤ x.patch ↔ ¬ NegativeText texts.patch) ∧
      (x.rc = -1 ∧ texts.rc = none ∨ 1 ≤ x.rc ∧ texts.rc.isSome) ∧
      compareSoftwareVersions a a = some 0 ∧
      ∃ r s t, compareSoftwareVersions a b = some r ∧ compareSoftwareVersions b a = some (-r) ∧
        compareSoftwareVersions b c = some s ∧ compareSoftwareVersions a c = some t ∧
        (r ≤ 0 → s ≤ 0 → t ≤ 0) ∧
        (x.major < y.major ∨ x.major = y.major ∧ (x.minor < y.minor ∨ x.minor = y.minor ∧
          x.patch < y.patch) → r = -1) ∧
        ∀ digits, texts.rc = some digits → x.major = y.major → x.minor = y.minor →
          x.patch = y.patch → y.rc = -1 → (r = -1 ↔ ¬ LargestText digits) := by
  obtain ⟨texts, htexts, hma, hmi, hpa, hrc⟩ := parseSoftwareVersionString_spec ha
  have hcmp : ∀ {a b x y}, parseSoftwareVersionString a = some x →
      parseSoftwareVersionString b = some y → compareSoftwareVersions a b =
        some (if x.key < y.key then -1 else if y.key < x.key then 1 else 0) := by
    intro a b x y ha hb
    rw [compareSoftwareVersions, ha, hb, ← compareParsedVersions_eq]
    rfl
  refine ⟨texts, htexts, hma, hmi, hpa, hrc.imp_right ?_, by simp [hcmp ha ha], _, _, _, hcmp ha hb,
    ?_, hcmp hb hc, hcmp ha hc, ?_, ?_, ?_⟩
  · grind
  · rw [hcmp hb ha]
    grind
  · grind
  · intro hlt
    simp only [ParsedSoftwareVersion.key, Prod.Lex.toLex_lt_toLex]
    omega
  · intro digits hdigits hmajor hminor hpatch hy
    obtain ⟨-, hnone⟩ | ⟨hpos, hmax, digits', hdigits', hlargest⟩ := hrc
    · simp [hnone] at hdigits
    obtain rfl : digits' = digits := some.inj (hdigits'.symm.trans hdigits)
    have hxn : x.rcNumber = x.rc := if_neg (by omega)
    have hyn : y.rcNumber = 2 ^ 31 - 1 := if_pos (by omega)
    have hlt : x.key < y.key ↔ x.rc ≠ 2 ^ 31 - 1 := by
      simp only [ParsedSoftwareVersion.key, Prod.Lex.toLex_lt_toLex]
      omega
    rw [← hlargest, ← ne_eq, ← hlt]
    grind

theorem compareSoftwareVersions_order_rc :
    compareSoftwareVersions (ascii "v1.2.3rc1-4143c14706e8") (ascii "1.2.3") = some (-1) := by
  have ha : parseSoftwareVersionString (ascii "v1.2.3rc1-4143c14706e8") =
    some ⟨1, 2, 3, 1, false⟩ := by decide +kernel
  have hb : parseSoftwareVersionString (ascii "1.2.3") = some ⟨1, 2, 3, -1, false⟩ := by
    decide +kernel
  have htexts : (versionTexts (ascii "v1.2.3rc1-4143c14706e8")).map (·.rc) =
    some (some (ascii "1")) := by decide +kernel
  obtain ⟨texts, heq, -, -, -, -, -, r, -, -, hr, -, -, -, -, -, hrc⟩ :=
    compareSoftwareVersions_order ha hb hb
  rw [heq, map_some, some.injEq] at htexts
  rw [hr, (hrc _ htexts rfl rfl rfl rfl).2 (by unfold LargestText; decide)]

/-- A minus sign is read, and the candidate with the largest number is the final release. -/
theorem softwareVersion_negative :
    parseSoftwareVersionString (ascii "-1.2.3") = some ⟨-1, 2, 3, -1, false⟩ ∧
    parseSoftwareVersionString (ascii "1.2.3rc2147483647") = some ⟨1, 2, 3, 2 ^ 31 - 1, false⟩ ∧
    compareSoftwareVersions (ascii "1.2.3rc2147483647") (ascii "1.2.3") = some 0 := by
  decide +kernel

end BitcoinPurity
