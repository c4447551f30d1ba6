import BitcoinPurity.Lib.Checked
import BitcoinPurity.Lib.Codecs
import BitcoinPurity.UniValue.Value

/-!
# Reading an archive

`ReadCentralDirectory`, `ParseZip64Extra` and `LocalDataOffset` (`util/zip.cpp`) on the bytes of a
file.  Reading outside of a buffer and a 64-bit sum that wraps are undefined here, and
`zipReader_safe` says that neither happens, whatever the file.
-/

namespace BitcoinPurity

open Checked Codecs

/-! ## Algorithm -/

structure ZipEntry where
  name : Bytes
  flags : Nat
  method : Nat
  crc32 : Nat
  compSize : Nat
  uncompSize : Nat
  localHeaderOfs : Nat
  externalAttr : Nat

def normalizeZipPath (name : Bytes) : Bytes := name.map fun c => if c = 0x5c then 0x2f else c

abbrev ZipM := Except (Fault String)

def notZip : String := "Archive is not a zip file."

def notRead : String := "Could not read the archive."

def spansDisks : String := "Archive spans multiple disks and cannot be extracted."

/-- `ReadLE16`, `ReadLE32` and `ReadLE64`. -/
def readLEAt (k : Nat) (buf : Bytes) (i : Nat) : ZipM Nat := do
  return fixedNat (← slice buf i k)

variable (file : Bytes)

/-- `ReadAt`; an offset has to be an `int64_t`. -/
def readAt (offset n : Nat) (error : String) : ZipM Bytes := do
  stopIf (¬ (offset < 2 ^ 63 ∧ (n = 0 ∨ offset + n ≤ file.length))) error
  return (file.drop offset).take n

/-- `take64`: a value that is needed is taken from the field if it is there. -/
def take64 (extra : Bytes) (pos size off : Nat) (value : Nat × Bool) : ZipM ((Nat × Bool) × Nat) :=
  if value.2 = false ∨ off + 8 > size then return (value, off)
  else do return ((← readLEAt 8 extra (pos + off), false), off + 8)

/-- The loop of `ParseZip64Extra`, on the three values and whether they are still needed; undefined
when the fuel ends. -/
def parseZip64Loop (extra : Bytes) :
    Nat → Nat → Nat × Bool → Nat × Bool → Nat × Bool → ZipM (Bool × Nat × Nat × Nat)
  | 0, _, _, _, _ => .error .undefined
  | fuel + 1, pos, uncomp, comp, ofs => do
    if (← add 64 pos 4) > extra.length then
      return (!uncomp.2 && !comp.2 && !ofs.2, uncomp.1, comp.1, ofs.1)
    else
      let tag ← readLEAt 2 extra pos
      let size ← readLEAt 2 extra (pos + 2)
      if (← add 64 (pos + 4) size) > extra.length then return (false, uncomp.1, comp.1, ofs.1)
      else if tag = 1 then
        let (uncomp, off) ← take64 extra (pos + 4) size 0 uncomp
        let (comp, off) ← take64 extra (pos + 4) size off comp
        let (ofs, _) ← take64 extra (pos + 4) size off ofs
        parseZip64Loop extra fuel (pos + 4 + size) uncomp comp ofs
      else parseZip64Loop extra fuel (pos + 4 + size) uncomp comp ofs

def parseZip64Extra (extra : Bytes) (uncomp comp ofs : Nat × Bool) : ZipM (Bool × Nat × Nat × Nat) :=
  parseZip64Loop extra (extra.length + 1) 0 uncomp comp ofs

/-- Is there an end record at `i` whose comment reaches to the end of the file? -/
def isEocd (tail : Bytes) (size i : Nat) : ZipM Bool := do
  if (← readLEAt 4 tail i) = 0x06054b50 then
    return (← add 64 (size - tail.length + i) (22 + (← readLEAt 2 tail (i + 20)))) == size
  else return false

/-- The search for the end record, from `i` down. -/
def findEocd (tail : Bytes) (size : Nat) : Nat → ZipM Nat
  | 0 => do
    stopIf ((← isEocd tail size 0) = false) notZip
    return size - tail.length
  | i + 1 => do
    if ← isEocd tail size (i + 1) then return size - tail.length + (i + 1)
    else findEocd tail size i

/-- The ZIP64 end record: the number of entries, and the size and offset of the directory. -/
def readZip64Eocd (eocdOfs : Nat) : ZipM (Nat × Nat × Nat) := do
  stopIf (eocdOfs < 20) notZip
  let loc ← readAt file (eocdOfs - 20) 20 notZip
  stopIf ((← readLEAt 4 loc 0) ≠ 0x07064b50) notZip
  let z64 ← readAt file (← readLEAt 8 loc 8) 56 notZip
  stopIf ((← readLEAt 4 z64 0) ≠ 0x06064b50) notZip
  stopIf ((← readLEAt 4 z64 16) ≠ 0 ∨ (← readLEAt 4 z64 20) ≠ 0) spansDisks
  return (← readLEAt 8 z64 32, ← readLEAt 8 z64 40, ← readLEAt 8 z64 48)

def readEocd : ZipM (Nat × Nat × Nat) := do
  stopIf (file.length < 22) notZip
  let searchLen := min file.length (22 + 65535)
  let tail ← readAt file (file.length - searchLen) searchLen notRead
  let eocdOfs ← findEocd tail file.length (tail.length - 22)
  let eocd ← readAt file eocdOfs 22 notRead
  let disk ← readLEAt 2 eocd 4
  let cdDisk ← readLEAt 2 eocd 6
  let entries ← readLEAt 2 eocd 10
  let cdSize ← readLEAt 4 eocd 12
  let cdOffset ← readLEAt 4 eocd 16
  stopIf (disk ≠ 0 ∧ disk ≠ 0xffff ∨ cdDisk ≠ 0 ∧ cdDisk ≠ 0xffff) spansDisks
  if disk = 0xffff ∨ cdDisk = 0xffff ∨ entries = 0xffff ∨ cdSize = 0xffffffff ∨
      cdOffset = 0xffffffff then
    readZip64Eocd file eocdOfs
  else return (entries, cdSize, cdOffset)

/-- One entry of the directory, and the position after it. -/
def readEntry (cd : Bytes) (pos : Nat) : ZipM (ZipEntry × Nat) := do
  stopIf ((← add 64 pos 46) > cd.length) notZip
  stopIf ((← readLEAt 4 cd pos) ≠ 0x02014b50) notZip
  let flags ← readLEAt 2 cd (pos + 8)
  let method ← readLEAt 2 cd (pos + 10)
  let crc32 ← readLEAt 4 cd (pos + 16)
  let comp32 ← readLEAt 4 cd (pos + 20)
  let uncomp32 ← readLEAt 4 cd (pos + 24)
  let nameLen ← readLEAt 2 cd (pos + 28)
  let extraLen ← readLEAt 2 cd (pos + 30)
  let commentLen ← readLEAt 2 cd (pos + 32)
  let startDisk ← readLEAt 2 cd (pos + 34)
  let externalAttr ← readLEAt 4 cd (pos + 38)
  let local32 ← readLEAt 4 cd (pos + 42)
  let next ← add 64 (pos + 46) (nameLen + extraLen + commentLen)
  stopIf (next > cd.length) notZip
  let name := normalizeZipPath (← slice cd (pos + 46) nameLen)
  let extra ← slice cd (pos + 46 + nameLen) extraLen
  stopIf (startDisk ≠ 0 ∧ startDisk ≠ 0xffff) spansDisks
  let needUncomp := uncomp32 == 0xffffffff
  let needComp := comp32 == 0xffffffff
  let needOffset := local32 == 0xffffffff
  if needUncomp || needComp || needOffset then
    let (ok, uncompSize, compSize, localHeaderOfs) ← parseZip64Extra extra (uncomp32, needUncomp)
      (comp32, needComp) (local32, needOffset)
    stopIf (ok = false) notZip
    return ({ name, flags, method, crc32, compSize, uncompSize, localHeaderOfs, externalAttr }, next)
  else return (⟨name, flags, method, crc32, comp32, uncomp32, local32, externalAttr⟩, next)

/-- The loop over the entries. -/
def readEntries (cd : Bytes) : Nat → Nat → ZipM (List ZipEntry)
  | 0, _ => return []
  | n + 1, pos => do
    let (entry, pos) ← readEntry cd pos
    return entry :: (← readEntries cd n pos)

def readCentralDirectory : ZipM (List ZipEntry) := do
  let (entries, cdSize, cdOffset) ← readEocd file
  stopIf (cdSize > 2 ^ 26 ∨ cdOffset > file.length ∨ cdSize > file.length - cdOffset) notRead
  readEntries (← readAt file cdOffset cdSize notRead) entries 0

def localDataOffset (entry : ZipEntry) : ZipM Nat := do
  let header ← readAt file entry.localHeaderOfs 30 notZip
  stopIf ((← readLEAt 4 header 0) ≠ 0x04034b50) notZip
  let nameLen ← readLEAt 2 header 26
  let extraLen ← readLEAt 2 header 28
  let dataOfs ← add 64 entry.localHeaderOfs (30 + nameLen + extraLen)
  stopIf (dataOfs > file.length ∨ entry.compSize > file.length - dataOfs) notZip
  return dataOfs

/-! ## Lemmas -/

section

variable {file buf extra tail cd : Bytes} {error : String} {k i n offset size pos off fuel : Nat}
  {u c o : Nat × Bool}

theorem meets_readLEAt (h : i + k ≤ buf.length) : Meets (readLEAt k buf i) (· < 256 ^ k) := by
  refine (meets_slice h).bind fun bs hbs => ?_
  exact hbs ▸ fixedNat_lt bs

theorem meets_readAt : Meets (readAt file offset n error) fun buf =>
    buf.length = n ∧ offset < 2 ^ 63 ∧ (n = 0 ∨ offset + n ≤ file.length) := by
  refine meets_stopIf.bind fun _ h => ?_
  rw [not_not] at h
  refine ⟨?_, h⟩
  rw [List.length_take, List.length_drop]
  omega

theorem meets_take64 (h : pos + size ≤ extra.length) :
    Meets (take64 extra pos size off u) fun _ => True := by
  unfold take64
  split
  · trivial
  · exact (meets_readLEAt (by omega)).bind fun _ _ => trivial

theorem meets_parseZip64Loop (hlen : extra.length < 2 ^ 63) (hpos : pos ≤ extra.length)
    (hfuel : extra.length - pos < fuel) :
    Meets (parseZip64Loop extra fuel pos u c o) fun _ => True := by
  induction fuel generalizing pos u c o with
  | zero => omega
  | succ fuel ih =>
    refine (meets_add (by omega)).bind fun _ hnext => ?_
    split
    · trivial
    refine (meets_readLEAt (by omega)).bind fun tag _ => ?_
    refine (meets_readLEAt (by omega)).bind fun size hsize => ?_
    refine (meets_add (by omega)).bind fun _ hend => ?_
    have ih := fun u c o => @ih (pos + 4 + size) u c o
    split
    · trivial
    have hfield : pos + 4 + size ≤ extra.length := by omega
    split
    · exact (meets_take64 hfield).bind fun _ _ => (meets_take64 hfield).bind fun _ _ =>
        (meets_take64 hfield).bind fun _ _ => ih _ _ _ hfield (by omega)
    · exact ih _ _ _ hfield (by omega)

theorem meets_parseZip64Extra (hlen : extra.length < 2 ^ 63) :
    Meets (parseZip64Extra extra u c o) fun _ => True :=
  meets_parseZip64Loop hlen (Nat.zero_le _) (by omega)

theorem meets_isEocd (hi : i + 22 ≤ tail.length) (htail : tail.length ≤ size)
    (hsize : size < 2 ^ 63 + 2 ^ 17) : Meets (isEocd tail size i) fun _ => True := by
  refine (meets_readLEAt (by omega)).bind fun sig _ => ?_
  split
  · refine (meets_readLEAt (by omega)).bind fun commentLen hlen => ?_
    exact (meets_add (by omega)).bind fun _ _ => trivial
  · trivial

theorem meets_findEocd (hi : i + 22 ≤ tail.length) (htail : tail.length ≤ size)
    (hsize : size < 2 ^ 63 + 2 ^ 17) : Meets (findEocd tail size i) fun _ => True := by
  induction i with
  | zero => exact (meets_isEocd hi htail hsize).bind fun _ _ => meets_stopIf.bind fun _ _ => trivial
  | succ i ih =>
    refine (meets_isEocd hi htail hsize).bind fun found _ => ?_
    split
    · trivial
    · exact ih (by omega)

theorem meets_readZip64Eocd : Meets (readZip64Eocd file offset) fun _ => True := by
  refine meets_stopIf.bind fun _ _ => meets_readAt.bind fun loc hloc => ?_
  refine (meets_readLEAt (by omega)).bind fun _ _ => meets_stopIf.bind fun _ _ => ?_
  refine (meets_readLEAt (by omega)).bind fun _ _ => meets_readAt.bind fun z64 hz64 => ?_
  refine (meets_readLEAt (by omega)).bind fun _ _ => meets_stopIf.bind fun _ _ => ?_
  refine (meets_readLEAt (by omega)).bind fun _ _ => (meets_readLEAt (by omega)).bind fun _ _ => ?_
  refine meets_stopIf.bind fun _ _ => (meets_readLEAt (by omega)).bind fun _ _ => ?_
  exact (meets_readLEAt (by omega)).bind fun _ _ => (meets_readLEAt (by omega)).bind fun _ _ => trivial

theorem meets_readEocd : Meets (readEocd file) fun _ => True := by
  refine meets_stopIf.bind fun _ hmin => meets_readAt.bind fun tail htail => ?_
  refine (meets_findEocd (by omega) (by omega) (by omega)).bind fun ofs _ => ?_
  refine meets_readAt.bind fun eocd heocd => ?_
  iterate 5 refine (meets_readLEAt (by omega)).bind fun _ _ => ?_
  refine meets_stopIf.bind fun _ _ => ?_
  split
  · exact meets_readZip64Eocd
  · trivial

theorem not_mem_normalizeZipPath (name : Bytes) : 0x5c ∉ normalizeZipPath name := by
  simp only [normalizeZipPath, List.mem_map, not_exists, not_and]
  intro c _
  split <;> simp_all

theorem meets_readEntry (hcd : cd.length ≤ 2 ^ 26) (hpos : pos ≤ cd.length) :
    Meets (readEntry cd pos) fun r => 0x5c ∉ r.1.name ∧ r.2 ≤ cd.length := by
  refine (meets_add (by omega)).bind fun _ hnext => meets_stopIf.bind fun _ hfits => ?_
  refine (meets_readLEAt (by omega)).bind fun _ _ => meets_stopIf.bind fun _ _ => ?_
  iterate 5 refine (meets_readLEAt (by omega)).bind fun _ _ => ?_
  refine (meets_readLEAt (by omega)).bind fun nameLen hname => ?_
  refine (meets_readLEAt (by omega)).bind fun extraLen hextra => ?_
  refine (meets_readLEAt (by omega)).bind fun commentLen hcomment => ?_
  iterate 3 refine (meets_readLEAt (by omega)).bind fun _ _ => ?_
  refine (meets_add (by omega)).bind fun next hnext => meets_stopIf.bind fun _ hall => ?_
  refine (meets_slice (by omega)).bind fun name _ => (meets_slice (by omega)).bind fun extra hlen => ?_
  have hdone : 0x5c ∉ normalizeZipPath name ∧ next ≤ cd.length :=
    ⟨not_mem_normalizeZipPath name, by omega⟩
  refine meets_stopIf.bind fun _ _ => ?_
  dsimp only
  split
  · exact (meets_parseZip64Extra (by omega)).bind fun _ _ => meets_stopIf.bind fun _ _ => hdone
  · exact hdone

theorem meets_readEntries (hcd : cd.length ≤ 2 ^ 26) (hpos : pos ≤ cd.length) :
    Meets (readEntries cd n pos) fun entries => ∀ e ∈ entries, 0x5c ∉ e.name := by
  induction n generalizing pos with
  | zero => exact fun e he => by cases he
  | succ n ih =>
    refine (meets_readEntry hcd hpos).bind fun r hr => (ih hr.2).bind fun entries hentries => ?_
    exact List.forall_mem_cons.2 ⟨hr.1, hentries⟩

end

theorem meets_readCentralDirectory :
    Meets (readCentralDirectory file) fun entries => ∀ e ∈ entries, 0x5c ∉ e.name := by
  refine meets_readEocd.bind fun r _ => meets_stopIf.bind fun _ hsize => ?_
  exact meets_readAt.bind fun cd hcd => meets_readEntries (by omega) (Nat.zero_le _)

/-- **The reader is safe on every file**: no read outside of a buffer and no sum that wraps, and an
entry whose data were found lies in the file. -/
theorem zipReader_safe : readCentralDirectory file ≠ .error .undefined ∧
    (∀ extra : Bytes, extra.length < 2 ^ 63 → ∀ uncomp comp ofs,
      parseZip64Extra extra uncomp comp ofs ≠ .error .undefined) ∧
    ∀ entry, localDataOffset file entry ≠ .error .undefined ∧
      ∀ dataOfs, localDataOffset file entry = .ok dataOfs → dataOfs + entry.compSize ≤ file.length := by
  refine ⟨(meets_readCentralDirectory file).ne_undefined,
    fun extra hlen _ _ _ => (meets_parseZip64Extra hlen).ne_undefined, fun entry => ?_⟩
  have hmeets : Meets (localDataOffset file entry) (· + entry.compSize ≤ file.length) := by
    refine meets_readAt.bind fun header hheader => ?_
    refine (meets_readLEAt (by omega)).bind fun _ _ => meets_stopIf.bind fun _ _ => ?_
    refine (meets_readLEAt (by omega)).bind fun nameLen hname => ?_
    refine (meets_readLEAt (by omega)).bind fun extraLen hextra => ?_
    refine (meets_add (by omega)).bind fun dataOfs hofs => meets_stopIf.bind fun _ hfits => ?_
    show dataOfs + entry.compSize ≤ file.length
    omega
  refine ⟨hmeets.ne_undefined, fun dataOfs h => ?_⟩
  rw [h] at hmeets
  exact hmeets

/-- An archive with the file `a/b` of one byte. -/
def sampleArchive : Bytes :=
  [0x50, 0x4b, 3, 4] ++ List.replicate 14 0 ++ [1, 0, 0, 0, 1, 0, 0, 0, 3, 0, 0, 0] ++ ascii "a/b" ++
    [7] ++
  ([0x50, 0x4b, 1, 2] ++ List.replicate 16 0 ++ [1, 0, 0, 0, 1, 0, 0, 0, 3] ++ List.replicate 17 0 ++
    ascii "a/b") ++
  [0x50, 0x4b, 5, 6, 0, 0, 0, 0, 1, 0, 1, 0, 49, 0, 0, 0, 34, 0, 0, 0, 0, 0]

def sampleZipEntry : ZipEntry := ⟨ascii "a/b", 0, 0, 0, 1, 1, 0, 0⟩

/-- The data of the entry, and a field with one of the two values that are needed. -/
theorem zipReader_safe_extra : localDataOffset sampleArchive sampleZipEntry = .ok 33 ∧
    33 + 1 ≤ sampleArchive.length ∧
    parseZip64Extra [1, 0, 8, 0, 7, 0, 0, 0, 0, 0, 0, 0] (0xffffffff, true) (0xffffffff, true)
      (0, false) ≠ .error .undefined := by
  obtain ⟨-, hextra, hentry⟩ := zipReader_safe sampleArchive
  have hofs : localDataOffset sampleArchive sampleZipEntry = .ok 33 := by decide +kernel
  exact ⟨hofs, (hentry sampleZipEntry).2 33 hofs, hextra _ (by decide) _ _ _⟩

end BitcoinPurity
