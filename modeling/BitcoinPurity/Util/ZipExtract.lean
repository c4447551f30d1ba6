import Mathlib.Data.List.Infix
import BitcoinPurity.Util.ZipReader

/-!
# Extraction of an archive

`ZipExtractTo` (`util/zip.cpp`), with the path checks of `kernel/official_packages.cpp`.

A path is the list of its components, and `dest_dir` a path that is not empty.  The bytes of the
archive, and what the file system and the decoders answer, are arbitrary (`ZipEnv`); the answers may
depend on what was done before.  `zipExtractTo_inside`: nothing is created or written but `dest_dir`
with the directories above it, and what is inside of it.
-/

namespace BitcoinPurity

open List

/-! ## Algorithm -/

/-- `strip_components` rounds of the loop. -/
def stripPathComponents (name : Bytes) : Nat → Option Bytes
  | 0 => some name
  | n + 1 =>
    match name.dropWhile (· != 0x2f) with
    | [] => none
    | _ :: rest => stripPathComponents rest n

/-- The components of a path; the first argument is the one that is being read. -/
def splitComponents (isSeparator : UInt8 → Bool) (component : Bytes) : Bytes → List Bytes
  | [] => if component.isEmpty then [] else [component]
  | c :: rest =>
    if isSeparator c then
      if component.isEmpty then splitComponents isSeparator [] rest
      else component :: splitComponents isSeparator [] rest
    else splitComponents isSeparator (component ++ [c]) rest

def pathFromZipName (name : Bytes) : List Bytes := splitComponents (· == 0x2f) [] name

def splitPathComponents (path : Bytes) : List Bytes :=
  splitComponents (fun c => c == 0x2f || c == 0x5c) [] path

def pathComponentIsDotOrDotDot (component : Bytes) : Bool :=
  component == ascii "." || component == ascii ".."

def isZipArchiveEntryPathSafe (entryPath : Bytes) : Bool :=
  match entryPath with
  | [] => false
  | c :: rest =>
    if c = 0x2f ∨ c = 0x5c then false
    else if (0x41 ≤ c ∧ c ≤ 0x5a ∨ 0x61 ≤ c ∧ c ≤ 0x7a) ∧ rest.head? = some 0x3a then false
    else (splitPathComponents entryPath).all fun component => !pathComponentIsDotOrDotDot component

def ZipEntry.isUnixSymlink (entry : ZipEntry) : Bool :=
  (entry.externalAttr >>> 16) &&& 0o170000 == 0o120000

def ZipEntry.isDirectory (entry : ZipEntry) : Bool :=
  entry.name.getLast? == some 0x2f || (entry.externalAttr >>> 16) &&& 0o170000 == 0o040000 ||
    (entry.externalAttr &&& 0x10 != 0 && entry.uncompSize == 0)

/-- A call of `fs::create_directories`, or one that opens a file to write it. -/
inductive ZipEffect
  | ensureDirectory (path : List Bytes)
  | write (path : List Bytes)
  deriving DecidableEq, Repr

/-- What the call may create: a directory with all that it lies in, or a file. -/
def ZipEffect.creates : ZipEffect → List (List Bytes)
  | .ensureDirectory path => path.inits
  | .write path => [path]

/-- The answers of the file system and of the decoders. -/
structure ZipEnv where
  skip : Bytes → Bool
  answer : List ZipEffect → ZipEffect → Bool
  destStaysInside : List ZipEffect → List Bytes → Bool
  extract : ZipEntry → Option String

section

variable (env : ZipEnv) (file : Bytes) (destDir : List Bytes) (stripComponents : Nat)

def extractEntry (entry : ZipEntry) (isDir : Bool) (destPath : List Bytes)
    (done : List ZipEffect) : List ZipEffect × Option String :=
  let dir := ZipEffect.ensureDirectory (if isDir then destPath else destPath.dropLast)
  if !env.answer done dir then (done ++ [dir], some "Could not create an archive directory.")
  else if isDir then (done ++ [dir], none)
  else if !(localDataOffset file entry).isOk then (done ++ [dir], some "Archive is not a zip file.")
  else
    let effects := done ++ [dir] ++ [.write destPath]
    if !env.answer (done ++ [dir]) (.write destPath) then
      (effects, some "Could not write an extracted file.")
    else (effects, env.extract entry)

def extractEntries : List ZipEntry → List ZipEffect → List ZipEffect × Option String
  | [], done => (done, none)
  | entry :: entries, done =>
    if env.skip entry.name then extractEntries entries done
    else if !isZipArchiveEntryPathSafe entry.name then
      (done, some "Archive contains an unsafe path and cannot be extracted.")
    else if entry.isUnixSymlink then
      (done, some "Archive contains a symbolic link and cannot be extracted.")
    else if entry.flags &&& 0x41 ≠ 0 then
      (done, some "Archive contains an encrypted entry and cannot be extracted.")
    else if entry.method ≠ 0 ∧ entry.method ≠ 8 then
      (done, some "Archive contains an unsupported compression method.")
    else if entry.compSize > 2 ^ 40 ∨ entry.uncompSize > 2 ^ 40 then
      (done, some "Archive contains an oversized entry and cannot be extracted.")
    else
      match stripPathComponents entry.name stripComponents with
      | none => extractEntries entries done
      | some stripped =>
        if stripped = [] ∨ stripped = [0x2f] then extractEntries entries done
        else if !isZipArchiveEntryPathSafe stripped then
          (done, some "Archive contains an unsafe path and cannot be extracted.")
        else if !env.destStaysInside done (destDir ++ pathFromZipName stripped) then
          (done, some "Archive extraction escaped the destination directory.")
        else
          let isDir := entry.isDirectory || stripped.getLast? == some 0x2f
          match extractEntry env file entry isDir (destDir ++ pathFromZipName stripped) done with
          | (done, none) => extractEntries entries done
          | failed => failed

/-- `ZipExtractTo`: what it does, and its error. -/
def zipExtractTo : List ZipEffect × Option String :=
  match readCentralDirectory file with
  | .error fault => ([], fault.message)
  | .ok entries =>
    let dir := ZipEffect.ensureDirectory destDir
    if !env.answer [] dir then ([dir], some "Could not create the destination directory.")
    else extractEntries env file destDir stripComponents entries [dir]

end

/-! ## Lemmas -/

/-- Components below `dest_dir`. -/
def Inside (path : List Bytes) : Prop :=
  path ≠ [] ∧ ∀ c ∈ path, c ≠ [] ∧ c ≠ ascii "." ∧ c ≠ ascii ".." ∧ 0x2f ∉ c ∧ 0x5c ∉ c

section

variable {p q : UInt8 → Bool} {cur text : Bytes}

theorem splitComponents_congr (h : ∀ c ∈ text, p c = q c) :
    splitComponents p cur text = splitComponents q cur text := by
  induction text generalizing cur with
  | nil => rfl
  | cons c text ih =>
    have ih := fun cur => @ih cur fun d hd => h d (mem_cons_of_mem c hd)
    simp [splitComponents, h c mem_cons_self, ih]

theorem splitComponents_ne_nil (h : cur ≠ []) : splitComponents p cur text ≠ [] := by
  induction text generalizing cur with
  | nil => simp [splitComponents, h]
  | cons c text ih =>
    rw [splitComponents]
    split
    · simp [h]
    · exact ih (by simp)

theorem mem_splitComponents {x : Bytes} (hcur : ∀ c ∈ cur, p c = false)
    (hx : x ∈ splitComponents p cur text) :
    x ≠ [] ∧ (∀ c ∈ x, p c = false) ∧ ∀ c ∈ x, c ∈ cur ∨ c ∈ text := by
  induction text generalizing cur with
  | nil =>
    rw [splitComponents] at hx
    grind
  | cons c text ih =>
    rw [splitComponents] at hx
    -- the component is finished, or goes on with `c`
    grind

/-- A safe path without backslashes stays inside: the two splitters agree on it. -/
theorem inside_of_safe (h : isZipArchiveEntryPathSafe text) (hb : 0x5c ∉ text) :
    Inside (pathFromZipName text) := by
  have hsame : splitPathComponents text = pathFromZipName text := by
    refine splitComponents_congr fun c hc => ?_
    have : c ≠ 0x5c := fun he => hb (he ▸ hc)
    simp [this]
  cases text with
  | nil => cases h
  | cons c rest =>
    simp only [isZipArchiveEntryPathSafe, hsame] at h
    split at h
    · cases h
    next hfirst =>
    split at h
    · cases h
    refine ⟨?_, fun x hx => ?_⟩
    · rw [pathFromZipName, splitComponents, if_neg (by simpa using (not_or.1 hfirst).1)]
      exact splitComponents_ne_nil (by simp)
    · have hdot := all_eq_true.1 h x hx
      obtain ⟨hne, hsep, hmem⟩ := mem_splitComponents (by simp) hx
      simp only [pathComponentIsDotOrDotDot, Bool.not_eq_true', Bool.or_eq_false_iff,
        beq_eq_false_iff_ne] at hdot
      grind

theorem stripPathComponents_subset {n : Nat} {stripped : Bytes}
    (h : stripPathComponents text n = some stripped) : stripped ⊆ text := by
  induction n generalizing text with
  | zero =>
    cases h
    exact List.Subset.refl _
  | succ n ih =>
    rw [stripPathComponents] at h
    split at h
    · cases h
    next c rest hrest =>
    have hsub : c :: rest ⊆ text := hrest ▸ (dropWhile_suffix _).subset
    exact fun d hd => hsub (mem_cons_of_mem c (ih h hd))

end

variable {env : ZipEnv} {file : Bytes} {destDir below : List Bytes} {done : List ZipEffect}

/-- Whatever the call may create is a directory that `dest_dir` lies in, or is, or a path inside of
`dest_dir`. -/
def ZipEffect.Contained (destDir : List Bytes) (e : ZipEffect) : Prop :=
  ∀ path ∈ e.creates, path <+: destDir ∧ (∃ dir, e = .ensureDirectory dir) ∨
    ∃ below, path = destDir ++ below ∧ Inside below

theorem contained_dir {dir : List Bytes} (hdir : dir <+: destDir ++ below)
    (h : ∀ c ∈ below, c ≠ [] ∧ c ≠ ascii "." ∧ c ≠ ascii ".." ∧ 0x2f ∉ c ∧ 0x5c ∉ c) :
    (ZipEffect.ensureDirectory dir).Contained destDir := by
  intro path hpath
  have hpre := ((mem_inits _ _).1 hpath).trans hdir
  rcases prefix_or_prefix_of_prefix hpre (prefix_append destDir below) with hle | ⟨rest, rfl⟩
  · exact .inl ⟨hle, dir, rfl⟩
  · by_cases hnil : rest = []
    · exact .inl ⟨by simp [hnil], dir, rfl⟩
    · have hrest := (prefix_append_right_inj destDir).1 hpre
      exact .inr ⟨rest, rfl, hnil, fun c hc => h c (hrest.subset hc)⟩

theorem contained_ite {c : Prop} [Decidable c] {x y : List ZipEffect × Option String}
    (hx : ∀ e ∈ x.1, e.Contained destDir) (hy : ¬ c → ∀ e ∈ y.1, e.Contained destDir) :
    ∀ e ∈ (if c then x else y).1, e.Contained destDir := by
  split
  · exact hx
  · next hc => exact hy hc

theorem extractEntry_contained (entry : ZipEntry) (isDir : Bool) (hbelow : Inside below)
    (hdone : ∀ e ∈ done, e.Contained destDir) :
    ∀ e ∈ (extractEntry env file entry isDir (destDir ++ below) done).1, e.Contained destDir := by
  have hdir : (ZipEffect.ensureDirectory (if isDir then destDir ++ below
      else (destDir ++ below).dropLast)).Contained destDir := by
    refine contained_dir ?_ hbelow.2
    split
    · exact prefix_rfl
    · exact dropLast_prefix _
  have hwrite : (ZipEffect.write (destDir ++ below)).Contained destDir := by
    intro path hpath
    exact .inr ⟨below, mem_singleton.1 hpath, hbelow⟩
  generalize hd : ZipEffect.ensureDirectory (if isDir then destDir ++ below
    else (destDir ++ below).dropLast) = dir at hdir
  have hfirst := forall_mem_append.2 ⟨hdone, forall_mem_singleton.2 hdir⟩
  have hboth := forall_mem_append.2 ⟨hfirst, forall_mem_singleton.2 hwrite⟩
  unfold extractEntry
  simp only [hd]
  iterate 3 refine contained_ite hfirst fun _ => ?_
  exact contained_ite hboth fun _ => hboth

theorem extractEntries_contained (n : Nat) {entries : List ZipEntry}
    (hnames : ∀ e ∈ entries, 0x5c ∉ e.name) (hdone : ∀ e ∈ done, e.Contained destDir) :
    ∀ e ∈ (extractEntries env file destDir n entries done).1, e.Contained destDir := by
  induction entries generalizing done with
  | nil => exact hdone
  | cons entry entries ih =>
    have hrest := fun {done} => @ih done fun e he => hnames e (mem_cons_of_mem entry he)
    -- the checks on the entry as it stands
    refine contained_ite (hrest hdone) fun _ => ?_
    iterate 5 refine contained_ite hdone fun _ => ?_
    split
    · exact hrest hdone
    next stripped hstrip =>
    refine contained_ite (hrest hdone) fun _ => contained_ite hdone fun hsafe =>
      contained_ite hdone fun _ => ?_
    have hb : 0x5c ∉ stripped := fun h =>
      hnames entry mem_cons_self (stripPathComponents_subset hstrip h)
    have hone := @extractEntry_contained env file destDir _ done entry
      (entry.isDirectory || stripped.getLast? == some 0x2f)
      (inside_of_safe (by simpa using hsafe) hb) hdone
    grind

/-- **Nothing leaves the destination**: whatever the archive says and the file system answers, every
path that is created or written is `dest_dir` or a directory that it lies in, or `dest_dir` followed
by ordinary components. -/
theorem zipExtractTo_inside (env : ZipEnv) (file : Bytes) (destDir : List Bytes)
    (stripComponents : Nat) :
    ∀ e ∈ (zipExtractTo env file destDir stripComponents).1, e.Contained destDir := by
  have hnames := meets_readCentralDirectory file
  have hdir : ∀ e ∈ [ZipEffect.ensureDirectory destDir], e.Contained destDir :=
    forall_mem_singleton.2 (contained_dir (prefix_append destDir []) (by simp))
  unfold zipExtractTo
  split
  · simp
  next heq =>
  rw [heq] at hnames
  exact contained_ite hdir fun _ => extractEntries_contained stripComponents hnames hdir

def sampleZipEnv : ZipEnv := ⟨fun _ => false, fun _ _ => true, fun _ _ => true, fun _ => none⟩

/-- One file, with the directory it is in. -/
theorem zipExtractTo_inside_sample : let dest := [ascii "home", ascii "dest"]
    (zipExtractTo sampleZipEnv sampleArchive dest 0).1 = [.ensureDirectory dest,
      .ensureDirectory (dest ++ [ascii "a"]), .write (dest ++ [ascii "a", ascii "b"])] ∧
    (ZipEffect.write (dest ++ [ascii "a", ascii "b"])).Contained dest := by
  intro dest
  have hrun : (zipExtractTo sampleZipEnv sampleArchive dest 0).1 = [.ensureDirectory dest,
      .ensureDirectory (dest ++ [ascii "a"]), .write (dest ++ [ascii "a", ascii "b"])] := by
    decide +kernel
  exact ⟨hrun, zipExtractTo_inside sampleZipEnv sampleArchive dest 0 _ (by simp [hrun])⟩

/-- `dest_dir` itself is created, and the directory that it lies in. -/
theorem zipExtractTo_dest : let dest := [ascii "home", ascii "dest"]
    ∃ e ∈ (zipExtractTo sampleZipEnv sampleArchive dest 0).1, dest ∈ e.creates ∧
      [ascii "home"] ∈ e.creates ∧ ∀ below, Inside below → [ascii "home"] ≠ dest ++ below ∧
        dest ≠ dest ++ below := by
  intro dest
  refine ⟨.ensureDirectory dest, by decide +kernel, by decide +kernel, by decide +kernel, ?_⟩
  intro below h
  refine ⟨fun he => ?_, fun he => h.1 (by simpa using he)⟩
  exact absurd (congrArg length he) (by simp [dest])

end BitcoinPurity
