import Gyt.Object.Id

/-!
# References

Reference names and the files that hold references, `refs.rs`.  A reference is a file below the
repository directory whose content is the hexadecimal form of an object identifier and a line end.

The files are modelled by their paths, together with the directories that hold no file.  A path can
be written unless it is a directory or leads through a file; other failures of the operating system
and symbolic links are not modelled.
-/

namespace Gyt

open Text List Utf8

/-! ## Names -/

/-- The maximum length of a reference name in bytes, `MAX_REF_NAME_LEN`. -/
def maxRefNameLen : ℕ := 255

/-- The lower-case form of an ASCII byte. -/
def toAsciiLowercase (b : UInt8) : UInt8 := if 0x41 ≤ b ∧ b ≤ 0x5a then b + 0x20 else b

/-- Equality of byte strings up to the case of ASCII letters. -/
def eqIgnoreAsciiCase (a b : Bytes) : Bool :=
  a.map toAsciiLowercase == b.map toAsciiLowercase

/-- The checks that `validateRefName` makes on every byte. -/
def validateRefByte (name : Str) (b : UInt8) : Result Unit := do
  ensure (¬(b < 0x20 ∨ b = 0x7f))
    (.refs ["ref name contains control byte ", .hex b, ": ", .debug name])
  ensure (b ≠ 0x5c) (.refs ["ref name contains backslash: ", .debug name])
  -- the bytes of `~ ^ ? * [ :`
  ensure (b ∉ [0x7e, 0x5e, 0x3f, 0x2a, 0x5b, 0x3a])
    (.refs ["ref name contains revspec metacharacter ", .debug [Char.ofNat b.toNat],
      ": ", .debug name])

/-- The checks that `validateRefName` makes on every component. -/
def validateRefComponent (name comp : Str) : Result Unit := do
  let bytes := Utf8.encode comp
  ensure (comp ≠ []) (.refs ["ref name has empty component: ", .debug name])
  ensure (comp ≠ ['.', '.'] ∧ comp ≠ ['.'])
    (.refs ["ref name has '..' or '.' component: ", .debug name])
  ensure (comp.head? ≠ some '-')
    (.refs ["ref name component starts with '-': ", .debug name])
  ensure (¬(eqIgnoreAsciiCase (bytes.drop (bytes.length - 5)) (Utf8.encode ".lock") ∧
      5 ≤ bytes.length))
    (.refs ["ref name component ends in .lock: ", .debug name])

/-- Validating a reference name. -/
def validateRefName (name : Str) : Result Unit := do
  let bytes := Utf8.encode name
  ensure (name ≠ []) (.refs ["empty ref name"])
  ensure (bytes.length ≤ maxRefNameLen)
    (.refs ["ref name length ", .num bytes.length, " exceeds ", .num maxRefNameLen])
  ensure (name.head? ≠ some '/')
    (.refs ["ref name must not start with '/': ", .debug name])
  ensure (name.getLast? ≠ some '/')
    (.refs ["ref name must not end with '/': ", .debug name])
  bytes.forM (validateRefByte name)
  (split '/' name).forM (validateRefComponent name)
  ensure (splitOnce ['.', '.'] name = none) (.refs ["ref name contains '..': ", .debug name])
  ensure (splitOnce ['@', '\x7b'] name = none)
    (.refs ["ref name contains '@\x7b': ", .debug name])

/-- The directories that a valid name leads through have valid names. -/
lemma validateRefName_of_append {dir rest : Str} (hdir : dir ≠ [])
    (h : validateRefName (dir ++ '/' :: rest) = .ok ()) : validateRefName dir = .ok () := by
  simp only [validateRefName, validateRefByte, validateRefComponent, check_bind_eq_ok, ensure_eq_ok,
    forM_eq_ok, encode_append, split_append_sep, forall_mem_append,
    splitOnce_eq_none_iff] at h ⊢
  obtain ⟨-, hlen, hhead, -, ⟨hbytes, -⟩, ⟨hcomps, -⟩, hdots, hat⟩ := h
  refine ⟨hdir, ?_, ?_, ?_, hbytes, hcomps, ?_, ?_⟩
  · rw [length_append] at hlen
    omega
  · rwa [head?_append_of_ne_nil _ hdir] at hhead
  · -- A name that ends in a slash has an empty component.
    intro hlast
    obtain ⟨init, rfl⟩ := getLast?_eq_some_iff.mp hlast
    have hempty : ([] : Str) ∈ split '/' (init ++ ['/']) := by
      rw [split_append_sep]
      exact mem_append_right _ (mem_singleton.mpr rfl)
    exact (hcomps [] hempty).1 rfl
  · exact fun hin => hdots (hin.trans (prefix_append _ _).isInfix)
  · exact fun hin => hat (hin.trans (prefix_append _ _).isInfix)

/-- No character of a valid name is a control character. -/
lemma notMem_of_validateRefName {name : Str} (hname : validateRefName name = .ok ()) {c : Char}
    (hc : c.toNat < 0x20) : c ∉ name := by
  simp only [validateRefName, check_bind_eq_ok, ensure_eq_ok, forM_eq_ok] at hname
  obtain ⟨-, -, -, -, hbytes, -⟩ := hname
  intro hmem
  have hbyte : UInt8.ofNat c.toNat ∈ encode name := by
    refine mem_flatMap.mpr ⟨c, hmem, ?_⟩
    rw [utf8EncodeChar_one (by omega)]
    exact mem_singleton_self _
  have hvalid := hbytes _ hbyte
  simp only [validateRefByte, check_bind_eq_ok, ensure_eq_ok] at hvalid
  refine hvalid.1 (.inl (UInt8.lt_iff_toNat_lt.mpr ?_))
  rw [UInt8.toNat_ofNat_of_lt' (Nat.lt_trans hc (by decide))]
  exact hc

/-! ## Files -/

/-- The files below the repository directory. -/
structure RefFiles where
  files : List (Str × Bytes)
  /-- Directories that exist even if no file is in them. -/
  dirs : List Str
  deriving DecidableEq, Repr

namespace RefFiles

/-- The content of the file at a path. -/
def get? (fs : RefFiles) (path : Str) : Option Bytes := fs.files.lookup path

/-- Whether a path leads through another one, taken as a directory. -/
def isBelow (path dir : Str) : Bool := (dir ++ ['/']).isPrefixOf path

def isDir (fs : RefFiles) (path : Str) : Bool :=
  fs.files.any (fun f => isBelow f.1 path) || fs.dirs.any (fun d => d == path || isBelow d path)

/-- Whether a file can be written to a path, creating the directories above it. -/
def canWrite (fs : RefFiles) (path : Str) : Bool :=
  !fs.isDir path && !fs.files.any (fun f => isBelow path f.1)

/-- The files after the content of one of them was replaced. -/
def set (fs : RefFiles) (path : Str) (content : Bytes) : RefFiles :=
  { fs with files := (path, content) :: fs.files.filter (·.1 ≠ path) }

/-- Writing a file; `none` if the path cannot be written. -/
def write (fs : RefFiles) (path : Str) (content : Bytes) : Option RefFiles :=
  if fs.canWrite path then some (fs.set path content) else none

def remove (fs : RefFiles) (path : Str) : RefFiles :=
  { fs with files := fs.files.filter (·.1 ≠ path) }

def parent (path : Str) : Str := (path.rdropWhile (· ≠ '/')).dropLast

/-- The files after one of them was removed and its directory stayed. -/
def unlink (fs : RefFiles) (path : Str) : RefFiles :=
  { fs.remove path with dirs := parent path :: fs.dirs }

/-- No file is a directory. -/
def IsTree (fs : RefFiles) : Prop := ∀ f ∈ fs.files, fs.isDir f.1 = false

instance (fs : RefFiles) : Decidable fs.IsTree :=
  inferInstanceAs (Decidable (∀ f ∈ fs.files, fs.isDir f.1 = false))

variable {fs : RefFiles} {path path' : Str} {content : Bytes}

lemma mem_files_of_get? (h : fs.get? path = some content) : (path, content) ∈ fs.files := by
  obtain ⟨l₁, l₂, hfiles, -⟩ := lookup_eq_some_iff.mp h
  rw [hfiles]
  exact mem_append_right _ mem_cons_self

@[simp] lemma get?_set_self : (fs.set path content).get? path = some content := by simp [set, get?]

@[simp] lemma get?_remove_of_ne (h : path' ≠ path) :
    (fs.remove path).get? path' = fs.get? path' := by
  simp only [remove, get?]
  induction fs.files with
  | nil => rfl
  | cons f files ih =>
    by_cases hf : f.1 = path
    · have hne : path' ≠ f.1 := hf ▸ h
      rw [filter_cons_of_neg (by simp [hf]), ih, lookup_cons, beq_eq_false_iff_ne.mpr hne]
    · rw [filter_cons_of_pos (by simp [hf]), lookup_cons, lookup_cons, ih]

@[simp] lemma get?_set_of_ne (h : path' ≠ path) :
    (fs.set path content).get? path' = fs.get? path' := by
  rw [get?, set, lookup_cons, beq_eq_false_iff_ne.mpr h]
  exact get?_remove_of_ne h

lemma get?_remove_self : (fs.remove path).get? path = none := by
  rw [get?, lookup_eq_none_iff]
  intro f hf
  exact bne_iff_ne.mpr (of_decide_eq_true (mem_filter.mp hf).2).symm

/-- Removing files leaves the others alone. -/
lemma get?_foldl_remove {names : List Str} (h : path ∉ names) :
    (names.foldl remove fs).get? path = fs.get? path := by
  induction names generalizing fs with
  | nil => rfl
  | cons name names ih =>
    rw [mem_cons, not_or] at h
    rw [foldl_cons, ih h.2, get?_remove_of_ne h.1]

lemma get?_isSome_of_mem {f : Str × Bytes} (h : f ∈ fs.files) : (fs.get? f.1).isSome := by
  rw [Option.isSome_iff_ne_none, get?, Ne, lookup_eq_none_iff]
  exact fun hall => by simpa using hall f h

lemma isDir_eq_false : fs.isDir path = false ↔ (∀ f ∈ fs.files, isBelow f.1 path = false) ∧
    ∀ d ∈ fs.dirs, d ≠ path ∧ isBelow d path = false := by simp [isDir]

/-- In a tree nothing is below a file. -/
lemma IsTree.isBelow_eq_false (h : fs.IsTree) {dir : Str} (hdir : fs.get? dir = some content)
    {f : Str × Bytes} (hf : f ∈ fs.files) : isBelow f.1 dir = false :=
  (isDir_eq_false.mp (h _ (mem_files_of_get? hdir))).1 f hf

/-- A path that can be written can be added to a tree. -/
lemma IsTree.set (h : fs.IsTree) (hwrite : fs.canWrite path = true) (content : Bytes) :
    (fs.set path content).IsTree := by
  obtain ⟨hdir, hthrough⟩ : fs.isDir path = false ∧ ∀ f ∈ fs.files, isBelow path f.1 = false := by
    simpa [canWrite] using hwrite
  have hself : isBelow path path = false := by
    rw [isBelow, Bool.eq_false_iff, Ne, isPrefixOf_iff_prefix]
    intro hpre
    simpa using hpre.length_le
  have hold : ∀ p, isBelow path p = false → fs.isDir p = false →
      (fs.set path content).isDir p = false := by
    intro p hp hisDir
    obtain ⟨hfiles, hdirs⟩ := isDir_eq_false.mp hisDir
    refine isDir_eq_false.mpr ⟨forall_mem_cons.mpr ⟨hp, fun f hf => ?_⟩, hdirs⟩
    exact hfiles f (mem_of_mem_filter hf)
  refine forall_mem_cons.mpr ⟨hold path hself hdir, fun f hf => ?_⟩
  have hf := mem_of_mem_filter hf
  exact hold f.1 (hthrough f hf) (h f hf)

/-- In a tree a file that exists can be written. -/
lemma IsTree.canWrite (h : fs.IsTree) (hfile : (fs.get? path).isSome) :
    fs.canWrite path = true := by
  obtain ⟨content, hcontent⟩ := Option.isSome_iff_exists.mp hfile
  have hmem := mem_files_of_get? hcontent
  have hthrough : ∀ f ∈ fs.files, isBelow path f.1 = false := fun f hf =>
    (isDir_eq_false.mp (h f hf)).1 (path, content) hmem
  simpa [RefFiles.canWrite, h _ hmem] using hthrough

lemma isDir_of_isBelow (hfile : (fs.get? path).isSome) (hbelow : isBelow path path' = true) :
    fs.isDir path' = true := by
  obtain ⟨content, hcontent⟩ := Option.isSome_iff_exists.mp hfile
  rw [isDir, Bool.or_eq_true, any_eq_true]
  exact .inl ⟨_, mem_files_of_get? hcontent, hbelow⟩

/-- Writing a file creates the directories above it. -/
lemma isDir_set : (fs.set path content).isDir path' = (isBelow path path' || fs.isDir path') := by
  have hany : ((fs.files.filter (·.1 ≠ path)).any (fun f => isBelow f.1 path') = true ∨
      isBelow path path' = true) ↔
      (isBelow path path' = true ∨ fs.files.any (fun f => isBelow f.1 path') = true) := by
    rw [or_comm, any_eq_true, any_eq_true]
    by_cases hbelow : isBelow path path' = true
    · exact iff_of_true (.inl hbelow) (.inl hbelow)
    · refine or_congr_right ⟨fun ⟨f, hf, h⟩ => ⟨f, mem_of_mem_filter hf, h⟩, ?_⟩
      rintro ⟨f, hf, h⟩
      exact ⟨f, mem_filter.mpr ⟨hf, decide_eq_true fun heq => hbelow (heq ▸ h)⟩, h⟩
  rw [Bool.eq_iff_iff, isDir, isDir, set, any_cons, Bool.or_eq_true, Bool.or_eq_true,
    Bool.or_eq_true, Bool.or_eq_true, or_comm (a := isBelow path path' = true), hany, or_assoc]

end RefFiles

/-- Whether there is a file or a directory at a path. -/
def RefFiles.exists (fs : RefFiles) (path : Str) : Bool := (fs.get? path).isSome || fs.isDir path

/-- The content of the file of a reference. -/
def refContent (id : ObjectId) : Bytes := Utf8.encode (id.toHex ++ ['\n'])

def readRefFile (fs : RefFiles) (name : Str) : Result Bytes :=
  match fs.get? name with
  | some bytes => .ok bytes
  | none =>
    if fs.isDir name then .error (.io .isADirectory)
    else .error (.refs ["ref ", .str name, " not found"])

def readRef (fs : RefFiles) (name : Str) : Result ObjectId := do
  validateRefName name
  let bytes ← readRefFile fs name
  let text ← okOr (Utf8.decode bytes) (.refs ["ref ", .str name, " is not valid utf-8"])
  let hex := trim text
  let len := (Utf8.encode hex).length
  ensure (len = hexLen) (.refs ["ref ", .str name, " hash has wrong length: ", .num len])
  mapErr (fun e => .refs ("ref " :: .str name :: " parse error: " :: e.display))
    (ObjectId.fromHex hex)

/-- The value of a reference, if it can be read: `read_ref(..).ok()`. -/
def refValue (fs : RefFiles) (name : Str) : Option ObjectId := (readRef fs name).toOption

variable {fs : RefFiles} {name path : Str} {id : ObjectId}

lemma readRefFile_eq_ok {bytes : Bytes} :
    readRefFile fs name = .ok bytes ↔ fs.get? name = some bytes := by
  unfold readRefFile
  cases fs.get? name with
  | some bytes => simp
  | none => by_cases hdir : fs.isDir name = true <;> simp [hdir]

lemma refValue_eq_some : refValue fs name = some id ↔ readRef fs name = .ok id := by
  rw [refValue]
  cases readRef fs name <;> simp [Except.toOption]

/-- Hexadecimal digits are not whitespace. -/
lemma isWhitespace_of_mem_toHex {c : Char} (h : c ∈ id.toHex) : isWhitespace c = false := by
  have hpair : ∀ b : UInt8, (ObjectId.hexPair b).all (!isWhitespace ·) = true :=
    ObjectId.forall_byte (by decide +kernel)
  obtain ⟨b, -, hc⟩ := mem_flatMap.mp h
  simpa using all_eq_true.mp (hpair b) c hc

/-- A reference that was written reads back. -/
lemma refValue_set_self (hname : validateRefName name = .ok ()) :
    refValue (fs.set name (refContent id)) name = some id := by
  have htrim : trim (id.toHex ++ ['\n']) = id.toHex :=
    (trim_append_space (by decide) _).trans (trim_eq_self fun c hc => isWhitespace_of_mem_toHex hc)
  have hdecode : decode (refContent id) = some (id.toHex ++ ['\n']) := decode_encode _
  have hfile : readRefFile (fs.set name (refContent id)) name = .ok (refContent id) :=
    readRefFile_eq_ok.mpr RefFiles.get?_set_self
  rw [refValue_eq_some]
  simp [readRef, hname, hfile, hdecode, htrim, ObjectId.length_encode_toHex, ensure, mapErr]

/-- Two reference stores with the same file for a reference agree on its value. -/
lemma refValue_congr {fs' : RefFiles} (h : fs'.get? name = fs.get? name) :
    refValue fs' name = refValue fs name := by
  refine Option.ext fun id => ?_
  simp only [refValue_eq_some, readRef, bind_eq_ok, readRefFile_eq_ok, h]

/-- Writing one reference leaves the value of the others. -/
lemma refValue_set_of_ne {content : Bytes} (h : name ≠ path) :
    refValue (fs.set path content) name = refValue fs name :=
  refValue_congr (RefFiles.get?_set_of_ne h)

/-- A reference whose file was removed has no value. -/
lemma refValue_unlink_self : refValue (fs.unlink name) name = none := by
  refine Option.eq_none_iff_forall_ne_some.mpr fun id hvalue => ?_
  rw [refValue_eq_some, readRef, check_bind_eq_ok, bind_eq_ok] at hvalue
  obtain ⟨-, bytes, hbytes, -⟩ := hvalue
  have hnone : (fs.unlink name).get? name = none := RefFiles.get?_remove_self
  rw [readRefFile_eq_ok.mp hbytes] at hnone
  cases hnone

/-- Removing the file of one reference leaves the value of the others. -/
lemma refValue_unlink_of_ne (h : name ≠ path) : refValue (fs.unlink path) name = refValue fs name :=
  refValue_congr (RefFiles.get?_remove_of_ne h)

section

variable (h : refValue fs name = some id)

include h

/-- Only a reference with a file has a value. -/
lemma get?_isSome_of_refValue : (fs.get? name).isSome := by
  rw [refValue_eq_some, readRef, check_bind_eq_ok, bind_eq_ok] at h
  obtain ⟨-, bytes, hbytes, -⟩ := h
  rw [readRefFile_eq_ok.mp hbytes]
  rfl

lemma mem_map_files_of_refValue : name ∈ fs.files.map (·.1) := by
  obtain ⟨content, hcontent⟩ := Option.isSome_iff_exists.mp (get?_isSome_of_refValue h)
  exact mem_map_of_mem (f := Prod.fst) (RefFiles.mem_files_of_get? hcontent)

/-- Only valid names have a value. -/
lemma validateRefName_of_refValue : validateRefName name = .ok () := by
  rw [refValue_eq_some, readRef, bind_eq_ok] at h
  obtain ⟨u, hname, -⟩ := h
  exact hname

end

/-! ## Listing -/

/-- Names of references with their values. -/
abbrev RefList := List (Str × ObjectId)

/-- One iteration of `walk`: names that are not valid and files that hold no reference are left
out. -/
def listRef (fs : RefFiles) (out : RefList) (name : Str) :
    Result RefList :=
  match validateRefName name with
  | .error _ => .ok out
  | .ok _ =>
    match readRef fs name with
    | .ok id => .ok (out ++ [(name, id)])
    | .error (.refs _) => .ok out
    | .error e => .error e

/-- The references below a directory, in the order of their names. -/
def listRefs (fs : RefFiles) (dir : Str) : Result RefList := do
  validateRefName dir
  if fs.exists dir then do
    ensure (fs.get? dir = none) (.io .notADirectory)
    let names := (fs.files.map (·.1)).filter (RefFiles.isBelow · dir)
    let out ← names.foldlM (listRef fs) []
    return out.insertionSort (·.1 ≤ ·.1)
  else return []

section List

variable {dir : Str} {out out' : RefList}

lemma mem_listRef (h : listRef fs out path = .ok out') :
    (name, id) ∈ out' ↔ (name, id) ∈ out ∨ name = path ∧ refValue fs name = some id := by
  unfold listRef at h
  split at h
  · next e hpath =>
    cases h
    have hnone : ¬ (name = path ∧ refValue fs name = some id) := by
      rintro ⟨rfl, hvalue⟩
      rw [validateRefName_of_refValue hvalue] at hpath
      cases hpath
    simp [hnone]
  · split at h
    · next id' hread =>
      cases h
      rw [mem_append, mem_singleton, Prod.mk.injEq]
      refine or_congr_right (and_congr_right fun hpath => ?_)
      rw [hpath, refValue_eq_some, hread, Except.ok.injEq, eq_comm]
    · next m hread =>
      cases h
      have hnone : ¬ (name = path ∧ refValue fs name = some id) := by
        rintro ⟨rfl, hvalue⟩
        rw [refValue_eq_some.mp hvalue] at hread
        cases hread
      simp [hnone]
    · cases h

lemma mem_foldlM_listRef {names : List Str} (h : names.foldlM (listRef fs) out = .ok out') :
    (name, id) ∈ out' ↔ (name, id) ∈ out ∨ name ∈ names ∧ refValue fs name = some id := by
  induction names generalizing out with
  | nil =>
    cases h
    simp
  | cons path names ih =>
    obtain ⟨out₁, hpath, hnames⟩ := bind_eq_ok.mp h
    rw [ih hnames, mem_listRef hpath, mem_cons, or_and_right, or_assoc]

/-- Listing finds exactly the references below the directory that have a value. -/
lemma mem_listRefs (h : listRefs fs dir = .ok out) :
    (name, id) ∈ out ↔ RefFiles.isBelow name dir = true ∧ refValue fs name = some id := by
  obtain ⟨-, h⟩ := check_bind_eq_ok.mp h
  split_ifs at h with hexists
  · obtain ⟨-, h⟩ := check_bind_eq_ok.mp h
    obtain ⟨out₁, hfold, heq⟩ := bind_eq_ok.mp h
    cases heq
    rw [(perm_insertionSort _ _).mem_iff, mem_foldlM_listRef hfold, mem_filter]
    constructor
    · rintro (hnil | ⟨⟨-, hbelow⟩, hvalue⟩)
      · cases hnil
      · exact ⟨hbelow, hvalue⟩
    · rintro ⟨hbelow, hvalue⟩
      exact .inr ⟨⟨mem_map_files_of_refValue hvalue, hbelow⟩, hvalue⟩
  · cases h
    refine ⟨fun hnil => (not_mem_nil hnil).elim, fun ⟨hbelow, hvalue⟩ => ?_⟩
    -- A file below the directory makes the directory exist.
    rw [RefFiles.exists, RefFiles.isDir_of_isBelow (get?_isSome_of_refValue hvalue) hbelow,
      Bool.or_true] at hexists
    exact absurd rfl hexists

/-- A file with a valid name holds a reference, or it is reported as no reference. -/
lemma readRef_of_get? {bytes : Bytes} (hname : validateRefName path = .ok ())
    (hbytes : fs.get? path = some bytes) :
    (∃ id, readRef fs path = .ok id) ∨ ∃ m, readRef fs path = .error (.refs m) := by
  rw [readRef, hname, ok_bind, readRefFile_eq_ok.mpr hbytes, ok_bind]
  cases decode bytes with
  | none => exact .inr ⟨_, rfl⟩
  | some text =>
    rw [okOr_some, ok_bind]
    dsimp only
    by_cases hlen : (encode (trim text)).length = hexLen
    · rw [(ensure_eq_ok (u := ())).mpr hlen, ok_bind]
      cases ObjectId.fromHex (trim text) with
      | ok id => exact .inl ⟨id, rfl⟩
      | error e => exact .inr ⟨_, rfl⟩
    · rw [ensure, if_neg hlen]
      exact .inr ⟨_, rfl⟩

lemma exists_listRef (hsome : (fs.get? path).isSome) (out : RefList) :
    ∃ out', listRef fs out path = .ok out' := by
  obtain ⟨bytes, hbytes⟩ := Option.isSome_iff_exists.mp hsome
  cases hname : validateRefName path with
  | error e => exact ⟨out, by rw [listRef, hname]⟩
  | ok u =>
    rcases readRef_of_get? hname hbytes with ⟨id, hread⟩ | ⟨m, hread⟩
    · exact ⟨_, by rw [listRef, hname, hread]⟩
    · exact ⟨_, by rw [listRef, hname, hread]⟩

/-- A directory with a valid name can be listed. -/
lemma exists_listRefs (hdir : validateRefName dir = .ok ()) (hfile : fs.get? dir = none) :
    ∃ out, listRefs fs dir = .ok out := by
  have hnames : ∀ (names : List Str) (out : RefList),
      (∀ path ∈ names, (fs.get? path).isSome) →
        ∃ out', names.foldlM (listRef fs) out = .ok out' := by
    intro names
    induction names with
    | nil => exact fun out _ => ⟨out, rfl⟩
    | cons path names ih =>
      intro out h
      obtain ⟨hpath, hrest⟩ := forall_mem_cons.mp h
      obtain ⟨out₁, hlist⟩ := exists_listRef hpath out
      obtain ⟨out₂, hfold⟩ := ih out₁ hrest
      exact ⟨out₂, bind_eq_ok.mpr ⟨out₁, hlist, hfold⟩⟩
  rw [listRefs, hdir, ok_bind]
  split_ifs
  · obtain ⟨out, hfold⟩ := hnames ((fs.files.map (·.1)).filter (RefFiles.isBelow · dir)) [] (by
      intro path hpath
      obtain ⟨f, hf, rfl⟩ := mem_map.mp (mem_of_mem_filter hpath)
      exact RefFiles.get?_isSome_of_mem hf)
    refine ⟨out.insertionSort (·.1 ≤ ·.1), ?_⟩
    rw [(ensure_eq_ok (u := ())).mpr hfile, ok_bind]
    dsimp only
    rw [hfold]
    rfl
  · exact ⟨[], rfl⟩

lemma listRef_congr {fs' : RefFiles} (h : fs'.get? path = fs.get? path)
    (hsome : (fs.get? path).isSome) : listRef fs' out path = listRef fs out path := by
  have hfile : readRefFile fs' path = readRefFile fs path := by
    obtain ⟨bytes, hbytes⟩ := Option.isSome_iff_exists.mp hsome
    rw [readRefFile, readRefFile, h, hbytes]
  have hread : readRef fs' path = readRef fs path := by
    rw [readRef, readRef, hfile]
  rw [listRef, listRef, hread]

lemma foldlM_listRef_congr {fs' : RefFiles} {names : List Str}
    (h : ∀ path ∈ names, fs'.get? path = fs.get? path ∧ (fs.get? path).isSome) :
    names.foldlM (listRef fs') out = names.foldlM (listRef fs) out := by
  induction names generalizing out with
  | nil => rfl
  | cons path names ih =>
    obtain ⟨hget, hsome⟩ := h path mem_cons_self
    rw [foldlM_cons, foldlM_cons, listRef_congr hget hsome]
    exact congrArg _ (funext fun _ => ih fun path hpath => h path (mem_cons_of_mem _ hpath))

/-- Writing a file elsewhere does not change what is listed. -/
lemma listRefs_set {content : Bytes} (hbelow : RefFiles.isBelow path dir = false)
    (hne : path ≠ dir) : listRefs (fs.set path content) dir = listRefs fs dir := by
  have hfiles : ∀ files : List (Str × Bytes),
      ((files.filter (·.1 ≠ path)).map (·.1)).filter (RefFiles.isBelow · dir) =
        (files.map (·.1)).filter (RefFiles.isBelow · dir) := by
    intro files
    induction files with
    | nil => rfl
    | cons f files ih =>
      by_cases hf : f.1 = path
      · rw [filter_cons_of_neg (by simp [hf]), map_cons,
          filter_cons_of_neg (by simp [hf, hbelow]), ih]
      · rw [filter_cons_of_pos (by simp [hf]), map_cons, map_cons, filter_cons, filter_cons, ih]
  have hnames : ((fs.set path content).files.map (·.1)).filter (RefFiles.isBelow · dir) =
      (fs.files.map (·.1)).filter (RefFiles.isBelow · dir) := by
    rw [RefFiles.set, map_cons, filter_cons_of_neg (by simp [hbelow]), hfiles]
  have hany : ∀ files : List (Str × Bytes), files.any (fun f => RefFiles.isBelow f.1 dir) =
      !((files.map (·.1)).filter (RefFiles.isBelow · dir)).isEmpty := by
    intro files
    rw [Bool.eq_iff_iff]
    simp [filter_eq_nil_iff]
  have hexists : (fs.set path content).exists dir = fs.exists dir := by
    rw [RefFiles.exists, RefFiles.exists, RefFiles.get?_set_of_ne (Ne.symm hne), RefFiles.isDir,
      RefFiles.isDir, hany, hany, hnames]
    rfl
  have hfold : ((fs.files.map (·.1)).filter (RefFiles.isBelow · dir)).foldlM
      (listRef (fs.set path content)) [] =
      ((fs.files.map (·.1)).filter (RefFiles.isBelow · dir)).foldlM (listRef fs) [] := by
    refine foldlM_listRef_congr fun name hname => ?_
    obtain ⟨hmem, hname⟩ := mem_filter.mp hname
    have hpath : name ≠ path := by
      rintro rfl
      rw [hbelow] at hname
      cases hname
    refine ⟨RefFiles.get?_set_of_ne hpath, ?_⟩
    obtain ⟨f, hf, rfl⟩ := mem_map.mp hmem
    exact RefFiles.get?_isSome_of_mem hf
  unfold listRefs
  dsimp only
  rw [hexists, RefFiles.get?_set_of_ne (Ne.symm hne), hnames, hfold]

end List

end Gyt
