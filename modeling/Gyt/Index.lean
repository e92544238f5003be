import Gyt.Refs

/-!
# The index

The staging area and its binary file, `index.rs`: a header with the number of entries, and for every
entry its times, size, mode, hash and path.

Paths are relative to the working tree and modelled by their components.  The paths in an index come
from trees and index files, which admit neither empty components nor `.` and `..`, so that a path
and the list of its components determine each other.
-/

namespace Gyt

open Text

/-- A path relative to the working tree, as the list of its components. -/
abbrev RelPath := List Str

/-- The path as a text with slashes, `path_to_storage_string`. -/
def pathToStorageString (path : RelPath) : Str := List.intercalate ['/'] path

/-- The bytes under which a path is stored and compared. -/
def pathStorageBytes (path : RelPath) : Bytes := Utf8.encode (pathToStorageString path)

structure IndexEntry where
  ctimeSecs : Int64
  mtimeSecs : Int64
  size : UInt64
  mode : UInt32
  hash : ObjectId
  path : RelPath
  deriving DecidableEq, Repr

structure Index where
  entries : List IndexEntry
  deriving DecidableEq, Repr

namespace Index

/-- The bytes that identify an index file, `MAGIC`. -/
def magic : Bytes := Utf8.encode "GYTI"

/-- The version of the format, `VERSION`. -/
def version : ℕ := 1

def headerLen : ℕ := 4 + 4 + 4

/-- The length of an entry without its path. -/
def entryFixedLen : ℕ := 8 + 8 + 8 + 4 + hashLen + 2

/-- An index without entries. -/
def new : Index := ⟨[]⟩

def find (idx : Index) (path : RelPath) : Option IndexEntry :=
  idx.entries.find? (pathStorageBytes ·.path == pathStorageBytes path)

/-- The entries after the first one with the path of a new entry was replaced by it; the new entry
comes last if there is none. -/
def insertInto (entry : IndexEntry) : List IndexEntry → List IndexEntry
  | [] => [entry]
  | e :: entries =>
    if pathStorageBytes e.path = pathStorageBytes entry.path then entry :: entries
    else e :: insertInto entry entries

def insert (idx : Index) (entry : IndexEntry) : Index := ⟨insertInto entry idx.entries⟩

/-! ## The file -/

/-- A number in little-endian order. -/
def toLeBytes (width n : ℕ) : Bytes := (List.range width).map fun i => UInt8.ofNat (n / 256 ^ i)

/-- The number with the given bytes in little-endian order. -/
def fromLeBytes (bytes : Bytes) : ℕ := bytes.foldr (fun b n => b.toNat + 256 * n) 0

def entryHeader (e : IndexEntry) (pathLen : ℕ) : Bytes :=
  toLeBytes 8 e.ctimeSecs.toUInt64.toNat ++ toLeBytes 8 e.mtimeSecs.toUInt64.toNat ++
    toLeBytes 8 e.size.toNat ++ toLeBytes 4 e.mode.toNat ++ e.hash.bytes ++ toLeBytes 2 pathLen

def entryBytes (e : IndexEntry) : Result Bytes := do
  let pathBytes := pathStorageBytes e.path
  ensure (pathBytes.length < 2 ^ 16)
    (.index ["path too long for u16 encoding: ", .num pathBytes.length, " bytes"])
  return entryHeader e pathBytes.length ++ pathBytes

/-- The content of the index file that `Index::write` writes. -/
def toBytes (idx : Index) : Result Bytes := do
  let sorted := idx.entries.insertionSort (pathStorageBytes ·.path ≤ pathStorageBytes ·.path)
  ensure (sorted.length < 2 ^ 32)
    (.index ["too many entries to encode: ", .num sorted.length])
  let body ← sorted.mapM entryBytes
  return magic ++ toLeBytes 4 version ++ toLeBytes 4 sorted.length ++ body.flatten

/-- The checks that `validateIndexPath` makes on every component. -/
def validateIndexComponent (path : Str) (entryIdx : ℕ) (comp : Str) : Result Unit := do
  ensure (comp ≠ [])
    (.index ["empty path component in entry ", .num entryIdx, ": ", .debug path])
  ensure (comp ≠ ['.'] ∧ comp ≠ ['.', '.'])
    (.index ["path traversal component in entry ", .num entryIdx, ": ", .debug path])
  ensure (¬eqIgnoreAsciiCase (Utf8.encode comp) (Utf8.encode ".gyt"))
    (.index ["path enters .gyt/ in entry ", .num entryIdx, ": ", .debug path])

def validateIndexPath (path : Str) (entryIdx : ℕ) : Result Unit := do
  ensure (path ≠ []) (.index ["empty path in entry ", .num entryIdx])
  ensure (path.head? ≠ some '/')
    (.index ["absolute path in entry ", .num entryIdx, ": ", .debug path])
  ensure (Char.ofNat 0 ∉ path)
    (.index ["path contains NUL in entry ", .num entryIdx, ": ", .debug path])
  ensure ('\\' ∉ path)
    (.index ["path contains backslash in entry ", .num entryIdx, ": ", .debug path])
  (split '/' path).forM (validateIndexComponent path entryIdx)

/-- One iteration of the loop of `parse`: an entry and the bytes after it. -/
def parseEntry (i : ℕ) (data : Bytes) : Result (IndexEntry × Bytes) := do
  ensure (entryFixedLen ≤ data.length)
    (.index ["index truncated in entry ", .num i, " fixed header"])
  let field (off width : ℕ) : ℕ := fromLeBytes ((data.drop off).take width)
  let hash ← ObjectId.fromBytes ((data.drop 28).take hashLen)
  let pathLen := field 60 2
  let data := data.drop entryFixedLen
  ensure (pathLen ≤ data.length)
    (.index ["index truncated in entry ", .num i, " path (", .num pathLen, " bytes)"])
  let path ← okOr (Utf8.decode (data.take pathLen))
    (.index ["non-utf8 path bytes in entry ", .num i])
  validateIndexPath path i
  return (⟨(UInt64.ofNat (field 0 8)).toInt64, (UInt64.ofNat (field 8 8)).toInt64,
    UInt64.ofNat (field 16 8), UInt32.ofNat (field 24 4), hash, split '/' path⟩, data.drop pathLen)

/-- The loop of `parse` over the entries from number `i` on. -/
def parseEntries : ℕ → ℕ → List IndexEntry → Bytes → Result (List IndexEntry × Bytes)
  | 0, _, entries, data => .ok (entries, data)
  | count + 1, i, entries, data => do
    let (e, data) ← parseEntry i data
    parseEntries count (i + 1) (entries ++ [e]) data

/-- Parsing the content of an index file. -/
def parse (data : Bytes) : Result Index := do
  ensure (headerLen ≤ data.length)
    (.index ["index truncated: ", .num data.length, " bytes (need at least ",
      .num headerLen, ")"])
  ensure (data.take 4 = magic)
    (.index ["bad magic: expected ", .bytes magic, ", got ", .bytes (data.take 4)])
  let v := fromLeBytes ((data.drop 4).take 4)
  ensure (v = version)
    (.index ["unsupported version: ", .num v, " (expected ", .num version, ")"])
  let count := fromLeBytes ((data.drop 8).take 4)
  let minRemaining := data.length - headerLen
  ensure (count * entryFixedLen ≤ minRemaining)
    (.index ["index claims ", .num count, " entries but only ", .num minRemaining,
      " bytes remain after header"])
  let (entries, rest) ← parseEntries count 0 [] (data.drop headerLen)
  ensure (rest = [])
    (.index ["trailing garbage after index entries: ", .num rest.length, " bytes left"])
  return ⟨entries⟩

/-- Reading the index file at a path; there need not be one. -/
def read (fs : RefFiles) (path : Str) : Result Index :=
  match fs.get? path with
  | some data => parse data
  | none => if fs.isDir path then .error (.io .isADirectory) else .ok new

/-- Writing another file does not change the index, unless that file is below it. -/
lemma read_set {fs : RefFiles} {name path : Str} {content : Bytes} (hne : name ≠ path)
    (hdir : RefFiles.isBelow path name = true → fs.isDir name = true) :
    read (fs.set path content) name = read fs name := by
  have hsame : (fs.set path content).isDir name = fs.isDir name := by
    rw [RefFiles.isDir_set, Bool.or_eq_right_iff_imp]
    exact hdir
  rw [read, read, RefFiles.get?_set_of_ne hne, hsame]

/-! ## Index files are no references -/

section NoRef

variable {fs : RefFiles} {name : Str}

lemma refValue_of_magic {rest : Bytes} (h : fs.get? name = some (magic ++ rest)) :
    refValue fs name = none := by
  cases hvalue : refValue fs name with
  | none => rfl
  | some id =>
    simp only [refValue_eq_some, readRef, bind_eq_ok, readRefFile_eq_ok, okOr_eq_ok, ensure_eq_ok,
      mapErr_eq_ok] at hvalue
    obtain ⟨_, -, bytes, hbytes, text, htext, _, -, hid⟩ := hvalue
    cases h.symm.trans hbytes
    rw [magic, Utf8.decode_encode_append, Option.map_eq_some_iff] at htext
    obtain ⟨rest', -, rfl⟩ := htext
    obtain ⟨l, -, htrim⟩ := exists_trim_cons (show isWhitespace 'G' = false by decide)
      ("YTI" ++ rest')
    rw [show "GYTI" ++ rest' = 'G' :: ("YTI" ++ rest') from rfl, htrim] at hid
    exact absurd hid (ObjectId.fromHex_cons_ne_ok (by decide) (by decide))

/-- A file that is read as an index holds no reference. -/
lemma refValue_of_read {idx : Index} (h : read fs name = .ok idx) : refValue fs name = none := by
  cases hget : fs.get? name with
  | none =>
    cases hvalue : refValue fs name with
    | none => rfl
    | some id =>
      have hsome := get?_isSome_of_refValue hvalue
      rw [hget] at hsome
      cases hsome
  | some data =>
    rw [read, hget] at h
    obtain ⟨-, h⟩ := check_bind_eq_ok.mp h
    obtain ⟨hmagic, -⟩ := check_bind_eq_ok.mp h
    rw [ensure_eq_ok] at hmagic
    rw [← List.take_append_drop 4 data, hmagic] at hget
    exact refValue_of_magic hget

lemma exists_of_toBytes {idx : Index} {bytes : Bytes} (h : toBytes idx = .ok bytes) :
    ∃ rest, bytes = magic ++ rest := by
  obtain ⟨-, h⟩ := check_bind_eq_ok.mp h
  obtain ⟨body, -, h⟩ := bind_eq_ok.mp h
  cases h
  exact ⟨_, by rw [List.append_assoc, List.append_assoc]⟩

end NoRef

end Index

end Gyt
