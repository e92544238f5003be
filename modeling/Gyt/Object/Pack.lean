import Gyt.IndexFile
import Gyt.Object.Raw
import Gyt.Foundation.BinarySearch

/-!
# Pack files

`object/pack.rs`: many objects in one file `pack-<hex>.pack`, with an index `pack-<hex>.idx` that
lists the position of every object, sorted by identifier.  The name of a pack is the hash of its
content.

`readPack_of_mem` says what is read from a pack: the content of the entry of the identifier if it
is not longer than the cap of the reader, which is smaller than that of the writer.
-/

namespace Gyt.Pack

open Index List Nat

/-- What a pack starts with, `PACK_MAGIC`. -/
def packMagic : Bytes := Utf8.encode "GYTP"

/-- What the index of a pack starts with, `IDX_MAGIC`. -/
def idxMagic : Bytes := Utf8.encode "GYPI"

/-- The version of both files, `PACK_VERSION`. -/
def packVersion : UInt8 := 1

/-- The length of the header of an index, `IDX_HEADER_LEN`. -/
def idxHeaderLen : ℕ := 4 + 1 + 1 + 2 + 4

/-- The length of a row of an index, `IDX_ENTRY_LEN`. -/
def idxEntryLen : ℕ := 32 + 8

/-- The length of the hash at the end of both files, `TRAILER_LEN`. -/
def trailerLen : ℕ := 32

/-- The cap of the reader on the content of an entry. -/
def maxBodyLen : ℕ := 2 ^ 30

/-- An object to be packed, with the content of its object file. -/
structure PackEntry where
  id : ObjectId
  kind : ObjectKind
  onDisk : Bytes
  deriving DecidableEq, Repr

/-- The two files of a pack, and their name without the extension. -/
structure PackFile where
  stem : Str
  pack : Bytes
  idx : Bytes
  deriving DecidableEq, Repr

def encodeKind : ObjectKind → UInt8
  | .blob => 1
  | .commit => 2
  | .tree => 3
  | .tag => 4

def decodeKind (b : UInt8) : Result ObjectKind :=
  if b = 1 then .ok .blob
  else if b = 2 then .ok .commit
  else if b = 3 then .ok .tree
  else if b = 4 then .ok .tag
  else .error (.object ["pack: unknown entry kind byte ", .num b.toNat])

/-! ## Writing -/

/-- The first bytes of a pack or an index. -/
def header (magic : Bytes) (count : ℕ) : Bytes :=
  magic ++ [packVersion, 0, 0, 0] ++ toLeBytes 4 count

def entryBytes (e : PackEntry) : Bytes :=
  encodeKind e.kind :: (e.id.bytes ++ toLeBytes 4 e.onDisk.length ++ e.onDisk)

/-- The row of an index for an object at an offset. -/
def idxRow (row : ObjectId × ℕ) : Bytes := row.1.bytes ++ toLeBytes 8 row.2

/-- One iteration of the loop of `write_pack` over the entries: the body and the offsets so far. -/
def pushEntry (s : Bytes × List (ObjectId × ℕ)) (e : PackEntry) :
    Result (Bytes × List (ObjectId × ℕ)) := do
  ensure (s.1.length < 2 ^ 64) (.object ["pack: offset overflow"])
  ensure (e.onDisk.length < 2 ^ 32) (.object ["pack: entry body too large (>4 GiB)"])
  return (s.1 ++ entryBytes e, s.2 ++ [(e.id, s.1.length)])

/-- The entries in the order in which they are written: sorted, without repetitions. -/
def sorted (entries : List PackEntry) : List PackEntry :=
  (entries.insertionSort (·.id.bytes ≤ ·.id.bytes)).destutter (·.id ≠ ·.id)

/-- The files of a pack, as `write_pack` writes them. -/
def writePack (hashBytes : Hash) (entries : List PackEntry) : Result PackFile := do
  let entries := sorted entries
  ensure (entries ≠ []) (.object ["pack: refuse to write empty pack"])
  ensure (entries.length < 2 ^ 32) (.object ["pack: too many entries (>u32)"])
  let (body, offsets) ← entries.foldlM pushEntry (header packMagic entries.length, [])
  let trailer := hashBytes body
  return ⟨"pack-" ++ trailer.toHex, body ++ trailer.bytes,
    header idxMagic entries.length ++ offsets.flatMap idxRow ++ trailer.bytes⟩

/-! ## Reading -/

/-- The identifier in a row of an index. -/
def idxKey (bytes : Bytes) (row : ℕ) : Bytes :=
  (bytes.drop (idxHeaderLen + row * idxEntryLen)).take hashLen

/-- Looking up the offset of an object; the path is that of the index, for messages. -/
def lookupInIdx (path : Str) (bytes : Bytes) (id : ObjectId) : Result (Option ℕ) := do
  ensure (idxHeaderLen + trailerLen ≤ bytes.length)
    (.object ["pack idx ", .str path, ": too short"])
  ensure (bytes.take 4 = idxMagic) (.object ["pack idx ", .str path, ": bad magic"])
  let version := bytes.getD 4 0
  ensure (version = packVersion) (.object ["pack idx ", .str path,
    ": unsupported version ", .num version.toNat])
  let count := fromLeBytes ((bytes.drop 8).take 4)
  let expected := count * idxEntryLen + (idxHeaderLen + trailerLen)
  ensure (expected < 2 ^ 64) (.object ["pack idx ", .str path, ": entry count ",
    .num count, " overflows expected size"])
  ensure (bytes.length = expected) (.object ["pack idx ", .str path,
    ": length mismatch (have ", .num bytes.length, ", want ", .num expected, ")"])
  return (BinarySearch.search (idxKey bytes) id.bytes count 0 count).map fun row =>
    fromLeBytes ((bytes.drop (idxHeaderLen + row * idxEntryLen + hashLen)).take 8)

/-- The kind and the body of the entry at an offset of a pack. -/
def entryAt (path : Str) (pack : Bytes) (offset : ℕ) (id : ObjectId) :
    Result (ObjectKind × Bytes) := do
  let rest := pack.drop offset
  -- `read_exact` of the header.
  ensure (1 + hashLen + 4 ≤ rest.length) (.io .other)
  let kind ← decodeKind (rest.getD 0 0)
  ensure ((rest.drop 1).take hashLen = id.bytes) (.object ["pack ", .str path,
    ": entry hash mismatch at offset ", .num offset])
  let bodyLen := fromLeBytes ((rest.drop (1 + hashLen)).take 4)
  ensure (bodyLen ≤ maxBodyLen) (.object ["pack ", .str path, ": entry body too large (",
    .num bodyLen, " bytes)"])
  let body := (rest.drop (1 + hashLen + 4)).take bodyLen
  -- `read_exact` of the body.
  ensure (body.length = bodyLen) (.io .other)
  return (kind, body)

/-- The body of the entry of an object in one pack. -/
def packedBytes (dir : Str) (id : ObjectId) (p : PackFile) : Option Bytes :=
  match lookupInIdx (dir ++ '/' :: p.stem ++ ".idx") p.idx id with
  | .ok (some offset) =>
    (entryAt (dir ++ '/' :: p.stem ++ ".pack") p.pack offset id).toOption.map Prod.snd
  | _ => none

section Content

variable (hashBytes : Hash) (xz : Xz)

/-- The object in the body of an entry; the path is that of the pack. -/
def readBody (path : Str) (id : ObjectId) (kind : ObjectKind) (body : Bytes) : Result Object := do
  let raw ← Compress.decode xz body
  let observed := hashBytes raw
  ensure (observed = id) (.object ["pack ", .str path, ": decompressed hash mismatch (got ",
    .str observed.toHex, ")"])
  let o ← parseRaw raw
  ensure (o.kind = kind) (.object ["pack ", .str path, ": kind byte (", .str kind.asStr,
    ") disagrees with payload header (", .str o.kind.asStr, ")"])
  return ⟨kind, o.payload⟩

def readEntryAt (path : Str) (pack : Bytes) (offset : ℕ) (id : ObjectId) : Result Object := do
  let (kind, body) ← entryAt path pack offset id
  readBody hashBytes xz path id kind body

def readPack (dir : Str) (p : PackFile) (id : ObjectId) : Result (Option Object) := do
  match ← lookupInIdx (dir ++ '/' :: p.stem ++ ".idx") p.idx id with
  | some offset =>
    let o ← readEntryAt hashBytes xz (dir ++ '/' :: p.stem ++ ".pack") p.pack offset id
    return some o
  | none => return none

/-- Reading an object from the packs of a directory, in the order of the directory. -/
def readFromPacks (dir : Str) : List PackFile → ObjectId → Result (Option Object)
  | [], _ => .ok none
  | p :: packs, id =>
    if "pack-".toList.isPrefixOf p.stem then do
      match ← readPack hashBytes xz dir p id with
      | some o => return some o
      | none => readFromPacks dir packs id
    else readFromPacks dir packs id

end Content

def idInPacks (dir : Str) (packs : List PackFile) (id : ObjectId) : Bool :=
  packs.any fun p => match lookupInIdx (dir ++ '/' :: p.stem ++ ".idx") p.idx id with
    | .ok (some _) => true
    | _ => false

/-! ## Reading what was written -/

lemma decodeKind_encodeKind (kind : ObjectKind) : decodeKind (encodeKind kind) = .ok kind := by
  cases kind <;> rfl

/-- No identifier is written twice, and they ascend. -/
lemma ascending_sorted (entries : List PackEntry) :
    (sorted entries).Pairwise (·.id.bytes < ·.id.bytes) := by
  have hle : (sorted entries).Pairwise (·.id.bytes ≤ ·.id.bytes) :=
    (pairwise_insertionSort _ entries).sublist (destutter_sublist _ _)
  have hne : (sorted entries).IsChain (·.id ≠ ·.id) := isChain_destutter _ _
  have htrans : IsTrans PackEntry (·.id.bytes < ·.id.bytes) :=
    ⟨fun _ _ _ => List.lt_trans⟩
  refine isChain_iff_pairwise.mp (isChain_iff_getElem.mpr fun i hi => ?_)
  exact Std.lt_of_le_of_ne (pairwise_iff_getElem.mp hle i (i + 1) _ hi (lt_succ_self i))
    fun h => isChain_iff_getElem.mp hne i hi (ObjectId.ext h)

/-- Entries with distinct identifiers are all written. -/
lemma mem_sorted {entries : List PackEntry} (h : (entries.map (·.id)).Nodup) {e : PackEntry} :
    e ∈ sorted entries ↔ e ∈ entries := by
  have hperm := perm_insertionSort (·.id.bytes ≤ ·.id.bytes) entries
  have hne : (entries.insertionSort (·.id.bytes ≤ ·.id.bytes)).IsChain (·.id ≠ ·.id) :=
    (pairwise_map.mp ((hperm.map _).nodup_iff.mpr h)).isChain
  rw [sorted, destutter_of_isChain _ _ hne, hperm.mem_iff]

section Offsets

variable {body more : Bytes} {e : PackEntry} {row : ObjectId × ℕ}

/-- An entry stands in the body of a pack where its row says. -/
structure Placed (body : Bytes) (e : PackEntry) (row : ObjectId × ℕ) : Prop where
  id_eq : row.1 = e.id
  offset_lt : row.2 < 2 ^ 64
  length_lt : e.onDisk.length < 2 ^ 32
  drop_eq : ∃ rest, body.drop row.2 = entryBytes e ++ rest

/-- Later entries leave an entry in its place. -/
lemma Placed.append (h : Placed body e row) (more : Bytes) : Placed (body ++ more) e row := by
  obtain ⟨rest, hrest⟩ := h.drop_eq
  have hle : row.2 ≤ body.length := by
    by_contra hlt
    rw [drop_eq_nil_of_le (Nat.le_of_not_le hlt)] at hrest
    cases hrest
  refine ⟨h.id_eq, h.offset_lt, h.length_lt, rest ++ more, ?_⟩
  rw [drop_append_of_le_length hle, hrest, append_assoc]

/-- The loop of `write_pack` places every entry. -/
lemma placed_of_foldlM {entries : List PackEntry} {rows : List (ObjectId × ℕ)} {start : Bytes}
    (h : entries.foldlM pushEntry (start, []) = .ok (body, rows)) :
    Forall₂ (Placed body) entries rows := by
  refine foldlM_invariant (fun s pre => Forall₂ (Placed s.1) pre s.2) ?_ .nil h
  intro s pre e s' hs hpush
  obtain ⟨hoffset, hpush⟩ := check_bind_eq_ok.mp hpush
  obtain ⟨hlen, hpush⟩ := check_bind_eq_ok.mp hpush
  cases hpush
  rw [ensure_eq_ok] at hoffset hlen
  have hnew : Placed (s.1 ++ entryBytes e) e (e.id, s.1.length) :=
    ⟨rfl, hoffset, hlen, [], by rw [drop_left, append_nil]⟩
  exact rel_append (hs.imp fun _ _ hp => hp.append _) (.cons hnew .nil)

end Offsets

section Lookup

variable {rows : List (ObjectId × ℕ)} {row : ObjectId × ℕ} {tail bytes : Bytes}
  {id : ObjectId} {i : ℕ}

lemma length_idxRow (row : ObjectId × ℕ) : (idxRow row).length = idxEntryLen := by
  rw [idxRow, length_append, row.1.length_bytes, length_toLeBytes]
  rfl

lemma length_flatMap_idxRow (rows : List (ObjectId × ℕ)) :
    (rows.flatMap idxRow).length = rows.length * idxEntryLen := by
  induction rows with
  | nil => rfl
  | cons row rows ih =>
    rw [flatMap_cons, length_append, length_idxRow, ih, length_cons, succ_mul, add_comm]

lemma length_header {magic : Bytes} (h : magic.length = 4) (count : ℕ) :
    (header magic count).length = idxHeaderLen := by
  simp only [header, length_append, length_toLeBytes, h]
  rfl

/-- The rows of an index stand one after the other. -/
lemma drop_flatMap_idxRow (h : rows[i]? = some row) (tail : Bytes) :
    ∃ rest, (rows.flatMap idxRow ++ tail).drop (i * idxEntryLen) = idxRow row ++ rest := by
  induction rows generalizing i with
  | nil => cases h
  | cons first rows ih =>
    cases i with
    | zero =>
      cases h
      exact ⟨rows.flatMap idxRow ++ tail, by simp⟩
    | succ i =>
      obtain ⟨rest, hrest⟩ := ih h
      refine ⟨rest, ?_⟩
      rw [flatMap_cons, append_assoc, succ_mul, add_comm, ← drop_drop,
        ← length_idxRow first, drop_left, length_idxRow, hrest]

/-- The content of an index. -/
def idxBytes (rows : List (ObjectId × ℕ)) (trailer : ObjectId) : Bytes :=
  header idxMagic rows.length ++ rows.flatMap idxRow ++ trailer.bytes

variable (trailer : ObjectId)

lemma length_idxBytes : (idxBytes rows trailer).length =
    rows.length * idxEntryLen + (idxHeaderLen + trailerLen) := by
  rw [idxBytes, length_append, length_append, length_header (by decide),
    length_flatMap_idxRow, trailer.length_bytes]
  simp only [hashLen, trailerLen]
  omega

lemma drop_idxBytes (h : rows[i]? = some row) :
    ∃ rest, (idxBytes rows trailer).drop (idxHeaderLen + i * idxEntryLen) = idxRow row ++ rest := by
  obtain ⟨rest, hrest⟩ := drop_flatMap_idxRow h trailer.bytes
  refine ⟨rest, ?_⟩
  rw [idxBytes, append_assoc, ← drop_drop,
    ← length_header (show idxMagic.length = 4 by decide) rows.length, drop_left, hrest]

/-- The two fields of a row. -/
lemma row_idxBytes (h : rows[i]? = some row) (hoffset : row.2 < 2 ^ 64) :
    idxKey (idxBytes rows trailer) i = row.1.bytes ∧ fromLeBytes (((idxBytes rows trailer).drop
        (idxHeaderLen + i * idxEntryLen + hashLen)).take 8) = row.2 := by
  obtain ⟨rest, hrest⟩ := drop_idxBytes trailer h
  rw [idxRow, append_assoc] at hrest
  obtain ⟨hkey, hrest⟩ := chunk_of_drop hrest row.1.length_bytes
  obtain ⟨hvalue, -⟩ := chunk_of_drop hrest (length_toLeBytes 8 row.2)
  exact ⟨hkey, by rw [hvalue, fromLeBytes_toLeBytes (by simpa using hoffset)]⟩

/-- The count in the header of an index is read back. -/
lemma count_idxBytes (h : rows.length < 2 ^ 32) :
    fromLeBytes (((idxBytes rows trailer).drop 8).take 4) = rows.length := by
  have hdrop : (idxBytes rows trailer).drop 8 =
      toLeBytes 4 rows.length ++ (rows.flatMap idxRow ++ trailer.bytes) := by
    rw [idxBytes, header, append_assoc, append_assoc]
    rfl
  rw [(chunk_of_drop hdrop (length_toLeBytes 4 rows.length)).1,
    fromLeBytes_toLeBytes (by simpa using h)]

/-- An index that was written is searched. -/
lemma lookupInIdx_idxBytes (hcount : rows.length < 2 ^ 32) (path : Str) (id : ObjectId) :
    lookupInIdx path (idxBytes rows trailer) id =
      .ok ((BinarySearch.search (idxKey (idxBytes rows trailer)) id.bytes rows.length 0
        rows.length).map fun row => fromLeBytes (((idxBytes rows trailer).drop
          (idxHeaderLen + row * idxEntryLen + hashLen)).take 8)) := by
  have hmagic : (idxBytes rows trailer).take 4 = idxMagic := by
    rw [idxBytes, header, append_assoc, append_assoc, append_assoc]
    rfl
  have hversion : (idxBytes rows trailer).getD 4 0 = packVersion := by
    rw [idxBytes, header, append_assoc, append_assoc, append_assoc]
    rfl
  have hexpected : rows.length * idxEntryLen + (idxHeaderLen + trailerLen) < 2 ^ 64 := by
    simp only [idxEntryLen, idxHeaderLen, trailerLen]
    omega
  simp only [lookupInIdx, length_idxBytes, hmagic, hversion, count_idxBytes trailer hcount, ensure,
    if_pos hexpected, if_true, if_pos (le_add_left _ _), ok_bind]
  rfl

variable (hcount : rows.length < 2 ^ 32) (hoffset : ∀ row ∈ rows, row.2 < 2 ^ 64)
  (hrows : rows.Pairwise (·.1.bytes < ·.1.bytes))

include hoffset hrows in
lemma idxKey_lt (i j : ℕ) (hij : i < j) (hj : j < rows.length) :
    idxKey (idxBytes rows trailer) i < idxKey (idxBytes rows trailer) j := by
  have hi : i < rows.length := hij.trans hj
  rw [(row_idxBytes trailer (getElem?_eq_getElem hi) (hoffset _ (getElem_mem hi))).1,
    (row_idxBytes trailer (getElem?_eq_getElem hj) (hoffset _ (getElem_mem hj))).1]
  exact pairwise_iff_getElem.mp hrows i j hi hj hij

include hcount hoffset hrows

/-- An object that is listed is found. -/
lemma lookupInIdx_of_mem (hrow : row ∈ rows) (path : Str) :
    lookupInIdx path (idxBytes rows trailer) row.1 = .ok (some row.2) := by
  obtain ⟨i, hi⟩ := List.mem_iff_getElem?.mp hrow
  obtain ⟨hlt, -⟩ := List.getElem?_eq_some_iff.mp hi
  obtain ⟨hkey, hvalue⟩ := row_idxBytes trailer hi (hoffset row hrow)
  have hsearch := (BinarySearch.search_eq_some (idxKey_lt trailer hoffset hrows)
    (sub_le _ _)).mpr ⟨zero_le i, hlt, hkey⟩
  rw [lookupInIdx_idxBytes trailer hcount, hsearch, Option.map_some, hvalue]

/-- An object that is not listed is not found. -/
lemma lookupInIdx_of_notMem (hid : id ∉ rows.map Prod.fst) (path : Str) :
    lookupInIdx path (idxBytes rows trailer) id = .ok none := by
  rw [lookupInIdx_idxBytes trailer hcount]
  cases hsearch : BinarySearch.search (idxKey (idxBytes rows trailer)) id.bytes rows.length 0
      rows.length with
  | none => rfl
  | some i =>
    obtain ⟨-, hlt, hkey⟩ := (BinarySearch.search_eq_some (idxKey_lt trailer hoffset hrows)
      (sub_le _ _)).mp hsearch
    have hmem := getElem_mem hlt
    rw [(row_idxBytes trailer (getElem?_eq_getElem hlt) (hoffset _ hmem)).1] at hkey
    exact absurd (mem_map.mpr ⟨_, hmem, ObjectId.ext hkey⟩) hid

end Lookup

section Bodies

variable {hashBytes : Hash} {xz : Xz} {dir path : Str} {id : ObjectId} {o : Object}
  {p : PackFile} {kind : ObjectKind} {body : Bytes}

lemma readBody_eq_ok : readBody hashBytes xz path id kind body = .ok o ↔
    ∃ raw, Compress.decode xz body = .ok raw ∧ hashBytes raw = id ∧ parseRaw raw = .ok o ∧
      o.kind = kind := by
  simp only [readBody, bind_eq_ok, ensure_eq_ok]
  constructor
  · rintro ⟨raw, hraw, -, hid, o', ho', -, rfl, h⟩
    cases h
    exact ⟨raw, hraw, hid, ho', rfl⟩
  · rintro ⟨raw, hraw, hid, ho, rfl⟩
    exact ⟨raw, hraw, (), hid, o, ho, (), rfl, rfl⟩

/-- An object that is read from a pack is read from the body of its entry. -/
lemma packedBytes_of_readPack (h : readPack hashBytes xz dir p id = .ok (some o)) :
    ∃ body raw, packedBytes dir id p = some body ∧ Compress.decode xz body = .ok raw ∧
      hashBytes raw = id ∧ parseRaw raw = .ok o := by
  obtain ⟨found, hlookup, h⟩ := bind_eq_ok.mp h
  cases found with
  | none => cases h
  | some offset =>
    obtain ⟨o', hread, h⟩ := bind_eq_ok.mp h
    cases h
    obtain ⟨⟨kind, body⟩, hentry, hbody⟩ := bind_eq_ok.mp hread
    obtain ⟨raw, hraw, hid, ho, -⟩ := readBody_eq_ok.mp hbody
    refine ⟨body, raw, ?_, hraw, hid, ho⟩
    simp only [packedBytes, hlookup, hentry]
    rfl

/-- A pack that does not have an object has no bytes of it. -/
lemma packedBytes_of_readPack_none (h : readPack hashBytes xz dir p id = .ok none) :
    packedBytes dir id p = none := by
  obtain ⟨found, hlookup, h⟩ := bind_eq_ok.mp h
  cases found with
  | none => simp only [packedBytes, hlookup]
  | some offset =>
    obtain ⟨o', -, h⟩ := bind_eq_ok.mp h
    cases h

end Bodies

section Entries

variable (hashBytes : Hash) (xz : Xz) {body : Bytes} {e : PackEntry} {id : ObjectId}
  {entries : List PackEntry} {p : PackFile}

/-- An entry is found where it was placed, if its content is not too long. -/
lemma entryAt_of_placed {row : ObjectId × ℕ} (h : Placed body e row) (path : Str)
    (tail : Bytes) : entryAt path (body ++ tail) row.2 e.id =
      if e.onDisk.length ≤ maxBodyLen then .ok (e.kind, e.onDisk)
      else .error (.object ["pack ", .str path, ": entry body too large (",
        .num e.onDisk.length, " bytes)"]) := by
  obtain ⟨rest, hrest⟩ := (h.append tail).drop_eq
  rw [entryBytes, cons_append] at hrest
  have hfields : ((body ++ tail).drop row.2).drop 1 =
      e.id.bytes ++ (toLeBytes 4 e.onDisk.length ++ (e.onDisk ++ rest)) := by
    rw [hrest, drop_one, tail_cons, append_assoc, append_assoc]
  obtain ⟨hid, hfields⟩ := chunk_of_drop hfields e.id.length_bytes
  obtain ⟨hlen, hfields⟩ := chunk_of_drop hfields (length_toLeBytes 4 e.onDisk.length)
  have hbody : (((body ++ tail).drop row.2).drop (1 + hashLen + 4)).take e.onDisk.length =
      e.onDisk := by
    rw [hfields, take_left]
  have hheader : 1 + hashLen + 4 ≤ ((body ++ tail).drop row.2).length := by
    rw [hrest]
    simp only [length_cons, length_append, e.id.length_bytes, length_toLeBytes]
    omega
  have hkind : ((body ++ tail).drop row.2).getD 0 0 = encodeKind e.kind := by rw [hrest]; rfl
  have hcount : fromLeBytes (toLeBytes 4 e.onDisk.length) = e.onDisk.length :=
    fromLeBytes_toLeBytes (by simpa using h.length_lt)
  by_cases hmax : e.onDisk.length ≤ maxBodyLen
  · simp only [entryAt, ensure, if_pos hheader, hkind, decodeKind_encodeKind, hid, hlen, hcount,
      if_pos hmax, hbody, if_true, ok_bind]
    rfl
  · simp only [entryAt, ensure, if_pos hheader, hkind, decodeKind_encodeKind, hid, hlen, hcount,
      if_neg hmax, if_true, ok_bind, error_bind]

/-- What the files of a pack are made of. -/
lemma exists_of_writePack (h : writePack hashBytes entries = .ok p) :
    ∃ body rows, rows.length < 2 ^ 32 ∧ Forall₂ (Placed body) (sorted entries) rows ∧
      p = ⟨"pack-" ++ (hashBytes body).toHex, body ++ (hashBytes body).bytes,
        idxBytes rows (hashBytes body)⟩ := by
  obtain ⟨-, h⟩ := check_bind_eq_ok.mp h
  obtain ⟨hcount, h⟩ := check_bind_eq_ok.mp h
  obtain ⟨⟨body, rows⟩, hfold, h⟩ := bind_eq_ok.mp h
  cases h
  rw [ensure_eq_ok] at hcount
  have hplaced := placed_of_foldlM hfold
  refine ⟨body, rows, hplaced.length_eq ▸ hcount, hplaced, ?_⟩
  rw [idxBytes, ← hplaced.length_eq]

/-- The index of a pack lists the identifiers of its entries, in ascending order. -/
lemma rows_of_placed {rows : List (ObjectId × ℕ)}
    (h : Forall₂ (Placed body) (sorted entries) rows) :
    rows.map Prod.fst = (sorted entries).map (·.id) ∧ (∀ row ∈ rows, row.2 < 2 ^ 64) ∧
      rows.Pairwise (·.1.bytes < ·.1.bytes) := by
  have hids : rows.map Prod.fst = (sorted entries).map (·.id) := by
    rw [← forall₂_eq_eq_eq, forall₂_map_left_iff, forall₂_map_right_iff]
    exact (h.imp fun _ _ hp => hp.id_eq).flip
  have hasc : (rows.map Prod.fst).Pairwise (fun a b => a.bytes < b.bytes) := by
    rw [hids, pairwise_map]
    exact ascending_sorted entries
  rw [pairwise_map] at hasc
  refine ⟨hids, fun row hrow => ?_, hasc⟩
  obtain ⟨e, -, hp⟩ := Text.exists_mem_of_forall₂ h.flip hrow
  exact hp.offset_lt

/-- Every entry of a written pack is found, if its body is not too large. -/
theorem readPack_of_mem (h : writePack hashBytes entries = .ok p) (he : e ∈ sorted entries)
    (dir : Str) : readPack hashBytes xz dir p e.id = if e.onDisk.length ≤ maxBodyLen then
        some <$> readBody hashBytes xz (dir ++ '/' :: p.stem ++ ".pack") e.id e.kind e.onDisk
      else .error (.object ["pack ", .str (dir ++ '/' :: p.stem ++ ".pack"),
        ": entry body too large (", .num e.onDisk.length, " bytes)"]) := by
  obtain ⟨body, rows, hcount, hplaced, rfl⟩ := exists_of_writePack hashBytes h
  obtain ⟨hids, hoffset, hasc⟩ := rows_of_placed hplaced
  obtain ⟨row, hrow, hp⟩ := Text.exists_mem_of_forall₂ hplaced he
  have hlookup := lookupInIdx_of_mem (hashBytes body) hcount hoffset hasc hrow
  rw [hp.id_eq] at hlookup
  simp only [readPack, hlookup, ok_bind, readEntryAt, entryAt_of_placed hp]
  split_ifs <;> rfl

/-- Nothing is read from a pack that does not have the object. -/
lemma readPack_of_notMem (h : writePack hashBytes entries = .ok p)
    (hid : ∀ e ∈ sorted entries, e.id ≠ id) (dir : Str) :
    readPack hashBytes xz dir p id = .ok none := by
  obtain ⟨body, rows, hcount, hplaced, rfl⟩ := exists_of_writePack hashBytes h
  obtain ⟨hids, hoffset, hasc⟩ := rows_of_placed hplaced
  have hnot : id ∉ rows.map Prod.fst := by
    rw [hids]
    intro hmem
    obtain ⟨e, he, heq⟩ := mem_map.mp hmem
    exact hid e he heq
  simp only [readPack, lookupInIdx_of_notMem (hashBytes body) hcount hoffset hasc hnot, ok_bind]
  rfl

end Entries

end Gyt.Pack
