import Gyt.Index

/-!
# Reading an index file back

The writer of the index does not look at paths, the reader does.  `parse_toBytes_eq_ok` says that an
index reads back, in the order of its paths, exactly if all the texts that are written for its paths
pass the checks of the reader, and `validPath_of_parse` that no other paths are ever read.
-/

namespace Gyt.Index

open Text List Utf8 Nat

/-! ## Numbers -/

lemma toLeBytes_succ (width n : ℕ) :
    toLeBytes (width + 1) n = UInt8.ofNat n :: toLeBytes width (n / 256) := by
  simp only [toLeBytes, range_succ_eq_map, map_cons, map_map, Nat.pow_zero, Nat.div_one]
  refine congrArg _ (map_congr_left fun i _ => ?_)
  simp [Nat.div_div_eq_div_mul, Nat.pow_succ, Nat.mul_comm]

@[simp] lemma length_toLeBytes (width n : ℕ) : (toLeBytes width n).length = width := by
  simp [toLeBytes]

/-- A number that fits is read back. -/
lemma fromLeBytes_toLeBytes {width n : ℕ} (h : n < 256 ^ width) :
    fromLeBytes (toLeBytes width n) = n := by
  induction width generalizing n with
  | zero =>
    rw [pow_zero, lt_one_iff] at h
    rw [h]
    rfl
  | succ width ih =>
    have hdiv : n / 256 < 256 ^ width := by
      rw [pow_succ] at h
      exact Nat.div_lt_of_lt_mul (by rwa [Nat.mul_comm])
    have hcons : fromLeBytes (toLeBytes (width + 1) n) =
        (UInt8.ofNat n).toNat + 256 * fromLeBytes (toLeBytes width (n / 256)) := by
      rw [toLeBytes_succ]
      rfl
    rw [hcons, ih hdiv]
    have hmod : (UInt8.ofNat n).toNat = n % 256 := by simp
    rw [hmod]
    exact mod_add_div n 256

/-! ## Paths -/

/-- What the reader asks of the components of a path. -/
structure ValidComponent (comp : Str) : Prop where
  ne_nil : comp ≠ []
  ne_dot : comp ≠ ['.'] ∧ comp ≠ ['.', '.']
  ne_gyt : ¬ eqIgnoreAsciiCase (Utf8.encode comp) (Utf8.encode ".gyt")
  no_slash : '/' ∉ comp
  no_nul : Char.ofNat 0 ∉ comp
  no_backslash : '\\' ∉ comp

/-- What the reader asks of a path. -/
def ValidPath (path : RelPath) : Prop := path ≠ [] ∧ ∀ comp ∈ path, ValidComponent comp

lemma validateIndexComponent_eq_ok {text comp : Str} {i : ℕ} :
    validateIndexComponent text i comp = .ok () ↔ comp ≠ [] ∧ (comp ≠ ['.'] ∧ comp ≠ ['.', '.']) ∧
      ¬ eqIgnoreAsciiCase (encode comp) (encode ".gyt") := by
  simp only [validateIndexComponent, check_bind_eq_ok, ensure_eq_ok]

/-- The reader accepts exactly the valid paths. -/
lemma validateIndexPath_eq_ok {text : Str} {i : ℕ} :
    validateIndexPath text i = .ok () ↔ ValidPath (split '/' text) := by
  simp only [validateIndexPath, check_bind_eq_ok, ensure_eq_ok, forM_eq_ok,
    validateIndexComponent_eq_ok]
  have hnul : Char.ofNat 0 ∈ text ↔ ∃ l ∈ split '/' text, Char.ofNat 0 ∈ l :=
    mem_iff_exists_mem_split (by decide)
  have hback : '\\' ∈ text ↔ ∃ l ∈ split '/' text, '\\' ∈ l :=
    mem_iff_exists_mem_split (by decide)
  constructor
  · rintro ⟨-, -, hn, hb, hcomp⟩
    refine ⟨split_ne_nil _ _, fun comp hmem => ?_⟩
    obtain ⟨hne, hdot, hgyt⟩ := hcomp comp hmem
    exact ⟨hne, hdot, hgyt, notMem_of_mem_split hmem, fun h => hn (hnul.mpr ⟨comp, hmem, h⟩),
      fun h => hb (hback.mpr ⟨comp, hmem, h⟩)⟩
  · rintro ⟨-, hvalid⟩
    -- An empty text or a leading slash would make the first component empty.
    have hempty : [] ∉ split '/' text := fun hmem => (hvalid [] hmem).ne_nil rfl
    refine ⟨?_, ?_, ?_, ?_, fun comp hmem => ?_⟩
    · rintro rfl
      exact hempty mem_cons_self
    · intro hhead
      obtain ⟨rest, rfl⟩ := head?_eq_some_iff.mp hhead
      rw [split, if_pos rfl] at hempty
      exact hempty mem_cons_self
    · rw [hnul]
      rintro ⟨comp, hmem, h⟩
      exact (hvalid comp hmem).no_nul h
    · rw [hback]
      rintro ⟨comp, hmem, h⟩
      exact (hvalid comp hmem).no_backslash h
    · exact ⟨(hvalid comp hmem).ne_nil, (hvalid comp hmem).ne_dot, (hvalid comp hmem).ne_gyt⟩

/-- A valid path is found again in the text that it is stored as. -/
lemma split_pathToStorageString {path : RelPath} (h : ValidPath path) :
    split '/' (pathToStorageString path) = path :=
  split_intercalate h.1 fun comp hmem => (h.2 comp hmem).no_slash

/-! ## Entries -/

section Entry

variable {e : IndexEntry} {bytes rest : Bytes} {i : ℕ}

lemma length_entryHeader (e : IndexEntry) (n : ℕ) : (entryHeader e n).length = entryFixedLen := by
  simp only [entryHeader, length_append, length_toLeBytes, e.hash.length_bytes]
  rfl

/-- A chunk of bytes at a known offset, and what follows it. -/
lemma chunk_of_drop {data chunk rest : Bytes} {off width : ℕ} (h : data.drop off = chunk ++ rest)
    (hlen : chunk.length = width) :
    (data.drop off).take width = chunk ∧ data.drop (off + width) = rest := by
  constructor
  · rw [h, ← hlen, take_left]
  · rw [← drop_drop, h, ← hlen, drop_left]

/-- The fields of an entry, each at its offset, and the path after them. -/
lemma fields_entryHeader (e : IndexEntry) (n : ℕ) (rest : Bytes) :
    ((entryHeader e n ++ rest).drop 0).take 8 = toLeBytes 8 e.ctimeSecs.toUInt64.toNat ∧
    ((entryHeader e n ++ rest).drop 8).take 8 = toLeBytes 8 e.mtimeSecs.toUInt64.toNat ∧
    ((entryHeader e n ++ rest).drop 16).take 8 = toLeBytes 8 e.size.toNat ∧
    ((entryHeader e n ++ rest).drop 24).take 4 = toLeBytes 4 e.mode.toNat ∧
    ((entryHeader e n ++ rest).drop 28).take hashLen = e.hash.bytes ∧
    ((entryHeader e n ++ rest).drop 60).take 2 = toLeBytes 2 n ∧
    (entryHeader e n ++ rest).drop entryFixedLen = rest := by
  have hstart : (entryHeader e n ++ rest).drop 0 = toLeBytes 8 e.ctimeSecs.toUInt64.toNat ++
      (toLeBytes 8 e.mtimeSecs.toUInt64.toNat ++ (toLeBytes 8 e.size.toNat ++
        (toLeBytes 4 e.mode.toNat ++ (e.hash.bytes ++ (toLeBytes 2 n ++ rest))))) := by
    simp [entryHeader]
  obtain ⟨hctime, h8⟩ := chunk_of_drop hstart (length_toLeBytes 8 _)
  obtain ⟨hmtime, h16⟩ := chunk_of_drop h8 (length_toLeBytes 8 _)
  obtain ⟨hsize, h24⟩ := chunk_of_drop h16 (length_toLeBytes 8 _)
  obtain ⟨hmode, h28⟩ := chunk_of_drop h24 (length_toLeBytes 4 _)
  obtain ⟨hhash, h60⟩ := chunk_of_drop h28 e.hash.length_bytes
  obtain ⟨hlen, h62⟩ := chunk_of_drop h60 (length_toLeBytes 2 _)
  exact ⟨hctime, hmtime, hsize, hmode, hhash, hlen, h62⟩

/-- An entry with the path that is read from the text of its path. -/
def restored (e : IndexEntry) : IndexEntry :=
  { e with path := split '/' (pathToStorageString e.path) }

lemma restored_eq_self (h : ValidPath e.path) : restored e = e := by
  rw [restored, split_pathToStorageString h]

/-- The bytes by which paths are compared survive. -/
lemma pathStorageBytes_restored (e : IndexEntry) :
    pathStorageBytes (restored e).path = pathStorageBytes e.path := by
  rw [restored, pathStorageBytes, pathToStorageString, intercalate_split]
  rfl

/-- An entry is read back if the text of its path is valid. -/
lemma parseEntry_entryBytes (h : entryBytes e = .ok bytes) : parseEntry i (bytes ++ rest) = do
      validateIndexPath (pathToStorageString e.path) i
      return (restored e, rest) := by
  obtain ⟨hlen, h⟩ := check_bind_eq_ok.mp h
  rw [ensure_eq_ok] at hlen
  cases h
  obtain ⟨hctime, hmtime, hsize, hmode, hhash, hpathLen, hrest⟩ :=
    fields_entryHeader e (pathStorageBytes e.path).length (pathStorageBytes e.path ++ rest)
  have hfixed : entryFixedLen ≤ (entryHeader e (pathStorageBytes e.path).length ++
      (pathStorageBytes e.path ++ rest)).length := by
    rw [length_append, length_entryHeader]
    exact le_add_right _ _
  have hpathLen' : fromLeBytes (toLeBytes 2 (pathStorageBytes e.path).length) =
      (pathStorageBytes e.path).length := fromLeBytes_toLeBytes hlen
  have hdecode : decode (pathStorageBytes e.path) = some (pathToStorageString e.path) :=
    decode_encode _
  have hle : (pathStorageBytes e.path).length ≤ (pathStorageBytes e.path ++ rest).length := by
    rw [length_append]
    exact le_add_right _ _
  rw [append_assoc]
  simp only [parseEntry, hctime, hmtime, hsize, hmode, hhash, hpathLen, hpathLen', hrest, hfixed,
    hle, take_left, drop_left, hdecode, ObjectId.fromBytes_bytes, ensure, if_true,
    okOr_some, ok_bind]
  rw [fromLeBytes_toLeBytes (Int64.toUInt64 e.ctimeSecs).toNat_lt,
    fromLeBytes_toLeBytes (Int64.toUInt64 e.mtimeSecs).toNat_lt,
    fromLeBytes_toLeBytes e.size.toNat_lt, fromLeBytes_toLeBytes e.mode.toNat_lt]
  simp only [UInt64.ofNat_toNat, Int64.toInt64_toUInt64, UInt32.ofNat_toNat]
  rfl

lemma validPath_of_parseEntry (h : parseEntry i bytes = .ok (e, rest)) : ValidPath e.path := by
  simp only [parseEntry, bind_eq_ok] at h
  obtain ⟨_, -, hash, -, _, -, text, -, _, hvalid, heq⟩ := h
  cases heq
  exact validateIndexPath_eq_ok.mp hvalid

end Entry

/-! ## Files -/

section File

variable {idx : Index} {entries done : List IndexEntry} {body : List Bytes}
  {data bytes rest : Bytes}
  {i : ℕ}

/-- The entries in the order in which they are written. -/
def sorted (entries : List IndexEntry) : List IndexEntry :=
  entries.insertionSort (pathStorageBytes ·.path ≤ pathStorageBytes ·.path)

lemma mem_sorted {e : IndexEntry} : e ∈ sorted entries ↔ e ∈ entries :=
  (perm_insertionSort _ entries).mem_iff

/-- Entries are read back one after the other if the texts of their paths are valid. -/
lemma parseEntries_flatten (h : entries.mapM entryBytes = .ok body) {result : List IndexEntry} :
    parseEntries entries.length i done (body.flatten ++ rest) = .ok (result, data) ↔
      (∀ e ∈ entries, ValidPath (restored e).path) ∧ result = done ++ entries.map restored ∧
        data = rest := by
  induction entries generalizing i done body with
  | nil =>
    cases h
    simp [parseEntries, eq_comm]
  | cons e entries ih =>
    rw [mapM_cons] at h
    obtain ⟨head, hhead, h⟩ := bind_eq_ok.mp h
    obtain ⟨tail, htail, h⟩ := bind_eq_ok.mp h
    cases h
    rw [length_cons, parseEntries, flatten_cons, append_assoc,
      parseEntry_entryBytes hhead, bind_eq_ok]
    have hvalid : validateIndexPath (pathToStorageString e.path) i = .ok () ↔
        ValidPath (restored e).path := validateIndexPath_eq_ok
    constructor
    · rintro ⟨⟨e', data'⟩, he', hrest⟩
      obtain ⟨hok, heq⟩ := check_bind_eq_ok.mp he'
      cases heq
      obtain ⟨hpaths, hresult, hdata⟩ := (ih htail).mp hrest
      refine ⟨forall_mem_cons.mpr ⟨hvalid.mp hok, hpaths⟩, ?_, hdata⟩
      rw [hresult, map_cons, append_assoc, singleton_append]
    · rintro ⟨hpaths, hresult, hdata⟩
      rw [forall_mem_cons] at hpaths
      refine ⟨_, check_bind_eq_ok.mpr ⟨hvalid.mpr hpaths.1, rfl⟩, ?_⟩
      refine (ih htail).mpr ⟨hpaths.2, ?_, hdata⟩
      rw [hresult, map_cons, append_assoc, singleton_append]

lemma length_of_entryBytes {e : IndexEntry} (h : entryBytes e = .ok bytes) :
    entryFixedLen ≤ bytes.length := by
  obtain ⟨-, h⟩ := check_bind_eq_ok.mp h
  cases h
  rw [length_append, length_entryHeader]
  exact le_add_right _ _

lemma length_of_mapM_entryBytes (h : entries.mapM entryBytes = .ok body) :
    entries.length * entryFixedLen ≤ body.flatten.length := by
  induction entries generalizing body with
  | nil => simp
  | cons e entries ih =>
    rw [mapM_cons] at h
    obtain ⟨head, hhead, h⟩ := bind_eq_ok.mp h
    obtain ⟨tail, htail, h⟩ := bind_eq_ok.mp h
    cases h
    have hhead' := length_of_entryBytes hhead
    have htail' := ih htail
    rw [length_cons, succ_mul, flatten_cons, length_append]
    omega

/-- An index reads back exactly if the texts of its paths are valid. -/
theorem parse_toBytes_eq_ok (h : toBytes idx = .ok bytes) {idx' : Index} :
    parse bytes = .ok idx' ↔ (∀ e ∈ idx.entries, ValidPath (restored e).path) ∧
      idx'.entries = (sorted idx.entries).map restored := by
  obtain ⟨hcount, h⟩ := check_bind_eq_ok.mp h
  rw [ensure_eq_ok] at hcount
  obtain ⟨body, hbody, h⟩ := bind_eq_ok.mp h
  cases h
  show parse (magic ++ toLeBytes 4 version ++ toLeBytes 4 (sorted idx.entries).length ++
    body.flatten) = _ ↔ _
  generalize hdata : magic ++ toLeBytes 4 version ++ toLeBytes 4 (sorted idx.entries).length ++
    body.flatten = data
  have hstart : data.drop 0 = magic ++ (toLeBytes 4 version ++
      (toLeBytes 4 (sorted idx.entries).length ++ body.flatten)) := by simp [← hdata]
  obtain ⟨hmagic, h4⟩ := chunk_of_drop hstart (show magic.length = 4 by decide)
  obtain ⟨hversion, h8⟩ := chunk_of_drop h4 (length_toLeBytes 4 _)
  obtain ⟨hlength, h12⟩ := chunk_of_drop h8 (length_toLeBytes 4 _)
  have hlen : data.length = headerLen + body.flatten.length := by
    rw [← hdata, length_append, length_append, length_append, length_toLeBytes,
      length_toLeBytes, show magic.length = 4 by decide]
    rfl
  have hheader : headerLen ≤ data.length := by
    rw [hlen]
    exact le_add_right _ _
  have hfit : (sorted idx.entries).length * entryFixedLen ≤ data.length - headerLen := by
    rw [hlen, Nat.add_sub_cancel_left]
    exact length_of_mapM_entryBytes hbody
  have hflatten : data.drop headerLen = body.flatten ++ [] := by
    rw [append_nil]
    exact h12
  have hv : fromLeBytes (toLeBytes 4 version) = version := fromLeBytes_toLeBytes (by decide)
  have hn : fromLeBytes (toLeBytes 4 (sorted idx.entries).length) = (sorted idx.entries).length :=
    fromLeBytes_toLeBytes hcount
  simp only [parse, show data.take 4 = magic from hmagic,
    show (data.drop 4).take 4 = _ from hversion,
    show (data.drop 8).take 4 = _ from hlength, hv, hn, hfit, ensure, hheader, if_true, ok_bind,
    bind_eq_ok, hflatten]
  constructor
  · rintro ⟨⟨result, rest⟩, hentries, _, -, heq⟩
    obtain ⟨hpaths, rfl, -⟩ := (parseEntries_flatten hbody).mp hentries
    cases heq
    exact ⟨fun e he => hpaths e (mem_sorted.mpr he), rfl⟩
  · rintro ⟨hpaths, hentries⟩
    refine ⟨((sorted idx.entries).map restored, []), (parseEntries_flatten hbody).mpr
      ⟨fun e he => hpaths e (mem_sorted.mp he), rfl, rfl⟩, (), rfl, ?_⟩
    dsimp only
    rw [← hentries]
    rfl

/-- An index with valid paths reads back in the order of its paths. -/
lemma parse_toBytes (hpath : ∀ e ∈ idx.entries, ValidPath e.path)
    (h : toBytes idx = .ok bytes) : parse bytes = .ok ⟨sorted idx.entries⟩ := by
  rw [parse_toBytes_eq_ok h]
  constructor
  · intro e he
    rw [restored_eq_self (hpath e he)]
    exact hpath e he
  · have hmap : (sorted idx.entries).map restored = (sorted idx.entries).map id :=
      map_congr_left fun e he => restored_eq_self (hpath e (mem_sorted.mp he))
    rw [hmap, map_id]

/-- Only valid paths are ever read. -/
lemma validPath_of_parseEntries {count : ℕ} (hdone : ∀ e ∈ done, ValidPath e.path)
    (h : parseEntries count i done data = .ok (entries, rest)) :
    ∀ e ∈ entries, ValidPath e.path := by
  induction count generalizing i done data with
  | zero =>
    cases h
    exact hdone
  | succ count ih =>
    obtain ⟨⟨e, data'⟩, hentry, h⟩ := bind_eq_ok.mp h
    refine ih (fun e' he' => ?_) h
    rcases mem_append.mp he' with he' | he'
    · exact hdone e' he'
    · rw [mem_singleton.mp he']
      exact validPath_of_parseEntry hentry

/-- Every path of a parsed index is valid. -/
theorem validPath_of_parse (h : parse data = .ok idx) : ∀ e ∈ idx.entries, ValidPath e.path := by
  simp only [parse, bind_eq_ok] at h
  obtain ⟨_, -, _, -, _, -, _, -, ⟨entries, rest⟩, hentries, _, -, heq⟩ := h
  cases heq
  exact validPath_of_parseEntries (fun e he => absurd he not_mem_nil) hentries

/-- Writing an index that was read keeps its entries, and the file that is written is read and
written again without a change. -/
theorem exists_parse_rewritten (h : parse data = .ok idx) (hwrite : toBytes idx = .ok bytes) :
    ∃ idx', parse bytes = .ok idx' ∧ idx'.entries.Perm idx.entries ∧ toBytes idx' = .ok bytes := by
  refine ⟨_, parse_toBytes (validPath_of_parse h) hwrite, perm_insertionSort _ _, ?_⟩
  have hsorted : sorted (sorted idx.entries) = sorted idx.entries :=
    (pairwise_insertionSort _ _).insertionSort_eq
  unfold toBytes at hwrite ⊢
  rw [← hwrite, ← sorted, hsorted, sorted]

/-- A file beside a directory and an executable file in it, not in the order of their paths. -/
def sampleUnsorted : Index :=
  ⟨[⟨-9, 4, 3, 0o100755, .fill 1, [['d'], ['b']]⟩, ⟨1, -2, 5, 0o100644, .fill 2, [['a']]⟩]⟩

/-- An unsorted index is read back. -/
theorem exists_parse_rewritten_nested : ∃ bytes idx', sampleUnsorted.toBytes = .ok bytes ∧
    parse bytes = .ok idx' ∧ idx'.entries.Perm sampleUnsorted.entries ∧
      toBytes idx' = .ok bytes := by
  obtain ⟨idx', hparse, hperm, hbytes⟩ := @exists_parse_rewritten ⟨sampleUnsorted.entries.reverse⟩
    (sampleUnsorted.toBytes.toOption.getD []) _ (by decide +kernel) rfl
  exact ⟨_, idx', rfl, hparse, hperm.trans (reverse_perm _), hbytes⟩

lemma validPath_of_read {fs : RefFiles} {path : Str} (h : read fs path = .ok idx) :
    ∀ e ∈ idx.entries, ValidPath e.path := by
  unfold read at h
  split at h
  · exact validPath_of_parse h
  · split_ifs at h
    cases h
    exact fun e he => absurd he not_mem_nil

end File

end Gyt.Index
