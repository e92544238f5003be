import Gyt.Object.Pack

/-!
# Object files

The directory `objects`: loose objects in files of their own, and packs.  `store.rs` reads a loose
file first and writes one only if there is none; it never looks at the content of a file that
exists.
-/

namespace Gyt

open Pack List Compress

/-- A loose object file, with the time of its last change if the system tells it. -/
structure LooseFile where
  stored : Bytes
  mtime : Option ℕ
  deriving DecidableEq, Repr

/-- The files under `objects`, in the order of the directories; `packDir` is how the path of
`objects/pack` is displayed. -/
structure ObjectDir where
  packDir : Str
  loose : List (ObjectId × LooseFile)
  packs : List PackFile
  /-- There is one file at a path. -/
  nodup_loose : (loose.map Prod.fst).Nodup
  nodup_packs : (packs.map (·.stem)).Nodup

namespace ObjectDir

/-- A directory without objects. -/
def empty : ObjectDir := ⟨".gyt/objects/pack", [], [], List.nodup_nil, List.nodup_nil⟩

def looseFile (d : ObjectDir) (id : ObjectId) : Option LooseFile := d.loose.lookup id

/-- Whether the store has a file or a row for an object, `exists`. -/
def objectExists (d : ObjectDir) (id : ObjectId) : Bool :=
  (d.looseFile id).isSome || idInPacks d.packDir d.packs id

lemma looseFile_eq_none {d : ObjectDir} {id : ObjectId} :
    d.looseFile id = none ↔ id ∉ d.loose.map Prod.fst := by
  rw [looseFile, lookup_eq_none_iff, mem_map]
  refine ⟨fun h ⟨p, hp, heq⟩ => ?_, fun h p hp => ?_⟩
  · simpa [heq] using h p hp
  · exact bne_iff_ne.mpr fun heq => h ⟨p, hp, heq.symm⟩

lemma mem_loose_of_looseFile {d : ObjectDir} {id : ObjectId} {f : LooseFile}
    (h : d.looseFile id = some f) : (id, f) ∈ d.loose := by
  obtain ⟨l₁, l₂, hloose, -⟩ := lookup_eq_some_iff.mp h
  rw [hloose]
  exact mem_append_right _ mem_cons_self

/-- The file of an object is the only one with its path. -/
lemma looseFile_of_mem {d : ObjectDir} {id : ObjectId} {f : LooseFile}
    (h : (id, f) ∈ d.loose) : d.looseFile id = some f := by
  cases hf : d.looseFile id with
  | none => exact absurd (mem_map.mpr ⟨_, h, rfl⟩) (looseFile_eq_none.mp hf)
  | some f' =>
    have heq := inj_on_of_nodup_map d.nodup_loose (mem_loose_of_looseFile hf) h rfl
    cases heq
    rfl

def putLoose (d : ObjectDir) (id : ObjectId) (f : LooseFile) (h : d.looseFile id = none) :
    ObjectDir where
  packDir := d.packDir
  loose := d.loose ++ [(id, f)]
  packs := d.packs
  nodup_loose := by
    rw [List.map_append, List.nodup_append]
    refine ⟨d.nodup_loose, List.nodup_singleton _, fun a ha b hb heq => ?_⟩
    rw [heq, List.mem_singleton.mp hb] at ha
    exact looseFile_eq_none.mp h ha
  nodup_packs := d.nodup_packs

lemma looseFile_putLoose {d : ObjectDir} {id : ObjectId} {f : LooseFile}
    (h : d.looseFile id = none) (id' : ObjectId) :
    (d.putLoose id f h).looseFile id' = if id' = id then some f else d.looseFile id' := by
  unfold looseFile at h ⊢
  rw [show (d.putLoose id f h).loose = d.loose ++ [(id, f)] from rfl, lookup_append]
  split_ifs with heq
  · rw [heq, h, lookup_cons_self]
    rfl
  · rw [lookup_cons, beq_eq_false_iff_ne.mpr heq]
    exact Option.or_none

/-- Deleting loose files. -/
def keepLoose (d : ObjectDir) (keep : ObjectId → Bool) : ObjectDir where
  packDir := d.packDir
  loose := d.loose.filter fun p => keep p.1
  packs := d.packs
  nodup_loose := d.nodup_loose.sublist (List.filter_sublist.map _)
  nodup_packs := d.nodup_packs

/-- Looking up a key in the entries that are kept. -/
lemma lookup_filter {β : Type} (keep : ObjectId → Bool) (id : ObjectId)
    (l : List (ObjectId × β)) :
    (l.filter fun p => keep p.1).lookup id = if keep id then l.lookup id else none := by
  induction l with
  | nil => cases keep id <;> rfl
  | cons p l ih =>
    obtain ⟨key, value⟩ := p
    rw [filter_cons]
    by_cases heq : id = key
    · subst heq
      cases hkeep : keep id with
      | true => simp
      | false => simpa [hkeep] using ih
    · have hne : (id == key) = false := beq_eq_false_iff_ne.mpr heq
      rw [lookup_cons, hne]
      cases keep key with
      | true => rw [if_pos rfl, lookup_cons, hne, ih]
      | false => exact ih

lemma looseFile_keepLoose (d : ObjectDir) (keep : ObjectId → Bool) (id : ObjectId) :
    (d.keepLoose keep).looseFile id = if keep id then d.looseFile id else none :=
  lookup_filter keep id d.loose

section Content

variable (hashBytes : Hash) (xz : Xz)

/-- Storing an object at a time; the disk may refuse the new file. -/
def writeBytes (d : ObjectDir) (disk : Option IoError) (now : ℕ) (kind : ObjectKind)
    (payload : Bytes) : Result ObjectId × ObjectDir :=
  let raw := buildRaw kind payload
  let id := hashBytes raw
  match h : d.looseFile id with
  | some _ => (.ok id, d)
  | none =>
    match disk with
    | some e => (.error (.io e), d)
    | none => (.ok id, d.putLoose id ⟨Compress.encode xz raw, some now⟩ h)

def readLoose (id : ObjectId) (f : LooseFile) : Result Object := do
  let raw ← Compress.decode xz f.stored
  let observed := hashBytes raw
  ensure (observed = id) (.object ["object ", .str id.toHex,
    " content hash mismatch (got ", .str observed.toHex, ")"])
  parseRaw raw

def read (d : ObjectDir) (id : ObjectId) : Result Object :=
  match d.looseFile id with
  | some f => readLoose hashBytes xz id f
  | none => do
    match ← readFromPacks hashBytes xz d.packDir d.packs id with
    | some o => return o
    | none => .error (.notFound ["object ", .str id.toHex])

/-- The bytes behind an object: the content of its loose file, or the body of its entry in the first
pack that lists it. -/
def onDisk (d : ObjectDir) (id : ObjectId) : Option Bytes :=
  match d.looseFile id with
  | some f => some f.stored
  | none => (d.packs.filter fun p => "pack-".toList.isPrefixOf p.stem).findSome?
    (packedBytes d.packDir id)

variable {hashBytes xz} {d d' : ObjectDir} {id : ObjectId} {o : Object} {f : LooseFile}
  {disk : Option IoError} {now : ℕ} {kind : ObjectKind} {payload : Bytes}

lemma readLoose_eq_ok : readLoose hashBytes xz id f = .ok o ↔
    ∃ raw, decode xz f.stored = .ok raw ∧ hashBytes raw = id ∧ parseRaw raw = .ok o := by
  simp only [readLoose, bind_eq_ok, ensure_eq_ok]
  exact ⟨fun ⟨raw, hraw, _, hid, ho⟩ => ⟨raw, hraw, hid, ho⟩,
    fun ⟨raw, hraw, hid, ho⟩ => ⟨raw, hraw, (), hid, ho⟩⟩

/-- A new file is read as it is. -/
lemma read_putLoose_self (h : d.looseFile id = none) :
    (d.putLoose id f h).read hashBytes xz id = readLoose hashBytes xz id f := by
  rw [read, looseFile_putLoose, if_pos rfl]

lemma exists_of_readFromPacks {dir : Str} {packs : List PackFile}
    (h : readFromPacks hashBytes xz dir packs id = .ok (some o)) :
    ∃ body raw, (packs.filter fun p => "pack-".toList.isPrefixOf p.stem).findSome?
      (packedBytes dir id) = some body ∧ decode xz body = .ok raw ∧
        hashBytes raw = id ∧ parseRaw raw = .ok o := by
  induction packs with
  | nil => cases h
  | cons p packs ih =>
    rw [readFromPacks] at h
    rw [filter_cons]
    split_ifs at h ⊢ with hstem
    · obtain ⟨found, hread, h⟩ := bind_eq_ok.mp h
      cases found with
      | some o' =>
        cases h
        obtain ⟨body, raw, hbody, hraw⟩ := packedBytes_of_readPack hread
        exact ⟨body, raw, by rw [findSome?_cons, hbody], hraw⟩
      | none =>
        obtain ⟨body, raw, hbody, hraw⟩ := ih h
        exact ⟨body, raw, by rw [findSome?_cons, packedBytes_of_readPack_none hread, hbody], hraw⟩
    · exact ih h

/-- An object that is read is parsed from bytes with its identifier as hash. -/
lemma exists_of_read (h : d.read hashBytes xz id = .ok o) :
    ∃ stored raw, d.onDisk id = some stored ∧ decode xz stored = .ok raw ∧
      hashBytes raw = id ∧ parseRaw raw = .ok o := by
  unfold read at h
  unfold onDisk
  split at h
  · next f hf =>
    obtain ⟨raw, hraw⟩ := readLoose_eq_ok.mp h
    exact ⟨f.stored, raw, rfl, hraw⟩
  · obtain ⟨found, hpacks, h⟩ := bind_eq_ok.mp h
    cases found with
    | none => cases h
    | some o' =>
      cases h
      exact exists_of_readFromPacks hpacks

/-- What `write_bytes` does: nothing if the file exists. -/
lemma writeBytes_eq_ok : writeBytes hashBytes xz d disk now kind payload = (.ok id, d') ↔
      id = hashBytes (buildRaw kind payload) ∧ ((d.looseFile id ≠ none ∧ d' = d) ∨
        ∃ h : d.looseFile id = none, disk = none ∧
          d' = d.putLoose id ⟨encode xz (buildRaw kind payload), some now⟩ h) := by
  unfold writeBytes
  dsimp only
  constructor
  · intro h
    split at h
    · next f hf =>
      cases h
      exact ⟨rfl, .inl ⟨by rw [hf]; exact nofun, rfl⟩⟩
    · next hf =>
      split at h
      · cases h
      · cases h
        exact ⟨rfl, .inr ⟨hf, rfl, rfl⟩⟩
  · rintro ⟨rfl, ⟨hf, rfl⟩ | ⟨hf, rfl, rfl⟩⟩
    · split
      · rfl
      · next hnone => exact absurd hnone hf
    · split
      · next f hsome =>
        rw [hf] at hsome
        cases hsome
      · rfl

/-- A write that fails changes nothing. -/
lemma writeBytes_of_error {e : GytError}
    (h : (writeBytes hashBytes xz d disk now kind payload).1 = .error e) :
    (writeBytes hashBytes xz d disk now kind payload).2 = d := by
  unfold writeBytes at h ⊢
  dsimp only at h ⊢
  split
  · rfl
  · next hnone =>
    cases disk with
    | some e => rfl
    | none =>
      split at h
      · cases h
      · cases h

/-- A written file reads as its object if the raw form is not too long. -/
lemma readLoose_encode {mtime : Option ℕ} :
    readLoose hashBytes xz (hashBytes (buildRaw kind payload))
      ⟨encode xz (buildRaw kind payload), mtime⟩ = .ok ⟨kind, payload⟩ ↔
        (buildRaw kind payload).length ≤ maxDecompressedBytes := by
  rw [readLoose_eq_ok]
  constructor
  · rintro ⟨raw, hraw, -, -⟩
    exact ((decode_encode (buildRaw_ne_nil _ _)).mp hraw).2
  · intro hlen
    have hpayload : payload.length < 2 ^ 64 := by
      have hle : payload.length ≤ (buildRaw kind payload).length := by
        rw [buildRaw, length_append, length_cons]
        omega
      exact (hle.trans hlen).trans_lt (by decide)
    exact ⟨_, (decode_encode (buildRaw_ne_nil _ _)).mpr ⟨rfl, hlen⟩, rfl,
      parseRaw_buildRaw (o := ⟨kind, payload⟩) hpayload⟩

end Content

end ObjectDir

end Gyt
