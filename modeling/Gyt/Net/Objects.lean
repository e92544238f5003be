import Gyt.Net.RefsUpdate
import Gyt.Object.Files
import Gyt.Object.Tag
import Gyt.Object.Tree

/-!
# Objects on the wire

The requests `objects/want` and `objects/have` of `net/server.rs`, and the form in which objects are
sent, `net/protocol.rs`: every object is the content of an object file, behind its length.

`wire_entry_keeps_id_iff` is about the entries that the server sends.  `objects_have_gate` is about
those that it takes: an object that is new after `objects/have` is readable and canonical.

The repository of a request is given.  The cache of answers, the counters of served objects and the
log of heavy decompression are left out.
-/

namespace Gyt.Wire

open Text Index ObjectDir List Compress

/-! ## Packfiles -/

/-- An object on the wire. -/
structure PackEntry where
  id : ObjectId
  bytes : Bytes
  deriving DecidableEq, Repr

/-- The maximum number of entries, `MAX_PACK_ENTRIES`. -/
def maxPackEntries : ℕ := 1000000

/-- The version byte of a packfile that is not compressed, `PACKFILE_VERSION_RAW`. -/
def packfileVersionRaw : UInt8 := 0x01

/-- The version byte of a compressed packfile, `PACKFILE_VERSION_XZ`. -/
def packfileVersionXz : UInt8 := 0x02

/-- The entries one after the other; there is no length for an entry of 4 GiB. -/
def encodePack (entries : List PackEntry) : Option Bytes :=
  if entries.all (·.bytes.length < 2 ^ 32) then
    some (entries.flatMap fun e => toLeBytes 4 e.bytes.length ++ e.bytes)
  else none

/-- The loop of `parse_pack` from an offset on.  Every iteration consumes bytes, so the length of
the body bounds the number of iterations. -/
def parsePackFrom : ℕ → ℕ → List PackEntry → Bytes → Result (List PackEntry)
  | 0, _, out, _ => .ok out
  | fuel + 1, pos, out, rest =>
    if rest = [] then .ok out
    else do
      ensure (4 ≤ rest.length)
        (.parse ["pack: truncated length prefix at offset ", .num pos])
      let len := fromLeBytes (rest.take 4)
      let rest := rest.drop 4
      ensure (len ≠ 0) (.parse ["pack: zero-length entry at offset ", .num pos])
      ensure (len ≤ rest.length) (.parse ["pack: declared length ", .num len,
        " exceeds remaining ", .num rest.length])
      ensure (out.length < maxPackEntries)
        (.parse ["pack: entry count exceeds MAX_PACK_ENTRIES=", .num maxPackEntries])
      -- The identifier is not sent; the reader computes it from the content.
      parsePackFrom fuel (pos + 4 + len) (out ++ [⟨.zero, rest.take len⟩]) (rest.drop len)

/-- Reading the entries of a pack. -/
def parsePack (body : Bytes) : Result (List PackEntry) := parsePackFrom body.length 0 [] body

section Packfile

variable (xz : Xz)

/-- The wire form of a list of entries. -/
def encodePackfile (entries : List PackEntry) : Option Bytes :=
  (encodePack entries).map fun inner => packfileVersionXz :: xz.compress inner

/-- Reading the wire form. -/
def parsePackfile (body : Bytes) : Result (List PackEntry) :=
  match body with
  | [] => .error (.parse ["packfile: empty body"])
  | v :: rest =>
    if v = packfileVersionRaw then parsePack rest
    else if v = packfileVersionXz then
      match Compress.xzDecodeRaw xz rest with
      | .ok decompressed => parsePack decompressed
      | .error e => .error (.parse ("packfile: xz decompress: " :: e.display))
    else .error (.parse ["packfile: unknown version byte 0x", .hex02 v])

end Packfile

/-! ## Objects that the server sends -/

section Server

variable (hashBytes : Hash) (xz : Xz)

/-- The maximum number of identifiers in a request, `MAX_WANT_IDS`. -/
def maxWantIds : ℕ := 100000

/-- Reading the line at position `i` of a list of wanted objects; empty lines are skipped. -/
def parseWant (line : Str) (i : ℕ) : Result (Option ObjectId) := do
  let line := (stripSuffixChar '\n' line).getD line
  if line = [] then return none
  let len := (Utf8.encode line).length
  ensure (len = hexLen) (.parse ["wants line ", .num i, ": expected ", .num hexLen,
    "-char hex, got ", .num len])
  some <$> ObjectId.fromHex line

def parseWants (body : Bytes) : Result (List ObjectId) := do
  let s ← okOr (Utf8.decode body) (.parse ["wants: not valid utf-8"])
  let ids ← (splitInclusive '\n' s).zipIdx.mapM fun (line, i) => parseWant line i
  return ids.filterMap id

/-- The entry that the server builds for an object. -/
def wantEntry (d : ObjectDir) (id : ObjectId) : Option PackEntry :=
  match d.read hashBytes xz id with
  | .ok obj => some ⟨id, Compress.encode xz (buildRaw obj.kind obj.payload)⟩
  | .error _ => none

/-- The handler of `objects/want`: the entries of the objects that can be read, or a refusal. -/
def wireObjectsWant (d : ObjectDir) (body : Bytes) : Except Response (Option Bytes) :=
  match parseWants body with
  | .error e => .error ⟨400, "Bad Request", "invalid want list: " :: e.display⟩
  | .ok ids =>
    if maxWantIds < ids.length then
      .error ⟨413, "Payload Too Large", ["too many ids in want list (", .num ids.length,
        " > ", .num maxWantIds, ")"]⟩
    else .ok (encodePackfile xz (ids.eraseDups.filterMap (wantEntry hashBytes xz d)))

variable {hashBytes xz}

/-- What `parse_raw` accepts is printed back exactly if the size is spelled plainly.  So the entry
of an object decodes to bytes with its identifier as hash exactly if the size in the stored raw form
is spelled plainly and the raw form is not too long. -/
theorem wire_entry_keeps_id_iff :
    (∀ raw o, parseRaw raw = .ok o →
      (buildRaw o.kind o.payload = raw ↔ PlainNumber (sizeText raw))) ∧
    ∀ (d : ObjectDir) id o, d.read hashBytes xz id = .ok o →
      ∃ stored raw, d.onDisk id = some stored ∧ Compress.decode xz stored = .ok raw ∧
        ((hashBytes (buildRaw o.kind o.payload) = hashBytes raw →
            buildRaw o.kind o.payload = raw) →
          ((∃ entry raw', wantEntry hashBytes xz d id = some entry ∧
            Compress.decode xz entry.bytes = .ok raw' ∧ hashBytes raw' = id) ↔
              PlainNumber (sizeText raw) ∧ raw.length ≤ Compress.maxDecompressedBytes)) := by
  refine ⟨fun raw o h => buildRaw_eq_iff h, fun d id o hread => ?_⟩
  obtain ⟨stored, raw, hstored, hraw, hid, ho⟩ := ObjectDir.exists_of_read hread
  have hentry : wantEntry hashBytes xz d id =
      some ⟨id, Compress.encode xz (buildRaw o.kind o.payload)⟩ := by
    rw [wantEntry, hread]
  refine ⟨stored, raw, hstored, hraw, fun hinj => ?_⟩
  rw [← buildRaw_eq_iff ho, hentry]
  constructor
  · rintro ⟨entry, raw', hsome, hdecode, hid'⟩
    cases hsome
    obtain ⟨rfl, hlen⟩ := (Compress.decode_encode (buildRaw_ne_nil _ _)).mp hdecode
    have heq := hinj (hid'.trans hid.symm)
    exact ⟨heq, heq ▸ hlen⟩
  · rintro ⟨heq, hlen⟩
    exact ⟨_, raw, rfl, (Compress.decode_encode (buildRaw_ne_nil _ _)).mpr
      ⟨heq.symm, heq.symm ▸ hlen⟩, hid⟩

/-- A directory with one loose object, whose size is spelled as given. -/
def sampleSpelled (size : String) : ObjectDir where
  packDir := ".gyt/objects/pack"
  loose := [(sampleHash (rawWith size.toList ⟨.blob, [7, 8]⟩),
    ⟨rawWith size.toList ⟨.blob, [7, 8]⟩, none⟩)]
  packs := []
  nodup_loose := List.nodup_singleton _
  nodup_packs := List.nodup_nil

/-- An object whose size is spelled with a sign is read, and sent as another object. -/
theorem signed_size_changes_id :
    ∃ id entry raw', (sampleSpelled "+2").read sampleHash plainXz id =
        .ok ⟨.blob, [7, 8]⟩ ∧
      wantEntry sampleHash plainXz (sampleSpelled "+2") id = some entry ∧
      Compress.decode plainXz entry.bytes = .ok raw' ∧ sampleHash raw' ≠ id := by
  refine ⟨sampleHash (rawWith "+2" ⟨.blob, [7, 8]⟩), _, buildRaw .blob [7, 8], ?_, rfl, rfl, ?_⟩
  · decide +kernel
  · decide +kernel

/-- A size that is spelled plainly is sent as it is. -/
theorem wire_entry_keeps_id_iff_plain :
    ∃ id entry raw', (sampleSpelled "2").read sampleHash plainXz id =
        .ok ⟨.blob, [7, 8]⟩ ∧
      wantEntry sampleHash plainXz (sampleSpelled "2") id = some entry ∧
      Compress.decode plainXz entry.bytes = .ok raw' ∧ sampleHash raw' = id := by
  have hread : (sampleSpelled "2").read sampleHash plainXz
      (sampleHash (rawWith "2" ⟨.blob, [7, 8]⟩)) = .ok ⟨.blob, [7, 8]⟩ := by decide +kernel
  obtain ⟨stored, raw, hstored, hraw, hiff⟩ := wire_entry_keeps_id_iff.2 _ _ _ hread
  cases hstored
  cases hraw
  obtain ⟨entry, raw', hentry⟩ := (hiff fun _ => by decide +kernel).mpr (by decide +kernel)
  exact ⟨_, entry, raw', hread, hentry⟩

end Server

/-! ## Objects that the server takes -/

/-- The maximum size of a request body, `MAX_BODY_BYTES`. -/
def maxBodyBytes : ℕ := 256 * 1024 * 1024

/-- The body of a request, as the front ends of the server hand it on. -/
structure Body where
  bytes : Bytes
  length_le : bytes.length ≤ maxBodyBytes

/-- Whether a payload decodes and the result encodes to the payload. -/
def reencodes {α : Type} (decode : Bytes → Result α) (encode : α → Bytes)
    (payload : Bytes) : Bool :=
  match decode payload with
  | .ok x => encode x == payload
  | .error _ => false

/-- Whether a payload is a canonical encoding; blobs have none. -/
def isCanonical (o : Object) : Bool :=
  match o.kind with
  | .blob => true
  | .commit => reencodes Commit.decode Commit.encode o.payload
  | .tag => reencodes Tag.decode Tag.encode o.payload
  | .tree => reencodes Tree.decode Tree.encode o.payload

/-- What the system does during an upload: whether the lock is obtained, and for every entry whether
its file cannot be written, and the time. -/
structure HaveOs where
  lock : Result Unit
  disk : ℕ → Option IoError
  now : ℕ → ℕ

/-- The files and the counters while entries are stored. -/
structure HaveState where
  dir : ObjectDir
  nStored : ℕ
  nSkipped : ℕ

section Have

variable (hashBytes : Hash) (xz : Xz)

/-- The object in an entry that passes the checks. -/
def acceptEntry (entry : PackEntry) : Option Object :=
  if entry.bytes.take 4 = Compress.magic then
    match Compress.decode xz entry.bytes with
    | .ok raw =>
      match parseRaw raw with
      | .ok o => if isCanonical o then some o else none
      | .error _ => none
    | .error _ => none
  else none

/-- Storing the entry at a position. -/
def storeEntry (os : HaveOs) (w : HaveState) (entry : PackEntry × ℕ) : HaveState :=
  match acceptEntry xz entry.1 with
  | some o =>
    match w.dir.writeBytes hashBytes xz (os.disk entry.2) (os.now entry.2) o.kind o.payload with
    | (.ok _, d) => { w with dir := d, nStored := w.nStored + 1 }
    | (.error _, d) => { w with dir := d, nSkipped := w.nSkipped + 1 }
  | none => { w with nSkipped := w.nSkipped + 1 }

/-- The handler of `objects/have`, with the object files after it. -/
def wireObjectsHave (os : HaveOs) (d : ObjectDir) (body : Body) : Response × ObjectDir :=
  match os.lock with
  | .error e => (⟨503, "Service Unavailable", "objects.lock: " :: e.display⟩, d)
  | .ok () =>
    match parsePackfile xz body.bytes with
    | .error e => (⟨400, "Bad Request", "invalid pack: " :: e.display⟩, d)
    | .ok entries =>
      let w := entries.zipIdx.foldl (storeEntry hashBytes xz os) ⟨d, 0, 0⟩
      (⟨200, "OK", ["stored=", .num w.nStored, " skipped=", .num w.nSkipped]⟩, w.dir)

end Have

/-! ### Lengths -/

section Lengths

variable {xz : Xz}

/-- No entry is longer than the pack. -/
lemma length_le_of_parsePackFrom {fuel pos : ℕ} {out entries : List PackEntry} {rest : Bytes}
    {max : ℕ} (h : parsePackFrom fuel pos out rest = .ok entries) (hrest : rest.length ≤ max)
    (hout : ∀ e ∈ out, e.bytes.length ≤ max) : ∀ e ∈ entries, e.bytes.length ≤ max := by
  induction fuel generalizing pos out rest with
  | zero =>
    cases h
    exact hout
  | succ fuel ih =>
    rw [parsePackFrom] at h
    split_ifs at h with hnil
    · cases h
      exact hout
    · obtain ⟨-, h⟩ := check_bind_eq_ok.mp h
      obtain ⟨-, h⟩ := check_bind_eq_ok.mp h
      obtain ⟨-, h⟩ := check_bind_eq_ok.mp h
      obtain ⟨-, h⟩ := check_bind_eq_ok.mp h
      have hdrop : (rest.drop 4).length ≤ max := by
        rw [length_drop]
        omega
      refine ih h ?_ fun e he => ?_
      · rw [length_drop]
        omega
      · rcases mem_append.mp he with he | he
        · exact hout e he
        · rw [mem_singleton.mp he]
          exact (length_take_le' _ _).trans hdrop

lemma length_le_of_parsePack {body : Bytes} {entries : List PackEntry} {max : ℕ}
    (h : parsePack body = .ok entries) (hbody : body.length ≤ max) :
    ∀ e ∈ entries, e.bytes.length ≤ max :=
  length_le_of_parsePackFrom h hbody nofun

lemma length_le_of_xzDecodeRaw {body raw : Bytes} (h : xzDecodeRaw xz body = .ok raw) :
    raw.length ≤ maxDecompressedBytes := by
  obtain ⟨out, -, h⟩ := bind_eq_ok.mp h
  obtain ⟨hlen, h⟩ := check_bind_eq_ok.mp h
  cases h
  exact ensure_eq_ok.mp hlen

/-- What is decoded is not longer than the limit if the content was not. -/
lemma length_le_of_decode {stored raw : Bytes} (h : Compress.decode xz stored = .ok raw)
    (hstored : stored.length ≤ maxDecompressedBytes) :
    raw.length ≤ maxDecompressedBytes := by
  unfold Compress.decode at h
  split at h
  · split_ifs at h
    · exact length_le_of_xzDecodeRaw h
    · cases h
      simp only [length_cons] at hstored
      omega
    · cases h
      exact hstored
  · cases h
    exact hstored

/-- No entry of an upload is longer than the limit of the reader. -/
lemma length_le_of_parsePackfile {body : Body} {entries : List PackEntry}
    (h : parsePackfile xz body.bytes = .ok entries) :
    ∀ e ∈ entries, e.bytes.length ≤ maxDecompressedBytes := by
  have hbody : body.bytes.length ≤ maxDecompressedBytes :=
    body.length_le.trans (by decide)
  unfold parsePackfile at h
  split at h
  · cases h
  · next v rest hbytes =>
    rw [hbytes, length_cons] at hbody
    split_ifs at h
    · exact length_le_of_parsePack h (by omega)
    · split at h
      · next decompressed hxz => exact length_le_of_parsePack h (length_le_of_xzDecodeRaw hxz)
      · cases h

end Lengths

/-! ### The gate -/

/-- A payload that decodes and encodes to itself; the entries of a tree have known modes and valid
names in strictly ascending order. -/
def Canonical (o : Object) : Prop :=
  match o.kind with
  | .blob => True
  | .commit => ∃ c, Commit.decode o.payload = .ok c ∧ Commit.encode c = o.payload
  | .tag => ∃ t, Tag.decode o.payload = .ok t ∧ Tag.encode t = o.payload
  | .tree => ∃ entries, Tree.decode o.payload = .ok entries ∧ Tree.encode entries = o.payload ∧
    Tree.WellFormed entries

lemma reencodes_eq_true {α : Type} {decode : Bytes → Result α} {encode : α → Bytes}
    {payload : Bytes} : reencodes decode encode payload = true ↔
      ∃ x, decode payload = .ok x ∧ encode x = payload := by
  unfold reencodes
  cases decode payload <;> simp

lemma canonical_of_isCanonical {o : Object} (h : isCanonical o = true) : Canonical o := by
  obtain ⟨kind, payload⟩ := o
  cases kind with
  | blob => trivial
  | commit => exact reencodes_eq_true.mp h
  | tag => exact reencodes_eq_true.mp h
  | tree =>
    obtain ⟨entries, hdecode, hencode⟩ := reencodes_eq_true.mp h
    exact ⟨entries, hdecode, hencode, Tree.wellFormed_of_decode hdecode⟩

section Gate

variable {hashBytes : Hash} {xz : Xz} {os : HaveOs} {d : ObjectDir} {w : HaveState}

/-- What an entry that passes the checks holds: a canonical object, not too long for the reader. -/
lemma acceptEntry_eq_some {entry : PackEntry} {o : Object} (h : acceptEntry xz entry = some o)
    (hlen : entry.bytes.length ≤ maxDecompressedBytes) :
    Canonical o ∧ (buildRaw o.kind o.payload).length ≤ maxDecompressedBytes := by
  unfold acceptEntry at h
  split_ifs at h
  split at h
  · next raw hraw =>
    split at h
    · next o' ho' =>
      split_ifs at h with hcanonical
      cases h
      exact ⟨canonical_of_isCanonical hcanonical,
        (length_buildRaw_le ho').trans (length_le_of_decode hraw hlen)⟩
    · cases h
  · cases h

/-- A loose file that was not there before holds a canonical object with its identifier. -/
def NewFile (hashBytes : Hash) (xz : Xz) (id : ObjectId) (f : LooseFile) : Prop :=
  ∃ o, readLoose hashBytes xz id f = .ok o ∧ hashBytes (buildRaw o.kind o.payload) = id ∧
    Canonical o

/-- The state of an upload: only loose files are new. -/
structure Gated (hashBytes : Hash) (xz : Xz) (d d' : ObjectDir) : Prop where
  packDir_eq : d'.packDir = d.packDir
  packs_eq : d'.packs = d.packs
  loose : ∀ id f, d'.looseFile id = some f →
    d.looseFile id = some f ∨ NewFile hashBytes xz id f

/-- Storing an entry keeps the gate. -/
lemma Gated.storeEntry (h : Gated hashBytes xz d w.dir) {entry : PackEntry × ℕ}
    (hlen : entry.1.bytes.length ≤ maxDecompressedBytes) :
    Gated hashBytes xz d (storeEntry hashBytes xz os w entry).dir := by
  unfold Wire.storeEntry
  split
  · next o ho =>
    obtain ⟨hcanonical, hfits⟩ := acceptEntry_eq_some ho hlen
    split
    · next id d₁ hwrite =>
      obtain ⟨rfl, ⟨-, rfl⟩ | ⟨hnone, -, rfl⟩⟩ := writeBytes_eq_ok.mp hwrite
      · exact h
      · refine ⟨h.packDir_eq, h.packs_eq, fun id' f hf => ?_⟩
        rw [looseFile_putLoose] at hf
        split_ifs at hf with heq
        · cases hf
          exact .inr ⟨o, heq ▸ readLoose_encode.mpr hfits, heq.symm, hcanonical⟩
        · exact h.loose id' f hf
    · next e d₁ hwrite =>
      have heq : d₁ = w.dir := by
        have hsame := writeBytes_of_error (congrArg Prod.fst hwrite)
        rwa [hwrite] at hsame
      exact heq ▸ h
  · exact h

lemma Gated.foldl (h : Gated hashBytes xz d w.dir) {entries : List (PackEntry × ℕ)}
    (hlen : ∀ entry ∈ entries, entry.1.bytes.length ≤ maxDecompressedBytes) :
    Gated hashBytes xz d (entries.foldl (Wire.storeEntry hashBytes xz os) w).dir := by
  induction entries generalizing w with
  | nil => exact h
  | cons entry entries ih =>
    obtain ⟨hentry, hrest⟩ := forall_mem_cons.mp hlen
    exact ih (h.storeEntry hentry) hrest

/-- After an upload, whatever its outcome, only loose files are new. -/
lemma gated_wireObjectsHave (os : HaveOs) (d : ObjectDir) (body : Body) :
    Gated hashBytes xz d (wireObjectsHave hashBytes xz os d body).2 := by
  have hrefl : Gated hashBytes xz d d := ⟨rfl, rfl, fun _ _ => .inl⟩
  unfold wireObjectsHave
  split
  · exact hrefl
  · split
    · exact hrefl
    · next entries hentries =>
      refine hrefl.foldl fun entry hentry => length_le_of_parsePackfile hentries entry.1 ?_
      exact (mem_zipIdx' hentry).2 ▸ getElem_mem _

/-- The gate admits only readable, canonical objects: an object that was not in the store before an
upload and is there afterwards can be read, its identifier is the hash of its raw form, and it is
canonical. -/
theorem objects_have_gate (os : HaveOs) (d : ObjectDir) (body : Body) (id : ObjectId)
    (hold : d.objectExists id = false)
    (hnew : (wireObjectsHave hashBytes xz os d body).2.objectExists id = true) :
    ∃ o, (wireObjectsHave hashBytes xz os d body).2.read hashBytes xz id = .ok o ∧
      hashBytes (buildRaw o.kind o.payload) = id ∧ Canonical o := by
  have hgated : Gated hashBytes xz d (wireObjectsHave hashBytes xz os d body).2 :=
    gated_wireObjectsHave os d body
  generalize (wireObjectsHave hashBytes xz os d body).2 = d' at hnew hgated ⊢
  obtain ⟨hloose, hpacks⟩ := Bool.or_eq_false_iff.mp hold
  cases hf : d'.looseFile id with
  | none =>
    rw [objectExists, hf, hgated.packDir_eq, hgated.packs_eq, hpacks] at hnew
    cases hnew
  | some f =>
    rcases hgated.loose id f hf with hsome | ⟨o, hread, hnewFile⟩
    · rw [hsome] at hloose
      cases hloose
    · refine ⟨o, ?_, hnewFile⟩
      rw [ObjectDir.read, hf]
      exact hread

def sampleTree : Object := ⟨.tree, Tree.encode [⟨modeFile, [0x61], .fill 5⟩]⟩

def sampleUpload : Body where
  bytes := packfileVersionRaw :: (toLeBytes 4 (Compress.encode plainXz
    (buildRaw sampleTree.kind sampleTree.payload)).length ++
      Compress.encode plainXz (buildRaw sampleTree.kind sampleTree.payload))
  length_le := by decide +kernel

/-- The tree is stored in an empty repository. -/
theorem objects_have_gate_tree :
    ∃ o, (wireObjectsHave sampleHash plainXz ⟨.ok (), fun _ => none, id⟩ .empty sampleUpload).2.read
        sampleHash plainXz (sampleHash (buildRaw sampleTree.kind sampleTree.payload)) = .ok o ∧
      sampleHash (buildRaw o.kind o.payload) =
        sampleHash (buildRaw sampleTree.kind sampleTree.payload) ∧ Canonical o :=
  objects_have_gate _ .empty sampleUpload _ rfl (by decide +kernel)

end Gate

end Gyt.Wire
