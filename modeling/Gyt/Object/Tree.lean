import Gyt.Object.Store
import Gyt.Refs

/-!
# Tree objects

The binary format of directories, `object/tree.rs`: for every entry its mode in octal digits, a
blank, its name, a zero byte and the 32 bytes of its hash, in ascending order of the names.

`decode` accepts exactly lists of entries in canonical form; `decode_encode` says that such a list
reads back.
-/

namespace Gyt

open Text List

/-- The mode of a regular file, `MODE_FILE`. -/
def modeFile : UInt32 := 0o100644

/-- The mode of an executable file, `MODE_EXEC`. -/
def modeExec : UInt32 := 0o100755

/-- The mode of a symbolic link, `MODE_SYMLINK`. -/
def modeSymlink : UInt32 := 0o120000

/-- The mode of a subtree, `MODE_DIR`. -/
def modeDir : UInt32 := 0o040000

/-- The maximum number of entries of a tree, `MAX_TREE_ENTRIES`. -/
def maxTreeEntries : ℕ := 1000000

/-- The maximum length of an entry name in bytes, `MAX_NAME_LEN`. -/
def maxNameLen : ℕ := 255

structure TreeEntry where
  mode : UInt32
  name : Bytes
  hash : ObjectId
  deriving DecidableEq, Repr

namespace Tree

/-- Whether a mode is one of the four that trees hold. -/
def isKnownMode (m : UInt32) : Bool := m ∈ [modeFile, modeExec, modeSymlink, modeDir]

/-- The checks that `validateEntryName` makes on every byte. -/
def validateEntryByte (b : UInt8) : Result Unit := do
  ensure (b ≠ 0x2f)
    (.object ["tree: entry name contains '/' (must be a single path component)"])
  ensure (b ≠ 0x5c) (.object ["tree: entry name contains backslash"])
  ensure (¬(b < 0x20 ∨ b = 0x7f)) (.object ["tree: entry name contains control byte"])

def validateEntryName (name : Bytes) : Result Unit := do
  ensure (name ≠ []) (.object ["tree: empty entry name"])
  ensure (name.length ≤ maxNameLen)
    (.object ["tree: entry name length ", .num name.length, " exceeds ", .num maxNameLen])
  ensure (name ≠ [0x2e] ∧ name ≠ [0x2e, 0x2e]) (.object ["tree: entry name is '.' or '..'"])
  ensure (¬eqIgnoreAsciiCase name (Utf8.encode ".gyt"))
    (.object ["tree: entry name is .gyt"])
  name.forM validateEntryByte

/-- The octal digits of a mode. -/
def modeText (mode : UInt32) : Str := Nat.toDigits 8 mode.toNat

def encodeEntry (e : TreeEntry) : Bytes :=
  Utf8.encode (modeText e.mode) ++ 0x20 :: (e.name ++ 0 :: e.hash.bytes)

/-- The payload of a tree object. -/
def encode (entries : List TreeEntry) : Bytes :=
  (entries.insertionSort (·.name ≤ ·.name)).flatMap encodeEntry

/-- The mode in front of an entry. -/
def decodeMode (modeBytes : Bytes) : Result UInt32 := do
  let modeS ← okOr (Utf8.decode modeBytes) (.object ["tree: non-utf8 mode"])
  let mode ← okOr (parseUnsigned 8 (2 ^ 32 - 1) modeS)
    (.object ["tree: bad mode ", .debug modeS])
  let mode := UInt32.ofNat mode
  ensure (modeS = modeText mode)
    (.object ["tree: non-canonical mode token ", .debug modeS])
  ensure (isKnownMode mode)
    (.object ["tree: mode ", .oct mode.toNat, " is not in the gyt whitelist"])
  return mode

/-- One iteration of the loop of `decode`, after an entry with the given name: an entry and the
bytes after it. -/
def decodeEntry (prevName : Option Bytes) (payload : Bytes) : Result (TreeEntry × Bytes) := do
  let (modeBytes, rest) ← okOr (splitOnce [0x20] payload)
    (.object ["tree: missing space after mode"])
  let mode ← decodeMode modeBytes
  let (name, rest) ← okOr (splitOnce [0] rest) (.object ["tree: missing NUL after name"])
  validateEntryName name
  ensure (∀ prev ∈ prevName, prev < name)
    (.object ["tree: entries not strictly ascending by name (unsorted or duplicate)"])
  ensure (hashLen ≤ rest.length) (.object ["tree: truncated hash"])
  let hash ← ObjectId.fromBytes (rest.take hashLen)
  return (⟨mode, name, hash⟩, rest.drop hashLen)

/-- The loop of `decode`.  Every iteration consumes bytes, so the length of the payload bounds the
number of iterations. -/
def decodeLoop : ℕ → List TreeEntry → Bytes → Result (List TreeEntry)
  | 0, entries, _ => .ok entries
  | fuel + 1, entries, payload =>
    if payload = [] then .ok entries
    else do
      ensure (entries.length < maxTreeEntries)
        (.object ["tree: entry count exceeds ", .num maxTreeEntries])
      let (e, rest) ← decodeEntry (entries.getLast?.map (·.name)) payload
      decodeLoop fuel (entries ++ [e]) rest

/-- Decoding the payload of a tree object. -/
def decode (payload : Bytes) : Result (List TreeEntry) := decodeLoop payload.length [] payload

def write (hashBytes : Hash) (s : Store) (entries : List TreeEntry) :
    Store × ObjectId :=
  s.writeBytes hashBytes .tree (encode entries)

def read (s : Store) (id : ObjectId) : Result (List TreeEntry) := do
  let obj ← s.read id
  ensure (obj.kind = .tree) (.object ["expected tree, got ", .str obj.kind.asStr])
  decode obj.payload

/-! ## Canonical form -/

/-- An entry that `decode` accepts on its own. -/
structure ValidEntry (e : TreeEntry) : Prop where
  mode : isKnownMode e.mode = true
  name : validateEntryName e.name = .ok ()

/-- The lists of entries that `decode` accepts. -/
structure WellFormed (entries : List TreeEntry) : Prop where
  valid : ∀ e ∈ entries, ValidEntry e
  ascending : entries.Pairwise (·.name < ·.name)
  length_le : entries.length ≤ maxTreeEntries

variable {e : TreeEntry} {entries : List TreeEntry} {name payload rest : Bytes}
  {prevName : Option Bytes}

/-- A valid name has no zero byte. -/
lemma zero_notMem_of_validateEntryName (h : validateEntryName name = .ok ()) :
    (0 : UInt8) ∉ name := by
  simp only [validateEntryName, bind_eq_ok, ensure_eq_ok, forM_eq_ok] at h
  obtain ⟨-, -, -, -, -, -, -, -, hbytes⟩ := h
  intro hmem
  have hzero := hbytes 0 hmem
  simp only [validateEntryByte, bind_eq_ok, ensure_eq_ok] at hzero
  obtain ⟨-, -, -, -, hcontrol⟩ := hzero
  exact hcontrol (.inl (by decide))

/-- The digits of the four modes read back, and no blank is among them. -/
lemma decodeMode_modeText {m : UInt32} (hm : isKnownMode m = true) :
    decodeMode (Utf8.encode (modeText m)) = .ok m ∧ (0x20 : UInt8) ∉ Utf8.encode (modeText m) := by
  have hcases : m = modeFile ∨ m = modeExec ∨ m = modeSymlink ∨ m = modeDir := by
    simpa [isKnownMode] using hm
  rcases hcases with rfl | rfl | rfl | rfl <;> exact ⟨by decide +kernel, by decide +kernel⟩

/-- An entry that can be told apart from what follows it. -/
structure Framed (e : TreeEntry) : Prop where
  mode : isKnownMode e.mode = true
  name : (0 : UInt8) ∉ e.name

/-- Where `decodeEntry` cuts the bytes of an entry. -/
lemma frame_encodeEntry (he : Framed e) (rest : Bytes) :
    decodeMode (Utf8.encode (modeText e.mode)) = .ok e.mode ∧
    splitOnce [0x20] (encodeEntry e ++ rest) =
      some (Utf8.encode (modeText e.mode), e.name ++ 0 :: (e.hash.bytes ++ rest)) ∧
    splitOnce [0] (e.name ++ 0 :: (e.hash.bytes ++ rest)) = some (e.name, e.hash.bytes ++ rest) ∧
    hashLen ≤ (e.hash.bytes ++ rest).length ∧
    (e.hash.bytes ++ rest).take hashLen = e.hash.bytes ∧
    (e.hash.bytes ++ rest).drop hashLen = rest := by
  obtain ⟨hmode, hblank⟩ := decodeMode_modeText he.mode
  refine ⟨hmode, ?_, ?_, ?_, ?_, ?_⟩
  · simp only [encodeEntry, append_assoc, cons_append]
    exact splitOnce_append_cons hblank _
  · exact splitOnce_append_cons he.name _
  · rw [length_append, e.hash.length_bytes]
    exact Nat.le_add_right _ _
  · rw [← e.hash.length_bytes, take_left]
  · rw [← e.hash.length_bytes, drop_left]

/-- One entry reads back from its bytes. -/
lemma decodeEntry_encodeEntry (he : ValidEntry e) (hprev : ∀ prev ∈ prevName, prev < e.name)
    (rest : Bytes) : decodeEntry prevName (encodeEntry e ++ rest) = .ok (e, rest) := by
  obtain ⟨hmode, hsplit, hsplit', hlen, htake, hdrop⟩ :=
    frame_encodeEntry ⟨he.mode, zero_notMem_of_validateEntryName he.name⟩ rest
  simp only [decodeEntry, hsplit, hsplit', hmode, he.name, htake, hdrop, ObjectId.fromBytes_bytes,
    okOr_some, ok_bind, ensure, hlen, if_true]
  rw [if_pos hprev]
  rfl

/-- What an accepted entry has passed. -/
lemma validEntry_of_decodeEntry (h : decodeEntry prevName payload = .ok (e, rest)) :
    ValidEntry e ∧ (∀ prev ∈ prevName, prev < e.name) := by
  simp only [decodeEntry, bind_eq_ok, okOr_eq_ok, ensure_eq_ok] at h
  obtain ⟨⟨modeBytes, rest₁⟩, -, mode, hmode, ⟨name, rest₂⟩, -, h⟩ := h
  obtain ⟨_, hname, _, hprev, _, -, hash, -, h⟩ := h
  cases h
  simp only [decodeMode, bind_eq_ok, okOr_eq_ok, ensure_eq_ok] at hmode
  obtain ⟨modeS, -, m, -, -, -, -, hknown, hmode⟩ := hmode
  cases hmode
  exact ⟨⟨hknown, hname⟩, hprev⟩

/-- Appending an entry after the last one keeps the list in canonical form. -/
lemma WellFormed.append (h : WellFormed entries) (he : ValidEntry e)
    (hprev : ∀ prev ∈ entries.getLast?.map (·.name), prev < e.name)
    (hlen : entries.length < maxTreeEntries) : WellFormed (entries ++ [e]) := by
  refine ⟨?_, ?_, ?_⟩
  · intro e' he'
    rcases mem_append.mp he' with he' | he'
    · exact h.valid e' he'
    · rw [mem_singleton.mp he']
      exact he
  · rw [pairwise_append]
    refine ⟨h.ascending, pairwise_singleton _ _, fun a ha b hb => ?_⟩
    rw [mem_singleton.mp hb]
    -- The last entry is before the new one, and the others are before the last one.
    obtain ⟨init, last, rfl⟩ := (eq_nil_or_concat' entries).resolve_left (ne_nil_of_mem ha)
    have hlast : last.name < e.name := hprev last.name (by simp)
    rcases mem_append.mp ha with ha | ha
    · exact List.lt_trans ((List.pairwise_append.mp h.ascending).2.2 a ha last (by simp)) hlast
    · rw [mem_singleton.mp ha]
      exact hlast
  · rw [length_append, length_singleton]
    exact hlen

/-- A part of a canonical list is canonical. -/
lemma WellFormed.filter (h : WellFormed entries) (p : TreeEntry → Bool) :
    WellFormed (entries.filter p) :=
  ⟨fun e he => h.valid e (mem_filter.mp he).1, h.ascending.filter p,
    (length_filter_le p entries).trans h.length_le⟩

lemma wellFormed_of_decodeLoop {fuel : ℕ} {result : List TreeEntry} (h : WellFormed entries)
    (hdec : decodeLoop fuel entries payload = .ok result) : WellFormed result := by
  induction fuel generalizing entries payload with
  | zero =>
    cases hdec
    exact h
  | succ fuel ih =>
    unfold decodeLoop at hdec
    split_ifs at hdec
    · cases hdec
      exact h
    · simp only [bind_eq_ok, ensure_eq_ok] at hdec
      obtain ⟨-, hlen, ⟨e, rest⟩, hentry, hloop⟩ := hdec
      obtain ⟨he, hprev⟩ := validEntry_of_decodeEntry hentry
      exact ih (h.append he hprev hlen) hloop

/-- Decoded trees are in canonical form. -/
lemma wellFormed_of_decode (h : decode payload = .ok entries) : WellFormed entries :=
  wellFormed_of_decodeLoop ⟨fun _ he => absurd he not_mem_nil, Pairwise.nil, Nat.zero_le _⟩ h

lemma encodeEntry_ne_nil (e : TreeEntry) : encodeEntry e ≠ [] := by simp [encodeEntry]

/-- The rest of a canonical list reads back after its first part. -/
lemma decodeLoop_flatMap {fuel : ℕ} (done : List TreeEntry) (h : WellFormed (done ++ entries))
    (hfuel : (entries.flatMap encodeEntry).length ≤ fuel) :
    decodeLoop fuel done (entries.flatMap encodeEntry) = .ok (done ++ entries) := by
  induction entries generalizing fuel done with
  | nil =>
    rw [append_nil]
    cases fuel with
    | zero => rfl
    | succ fuel => rfl
  | cons e entries ih =>
    have hpos := length_pos_iff.mpr (encodeEntry_ne_nil e)
    rw [flatMap_cons, length_append] at hfuel
    obtain ⟨fuel, rfl⟩ : ∃ n, fuel = n + 1 := ⟨fuel - 1, by omega⟩
    have hvalid : ValidEntry e := h.valid e (by simp)
    have hprev : ∀ prev ∈ done.getLast?.map (·.name), prev < e.name := by
      intro prev hprev
      obtain ⟨last, hlast, rfl⟩ := Option.map_eq_some_iff.mp hprev
      exact (pairwise_append.mp h.ascending).2.2 last (mem_of_getLast? hlast) e (by simp)
    have hlen : done.length < maxTreeEntries := by
      have hle := h.length_le
      rw [length_append, length_cons] at hle
      omega
    have hne : encodeEntry e ++ entries.flatMap encodeEntry ≠ [] := by simp [encodeEntry_ne_nil]
    rw [flatMap_cons, decodeLoop, if_neg hne, decodeEntry_encodeEntry hvalid hprev]
    have happend : done ++ e :: entries = (done ++ [e]) ++ entries := by simp
    simp only [ensure, hlen, if_true, ok_bind]
    rw [happend] at h ⊢
    exact ih (done ++ [e]) h (by omega)

/-- What is accepted in place of the bytes of an entry is that entry. -/
lemma eq_of_decodeEntry_encodeEntry (he : Framed e) {e' : TreeEntry} {rest' : Bytes}
    (h : decodeEntry prevName (encodeEntry e ++ rest) = .ok (e', rest')) :
    e' = e ∧ rest' = rest := by
  obtain ⟨hmode, hsplit, hsplit', -, htake, hdrop⟩ := frame_encodeEntry he rest
  simp only [decodeEntry, hsplit, hsplit', hmode, htake, hdrop, ObjectId.fromBytes_bytes, okOr_some,
    ok_bind, bind_eq_ok] at h
  obtain ⟨_, -, _, -, _, -, heq⟩ := h
  cases heq
  exact ⟨rfl, rfl⟩

lemma eq_of_decodeLoop_flatMap {fuel : ℕ} {done result : List TreeEntry}
    (h : ∀ e ∈ entries, Framed e) (hfuel : (entries.flatMap encodeEntry).length ≤ fuel)
    (hdec : decodeLoop fuel done (entries.flatMap encodeEntry) = .ok result) :
    result = done ++ entries := by
  induction entries generalizing fuel done with
  | nil =>
    rw [append_nil]
    cases fuel <;> cases hdec <;> rfl
  | cons e entries ih =>
    have hpos := length_pos_iff.mpr (encodeEntry_ne_nil e)
    rw [flatMap_cons, length_append] at hfuel
    obtain ⟨fuel, rfl⟩ : ∃ n, fuel = n + 1 := ⟨fuel - 1, by omega⟩
    have hne : encodeEntry e ++ entries.flatMap encodeEntry ≠ [] := by simp [encodeEntry_ne_nil]
    rw [flatMap_cons, decodeLoop, if_neg hne] at hdec
    obtain ⟨-, hdec⟩ := check_bind_eq_ok.mp hdec
    obtain ⟨⟨e', rest⟩, hentry, hdec⟩ := bind_eq_ok.mp hdec
    obtain ⟨rfl, rfl⟩ := eq_of_decodeEntry_encodeEntry (h e mem_cons_self) hentry
    rw [ih (fun e he => h e (mem_cons_of_mem _ he)) (by omega) hdec, append_assoc, singleton_append]

/-- The entries in the order in which they are written. -/
def sorted (entries : List TreeEntry) : List TreeEntry := entries.insertionSort (·.name ≤ ·.name)

/-- A list of entries in canonical form reads back as itself. -/
theorem decode_encode (h : WellFormed entries) : decode (encode entries) = .ok entries := by
  have hsorted : entries.insertionSort (·.name ≤ ·.name) = entries :=
    List.Pairwise.insertionSort_eq (h.ascending.imp fun hlt => List.le_of_lt hlt)
  rw [decode, encode, hsorted]
  exact decodeLoop_flatMap [] h (Nat.le_refl _)

lemma mem_sorted : e ∈ sorted entries ↔ e ∈ entries :=
  (perm_insertionSort _ entries).mem_iff

/-- When the entries are canonical in the order in which they are written. -/
lemma wellFormed_sorted_iff : WellFormed (sorted entries) ↔ (∀ e ∈ entries, ValidEntry e) ∧
    (entries.map (·.name)).Nodup ∧ entries.length ≤ maxTreeEntries := by
  have hperm : (sorted entries).Perm entries := perm_insertionSort _ entries
  have hsorted : (sorted entries).Pairwise (·.name ≤ ·.name) := pairwise_insertionSort _ _
  rw [← hperm.length_eq, ← (hperm.map (·.name)).nodup_iff]
  constructor
  · rintro ⟨hvalid, hasc, hlen⟩
    refine ⟨fun e he => hvalid e (mem_sorted.mpr he), ?_, hlen⟩
    exact pairwise_map.mpr (hasc.imp fun h => Std.ne_of_lt h)
  · rintro ⟨hvalid, hnodup, hlen⟩
    refine ⟨fun e he => hvalid e (mem_sorted.mp he), ?_, hlen⟩
    exact (hsorted.and (pairwise_map.mp hnodup)).imp fun h => Std.lt_of_le_of_ne h.1 h.2

/-- What is written reads back, in the order of the names, exactly if this is the canonical form. -/
theorem decode_encode_eq_ok (h : ∀ e ∈ entries, Framed e) {result : List TreeEntry} :
    decode (encode entries) = .ok result ↔ result = sorted entries ∧ WellFormed result := by
  have hframed : ∀ e ∈ sorted entries, Framed e := fun e he =>
    h e ((perm_insertionSort _ entries).mem_iff.mp he)
  constructor
  · intro hdec
    refine ⟨eq_of_decodeLoop_flatMap hframed (Nat.le_refl _) hdec, wellFormed_of_decode hdec⟩
  · rintro ⟨rfl, hwf⟩
    exact decodeLoop_flatMap [] hwf (Nat.le_refl _)

lemma read_eq_ok {s : Store} {id : ObjectId} : read s id = .ok entries ↔
      ∃ payload, s.get? id = some ⟨.tree, payload⟩ ∧ decode payload = .ok entries :=
  Store.read_bind_eq_ok

/-- Without collisions, a tree in canonical form that was written can be read. -/
lemma read_of_write {hashBytes : Hash} {s t : Store} (h : WellFormed entries)
    (ht : t.CollisionFree) (hsub : (write hashBytes s entries).1.entries ⊆ t.entries) :
    read t (write hashBytes s entries).2 = .ok entries :=
  read_eq_ok.mpr ⟨encode entries,
    Store.get?_of_mem_entries ht (hsub (Store.mem_entries_writeBytes hashBytes s .tree _)),
    decode_encode h⟩

end Tree

end Gyt
