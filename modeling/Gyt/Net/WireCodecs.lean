import Gyt.Cmd.Clone

/-!
# What was sent can be read

The writers and the readers of the wire formats of `net/protocol.rs` side by side.  The three text
formats consist of lines, and every line is read on its own, so that for `read_lines` and
`foldlM_parseInfoRef` only one line has to be looked at.

A packfile is one compressed stream of all its objects.  The limit of a stream is meant for a single
object, but it holds for the sum of all of them here (`parsePackfileAccumulating_iff`).  For the
packfile that the server sends, `exists_entry_of_wireObjectsWant` says that the client finds a
wanted object in it.
-/

namespace Gyt

open Text Wire Index List Utf8

/-! ## Text formats -/

section Lines

variable {α : Type} {line : α → Str} {l : List α}

lemma decode_lines (line : α → Str) (l : List α) :
    decode (l.flatMap fun a => encode (line a ++ ['\n'])) = some (unlines (l.map line)) := by
  rw [← decode_encode, unlines, flatMap_map, encode, flatMap_assoc]
  rfl

/-- A text of which every line is read as the item that was written is read as the list of items. -/
theorem read_lines {read : Str → ℕ → Result (Option α)} (hline : ∀ a ∈ l, '\n' ∉ line a)
    (hread : ∀ a ∈ l, ∀ i, read (line a ++ ['\n']) i = .ok (some a)) (e : GytError) :
    (do let s ← okOr (decode (l.flatMap fun a => encode (line a ++ ['\n']))) e
        let items ← (splitInclusive '\n' s).zipIdx.mapM fun (part, i) => read part i
        return items.filterMap id) = .ok l := by
  have hmapM : ∀ k, (((l.map line).map (· ++ ['\n'])).zipIdx k).mapM
      (fun p => read p.1 p.2) = .ok (l.map some) := by
    clear hline
    induction l with
    | nil => exact fun _ => rfl
    | cons a l ih =>
      obtain ⟨ha, hl⟩ := forall_mem_cons.mp hread
      intro k
      rw [map_cons, map_cons, zipIdx_cons, mapM_cons, ih hl (k + 1)]
      simp only [ha k, ok_bind]
      rfl
  rw [decode_lines, okOr_some, ok_bind, splitInclusive_unlines (by simpa using hline), hmapM 0,
    ok_bind, filterMap_map]
  exact congrArg Except.ok filterMap_some

end Lines

section Texts

open ObjectId (notMem_toHex)

lemma parseWants_encodeWants (ids : List ObjectId) : parseWants (encodeWants ids) = .ok ids := by
  refine read_lines (fun id _ => notMem_toHex (by decide)) (fun id _ i => ?_) _
  simp [parseWant, id.toHex_ne_nil, id.length_encode_toHex, ensure]

/-- Reading the lines of a list of references whose names are new. -/
theorem foldlM_parseInfoRef {refs out : List RefEntry} (i : ℕ)
    (hname : ∀ r ∈ refs, validateRefName r.name = .ok ())
    (hnodup : ((out ++ refs).map (·.name)).Nodup)
    (hlen : (out ++ refs).length ≤ maxInfoRefsEntries) :
    (((refs.map fun r => r.id.toHex ++ '\t' :: r.name).map (· ++ ['\n'])).zipIdx i).foldlM
      parseInfoRef out = .ok (out ++ refs) := by
  induction refs generalizing out i with
  | nil => rw [append_nil]; rfl
  | cons r refs ih =>
    obtain ⟨hr, hrefs⟩ := forall_mem_cons.mp hname
    have hstep : parseInfoRef out (r.id.toHex ++ '\t' :: r.name ++ ['\n'], i) =
        .ok (out ++ [r]) := by
      have hcount : out.length < maxInfoRefsEntries := by
        rw [length_append, length_cons] at hlen
        omega
      have hfresh : ∀ r' ∈ out, r'.name ≠ r.name := by
        intro r' hr' heq
        rw [map_append, map_cons] at hnodup
        exact disjoint_of_nodup_append hnodup (mem_map_of_mem hr') (heq ▸ mem_cons_self)
      simp only [validateRefName, check_bind_eq_ok, ensure_eq_ok] at hr
      obtain ⟨hne, hbytes, -⟩ := hr
      have hbytes : (encode r.name).length ≤ maxInfoRefNameLen := hbytes.trans (by decide)
      simp only [parseInfoRef, stripSuffixChar_append, Option.getD_some, append_eq_nil_iff,
        cons_ne_nil, and_false, if_false,
        splitOnce_append_cons (notMem_toHex (c := '\t') (by decide)), okOr_some, ok_bind,
        ObjectId.fromHex_toHex, check_bind_eq_ok, ensure_eq_ok]
      exact ⟨hcount, hne, hbytes, by simpa using hfresh, rfl⟩
    rw [map_cons, map_cons, zipIdx_cons, foldlM_cons, hstep, ok_bind,
      ih (i + 1) hrefs (by simpa using hnodup) (by simpa using hlen), append_assoc]
    rfl

lemma notMem_elim_toHex {c : Char} {old : Option ObjectId} (hc : c ∉ "0123456789abcdef".toList) :
    c ∉ old.elim zeroHex ObjectId.toHex := by
  cases old with
  | none => exact fun h => hc (eq_of_mem_replicate h ▸ by decide)
  | some id => exact notMem_toHex hc

lemma parseRefUpdateLine_encode {u : RefUpdate} (hname : validateRefName u.name = .ok ())
    (hold : u.old ≠ some .zero) (i : ℕ) :
    parseRefUpdateLine (u.old.elim zeroHex ObjectId.toHex ++ '\t' :: u.new.toHex ++
      '\t' :: u.name ++ ['\n']) i = .ok (some u) := by
  have hsplit : splitn '\t' 3 (u.old.elim zeroHex ObjectId.toHex ++ '\t' :: u.new.toHex ++
      '\t' :: u.name) = [u.old.elim zeroHex ObjectId.toHex, u.new.toHex, u.name] := by
    rw [append_assoc, cons_append, splitn_append_cons (notMem_elim_toHex (by decide)),
      splitn_append_cons (notMem_toHex (by decide))]
    rfl
  have hne : u.name ≠ [] := by
    rintro hnil
    rw [hnil] at hname
    cases hname
  simp only [parseRefUpdateLine, stripSuffixChar_append, Option.getD_some, append_eq_nil_iff,
    cons_ne_nil, and_false, if_false, hsplit]
  obtain ⟨_ | old, new, name⟩ := u
  · simp [ensure, hne]
  · have hzero : old.toHex ≠ zeroHex := by
      intro heq
      exact hold (congrArg some (ObjectId.toHex_injective (heq.trans (by decide))))
    simp [ensure, hne, hzero]

/-- The text formats of the wire protocol are read as they were written: the references of a server,
the wanted objects and the updates of references. -/
theorem wire_texts_round_trip :
    (∀ refs : List RefEntry, (refs.map (·.name)).Nodup →
      (∀ r ∈ refs, validateRefName r.name = .ok ()) → refs.length ≤ maxInfoRefsEntries →
      parseInfoRefs (encodeInfoRefs refs) = .ok refs) ∧
    (∀ ids : List ObjectId, parseWants (encodeWants ids) = .ok ids) ∧
    ∀ us : List RefUpdate, (∀ u ∈ us, validateRefName u.name = .ok () ∧ u.old ≠ some .zero) →
      parseRefUpdates (encodeRefUpdates us) = .ok us := by
  refine ⟨fun refs hnodup hname hlen => ?_, parseWants_encodeWants, fun us hus => ?_⟩
  · have hlines : ∀ l ∈ refs.map fun r => r.id.toHex ++ '\t' :: r.name, '\n' ∉ l := by
      simp only [forall_mem_map, mem_append, mem_cons, not_or]
      exact fun r hr => ⟨notMem_toHex (by decide), by decide,
        notMem_of_validateRefName (hname r hr) (by decide)⟩
    rw [parseInfoRefs, encodeInfoRefs, decode_lines, okOr_some, ok_bind,
      splitInclusive_unlines hlines]
    exact @foldlM_parseInfoRef refs [] 0 hname hnodup hlen
  · refine read_lines (fun u hu => ?_) (fun u hu => parseRefUpdateLine_encode (hus u hu).1
      (hus u hu).2) _
    simp only [mem_append, mem_cons, not_or]
    exact ⟨⟨notMem_elim_toHex (by decide), by decide, notMem_toHex (by decide)⟩, by decide,
      notMem_of_validateRefName (hus u hu).1 (by decide)⟩

/-- A branch is advertised and updated. -/
theorem wire_texts_read_back :
    parseInfoRefs (encodeInfoRefs [⟨"refs/heads/é", .fill 1⟩]) =
        .ok [⟨"refs/heads/é", .fill 1⟩] ∧
      parseRefUpdates (encodeRefUpdates [⟨some (.fill 1), .fill 2, "refs/heads/é"⟩]) =
        .ok [⟨some (.fill 1), .fill 2, "refs/heads/é"⟩] := by
  have hname : validateRefName "refs/heads/é" = .ok () := by decide +kernel
  exact ⟨wire_texts_round_trip.1 _ (by simp) (by simpa using hname) (by decide),
    wire_texts_round_trip.2.2 _ (by simpa using ⟨hname, by decide⟩)⟩

end Texts

/-! ## Packfiles -/

namespace Wire

section Accumulating

variable (xz : Xz)

/-- Reading the content of an object file and counting what it decompresses to. -/
def decodeAccumulating (stored : Bytes) (accumulator : ℕ) : Result Bytes × ℕ :=
  match Compress.decode xz stored with
  | .ok out => (.ok out, (accumulator + out.length) % 2 ^ 64)
  | .error e => (.error e, accumulator)

/-- Reading the wire form and counting what it decompresses to. -/
def parsePackfileAccumulating (body : Bytes) (accumulator : ℕ) : Result (List PackEntry) × ℕ :=
  match body with
  | [] => (.error (.parse ["packfile: empty body"]), accumulator)
  | v :: rest =>
    if v = packfileVersionRaw then (parsePack rest, (accumulator + rest.length) % 2 ^ 64)
    else if v = packfileVersionXz then
      match decodeAccumulating xz (Compress.magic ++ Compress.flagXz :: rest) accumulator with
      | (.ok decompressed, accumulator) => (parsePack decompressed, accumulator)
      | (.error e, accumulator) =>
        (.error (.parse ("packfile: xz decompress: " :: e.display)), accumulator)
    else (.error (.parse ["packfile: unknown version byte 0x", .hex02 v]), accumulator)

variable {xz} {entries read : List PackEntry}

/-- Counting changes nothing. -/
lemma parsePackfileAccumulating_eq (body : Bytes) (accumulator : ℕ) :
    (parsePackfileAccumulating xz body accumulator).1 = parsePackfile xz body := by
  have hdecode : ∀ rest, Compress.decode xz (Compress.magic ++ Compress.flagXz :: rest) =
      Compress.xzDecodeRaw xz rest := fun _ => rfl
  unfold parsePackfileAccumulating parsePackfile decodeAccumulating
  cases body with
  | nil => rfl
  | cons v rest =>
    simp only [hdecode]
    split_ifs
    · rfl
    · cases Compress.xzDecodeRaw xz rest <;> rfl
    · rfl

/-- Reading the first entry of a pack. -/
lemma parsePackFrom_append {fuel pos : ℕ} {out : List PackEntry} {bytes : Bytes}
    (hne : bytes ≠ []) (hlen : bytes.length < 2 ^ 32) (rest : Bytes) :
    parsePackFrom (fuel + 1) pos out (toLeBytes 4 bytes.length ++ (bytes ++ rest)) = .ok read ↔
      out.length < maxPackEntries ∧
        parsePackFrom fuel (pos + 4 + bytes.length) (out ++ [⟨.zero, bytes⟩]) rest = .ok read := by
  have htake : (toLeBytes 4 bytes.length ++ (bytes ++ rest)).take 4 = toLeBytes 4 bytes.length :=
    take_left' (length_toLeBytes _ _)
  have hdrop : (toLeBytes 4 bytes.length ++ (bytes ++ rest)).drop 4 = bytes ++ rest :=
    drop_left' (length_toLeBytes _ _)
  have hcode : fromLeBytes (toLeBytes 4 bytes.length) = bytes.length := fromLeBytes_toLeBytes hlen
  rw [parsePackFrom, if_neg (by simp [hne])]
  simp [htake, hdrop, hcode, check_bind_eq_ok, hne]

/-- The entries of a pack are read up to their maximum number. -/
lemma parsePackFrom_flatMap {fuel : ℕ} (pos : ℕ) (out : List PackEntry)
    (hne : ∀ e ∈ entries, e.bytes ≠ []) (hlen : ∀ e ∈ entries, e.bytes.length < 2 ^ 32)
    (hfuel : entries.length ≤ fuel) (hout : out.length ≤ maxPackEntries) :
    parsePackFrom fuel pos out
        (entries.flatMap fun e => toLeBytes 4 e.bytes.length ++ e.bytes) = .ok read ↔
      out.length + entries.length ≤ maxPackEntries ∧
        read = out ++ entries.map fun e => ⟨.zero, e.bytes⟩ := by
  induction entries generalizing fuel pos out with
  | nil =>
    cases fuel <;> simp [parsePackFrom, hout, eq_comm]
  | cons e entries ih =>
    obtain ⟨he, hne⟩ := forall_mem_cons.mp hne
    obtain ⟨hsize, hlen⟩ := forall_mem_cons.mp hlen
    obtain ⟨fuel, rfl⟩ := Nat.exists_eq_add_of_le' hfuel
    rw [length_cons] at hfuel ⊢
    rw [flatMap_cons, append_assoc, ← Nat.add_assoc, parsePackFrom_append he hsize]
    by_cases hroom : out.length < maxPackEntries
    · rw [ih _ _ hne hlen (by omega) (by simpa using hroom)]
      simp [hroom, Nat.add_assoc, Nat.add_comm 1]
    · refine iff_of_false (fun h => hroom h.1) fun h => hroom ?_
      have := h.1
      omega

/-- A compressed pack is read as the pack, if it is not too long. -/
lemma parsePackfile_compress {inner : Bytes}
    (hinv : xz.decompress (xz.compress inner) = .ok inner) :
    parsePackfile xz (packfileVersionXz :: xz.compress inner) = .ok read ↔
      inner.length ≤ Compress.maxDecompressedBytes ∧ parsePack inner = .ok read := by
  rw [parsePackfile, if_neg (by decide), if_pos rfl]
  split
  · next decompressed hdecode =>
    obtain ⟨rfl, hcap⟩ := (Compress.xzDecodeRaw_compress hinv).mp hdecode
    exact (and_iff_right hcap).symm
  · next e hdecode =>
    refine iff_of_false nofun fun ⟨hcap, _⟩ => ?_
    rw [(Compress.xzDecodeRaw_compress hinv).mpr ⟨rfl, hcap⟩] at hdecode
    cases hdecode

lemma length_encodePack (entries : List PackEntry) :
    (entries.flatMap fun e => toLeBytes 4 e.bytes.length ++ e.bytes).length =
      (entries.map (4 + ·.bytes.length)).sum := by simp [length_flatMap]

lemma encodePackfile_of_forall_lt (hsize : ∀ e ∈ entries, e.bytes.length < 2 ^ 32) :
    encodePackfile xz entries = some (packfileVersionXz :: xz.compress
      (entries.flatMap fun e => toLeBytes 4 e.bytes.length ++ e.bytes)) := by
  rw [encodePackfile, encodePack, if_pos (by simpa using hsize), Option.map_some]

/-- The bytes of a pack are decompressed again, those of no entries if the codec inverts the empty
stream. -/
lemma decompress_compress_pack (hempty : entries = [] → xz.decompress (xz.compress []) = .ok []) :
    xz.decompress (xz.compress (entries.flatMap fun e => toLeBytes 4 e.bytes.length ++ e.bytes)) =
      .ok (entries.flatMap fun e => toLeBytes 4 e.bytes.length ++ e.bytes) := by
  cases entries with
  | nil => exact hempty rfl
  | cons e entries =>
    refine xz.decompress_compress _ (ne_nil_of_length_pos ?_)
    rw [flatMap_cons, length_append, length_append, length_toLeBytes]
    omega

/-- Every entry makes a pack longer. -/
lemma length_le_sum_entries (entries : List PackEntry) :
    entries.length ≤ (entries.map (4 + ·.bytes.length)).sum := by
  have hle := length_le_sum_of_one_le (entries.map (4 + ·.bytes.length)) (by simp; omega)
  rwa [length_map] at hle

/-- What the packfile of entries with a length is read as. -/
lemma parsePackfile_entries (hne : ∀ e ∈ entries, e.bytes ≠ [])
    (hsize : ∀ e ∈ entries, e.bytes.length < 2 ^ 32)
    (hempty : entries = [] → xz.decompress (xz.compress []) = .ok []) :
    parsePackfile xz (packfileVersionXz :: xz.compress
        (entries.flatMap fun e => toLeBytes 4 e.bytes.length ++ e.bytes)) = .ok read ↔
      (entries.map (4 + ·.bytes.length)).sum ≤ Compress.maxDecompressedBytes ∧
        entries.length ≤ maxPackEntries ∧ read = entries.map fun e => ⟨.zero, e.bytes⟩ := by
  rw [parsePackfile_compress (decompress_compress_pack hempty), length_encodePack, parsePack,
    parsePackFrom_flatMap 0 [] hne hsize
      (length_encodePack entries ▸ length_le_sum_entries entries) (Nat.zero_le _),
    length_nil, Nat.zero_add, nil_append]

/-- A packfile is read again exactly if its entries, with their lengths, are not more than what a
single stream may decompress to, and are not too many. -/
theorem parsePackfileAccumulating_iff (hne : ∀ e ∈ entries, e.bytes ≠ [])
    (hempty : entries = [] → xz.decompress (xz.compress []) = .ok []) (accumulator : ℕ) :
    (∃ body read, encodePackfile xz entries = some body ∧
        (parsePackfileAccumulating xz body accumulator).1 = .ok read ∧
        read.map (·.bytes) = entries.map (·.bytes)) ↔
      (entries.map (4 + ·.bytes.length)).sum ≤ Compress.maxDecompressedBytes ∧
        entries.length ≤ maxPackEntries := by
  simp only [parsePackfileAccumulating_eq]
  by_cases hsize : ∀ e ∈ entries, e.bytes.length < 2 ^ 32
  · simp only [encodePackfile_of_forall_lt hsize, Option.some.injEq, ↓existsAndEq, true_and,
      parsePackfile_entries hne hsize hempty, and_assoc]
    simp
  · have hnone : encodePackfile xz entries = none := by
      rw [encodePackfile, encodePack, if_neg (by simpa using hsize), Option.map_none]
    refine iff_of_false (by simp [hnone]) fun h => hsize fun e he => ?_
    have hle := single_le_sum (by simp) _
      (mem_map_of_mem (f := fun e : PackEntry => 4 + e.bytes.length) he)
    have hcap := h.1
    rw [Compress.maxDecompressedBytes] at hcap
    omega

/-- One small object reads back. -/
theorem small_push_accepted : ∃ body read,
    encodePackfile plainXz [⟨.zero, Compress.encode plainXz [7]⟩] = some body ∧
      (parsePackfileAccumulating plainXz body 0).1 = .ok read ∧
      read.map (·.bytes) = [Compress.encode plainXz [7]] :=
  (parsePackfileAccumulating_iff (by decide) (by simp) 0).mpr (by decide)

/-- A push of 300000 files of 4000 bytes is refused, although every object could be read. -/
theorem large_push_refused :
    ∃ entries : List PackEntry, entries.length ≤ maxPackEntries ∧
      (∀ e ∈ entries, e.bytes ≠ [] ∧ ∃ raw, Compress.decode plainXz e.bytes = .ok raw) ∧
      ∃ body, encodePackfile plainXz entries = some body ∧
        ∀ accumulator read, (parsePackfileAccumulating plainXz body accumulator).1 ≠ .ok read := by
  obtain ⟨n, hn⟩ : ∃ n, n = 300000 := ⟨_, rfl⟩
  obtain ⟨k, hk⟩ : ∃ k, k = 4000 := ⟨_, rfl⟩
  have hlen : (Compress.encode plainXz (replicate k 0)).length = k + 5 := by
    simp [Compress.encode, plainXz, Compress.magic]
  refine ⟨replicate n ⟨.zero, Compress.encode plainXz (replicate k 0)⟩, ?_, ?_, ?_⟩
  · rw [length_replicate, hn]
    decide
  · intro e he
    rw [eq_of_mem_replicate he]
    refine ⟨nofun, _,
      (Compress.decode_encode (by simp only [ne_eq, replicate_eq_nil_iff]; omega)).mpr ⟨rfl, ?_⟩⟩
    rw [length_replicate, hk]
    decide
  · refine ⟨_, encodePackfile_of_forall_lt fun e he => ?_, fun accumulator read hread => ?_⟩
    · rw [eq_of_mem_replicate he, hlen, hk]
      decide
    · rw [parsePackfileAccumulating_eq, parsePackfile_compress rfl, length_encodePack,
        map_replicate, sum_replicate, hlen, hn, hk] at hread
      exact absurd hread.1 (by decide)

/-- A wanted object whose size is spelled plainly is found in the packfile that the server sends, if
the client can read the packfile. -/
theorem exists_entry_of_wireObjectsWant {hashBytes : Hash} {d : ObjectDir}
    {body pack stored raw : Bytes} {ids : List ObjectId} {id : ObjectId} {o : Object}
    (hids : parseWants body = .ok ids) (hid : id ∈ ids) (hobj : d.read hashBytes xz id = .ok o)
    (hstored : d.onDisk id = some stored) (hraw : Compress.decode xz stored = .ok raw)
    (hplain : PlainNumber (sizeText raw)) (hlen : raw.length ≤ Compress.maxDecompressedBytes)
    (hpack : wireObjectsWant hashBytes xz d body = .ok (some pack))
    (hread : parsePackfile xz pack = .ok read) :
    ∃ e ∈ read, Compress.decode xz e.bytes = .ok raw ∧ hashBytes raw = id := by
  obtain ⟨stored', raw', hstored', hraw', hhash, hparse⟩ := ObjectDir.exists_of_read hobj
  cases hstored.symm.trans hstored'
  cases hraw.symm.trans hraw'
  have hbuild := (buildRaw_eq_iff hparse).mpr hplain
  set entries := ids.eraseDups.filterMap (wantEntry hashBytes xz d) with hentries
  have hmem : ⟨id, Compress.encode xz raw⟩ ∈ entries := by
    refine mem_filterMap.mpr ⟨id, mem_eraseDups.mpr hid, ?_⟩
    rw [wantEntry, hobj]
    exact congrArg (fun raw => some (⟨id, Compress.encode xz raw⟩ : PackEntry)) hbuild
  have hne : ∀ e ∈ entries, e.bytes ≠ [] := by
    intro e he
    obtain ⟨id', -, hentry⟩ := mem_filterMap.mp he
    unfold wantEntry at hentry
    split at hentry <;> cases hentry
    exact cons_ne_nil _ _
  rw [wireObjectsWant, hids] at hpack
  dsimp only at hpack
  split_ifs at hpack
  rw [← hentries, encodePackfile, encodePack] at hpack
  split_ifs at hpack with hsize <;> cases hpack
  obtain ⟨-, -, rfl⟩ := (parsePackfile_entries hne (by simpa using hsize)
    fun h => absurd (h ▸ hmem) not_mem_nil).mp hread
  refine ⟨_, mem_map_of_mem hmem, ?_, hhash⟩
  exact (Compress.decode_encode (hbuild ▸ buildRaw_ne_nil _ _)).mpr ⟨rfl, hlen⟩

end Accumulating

end Wire

end Gyt
