import Gyt.Object.Files
import Gyt.Foundation.Machine

/-!
# Written objects and `gc --pack`

`gc --pack` moves the loose objects into packs of a target size, `cmd/gc.rs`.  A written object is
read back as long as the limits of the three readers are kept: the raw form at most 1 GiB, and the
content of a packed entry at most 1 GiB.

A run is a sequence of writes and of `gc --pack`; `Kept` is the invariant of an object that was
written, `Kept.step` says that a step keeps it.
-/

namespace Gyt.ObjectDir

open Pack List Compress

section Model

variable (hashBytes : Hash) (xz : Xz)

/-- The entry of a loose file that can be parsed. -/
def looseEntry (file : ObjectId × LooseFile) : Option PackEntry :=
  match Compress.decode xz file.2.stored with
  | .ok raw =>
    match parseRaw raw with
    | .ok o => some ⟨file.1, o.kind, file.2.stored⟩
    | .error _ => none
  | .error _ => none

/-- The entries to be packed, in the order of the directories. -/
def looseEntries (d : ObjectDir) : List PackEntry := d.loose.filterMap (looseEntry xz)

/-- The state of the loop that groups entries. -/
structure Grouping where
  batches : List (List PackEntry)
  current : List PackEntry
  currentBytes : ℕ

/-- One iteration of the loop that groups entries. -/
def Grouping.push (target : ℕ) (g : Grouping) (e : PackEntry) : Grouping :=
  let sz := e.onDisk.length
  if 0 < target ∧ g.current ≠ [] ∧ target < g.currentBytes + sz then
    ⟨g.batches ++ [g.current], [e], sz⟩
  else ⟨g.batches, g.current ++ [e], g.currentBytes + sz⟩

/-- The groups of entries that become packs. -/
def batches (target : ℕ) (entries : List PackEntry) : List (List PackEntry) :=
  let g := entries.foldl (Grouping.push target) ⟨[], [], 0⟩
  if g.current ≠ [] then g.batches ++ [g.current] else g.batches

/-- What the file system does while packing. -/
structure PackOs where
  /-- Whether the files of a pack cannot be written. -/
  disk : List PackEntry → Option IoError
  /-- Whether a loose file can be deleted. -/
  removes : ObjectId → Bool
  /-- The order in which a directory is listed. -/
  order : List PackFile → List PackFile
  perm_order : ∀ packs, (order packs).Perm packs

/-- The files of a pack in place of those with the same name. -/
def putPack (d : ObjectDir) (os : PackOs) (p : PackFile) : ObjectDir where
  packDir := d.packDir
  loose := d.loose
  packs := os.order (d.packs.filter (·.stem ≠ p.stem) ++ [p])
  nodup_loose := d.nodup_loose
  nodup_packs := by
    rw [((os.perm_order _).map _).nodup_iff, List.map_append, List.nodup_append]
    refine ⟨d.nodup_packs.sublist (List.filter_sublist.map _), List.nodup_singleton _,
      fun a ha b hb heq => ?_⟩
    obtain ⟨q, hq, rfl⟩ := List.mem_map.mp ha
    rw [List.map_cons, List.map_nil, List.mem_singleton] at hb
    simpa [heq, hb] using (List.mem_filter.mp hq).2

/-- The loop over the groups of entries: every group is written, then its loose files are deleted.
-/
def packBatches (os : PackOs) : List (List PackEntry) → ObjectDir → Result ℕ × ObjectDir
  | [], d => (.ok 0, d)
  | batch :: rest, d =>
    match writePack hashBytes batch, os.disk batch with
    | .error e, _ => (.error e, d)
    | .ok _, some e => (.error (.io e), d)
    | .ok p, none =>
      let d := (d.putPack os p).keepLoose fun id =>
        !(batch.any (·.id = id) && os.removes id)
      let (packed, d) := packBatches os rest d
      ((batch.length + ·) <$> packed, d)

/-- The groups that a directory is packed into. -/
def looseBatches (target : ℕ) (d : ObjectDir) : List (List PackEntry) :=
  batches target ((looseEntries xz d).insertionSort (·.id.bytes ≤ ·.id.bytes))

def packLooseObjectsAtTarget (os : PackOs) (target : ℕ) (d : ObjectDir) : Result ℕ × ObjectDir :=
  if looseEntries xz d = [] then (.ok 0, d)
  else packBatches hashBytes os (looseBatches xz target d) d

/-- What the commands do to the object files: an object is written, or `gc --pack` prunes all but
some loose files and packs the rest. -/
inductive Event where
  | write (disk : Option IoError) (now : ℕ) (kind : ObjectKind) (payload : Bytes)
  | gcPack (os : PackOs) (target : ℕ) (keep : ObjectId → Bool)

def step (d : ObjectDir) : Event → Option ObjectDir
  | .write disk now kind payload => some (d.writeBytes hashBytes xz disk now kind payload).2
  | .gcPack os target keep =>
    some (packLooseObjectsAtTarget hashBytes xz os target (d.keepLoose keep)).2

end Model

/-! ## Groups -/

/-- The loop that groups entries leaves none out. -/
lemma Grouping.flatten_foldl (target : ℕ) (entries : List PackEntry) (g : Grouping) :
    (entries.foldl (push target) g).batches.flatten ++
      (entries.foldl (push target) g).current =
        g.batches.flatten ++ g.current ++ entries := by
  induction entries generalizing g with
  | nil => simp
  | cons e entries ih =>
    rw [foldl_cons, ih]
    unfold push
    dsimp only
    split_ifs <;> simp

/-- The groups together are the entries. -/
lemma flatten_batches (target : ℕ) (entries : List PackEntry) :
    (batches target entries).flatten = entries := by
  have h := Grouping.flatten_foldl target entries ⟨[], [], 0⟩
  unfold batches
  dsimp only
  split_ifs with hcurrent
  · simpa using h
  · rw [not_not.mp hcurrent] at h
    simpa using h

lemma looseEntry_eq_some {xz : Xz} {file : ObjectId × LooseFile} {e : PackEntry} :
    looseEntry xz file = some e ↔ ∃ raw o, decode xz file.2.stored = .ok raw ∧
      parseRaw raw = .ok o ∧ e = ⟨file.1, o.kind, file.2.stored⟩ := by
  unfold looseEntry
  constructor
  · intro h
    split at h
    · next raw hraw =>
      split at h
      · next o ho =>
        cases h
        exact ⟨raw, o, hraw, ho, rfl⟩
      · cases h
    · cases h
  · rintro ⟨raw, o, hraw, ho, rfl⟩
    simp only [hraw, ho]

lemma nodup_looseEntries (xz : Xz) (d : ObjectDir) : ((looseEntries xz d).map (·.id)).Nodup := by
  have hsub : ((looseEntries xz d).map (·.id)).Sublist (d.loose.map Prod.fst) := by
    unfold looseEntries
    induction d.loose with
    | nil => exact .slnil
    | cons p l ih =>
      rw [filterMap_cons]
      split
      · exact ih.cons _
      · next e he =>
        obtain ⟨-, -, -, -, rfl⟩ := looseEntry_eq_some.mp he
        exact ih.cons_cons _
  exact d.nodup_loose.sublist hsub

/-- No object is in two groups or twice in one. -/
lemma nodup_of_mem_looseBatches {xz : Xz} {target : ℕ} {d : ObjectDir} {batch : List PackEntry}
    (h : batch ∈ looseBatches xz target d) : (batch.map (·.id)).Nodup := by
  have hperm := perm_insertionSort (·.id.bytes ≤ ·.id.bytes) (looseEntries xz d)
  have hnodup := (hperm.map (·.id)).nodup_iff.mpr (nodup_looseEntries xz d)
  rw [← flatten_batches target (insertionSort _ _)] at hnodup
  exact hnodup.sublist ((sublist_flatten_of_mem h).map _)

lemma mem_looseEntries_of_mem {xz : Xz} {target : ℕ} {d : ObjectDir} {batch : List PackEntry}
    {e : PackEntry} (h : batch ∈ looseBatches xz target d) (he : e ∈ batch) :
    e ∈ looseEntries xz d := by
  have hmem : e ∈ (looseBatches xz target d).flatten := mem_flatten.mpr ⟨batch, h, he⟩
  rw [looseBatches, flatten_batches] at hmem
  exact (perm_insertionSort _ _).mem_iff.mp hmem

/-! ## Objects that are kept -/

section Kept

variable {hashBytes : Hash} {xz : Xz} {d d' : ObjectDir} {id : ObjectId} {o : Object}
  {os : PackOs} {p q : PackFile}

/-- Every copy of an object that a reader could come across reads as the object. -/
structure Sound (hashBytes : Hash) (xz : Xz) (d : ObjectDir) (id : ObjectId)
    (o : Object) : Prop where
  loose : ∀ f, d.looseFile id = some f → readLoose hashBytes xz id f = .ok o
  packs : ∀ p ∈ d.packs, readPack hashBytes xz d.packDir p id = .ok none ∨
    readPack hashBytes xz d.packDir p id = .ok (some o)

/-- There is a copy, and every copy reads as the object. -/
structure Kept (hashBytes : Hash) (xz : Xz) (d : ObjectDir) (id : ObjectId)
    (o : Object) : Prop extends Sound hashBytes xz d id o where
  present : d.looseFile id ≠ none ∨ ∃ p ∈ d.packs, "pack-".toList.isPrefixOf p.stem = true ∧
    readPack hashBytes xz d.packDir p id = .ok (some o)

lemma readFromPacks_of_sound {dir : Str} {packs : List PackFile}
    (hsound : ∀ p ∈ packs, readPack hashBytes xz dir p id = .ok none ∨
      readPack hashBytes xz dir p id = .ok (some o))
    (hpresent : ∃ p ∈ packs, "pack-".toList.isPrefixOf p.stem = true ∧
      readPack hashBytes xz dir p id = .ok (some o)) :
    readFromPacks hashBytes xz dir packs id = .ok (some o) := by
  induction packs with
  | nil =>
    obtain ⟨p, hp, -⟩ := hpresent
    cases hp
  | cons p packs ih =>
    obtain ⟨hp, hpacks⟩ := forall_mem_cons.mp hsound
    obtain ⟨q, hq, hstem, hread⟩ := hpresent
    rw [readFromPacks]
    rcases mem_cons.mp hq with rfl | hq
    · rw [if_pos hstem, hread]
      rfl
    · have hrest := ih hpacks ⟨q, hq, hstem, hread⟩
      split_ifs
      · rcases hp with hp | hp <;> rw [hp]
        · exact hrest
        · rfl
      · exact hrest

/-- A kept object is read. -/
lemma Kept.read (h : Kept hashBytes xz d id o) : d.read hashBytes xz id = .ok o := by
  unfold ObjectDir.read
  cases hf : d.looseFile id with
  | some f => exact h.loose f hf
  | none =>
    have hpresent := h.present.resolve_left (not_not.mpr hf)
    simp only [readFromPacks_of_sound h.packs hpresent, ok_bind]
    rfl

lemma mem_putPack : q ∈ (d.putPack os p).packs ↔ q = p ∨ q ∈ d.packs ∧ q.stem ≠ p.stem := by
  rw [show (d.putPack os p).packs = os.order (d.packs.filter (·.stem ≠ p.stem) ++ [p]) from rfl,
    (os.perm_order _).mem_iff, mem_append, mem_singleton, mem_filter, or_comm,
    decide_eq_true_iff]

/-- Deleting loose files keeps an object whose file stays or is not needed. -/
lemma Kept.keepLoose (h : Kept hashBytes xz d id o) {keep : ObjectId → Bool}
    (hkeep : keep id = false → d.looseFile id = none ∨
      ∃ p ∈ d.packs, "pack-".toList.isPrefixOf p.stem = true ∧
        readPack hashBytes xz d.packDir p id = .ok (some o)) :
    Kept hashBytes xz (d.keepLoose keep) id o := by
  refine ⟨⟨fun f hf => ?_, h.packs⟩, ?_⟩
  · rw [looseFile_keepLoose] at hf
    split_ifs at hf
    exact h.loose f hf
  · rw [looseFile_keepLoose]
    cases hid : keep id with
    | true => exact h.present
    | false =>
      right
      rcases hkeep hid with hnone | hpack
      · exact h.present.resolve_left (not_not.mpr hnone)
      · exact hpack

/-- A new pack keeps an object if it has it, or does not have it and takes no other pack's name. -/
lemma Kept.putPack (h : Kept hashBytes xz d id o)
    (hread : readPack hashBytes xz d.packDir p id = .ok none ∨
      readPack hashBytes xz d.packDir p id = .ok (some o))
    (hname : ∀ q ∈ d.packs, q.stem = p.stem → q = p) :
    Kept hashBytes xz (d.putPack os p) id o := by
  refine ⟨⟨h.loose, fun q hq => ?_⟩, h.present.imp_right ?_⟩
  · rcases mem_putPack.mp hq with rfl | ⟨hq, -⟩
    · exact hread
    · exact h.packs q hq
  · rintro ⟨q, hq, hstem, hq'⟩
    refine ⟨q, mem_putPack.mpr ?_, hstem, hq'⟩
    by_cases heq : q.stem = p.stem
    · exact .inl (hname q hq heq)
    · exact .inr ⟨hq, heq⟩

/-- Whether the entry of an object can be read from a pack as the object. -/
def Packable (hashBytes : Hash) (xz : Xz) (id : ObjectId) (o : Object) (e : PackEntry) :
    Prop :=
  e.id = id → e.onDisk.length ≤ maxBodyLen ∧
    ∀ path, readBody hashBytes xz path id e.kind e.onDisk = .ok o

lemma isPrefixOf_of_writePack {entries : List PackEntry}
    (h : writePack hashBytes entries = .ok p) : "pack-".toList.isPrefixOf p.stem = true := by
  obtain ⟨body, rows, -, -, rfl⟩ := exists_of_writePack hashBytes h
  rfl

/-- What is read from a new pack. -/
lemma readPack_of_packable {batch : List PackEntry} (h : writePack hashBytes batch = .ok p)
    (hnodup : (batch.map (·.id)).Nodup) (hbatch : ∀ e ∈ batch, Packable hashBytes xz id o e)
    (dir : Str) : readPack hashBytes xz dir p id =
      if batch.any (·.id = id) then .ok (some o) else .ok none := by
  split_ifs with hany
  · obtain ⟨e, he, hid⟩ := any_eq_true.mp hany
    rw [decide_eq_true_iff] at hid
    obtain ⟨hlen, hbody⟩ := hbatch e he hid
    have hread := readPack_of_mem hashBytes xz h ((mem_sorted hnodup).mpr he) dir
    rw [hid, if_pos hlen, hbody] at hread
    exact hread
  · refine readPack_of_notMem hashBytes xz h (fun e he hid => hany ?_) dir
    exact any_eq_true.mpr ⟨e, (mem_sorted hnodup).mp he, decide_eq_true hid⟩

/-- Whether no two packs of a list have the same name. -/
def DistinctNames (packs : List PackFile) : Prop :=
  ∀ p ∈ packs, ∀ q ∈ packs, p.stem = q.stem → p = q

/-- Packing keeps an object whose entry can be read. -/
lemma Kept.packBatches {batches : List (List PackEntry)} {all : List PackFile}
    (h : Kept hashBytes xz d id o)
    (hbatches : ∀ batch ∈ batches, (batch.map (·.id)).Nodup ∧
      ∀ e ∈ batch, Packable hashBytes xz id o e)
    (hnames : DistinctNames all) (hold : ∀ p ∈ d.packs, p ∈ all)
    (hnew : ∀ batch ∈ batches, ∀ p, writePack hashBytes batch = .ok p → p ∈ all) :
    Kept hashBytes xz (packBatches hashBytes os batches d).2 id o := by
  induction batches generalizing d with
  | nil => exact h
  | cons batch rest ih =>
    obtain ⟨hbatch, hrest⟩ := forall_mem_cons.mp hbatches
    obtain ⟨hnewBatch, hnewRest⟩ := forall_mem_cons.mp hnew
    rw [ObjectDir.packBatches]
    split
    · exact h
    · exact h
    · next p hp _ =>
      have hread := readPack_of_packable hp hbatch.1 hbatch.2 d.packDir
      have hput : Kept hashBytes xz (d.putPack os p) id o := by
        refine h.putPack ?_ fun q hq => hnames q (hold q hq) p (hnewBatch p hp)
        rw [hread]
        split_ifs
        · exact .inr rfl
        · exact .inl rfl
      refine ih (hput.keepLoose fun hkeep => .inr ?_) hrest (fun q hq => ?_) hnewRest
      · -- The loose file is only deleted if the object is in the new pack.
        refine ⟨p, mem_putPack.mpr (.inl rfl), isPrefixOf_of_writePack hp, hread.trans (if_pos ?_)⟩
        simp only [Bool.not_eq_false', Bool.and_eq_true] at hkeep
        exact hkeep.1
      · rcases mem_putPack.mp hq with rfl | ⟨hq, -⟩
        · exact hnewBatch q hp
        · exact hold q hq

/-- An object that was written or whose file was there is kept. -/
lemma Kept.of_writeBytes {disk : Option IoError} {now : ℕ}
    (hwrite : d.writeBytes hashBytes xz disk now o.kind o.payload = (.ok id, d'))
    (hfits : (buildRaw o.kind o.payload).length ≤ maxDecompressedBytes)
    (hsound : Sound hashBytes xz d id o) : Kept hashBytes xz d' id o := by
  obtain ⟨hid, ⟨hloose, rfl⟩ | ⟨hnone, -, rfl⟩⟩ := writeBytes_eq_ok.mp hwrite
  · exact ⟨hsound, .inl hloose⟩
  · have hfile : (d.putLoose id ⟨encode xz (buildRaw o.kind o.payload), some now⟩
        hnone).looseFile id = some ⟨encode xz (buildRaw o.kind o.payload), some now⟩ := by
      rw [looseFile_putLoose, if_pos rfl]
    refine ⟨⟨fun f hf => ?_, hsound.packs⟩, .inl (by rw [hfile]; exact nofun)⟩
    rw [hfile] at hf
    cases hf
    rw [hid]
    exact readLoose_encode.mpr hfits

/-- Writing another object leaves an object alone. -/
lemma Kept.writeBytes_of_ne {disk : Option IoError} {now : ℕ} {kind : ObjectKind} {payload : Bytes}
    (h : Kept hashBytes xz d id o) (hne : hashBytes (buildRaw kind payload) ≠ id) :
    Kept hashBytes xz (d.writeBytes hashBytes xz disk now kind payload).2 id o := by
  unfold writeBytes
  dsimp only
  split
  · exact h
  · next hnone =>
    have hfile : ∀ f, (d.putLoose _ f hnone).looseFile id = d.looseFile id := fun f => by
      rw [looseFile_putLoose, if_neg (Ne.symm hne)]
    split
    · exact h
    · exact ⟨⟨fun f hf => h.loose f (hfile _ ▸ hf), h.packs⟩,
        h.present.imp_left fun hloose => (hfile _).symm ▸ hloose⟩

def newPacks (hashBytes : Hash) (xz : Xz) (target : ℕ) (d : ObjectDir) :
    List PackFile :=
  (looseBatches xz target d).filterMap fun batch => (writePack hashBytes batch).toOption

/-- Whether an event keeps an object within the limits of the readers: no other object is written
under its identifier; `gc --pack` does not prune it, its file is not longer than the cap of the pack
reader, and no two packs have the same name. -/
def Safe (hashBytes : Hash) (xz : Xz) (id : ObjectId) (o : Object) (d : ObjectDir) :
    Event → Prop
  | .write _ _ kind payload => hashBytes (buildRaw kind payload) = id → ⟨kind, payload⟩ = o
  | .gcPack _ target keep => (d.looseFile id = none ∨ keep id = true) ∧
    (∀ f, d.looseFile id = some f → f.stored.length ≤ maxBodyLen) ∧
    DistinctNames (d.packs ++ newPacks hashBytes xz target (d.keepLoose keep))

/-- The entry of a kept object can be packed if it is not too long. -/
lemma Kept.packable (h : Kept hashBytes xz d id o)
    (hlen : ∀ f, d.looseFile id = some f → f.stored.length ≤ maxBodyLen) {e : PackEntry}
    (he : e ∈ looseEntries xz d) : Packable hashBytes xz id o e := by
  intro hid
  obtain ⟨⟨id', f⟩, hmem, hentry⟩ := mem_filterMap.mp he
  obtain ⟨raw, o', hraw, ho', rfl⟩ := looseEntry_eq_some.mp hentry
  cases hid
  have hf : d.looseFile id' = some f := looseFile_of_mem hmem
  obtain ⟨raw', hraw', hhash, ho⟩ := readLoose_eq_ok.mp (h.loose f hf)
  cases hraw.symm.trans hraw'
  cases ho.symm.trans ho'
  exact ⟨hlen f hf, fun path => readBody_eq_ok.mpr ⟨raw, hraw, hhash, ho, rfl⟩⟩

/-- A safe event keeps an object. -/
theorem Kept.step (hfits : (buildRaw o.kind o.payload).length ≤ maxDecompressedBytes)
    (h : Kept hashBytes xz d id o) {ev : Event} (hsafe : Safe hashBytes xz id o d ev)
    (hstep : d.step hashBytes xz ev = some d') : Kept hashBytes xz d' id o := by
  cases ev with
  | write disk now kind payload =>
    cases hstep
    by_cases hid : hashBytes (buildRaw kind payload) = id
    · cases hsafe hid
      cases hwrite : d.writeBytes hashBytes xz disk now kind payload with
      | mk result d₁ =>
        cases result with
        | ok id' =>
          cases hid.symm.trans (writeBytes_eq_ok.mp hwrite).1.symm
          exact .of_writeBytes hwrite hfits h.toSound
        | error e =>
          have heq : (d.writeBytes hashBytes xz disk now kind payload).2 = d :=
            writeBytes_of_error (by rw [hwrite])
          rw [hwrite] at heq
          exact heq ▸ h
    · exact h.writeBytes_of_ne hid
  | gcPack os target keep =>
    cases hstep
    obtain ⟨hkeep, hlen, hnames⟩ := hsafe
    have hpruned : Kept hashBytes xz (d.keepLoose keep) id o :=
      h.keepLoose fun hfalse => .inl (hkeep.resolve_right (by rw [hfalse]; exact nofun))
    unfold packLooseObjectsAtTarget
    split_ifs
    · exact hpruned
    · refine hpruned.packBatches (fun batch hbatch => ⟨nodup_of_mem_looseBatches hbatch,
        fun e he => hpruned.packable (fun f hf => hlen f ?_) (mem_looseEntries_of_mem hbatch he)⟩)
        hnames (fun p hp => mem_append_left _ hp) fun batch hbatch p hp =>
          mem_append_right _ (mem_filterMap.mpr ⟨batch, hbatch, by rw [hp]; rfl⟩)
      rw [looseFile_keepLoose] at hf
      split_ifs at hf
      exact hf

/-- A written object is read right away exactly if the file that was there reads as the object or,
if there was none, the raw form is not too long.  It is still read after any run of safe events if
no copy that was there before reads as anything else. -/
theorem written_object_reads {disk : Option IoError} {now : ℕ} {kind : ObjectKind}
    {payload : Bytes} {d₁ : ObjectDir}
    (hwrite : d.writeBytes hashBytes xz disk now kind payload = (.ok id, d₁)) :
    (d₁.read hashBytes xz id = .ok ⟨kind, payload⟩ ↔
      match d.looseFile id with
      | some f => readLoose hashBytes xz id f = .ok ⟨kind, payload⟩
      | none => (buildRaw kind payload).length ≤ Compress.maxDecompressedBytes) ∧
    ∀ events d₂, (buildRaw kind payload).length ≤ Compress.maxDecompressedBytes →
      Sound hashBytes xz d id ⟨kind, payload⟩ →
      Machine.Always (step hashBytes xz) (Safe hashBytes xz id ⟨kind, payload⟩) d₁ events →
      Machine.run (step hashBytes xz) d₁ events = some d₂ →
      d₂.read hashBytes xz id = .ok ⟨kind, payload⟩ := by
  refine ⟨?_, fun events d₂ hfits hsound halways hrun => ?_⟩
  · obtain ⟨hid, ⟨hloose, rfl⟩ | ⟨hnone, -, rfl⟩⟩ := writeBytes_eq_ok.mp hwrite
    · obtain ⟨f, hf⟩ := Option.ne_none_iff_exists'.mp hloose
      rw [hf, ObjectDir.read, hf]
    · subst hid
      rw [hnone, read_putLoose_self]
      exact readLoose_encode
  · have hkept := Kept.of_writeBytes (o := ⟨kind, payload⟩) hwrite hfits hsound
    have hstep : ∀ d ev d', Kept hashBytes xz d id ⟨kind, payload⟩ →
        Safe hashBytes xz id ⟨kind, payload⟩ d ev → d.step hashBytes xz ev = some d' →
        Kept hashBytes xz d' id ⟨kind, payload⟩ := fun _ _ _ h => h.step hfits
    have hinv := Machine.run_invariant hstep halways hrun hkept
    exact hinv.read

end Kept

/-! ## An object that is too long -/

/-- A payload of 1 GiB: with its header the raw form is too long for the reader. -/
def longPayload : Bytes := List.replicate (2 ^ 30) 0

/-- An object of 1 GiB is written without an error, and cannot be read. -/
theorem long_object_unreadable :
    ∃ d₁, empty.writeBytes sampleHash plainXz none 0 .blob longPayload =
        (.ok (sampleHash (buildRaw .blob longPayload)), d₁) ∧
      d₁.read sampleHash plainXz (sampleHash (buildRaw .blob longPayload)) ≠
        .ok ⟨.blob, longPayload⟩ := by
  have hnone : ∀ id, empty.looseFile id = none := fun _ => rfl
  refine ⟨_, writeBytes_eq_ok.mpr ⟨rfl, .inr ⟨hnone _, rfl, rfl⟩⟩, ?_⟩
  rw [read_putLoose_self]
  intro hread
  have hlen := readLoose_encode.mp hread
  rw [buildRaw, length_append, length_cons, longPayload, length_replicate,
    Compress.maxDecompressedBytes] at hlen
  omega

/-- A file system on which everything works. -/
def sampleOs : PackOs := ⟨fun _ => none, fun _ => true, id, fun _ => .refl _⟩

/-- The identifier of a small object. -/
def sampleBlob : ObjectId := sampleHash (buildRaw .blob [1, 2])

/-- The files after the small object was written. -/
def sampleDir : ObjectDir := (empty.writeBytes sampleHash plainXz none 0 .blob [1, 2]).2

/-- A small object is read after it was packed. -/
theorem written_object_reads_packed :
    ∃ d₂, Machine.run (step sampleHash plainXz) sampleDir [.gcPack sampleOs 0 fun _ => true] =
        some d₂ ∧ d₂.looseFile sampleBlob = none ∧
      d₂.read sampleHash plainXz sampleBlob = .ok ⟨.blob, [1, 2]⟩ := by
  have hwrite : empty.writeBytes sampleHash plainXz none 0 .blob [1, 2] =
      (.ok sampleBlob, sampleDir) := rfl
  have hsound : Sound sampleHash plainXz empty sampleBlob ⟨.blob, [1, 2]⟩ := ⟨nofun, nofun⟩
  have hlen : ∀ f, sampleDir.looseFile sampleBlob = some f → f.stored.length ≤ maxBodyLen := by
    have hfile : (sampleDir.looseFile sampleBlob).all (·.stored.length ≤ maxBodyLen) = true := by
      decide +kernel
    intro f hf
    simpa [hf] using hfile
  have hnames : DistinctNames (sampleDir.packs ++
      newPacks sampleHash plainXz 0 (sampleDir.keepLoose fun _ => true)) := by
    unfold DistinctNames
    decide +kernel
  exact ⟨_, rfl, by decide +kernel,
    (written_object_reads hwrite).2 [.gcPack sampleOs 0 fun _ => true] _ (by decide +kernel) hsound
      ⟨⟨.inr rfl, hlen, hnames⟩, fun _ _ => trivial⟩ rfl⟩

end Gyt.ObjectDir
