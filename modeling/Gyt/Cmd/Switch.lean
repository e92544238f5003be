import Gyt.Cmd.Disk
import Gyt.Cmd.FastForward
import Gyt.Merge.TreePaths

/-!
# Switching to a branch

The command `switch`, `cmd/switch.rs`: the files of `HEAD` are replaced by those of a branch, unless
a file has changes that would be lost.  The maps of the source have the texts of paths as keys, so
that its loops go through the files in the order of these texts (`byText`).  The log of the
movements of `HEAD`, which is appended to at the end, is left out.

A switch that starts from a clean state does not always succeed.  The check for conflicts reads
whatever is at a path that the branch has and `HEAD` has not.  A directory there cannot be read; it
may hold files of `HEAD` that the switch would remove, or nothing at all.  And a symbolic link of
`HEAD` above the path leads to something else.  `switchTo_iff` says that nothing but this is in the
way, apart from what the operating system refuses (`Readable`, `Permits`), an index that cannot be
written and a name that does not read back from `HEAD`.
-/

namespace Gyt.Switch

open List FileTree Index Disk Command Text WorkTree FastForward

/-! ## The command -/

section Model

variable {W : Type} (hashBytes : Hash) (os : Os W) (look : LookOs W)

/-- The files of a map in the order of the texts of their paths. -/
def byText (files : FileMap) : List TreeFile :=
  files.toList.insertionSort (pathToStorageString ·.1 ≤ pathToStorageString ·.1)

/-- The identifier of what is at a path, `hash_workdir_file`. -/
def hashWorkdirFile (path : RelPath) (mode : UInt32) (w : W) : Result ObjectId :=
  if mode = modeSymlink then do
    let target ← (look.readLink path w).mapError .io
    return hashBytes (buildRaw .blob (Utf8.encode target))
  else hashBlob hashBytes look path w

/-- Whether there is something at a path, which may be a link that leads nowhere. -/
def isThere (path : RelPath) (w : W) : Bool :=
  look.pathExists path w || (look.symlinkMetadata path w).isSome

/-- Whether what is at a path differs from an entry of a map. -/
def differs (w : W) (path : RelPath) (entry : UInt32 × ObjectId) : Result Bool := do
  let actual ← hashWorkdirFile hashBytes look path entry.1 w
  return decide (actual ≠ entry.2)

/-- Whether a file of the branch would overwrite changes. -/
def targetConflict (w : W) (headFiles : FileMap) (idx : Index)
    (file : TreeFile) : Result Bool :=
  if isThere look file.1 w then
    match headFiles[file.1]? with
    | some want => differs hashBytes look w file.1 want
    | none =>
      if (idx.find file.1).isSome then .ok true
      else differs hashBytes look w file.1 file.2
  else .ok false

/-- Whether changes of a file of `HEAD` that the branch has not would be lost. -/
def headConflict (w : W) (targetFiles : FileMap) (file : TreeFile) :
    Result Bool :=
  if file.1 ∉ targetFiles ∧ isThere look file.1 w then differs hashBytes look w file.1 file.2
  else .ok false

/-- The paths with conflicts, after those that were found before. -/
def collect (check : TreeFile → Result Bool) (found : List RelPath)
    (files : List TreeFile) : Result (List RelPath) :=
  files.foldlM (fun found file => do
    let conflict ← check file
    return if conflict then found ++ [file.1] else found) found

def conflicts (w : W) (headFiles targetFiles : FileMap) (idx : Index) : Result (List RelPath) := do
  let found ← collect (targetConflict hashBytes look w headFiles idx) [] (byText targetFiles)
  collect (headConflict hashBytes look w targetFiles) found (byText headFiles)

def conflictError (paths : List RelPath) : GytError :=
  .repo ["switch would overwrite uncommitted changes:\n  ",
    .str ("\n  ".toList.intercalate (sortDedup (paths.map pathToStorageString)))]

/-- The files of `HEAD`; none if it is unborn. -/
def currentFiles : Cmd W FileMap := do
  let head ← readFiles readHead
  let current ← readFiles (resolve · head)
  match current with
  | some id => do
    let c ← readObjects (Commit.read · id)
    walkObjects (flattenTree · c.tree)
  | none => return ∅

/-- Replacing the files of `HEAD` by those of a branch. -/
def materialize (refName : Str) (headFiles targetFiles : FileMap) : Cmd W Unit := do
  ((byText headFiles).map indexEntry).forM (removeStale os targetFiles)
  (byText targetFiles).forM (writeFile os)
  writeIndexFromMap targetFiles
  let _ ← readFiles readHead
  writeHead (.symbolic refName)

def switchTo (branch : Str) : Cmd W Unit := do
  let refName := "refs/heads/" ++ branch
  let targetId ← readFiles (readRef · refName)
  let c ← readObjects (Commit.read · targetId)
  let targetFiles ← walkObjects (flattenTree · c.tree)
  let headFiles ← currentFiles
  let idx ← readFiles (Index.read · indexPath)
  let w ← gets (·.workdir)
  let found ← lift (conflicts hashBytes look w headFiles targetFiles idx)
  lift (ensure (found = []) (conflictError found))
  materialize os refName headFiles targetFiles

end Model

/-! ## Clean states -/

section Clean

/-- A file of a working tree has the content and the mode of an entry of a map. -/
def Shows (s : Store) (entry : UInt32 × ObjectId) : Node → Prop
  | .dir => False
  | .link target => entry.1 = modeSymlink ∧ Blob.read s entry.2 = .ok (Utf8.encode target)
  | .file content perm => entry.1 ≠ modeSymlink ∧ Blob.read s entry.2 = .ok content ∧
      (entry.1 = modeExec ↔ perm &&& 0o111 ≠ 0)

/-- The index and the working tree have the files of a map and no others; there may be empty
directories. -/
structure Clean (repo : TreeRepo) (files : FileMap) : Prop where
  index : ∃ idx, Index.read repo.files indexPath = .ok idx ∧
    ∀ f, f ∈ files.toList ↔ ∃ e ∈ idx.entries, (e.path, e.mode, e.hash) = f
  tracked : ∀ f ∈ files.toList, ∃ n, repo.workdir.node f.1 = some n ∧ Shows repo.objects f.2 n
  only : ∀ path n, repo.workdir.node path = some n → n ≠ .dir → path ∈ files

/-- The files of `HEAD` are those of a map. -/
def HeadFiles {W : Type} (repo : Repo W) (files : FileMap) : Prop :=
  ∃ head, readHead repo.files = .ok head ∧
    (resolve repo.files head = .ok none ∧ files = ∅ ∨
      ∃ id c, resolve repo.files head = .ok (some id) ∧ Commit.read repo.objects id = .ok c ∧
        flattenTree repo.objects c.tree = some (.ok files))

/-- Every object is stored under its hash. -/
def Hashed (hashBytes : Hash) (s : Store) : Prop :=
  ∀ id o, s.get? id = some o → hashBytes (buildRaw o.kind o.payload) = id

variable {hashBytes : Hash} {s : Store} {entry : UInt32 × ObjectId} {n : Node}

/-- What is written for an entry shows it. -/
lemma shows_of_entryNode (h : entryNode s entry.1 entry.2 = some n) : Shows s entry n := by
  obtain ⟨bytes, hbytes, h⟩ := Option.bind_eq_some_iff.mp h
  rw [toOption_eq_some] at hbytes
  split_ifs at h with hmode hexec
  · obtain ⟨target, hdecode, h⟩ := Option.bind_eq_some_iff.mp h
    split_ifs at h
    cases h
    exact ⟨hmode, hbytes.trans (by rw [Utf8.decode_eq_some.mp hdecode])⟩
  · cases h
    exact ⟨hmode, hbytes, iff_of_true hexec (by decide)⟩
  · cases h
    exact ⟨hmode, hbytes, iff_of_false hexec (by decide)⟩

lemma Shows.ne_dir (h : Shows s entry n) : n ≠ .dir := by
  rintro rfl
  exact h

/-- The content of a readable blob has its identifier. -/
lemma Hashed.of_read (h : Hashed hashBytes s) {id : ObjectId} {bytes : Bytes}
    (hread : Blob.read s id = .ok bytes) : hashBytes (buildRaw .blob bytes) = id := by
  obtain ⟨obj, hobj, hread⟩ := bind_eq_ok.mp hread
  obtain ⟨hkind, hpayload⟩ := check_bind_eq_ok.mp hread
  rw [ensure_eq_ok] at hkind
  cases hpayload
  rw [← hkind]
  exact h id obj (Store.read_eq_ok.mp hobj)

end Clean

/-! ## The check for conflicts -/

section Conflicts

variable {hashBytes : Hash} {disk : Disk} {t : FileTree Str} {path : RelPath}
  {entry : UInt32 × ObjectId}

/-- What the check reads at a path, according to a mode. -/
def content (disk : Disk) (t : FileTree Str) (path : RelPath) (mode : UInt32) : Option Bytes :=
  if mode = modeSymlink then
    match disk.lstat t path with
    | some (.link target) => some (Utf8.encode target)
    | some .dir | some (.file _ _) | none => none
  else
    match (disk.find t path).bind fun (q, _) => disk.readable t q with
    | some (.file bytes _) => some bytes
    | some .dir | some (.link _) | none => none

lemma hashWorkdirFile_eq_ok {mode : UInt32} {id : ObjectId} :
    hashWorkdirFile hashBytes disk.lookOs path mode t = .ok id ↔
      (content disk t path mode).map (fun bytes => hashBytes (buildRaw .blob bytes)) = some id := by
  unfold hashWorkdirFile content hashBlob
  split_ifs
  · simp only [lookOs]
    rcases disk.lstat t path with _ | _ | _ | _ <;> simp [Except.mapError]
  · simp only [lookOs]
    rcases (disk.find t path).bind fun (q, _) => disk.readable t q with _ | _ | _ | _ <;>
      simp [Except.mapError]

lemma differs_eq_ok_false : differs hashBytes disk.lookOs t path entry = .ok false ↔
    (content disk t path entry.1).map (fun bytes => hashBytes (buildRaw .blob bytes)) =
      some entry.2 := by
  rw [← hashWorkdirFile_eq_ok, differs, bind_eq_ok]
  constructor
  · rintro ⟨actual, hactual, heq⟩
    have heq : decide (actual ≠ entry.2) = false := Except.ok.inj heq
    rw [decide_eq_false_iff_not, not_not] at heq
    exact heq ▸ hactual
  · intro h
    refine ⟨_, h, ?_⟩
    simp [pure, Except.pure]

/-- The check reads the file that is in the working tree, if that may be read. -/
lemma content_of_shows (disk : Disk) {s : Store} {n : Node} (hinside : Inside path)
    (hnode : t.node path = some n) (hshows : Shows s entry n) :
    ∃ bytes, Blob.read s entry.2 = .ok bytes ∧ content disk t path entry.1 =
      if entry.1 ≠ modeSymlink ∧ disk.unreadable (disk.workdir ++ path) then none
      else some bytes := by
  unfold content
  cases n with
  | dir => exact hshows.elim
  | link target =>
    refine ⟨_, hshows.2, ?_⟩
    rw [if_pos hshows.1, lstat_of_node hinside hnode, if_neg fun h => h.1 hshows.1]
  | file bytes perm =>
    refine ⟨_, hshows.2.1, ?_⟩
    rw [if_neg hshows.1, find_of_node hinside (.inr ⟨_, _, hnode⟩), Option.bind_some]
    have hregular : entry.1 ≠ modeSymlink := hshows.1
    simp only [readable, node_append hinside, hnode, ne_eq, hregular, not_false_eq_true, true_and]
    split_ifs <;> rfl

/-- A file that shows an entry does not differ from it, if it may be read. -/
lemma differs_of_shows {s : Store} {n : Node} (hhashed : Hashed hashBytes s)
    (hinside : Inside path) (hnode : t.node path = some n) (hshows : Shows s entry n) :
    differs hashBytes disk.lookOs t path entry = .ok false ↔
      (entry.1 ≠ modeSymlink → disk.unreadable (disk.workdir ++ path) = false) := by
  obtain ⟨bytes, hread, hcontent⟩ := content_of_shows disk hinside hnode hshows
  rw [differs_eq_ok_false, hcontent]
  split_ifs with hrefused
  · exact iff_of_false (by simp) fun h => Bool.eq_false_iff.mp (h hrefused.1) hrefused.2
  · rw [not_and, Bool.not_eq_true] at hrefused
    exact iff_of_true (by rw [Option.map_some, hhashed.of_read hread]) hrefused

/-- A loop over files finds no conflict exactly if no file has one. -/
lemma collect_eq_ok_nil {check : TreeFile → Result Bool}
    {found : List RelPath} {files : List TreeFile} :
    collect check found files = .ok [] ↔ found = [] ∧ ∀ f ∈ files, check f = .ok false := by
  unfold collect
  induction files generalizing found with
  | nil => simp [pure, Except.pure]
  | cons f files ih =>
    rw [foldlM_cons, bind_eq_ok, forall_mem_cons]
    constructor
    · rintro ⟨found', hstep, hrest⟩
      obtain ⟨conflict, hcheck, hfound⟩ := bind_eq_ok.mp hstep
      obtain ⟨rfl, hfiles⟩ := ih.mp hrest
      have hfound : (if conflict then found ++ [f.1] else found) = [] := Except.ok.inj hfound
      split_ifs at hfound with hconflict
      · simp at hfound
      · rw [Bool.eq_false_iff.mpr hconflict] at hcheck
        exact ⟨hfound, hcheck, hfiles⟩
    · rintro ⟨rfl, hcheck, hfiles⟩
      exact ⟨[], bind_eq_ok.mpr ⟨false, hcheck, rfl⟩, ih.mpr ⟨rfl, hfiles⟩⟩

lemma mem_byText {files : FileMap} {f : TreeFile} :
    f ∈ byText files ↔ f ∈ files.toList :=
  (perm_insertionSort _ files.toList).mem_iff

/-- Nothing is in the way of the files that are new in a branch: where they belong nothing is found,
or through a symbolic link a file that could not be told from the new one. -/
def Clear (hashBytes : Hash) (disk : Disk) (t : FileTree Str)
    (headFiles targetFiles : FileMap) : Prop :=
  ∀ f ∈ targetFiles.toList, f.1 ∉ headFiles →
    disk.find t f.1 = none ∧ disk.lstat t f.1 = none ∨
      (content disk t f.1 f.2.1).map (fun bytes => hashBytes (buildRaw .blob bytes)) = some f.2.2

instance (headFiles targetFiles : FileMap) :
    Decidable (Clear hashBytes disk t headFiles targetFiles) :=
  inferInstanceAs (Decidable (∀ _ ∈ _, _ → _))

/-- The regular files of `HEAD` may be read. -/
def Readable (disk : Disk) (headFiles : FileMap) : Prop :=
  ∀ f ∈ headFiles.toList, f.2.1 ≠ modeSymlink → disk.unreadable (disk.workdir ++ f.1) = false

lemma isThere_eq_false : isThere disk.lookOs path t = false ↔
    disk.find t path = none ∧ disk.lstat t path = none := by simp [isThere, lookOs]

variable {repo : TreeRepo} {headFiles targetFiles : FileMap} {idx : Index}

/-- The index of a clean state has no other files than `HEAD`. -/
lemma find_eq_none (hindex : ∀ f, f ∈ headFiles.toList ↔
      ∃ e ∈ idx.entries, (e.path, e.mode, e.hash) = f)
    (hvalid : ∀ f ∈ headFiles.toList, ValidPath f.1) (hpath : ValidPath path)
    (hnot : path ∉ headFiles) : idx.find path = none := by
  rw [Index.find, find?_eq_none]
  intro e he hsame
  have hmem := (hindex _).mpr ⟨e, he, rfl⟩
  have heq : e.path = path := pathStorageBytes_inj (hvalid _ hmem) hpath (beq_iff_eq.mp hsame)
  exact hnot (mem_paths.mp ⟨_, hmem, heq⟩)

lemma inside_of_validPath (h : ValidPath path) : Inside path := by
  rcases path with _ | ⟨name, rest⟩
  · exact nofun
  · intro hname
    have hcomp := (h.2 name mem_cons_self).ne_gyt
    rw [Option.some.inj hname] at hcomp
    exact hcomp (by decide)

/-- From a clean state there are no conflicts exactly if the files can be read and nothing is in the
way. -/
lemma conflicts_eq_ok_nil (disk : Disk) (hhashed : Hashed hashBytes repo.objects)
    (hclean : Clean repo headFiles) (hindex : Index.read repo.files indexPath = .ok idx)
    (hheadValid : ∀ f ∈ headFiles.toList, ValidPath f.1)
    (htargetValid : ∀ f ∈ targetFiles.toList, ValidPath f.1) :
    conflicts hashBytes disk.lookOs repo.workdir headFiles targetFiles idx = .ok [] ↔
      Readable disk headFiles ∧ Clear hashBytes disk repo.workdir headFiles targetFiles := by
  obtain ⟨idx', hidx', hentries⟩ := hclean.index
  cases hindex.symm.trans hidx'
  have htracked : ∀ f ∈ headFiles.toList, isThere disk.lookOs f.1 repo.workdir = true ∧
      (differs hashBytes disk.lookOs repo.workdir f.1 f.2 = .ok false ↔
        (f.2.1 ≠ modeSymlink → disk.unreadable (disk.workdir ++ f.1) = false)) := by
    intro f hf
    obtain ⟨n, hnode, hshows⟩ := hclean.tracked f hf
    have hinside := inside_of_validPath (hheadValid f hf)
    refine ⟨?_, differs_of_shows hhashed hinside hnode hshows⟩
    simp [isThere, lookOs, lstat_of_node hinside hnode]
  have htarget : ∀ f ∈ targetFiles.toList, f.1 ∉ headFiles →
      (targetConflict hashBytes disk.lookOs repo.workdir headFiles idx f = .ok false ↔
        disk.find repo.workdir f.1 = none ∧ disk.lstat repo.workdir f.1 = none ∨
          (content disk repo.workdir f.1 f.2.1).map
          (fun bytes => hashBytes (buildRaw .blob bytes)) =
            some f.2.2) := by
    intro f hf hmem
    unfold targetConflict
    rw [Std.TreeMap.getElem?_eq_none hmem, ← isThere_eq_false, ← differs_eq_ok_false]
    simp only [find_eq_none hentries hheadValid (htargetValid f hf) hmem, Option.isSome_none,
      Bool.false_eq_true, if_false]
    cases isThere disk.lookOs f.1 repo.workdir <;> simp
  -- A file that both have is compared with the entry of `HEAD`.
  have hboth : ∀ f ∈ targetFiles.toList, ∀ want, headFiles[f.1]? = some want →
      targetConflict hashBytes disk.lookOs repo.workdir headFiles idx f =
        differs hashBytes disk.lookOs repo.workdir f.1 want := by
    intro f _ want hget
    have hmem : (f.1, want) ∈ headFiles.toList :=
      Std.TreeMap.mem_toList_iff_getElem?_eq_some.mpr hget
    unfold targetConflict
    rw [if_pos (htracked _ hmem).1, hget]
  have hhead : ∀ f ∈ headFiles.toList, f.1 ∉ targetFiles →
      headConflict hashBytes disk.lookOs repo.workdir targetFiles f =
        differs hashBytes disk.lookOs repo.workdir f.1 f.2 := fun f hf hnot =>
    if_pos ⟨hnot, (htracked f hf).1⟩
  rw [conflicts, bind_eq_ok]
  constructor
  · rintro ⟨found, hfound, hcollect⟩
    obtain ⟨rfl, hheads⟩ := collect_eq_ok_nil.mp hcollect
    have htargets := (collect_eq_ok_nil.mp hfound).2
    refine ⟨fun f hf => (htracked f hf).2.mp ?_, fun f hf hnot =>
      (htarget f hf hnot).mp (htargets f (mem_byText.mpr hf))⟩
    by_cases hmem : f.1 ∈ targetFiles
    · obtain ⟨g, hg, hgf⟩ := mem_paths.mpr hmem
      have hget := Std.TreeMap.mem_toList_iff_getElem?_eq_some.mp hf
      rw [← hgf] at hget ⊢
      rw [← hboth g hg f.2 hget]
      exact htargets g (mem_byText.mpr hg)
    · rw [← hhead f hf hmem]
      exact hheads f (mem_byText.mpr hf)
  · rintro ⟨hreadable, hclear⟩
    refine ⟨[], collect_eq_ok_nil.mpr ⟨rfl, fun f hf => ?_⟩,
      collect_eq_ok_nil.mpr ⟨rfl, fun f hf => ?_⟩⟩
    · rw [mem_byText] at hf
      by_cases hmem : f.1 ∈ headFiles
      · have hget := Std.TreeMap.getElem?_eq_some_getElem hmem
        have hentry := Std.TreeMap.mem_toList_iff_getElem?_eq_some.mpr hget
        rw [hboth f hf _ hget]
        exact (htracked _ hentry).2.mpr (hreadable _ hentry)
      · exact (htarget f hf hmem).mpr (hclear f hf hmem)
    · rw [mem_byText] at hf
      by_cases hmem : f.1 ∈ targetFiles
      · exact if_neg fun h => h.1 hmem
      · rw [hhead f hf hmem]
        exact (htracked f hf).2.mpr (hreadable f hf)

end Conflicts

/-! ## Replacing the files -/

section Materialize

variable {hashBytes : Hash} {disk : Disk} {mount : Mount} {refName : Str} {repo : TreeRepo}
  {headFiles targetFiles : FileMap}

/-- Where nothing is in the way there is no directory. -/
lemma Clear.ne_dir (h : Clear hashBytes disk repo.workdir headFiles targetFiles)
    (hclean : Clean repo headFiles) {f : TreeFile} (hf : f ∈ targetFiles.toList)
    (hinside : Inside f.1) : repo.workdir.node f.1 ≠ some .dir := by
  intro hdir
  by_cases hmem : f.1 ∈ headFiles
  · obtain ⟨g, hg, hgf⟩ := mem_paths.mpr hmem
    obtain ⟨n, hnode, hshows⟩ := hclean.tracked g hg
    rw [hgf, hdir] at hnode
    exact hshows.ne_dir (Option.some.inj hnode).symm
  · have hfind : disk.find repo.workdir f.1 = some (disk.workdir ++ f.1, disk.links) :=
      find_of_node hinside (.inl hdir)
    have hcontent : content disk repo.workdir f.1 f.2.1 = none := by
      unfold content
      split_ifs
      · rw [lstat_of_node hinside hdir]
      · rw [hfind, Option.bind_some]
        simp only [readable, node_append hinside, hdir]
        split_ifs <;> rfl
    rcases h f hf hmem with hnone | hsame
    · cases hfind.symm.trans hnone.1
    · rw [hcontent] at hsame
      cases hsame

/-- If `HEAD` has no symbolic links, only directories can be in the way. -/
lemma clear_iff_of_no_links (hclean : Clean repo headFiles)
    (hvalid : ∀ f ∈ targetFiles.toList, ValidPath f.1)
    (hlinks : ∀ f ∈ headFiles.toList, f.2.1 ≠ modeSymlink) :
    Clear hashBytes disk repo.workdir headFiles targetFiles ↔
      ∀ f ∈ targetFiles.toList, repo.workdir.node f.1 ≠ some .dir := by
  have hnolinks : ∀ q target, repo.workdir.node q ≠ some (.link target) := by
    intro q target hnode
    obtain ⟨f, hf, rfl⟩ := mem_paths.mpr (hclean.only q _ hnode nofun)
    obtain ⟨n, hn, hshows⟩ := hclean.tracked f hf
    cases hnode.symm.trans hn
    exact hlinks f hf hshows.1
  constructor
  · intro hclear f hf
    exact hclear.ne_dir hclean hf (inside_of_validPath (hvalid f hf))
  · intro hdirs f hf hnot
    have hnone : repo.workdir.node f.1 = none := by
      by_contra hsome
      obtain ⟨n, hn⟩ := Option.ne_none_iff_exists'.mp hsome
      refine hnot (hclean.only f.1 n hn ?_)
      rintro rfl
      exact hdirs f hf hn
    have hinside := inside_of_validPath (hvalid f hf)
    exact .inl ⟨find_of_no_links hinside hnolinks hnone, lstat_of_no_links hinside hnolinks hnone⟩

/-- The paths of the files of `HEAD`, as they are removed. -/
lemma mem_headPaths {q : RelPath} :
    q ∈ ((byText headFiles).map indexEntry).map (·.path) ↔ q ∈ headFiles := by
  rw [map_map, mem_map, ← mem_paths]
  exact exists_congr fun f => and_congr_left' mem_byText

/-- No change is refused that replaces the files of `HEAD`. -/
structure Permits (mount : Mount) (t : FileTree Str) (headFiles targetFiles : FileMap) : Prop where
  write : ∀ f ∈ targetFiles.toList, ∀ q, q <+: f.1 → t.node q ≠ some .dir →
    mount.refuses q = false
  remove : ∀ f ∈ headFiles.toList, f.1 ∉ targetFiles → mount.refuses f.1 = false

lemma nodup_byText (files : FileMap) : ((byText files).map (·.1)).Nodup :=
  ((perm_insertionSort _ files.toList).map _).nodup_iff.mpr (nodup_paths files)

section

variable (h : Clear hashBytes disk repo.workdir headFiles targetFiles)
  (hclean : Clean repo headFiles) (htarget : PrefixFree targetFiles)
  (hvalid : ∀ f ∈ targetFiles.toList, ValidPath f.1)
  (hnodes : ∀ f ∈ targetFiles.toList, (entryNode repo.objects f.2.1 f.2.2).isSome)

include h hclean htarget hvalid hnodes

/-- From a clean state the files of a tree can be written over those of `HEAD` exactly if that is
not refused. -/
lemma Clear.applies_iff (mount : Mount) :
    Applies mount repo.objects repo.workdir ⟨(byText headFiles).map indexEntry⟩ targetFiles ↔
      ∀ f ∈ targetFiles.toList, ∀ q, q <+: f.1 → repo.workdir.node q ≠ some .dir →
        mount.refuses q = false := by
  have hleaf : ∀ f ∈ targetFiles.toList, repo.workdir.node f.1 ≠ some .dir := fun f hf =>
    h.ne_dir hclean hf (inside_of_validPath (hvalid f hf))
  constructor
  · intro happlies f hf q hq hdir
    by_cases hne : q = f.1
    · exact hne ▸ happlies.free f hf
    · exact ((happlies.above f hf q hq hne).resolve_left hdir).2
  · intro hfree
    refine ⟨fun f hf q hq hne => ?_, hleaf, fun f hf => hfree f hf f.1 (prefix_refl _) (hleaf f hf),
      hnodes, fun f hf g hg hpre => ?_⟩
    · by_cases hdir : repo.workdir.node q = some .dir
      · exact .inl hdir
      · refine .inr ⟨?_, hfree f hf q hq hdir⟩
        cases hnode : repo.workdir.node q with
        | none => exact .inl rfl
        | some n =>
          refine .inr (mem_headPaths.mpr (hclean.only q n hnode ?_))
          rintro rfl
          exact hdir hnode
    · exact htarget _ (mem_paths.mp ⟨f, hf, rfl⟩) _ (mem_paths.mp ⟨g, hg, rfl⟩) hpre

/-- From a clean state with nothing in the way, the working tree is brought to the files of a tree
exactly if no change is refused. -/
lemma writeFiles_of_clear (mount : Mount) :
    ∃ r t, (do
        ((byText headFiles).map indexEntry).forM (removeStale (treeOs mount) targetFiles)
        (byText targetFiles).forM (writeFile (treeOs mount)) : Cmd (FileTree Str) Unit).run repo =
          some (r, withTree repo t) ∧
      (r = .ok () ∧ (∀ path n, t.node path = some n → n ≠ .dir → path ∈ targetFiles) ↔
        Permits mount repo.workdir headFiles targetFiles) ∧
      (r = .ok () → ∀ f ∈ targetFiles.toList, ∃ n, t.node f.1 = some n ∧
        Shows repo.objects f.2 n) := by
  obtain ⟨t₁, hremove, hnode₁⟩ :=
    removeStales_run repo mount targetFiles ((byText headFiles).map indexEntry)
  obtain ⟨r, t, hwrite, hok, hwritten⟩ :=
    writeFiles_run (withTree repo t₁) mount (nodup_byText targetFiles)
  have hfits : Fits mount repo.objects t₁ (byText targetFiles) ↔
      Fits mount repo.objects t₁ targetFiles.toList := by
    constructor <;> intro hfits
    · exact ⟨fun f hf => hfits.canEnter f (mem_byText.mpr hf),
        fun f hf => hfits.hasNode f (mem_byText.mpr hf),
        fun f hf g hg => hfits.apart f (mem_byText.mpr hf) g (mem_byText.mpr hg)⟩
    · exact ⟨fun f hf => hfits.canEnter f (mem_byText.mp hf),
        fun f hf => hfits.hasNode f (mem_byText.mp hf),
        fun f hf g hg => hfits.apart f (mem_byText.mp hf) g (mem_byText.mp hg)⟩
  have happlies := hok.trans (hfits.trans (fits_iff_applies hnode₁))
  have hiff := happlies.trans (h.applies_iff hclean htarget hvalid hnodes mount)
  -- What is at the path of no file of the branch.
  have hother : r = .ok () → ∀ q ∉ targetFiles,
      t.node q = if ∃ f ∈ byText targetFiles, q <+: f.1 then some .dir else t₁.node q :=
    fun hr q hq => (hwritten hr).other q fun f hf heq =>
      hq (mem_paths.mp ⟨f, mem_byText.mp hf, heq.symm⟩)
  refine ⟨r, t, (run_bind_of_ok hremove).trans hwrite, ⟨fun ⟨hr, honly⟩ => ⟨hiff.mp hr,
    fun f hf hnot => ?_⟩, fun hpermits => ⟨hiff.mpr hpermits.write, fun path n hn hne => ?_⟩⟩,
    fun hr f hf => ?_⟩
  · obtain ⟨n, hn, hshows⟩ := hclean.tracked f hf
    by_cases hbelow : ∃ g ∈ byText targetFiles, f.1 <+: g.1
    · obtain ⟨g, hg, hpre⟩ := hbelow
      refine hiff.mp hr g (mem_byText.mp hg) f.1 hpre fun hdir => ?_
      exact hshows.ne_dir (Option.some.inj (hn.symm.trans hdir))
    · by_contra hrefused
      have hnode := hother hr f.1 hnot
      rw [if_neg hbelow, hnode₁, if_neg fun hstale => hrefused hstale.2.2.1] at hnode
      exact hnot (honly f.1 n (hnode.trans hn) hshows.ne_dir)
  · by_contra hnot
    have hnode := hother (hiff.mpr hpermits.write) path hnot
    rw [hn] at hnode
    split_ifs at hnode with hbelow
    · exact hne (Option.some.inj hnode)
    · -- A file that was there before was one of `HEAD`, and has been removed.
      rw [hnode₁] at hnode
      split_ifs at hnode with hstale
      have hmem := hclean.only path n hnode.symm hne
      obtain ⟨f, hf, rfl⟩ := mem_paths.mpr hmem
      refine hstale ⟨mem_headPaths.mpr hmem, hnot, hpermits.remove f hf hnot, fun hdir => ?_⟩
      exact hne (Option.some.inj (hnode.trans hdir))
  · obtain ⟨n, hn⟩ := Option.isSome_iff_exists.mp (hnodes f hf)
    exact ⟨n, ((hwritten hr).entry f (mem_byText.mpr hf)).trans hn, shows_of_entryNode hn⟩

end

/-- From a clean state with nothing in the way, the files are replaced exactly if no change is
refused and the new index can be written. -/
lemma materialize_run (mount : Mount) {id : ObjectId} {head : Head}
    (h : Clear hashBytes disk repo.workdir headFiles targetFiles) (hclean : Clean repo headFiles)
    (htree : repo.files.IsTree) (hhead : readHead repo.files = .ok head)
    (hname : validateRefName refName = .ok ())
    (htarget : flattenTree repo.objects id = some (.ok targetFiles))
    (hnodes : ∀ f ∈ targetFiles.toList, (entryNode repo.objects f.2.1 f.2.2).isSome) :
    ∃ r repo', (materialize (treeOs mount) refName headFiles targetFiles).run repo =
        some (r, repo') ∧
      (r = .ok () ∧ Clean repo' targetFiles ↔ Permits mount repo.workdir headFiles targetFiles ∧
        ∃ bytes, (indexFromMap targetFiles).toBytes = .ok bytes) ∧
      (r = .ok () → repo'.files.get? headPath = some (headContent (.symbolic refName))) := by
  have hvalid := validPath_of_flattenTree htarget
  obtain ⟨r, t, hfiles, honly, htracked⟩ :=
    writeFiles_of_clear h hclean (prefixFree_flattenTree htarget) hvalid hnodes mount
  obtain ⟨idx, hidx, -⟩ := hclean.index
  have hmaterialize : (materialize (treeOs mount) refName headFiles targetFiles).run repo = (do
        (do
          ((byText headFiles).map indexEntry).forM (removeStale (treeOs mount) targetFiles)
          (byText targetFiles).forM (writeFile (treeOs mount)))
        writeIndexFromMap targetFiles
        let _ ← readFiles readHead
        writeHead (.symbolic refName) : Cmd (FileTree Str) Unit).run repo := by
    rw [bind_assoc]
    rfl
  rw [hmaterialize]
  cases r with
  | error e =>
    refine ⟨.error e, _, run_bind_of_error hfiles, iff_of_false (by simp) fun hcan => ?_, by simp⟩
    cases (honly.mpr hcan.1).1
  | ok u =>
    rw [run_bind_of_ok hfiles]
    unfold writeIndexFromMap
    cases hbytes : (indexFromMap targetFiles).toBytes with
    | error e =>
      refine ⟨.error e, _, rfl, iff_of_false (by simp) ?_, by simp⟩
      rintro ⟨-, _, ⟨⟩⟩
    | ok bytes =>
      have hwrite : (withTree repo t).files.canWrite indexPath = true :=
        canWrite_indexPath htree hidx
      have hhead' : readHead (repo.files.set indexPath bytes) = .ok head :=
        readHead_congr (RefFiles.get?_set_of_ne (by decide)) hhead
      have hsome : ((repo.files.set indexPath bytes).get? headPath).isSome := by
        obtain ⟨content, hcontent⟩ := get?_of_readHead hhead'
        exact hcontent ▸ rfl
      have hwriteHead : ({ withTree repo t with files := repo.files.set indexPath bytes } :
          TreeRepo).files.canWrite headPath = true := (htree.set hwrite bytes).canWrite hsome
      refine ⟨.ok (), { withTree repo t with
        files := (repo.files.set indexPath bytes).set headPath (headContent (.symbolic refName)) },
        ?_, ⟨fun hdone => ⟨honly.mp ⟨rfl, hdone.2.only⟩, bytes, rfl⟩, fun hcan => ⟨rfl, ?_,
          htracked rfl, (honly.mpr hcan.1).2⟩⟩, fun _ => RefFiles.get?_set_self⟩
      · rw [run_bind_of_ok (run_lift_ok_bind.trans (run_atomicWrite hwrite)),
          run_bind_of_ok (readFiles_eq_ok.mpr ⟨hhead', rfl⟩)]
        show (do lift (validateRefName refName); atomicWrite headPath _).run _ = _
        rw [hname, run_lift_ok_bind]
        exact run_atomicWrite hwriteHead
      · rw [read_set (by decide) (RefFiles.isDir_of_isBelow hsome)]
        exact read_indexFromMap hvalid hbytes repo.files

end Materialize

/-! ## The whole command -/

section Command

variable {hashBytes : Hash} {disk : Disk} {branch name : Str} {repo : TreeRepo}
  {fs : RefFiles} {headFiles targetFiles : FileMap} {targetId : ObjectId} {c : Commit}

/-- `HEAD` names the branch that was written to it, unless the name has blanks around it. -/
lemma readHead_eq_symbolic_iff (hname : validateRefName name = .ok ())
    (h : fs.get? headPath = some (headContent (.symbolic name))) :
    readHead fs = .ok (.symbolic name) ↔ trim name = name := by
  rw [readHead_of_symbolic hname h]
  constructor
  · intro hread
    cases hvalid : validateRefName (trim name) with
    | error e =>
      rw [hvalid] at hread
      cases hread
    | ok u =>
      rw [hvalid] at hread
      exact Head.symbolic.inj (Except.ok.inj hread)
  · intro htrim
    rw [htrim, hname]
    rfl

lemma validPath_of_headFiles (h : HeadFiles repo headFiles) :
    ∀ f ∈ headFiles.toList, ValidPath f.1 := by
  obtain ⟨head, -, ⟨-, rfl⟩ | ⟨id, c, -, -, hfiles⟩⟩ := h
  · simp
  · exact validPath_of_flattenTree hfiles

/-- The files of `HEAD` are found. -/
lemma run_currentFiles (h : HeadFiles repo headFiles) :
    (currentFiles : Cmd (FileTree Str) FileMap).run repo = some (.ok headFiles, repo) := by
  obtain ⟨head, hhead, ⟨hnone, rfl⟩ | ⟨id, c, hid, hc, hfiles⟩⟩ := h
  · unfold currentFiles
    rw [run_bind_of_ok (readFiles_eq_ok.mpr ⟨hhead, rfl⟩),
      run_bind_of_ok (readFiles_eq_ok.mpr ⟨hnone, rfl⟩)]
    rfl
  · unfold currentFiles
    rw [run_bind_of_ok (readFiles_eq_ok.mpr ⟨hhead, rfl⟩),
      run_bind_of_ok (readFiles_eq_ok.mpr ⟨hid, rfl⟩)]
    show (readObjects (Commit.read · id) >>= _).run repo = _
    rw [run_bind_of_ok (readObjects_eq_ok.mpr ⟨hc, rfl⟩)]
    exact walkObjects_eq_ok.mpr ⟨hfiles, rfl⟩

/-- A switch from a clean state to a branch of which everything can be read succeeds, and leaves a
clean state with `HEAD` at the branch, exactly if the files of `HEAD` may be read, nothing is in the
way of the new files, no change is refused, the new index can be written and the name of the branch
has no blanks at its end. -/
theorem switchTo_iff (mount : Mount) (hhashed : Hashed hashBytes repo.objects)
    (htree : repo.files.IsTree) (hhead : HeadFiles repo headFiles) (hclean : Clean repo headFiles)
    (hbranch : readRef repo.files ("refs/heads/" ++ branch) = .ok targetId)
    (hcommit : Commit.read repo.objects targetId = .ok c)
    (htarget : flattenTree repo.objects c.tree = some (.ok targetFiles))
    (hnodes : ∀ f ∈ targetFiles.toList, (entryNode repo.objects f.2.1 f.2.2).isSome) :
    (∃ repo', (switchTo hashBytes (treeOs mount) disk.lookOs branch).run repo =
        some (.ok (), repo') ∧ Clean repo' targetFiles ∧
        readHead repo'.files = .ok (.symbolic ("refs/heads/" ++ branch))) ↔
      Readable disk headFiles ∧ Clear hashBytes disk repo.workdir headFiles targetFiles ∧
        Permits mount repo.workdir headFiles targetFiles ∧
        (∃ bytes, (indexFromMap targetFiles).toBytes = .ok bytes) ∧
        trim ("refs/heads/" ++ branch) = "refs/heads/" ++ branch := by
  obtain ⟨idx, hidx, -⟩ := hclean.index
  obtain ⟨head, hread⟩ : ∃ head, readHead repo.files = .ok head := hhead.imp fun _ h => h.1
  have hname := validateRefName_of_refValue (refValue_eq_some.mpr hbranch)
  have hrun : (switchTo hashBytes (treeOs mount) disk.lookOs branch).run repo = (do
        let found ← lift (conflicts hashBytes disk.lookOs repo.workdir headFiles targetFiles idx)
        lift (ensure (found = []) (conflictError found))
        materialize (treeOs mount) ("refs/heads/" ++ branch) headFiles targetFiles :
          Cmd (FileTree Str) Unit).run repo := by
    unfold switchTo
    rw [run_bind_of_ok (readFiles_eq_ok.mpr ⟨hbranch, rfl⟩),
      run_bind_of_ok (readObjects_eq_ok.mpr ⟨hcommit, rfl⟩),
      run_bind_of_ok (walkObjects_eq_ok.mpr ⟨htarget, rfl⟩),
      run_bind_of_ok (run_currentFiles hhead),
      run_bind_of_ok (readFiles_eq_ok.mpr ⟨hidx, rfl⟩), run_gets_bind]
  rw [hrun]
  have hconflicts := conflicts_eq_ok_nil disk hhashed hclean hidx
    (validPath_of_headFiles hhead) (validPath_of_flattenTree htarget)
  constructor
  · rintro ⟨repo', hswitch, hclean', hsymbolic⟩
    obtain ⟨found, hfound, hswitch₁⟩ := lift_bind_eq_ok.mp hswitch
    obtain ⟨_, hnone, hswitch₂⟩ := lift_bind_eq_ok.mp hswitch₁
    rw [ensure_eq_ok.mp hnone] at hfound
    obtain ⟨hreadable, hclear⟩ := hconflicts.mp hfound
    obtain ⟨r, repo'', hmaterialize, hok, hdone⟩ :=
      materialize_run mount hclear hclean htree hread hname htarget hnodes
    cases hswitch₂.symm.trans hmaterialize
    obtain ⟨hpermits, hbytes⟩ := hok.mp ⟨rfl, hclean'⟩
    exact ⟨hreadable, hclear, hpermits, hbytes,
      (readHead_eq_symbolic_iff hname (hdone rfl)).mp hsymbolic⟩
  · rintro ⟨hreadable, hclear, hpermits, hbytes, htrim⟩
    obtain ⟨r, repo', hmaterialize, hok, hdone⟩ :=
      materialize_run mount hclear hclean htree hread hname htarget hnodes
    obtain ⟨rfl, hclean'⟩ := hok.mpr ⟨hpermits, hbytes⟩
    refine ⟨repo', ?_, hclean', (readHead_eq_symbolic_iff hname (hdone rfl)).mpr htrim⟩
    have hnone : ensure (([] : List RelPath) = []) (conflictError []) = .ok () :=
      ensure_eq_ok.mpr rfl
    rw [hconflicts.mpr ⟨hreadable, hclear⟩, run_lift_ok_bind, hnone, run_lift_ok_bind, hmaterialize]

end Command

/-! ## A file in place of a directory -/

section Sample

/-- A repository at a commit with a file in the directory `a`, and with a branch `next` that has a
file of the given name in place of it. -/
def sampleRepo (name : Bytes) : TreeRepo where
  objects := (FastForward.sampleRepo name).objects
  files := (FastForward.sampleRepo name).files.set "refs/heads/next"
    (refContent (sampleObjects name).2.2)
  workdir := (FastForward.sampleRepo name).workdir

/-- A disk with nothing but the working tree. -/
def sampleDisk : Disk := ⟨[], fun _ => none, 40, fun _ => false⟩

def sampleSwitch : Cmd (FileTree Str) Unit :=
  switchTo sampleHash (treeOs sampleMount) sampleDisk.lookOs "next"

lemma hashed_of_entries {hashBytes : Hash} {s : Store}
    (h : ∀ e ∈ s.entries, hashBytes (buildRaw e.2.kind e.2.payload) = e.1) : Hashed hashBytes s :=
  fun id o ho => h (id, o) (Store.mem_entries_of_get? ho)

/-- The working tree has a file in a directory. -/
lemma node_sample (name : Bytes) (q : RelPath) : (sampleRepo name).workdir.node q =
    if q = [['a'], ['b']] then some (.file [120] 0o644) else if q <+: [['a']] then some .dir
    else none := by
  have hdir : empty.createDirAll [['a']] = some (empty.mkdirs [['a']]) :=
    if_pos (by decide)
  have hnode : ∀ q : RelPath, ((empty.mkdirs [['a']]).node q) =
      if q <+: [['a']] then some .dir else none := by
    intro q
    rcases q with _ | ⟨name, q⟩
    · rfl
    · rfl
  obtain ⟨t, ht⟩ := Option.isSome_iff_exists.mp (place_isSome.mpr
    (show (empty.mkdirs [['a']]).node [['a']] = some .dir ∧
      (empty.mkdirs [['a']]).node [['a'], ['b']] ≠ some .dir by decide) :
    ((empty.mkdirs [['a']]).place [['a'], ['b']] (.file [120] 0o644)).isSome)
  have hwork : (sampleRepo name).workdir = t := by
    show ((empty.createDirAll [['a']]).bind (·.write [['a'], ['b']] [120])).getD .empty = t
    rw [hdir]
    show ((empty.mkdirs [['a']]).place [['a'], ['b']] (.file [120] 0o644)).getD .empty = t
    rw [ht]
    rfl
  rw [hwork, node_place ht, hnode]

/-- The file of the first commit. -/
def sampleOld : TreeFile :=
  ([['a'], ['b']], modeFile, (Blob.write sampleHash ⟨[]⟩ [120]).2)

/-- The first commit is checked out, without changes. -/
lemma clean_sample (name : Bytes) {files : FileMap} (hfiles : files.toList = [sampleOld])
    (hindex : Index.read (sampleRepo name).files indexPath = .ok ⟨[indexEntry sampleOld]⟩)
    (hread : Blob.read (sampleRepo name).objects sampleOld.2.2 = .ok [120]) :
    Clean (sampleRepo name) files := by
  refine ⟨⟨_, hindex, fun f => ?_⟩, fun f hf => ?_, fun path n hnode hne => ?_⟩
  · rw [hfiles]
    simp [indexEntry, eq_comm]
  · rw [hfiles, mem_singleton] at hf
    subst hf
    exact ⟨.file [120] 0o644, by rw [node_sample]; rfl, by decide, hread, by decide⟩
  · rw [node_sample] at hnode
    split_ifs at hnode with hpath
    · refine mem_paths.mp ⟨sampleOld, ?_, hpath.symm⟩
      rw [hfiles]
      exact mem_singleton_self _
    · exact absurd (Option.some.inj hnode).symm hne

lemma exists_headFiles (name : Bytes)
    (hhead : readHead (sampleRepo name).files = .ok (.symbolic "refs/heads/main"))
    (hid : resolve (sampleRepo name).files (.symbolic "refs/heads/main") =
      .ok (some (sampleObjects name).2.1))
    (h : (filesAt (sampleRepo name).objects (sampleObjects name).2.1).map (·.toList) =
      some [sampleOld]) :
        ∃ files, HeadFiles (sampleRepo name) files ∧ files.toList = [sampleOld] := by
  obtain ⟨c, files, hc, hfiles, hl⟩ := exists_of_filesAt h
  exact ⟨files, ⟨_, hhead, .inr ⟨_, c, hid, hc, hfiles⟩⟩, hl⟩

/-- From a clean state, a switch to a branch with a file in place of a directory fails. -/
theorem switch_file_over_directory : ∃ headFiles targetFiles c,
    Hashed sampleHash (sampleRepo [97]).objects ∧ (sampleRepo [97]).files.IsTree ∧
      HeadFiles (sampleRepo [97]) headFiles ∧ Clean (sampleRepo [97]) headFiles ∧
      readRef (sampleRepo [97]).files "refs/heads/next" = .ok (sampleObjects [97]).2.2 ∧
      Commit.read (sampleRepo [97]).objects (sampleObjects [97]).2.2 = .ok c ∧
      flattenTree (sampleRepo [97]).objects c.tree = some (.ok targetFiles) ∧
      (∀ f ∈ targetFiles.toList, (entryNode (sampleRepo [97]).objects f.2.1 f.2.2).isSome) ∧
      (sampleSwitch.run (sampleRepo [97])).map (·.1) = some (.error (.io .other)) := by
  obtain ⟨headFiles, hhead, hold⟩ :=
    exists_headFiles [97] (by decide +kernel) (by decide +kernel) (by decide +kernel)
  have hfiles : (filesAt (sampleRepo [97]).objects (sampleObjects [97]).2.2).map (·.toList) =
      some [([['a']], sampleOld.2)] := by decide +kernel
  obtain ⟨c, targetFiles, hc, htarget, hnew⟩ := exists_of_filesAt hfiles
  refine ⟨headFiles, targetFiles, c,
    hashed_of_entries (by decide +kernel), by decide +kernel, hhead,
    clean_sample _ hold (by decide +kernel) (by decide +kernel), by decide +kernel, hc, htarget, ?_,
    by decide +kernel⟩
  rw [hnew, forall_mem_singleton]
  decide +kernel

/-- A branch with a file of another name can be switched to. -/
theorem switch_new_file : ∃ targetFiles repo',
    targetFiles.toList = [sampleNew] ∧
      sampleSwitch.run (sampleRepo [99]) = some (.ok (), repo') ∧ Clean repo' targetFiles ∧
      readHead repo'.files = .ok (.symbolic ("refs/heads/" ++ "next")) := by
  obtain ⟨headFiles, hhead, hold⟩ :=
    exists_headFiles [99] (by decide +kernel) (by decide +kernel) (by decide +kernel)
  have hfiles : (filesAt (sampleRepo [99]).objects (sampleObjects [99]).2.2).map (·.toList) =
      some [sampleNew] := by decide +kernel
  obtain ⟨c, targetFiles, hc, htarget, hnew⟩ := exists_of_filesAt hfiles
  have hclean := clean_sample [99] hold (by decide +kernel) (by decide +kernel)
  have hclear : Clear sampleHash sampleDisk (sampleRepo [99]).workdir headFiles targetFiles := by
    rw [clear_iff_of_no_links hclean (validPath_of_flattenTree htarget), hnew,
      forall_mem_singleton, node_sample]
    · decide
    · rw [hold, forall_mem_singleton]
      decide
  have hbranch : readRef (sampleRepo [99]).files ("refs/heads/" ++ "next") =
      .ok (sampleObjects [99]).2.2 := by decide +kernel
  have hnodes : ∀ f ∈ targetFiles.toList,
      (entryNode (sampleRepo [99]).objects f.2.1 f.2.2).isSome := by
    rw [hnew, forall_mem_singleton]
    decide +kernel
  obtain ⟨repo', hrun⟩ := (switchTo_iff sampleMount (hashed_of_entries (by decide +kernel))
    (by decide +kernel) hhead hclean hbranch hc htarget hnodes).mpr
      ⟨fun _ _ _ => rfl, hclear, ⟨fun _ _ _ _ _ => rfl, fun _ _ _ => rfl⟩,
        exists_toBytes_sample hnew, by decide +kernel⟩
  unfold sampleSwitch
  exact ⟨targetFiles, repo', hnew, hrun⟩

end Sample

end Gyt.Switch
