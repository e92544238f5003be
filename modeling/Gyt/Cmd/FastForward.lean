import Gyt.Cmd.Pull
import Gyt.Cmd.WorkTree
import Gyt.IndexFile

/-!
# Fast-forwards that fail

A fast-forward moves the branch before it touches the working tree.  If the working tree cannot be
brought to the new tree, as when a directory is where the new tree has a file or when a file is
write-protected, the command returns an error and the branch has moved.  `fastForward_iff` says that
a fast-forward is safe exactly if the new tree can be written and the old files can be removed.
-/

namespace Gyt.FastForward

open List RefFiles Index Command Text WorkTree Merge

/-! ## The index of a tree -/

section Paths

variable {s : Store} {id : ObjectId} {path : RelPath} {files : FileMap}

lemma validComponent_of_entryName {bytes : Bytes} {name : Str}
    (h : Tree.validateEntryName bytes = .ok ()) (hname : Utf8.decode bytes = some name) :
    ValidComponent name := by
  obtain rfl := Utf8.decode_eq_some.mp hname
  simp only [Tree.validateEntryName, bind_eq_ok, ensure_eq_ok, forM_eq_ok] at h
  obtain ⟨_, hne, _, -, _, hdot, _, hgyt, hbytes⟩ := h
  -- A character of one byte would be among the bytes.
  have hchar : ∀ c ∈ name, ∀ b, String.utf8EncodeChar c = [b] →
      Tree.validateEntryByte b = .ok () := fun c hc b hb =>
    hbytes b (mem_flatMap.mpr ⟨c, hc, hb ▸ mem_singleton_self b⟩)
  refine ⟨?_, ⟨?_, ?_⟩, hgyt, fun hc => ?_, fun hc => ?_, fun hc => ?_⟩
  · rintro rfl
    exact hne rfl
  · rintro rfl
    exact hdot.1 (by decide)
  · rintro rfl
    exact hdot.2 (by decide)
  · exact absurd (hchar _ hc 0x2f (by decide)) (by decide)
  · exact absurd (hchar _ hc 0 (by decide)) (by decide)
  · exact absurd (hchar _ hc 0x5c (by decide)) (by decide)

lemma validEntryName_of_read {entries : List TreeEntry} (h : Tree.read s id = .ok entries)
    {e : TreeEntry} (he : e ∈ entries) : Tree.validateEntryName e.name = .ok () := by
  obtain ⟨obj, -, h⟩ := bind_eq_ok.mp h
  obtain ⟨-, hdecode⟩ := check_bind_eq_ok.mp h
  exact ((Tree.wellFormed_of_decode hdecode).valid e he).name

/-- The paths of a tree are such that an index with them can be read. -/
lemma validPath_of_inTree (h : InTree s id path) : ValidPath path := by
  induction h with
  | file hread he _ hname =>
    refine ⟨cons_ne_nil _ _, fun comp hcomp => ?_⟩
    rw [mem_singleton.mp hcomp]
    exact validComponent_of_entryName (validEntryName_of_read hread he) hname
  | dir hread he _ hname _ ih =>
    refine ⟨cons_ne_nil _ _, forall_mem_cons.mpr ⟨?_, ih.2⟩⟩
    exact validComponent_of_entryName (validEntryName_of_read hread he) hname

/-- The entry of the index for a file of a map. -/
def indexEntry (f : TreeFile) : IndexEntry := ⟨0, 0, 0, f.2.1, f.2.2, f.1⟩

lemma insertInto_of_forall_ne {entry : IndexEntry} {entries : List IndexEntry}
    (h : ∀ e ∈ entries, pathStorageBytes e.path ≠ pathStorageBytes entry.path) :
    insertInto entry entries = entries ++ [entry] := by
  induction entries with
  | nil => rfl
  | cons e entries ih =>
    obtain ⟨he, hentries⟩ := forall_mem_cons.mp h
    rw [insertInto, if_neg he, ih hentries]
    rfl

lemma pathStorageBytes_inj {path' : RelPath} (h : ValidPath path)
    (h' : ValidPath path') (heq : pathStorageBytes path = pathStorageBytes path') :
    path = path' := by
  rw [← split_pathToStorageString h, ← split_pathToStorageString h', Utf8.encode_injective heq]

/-- The index of a map with valid paths has an entry for every file. -/
lemma entries_indexFromMap (hvalid : ∀ f ∈ files.toList, ValidPath f.1) :
    (indexFromMap files).entries = files.toList.map indexEntry := by
  have hfold : ∀ l done : List TreeFile,
      (∀ f ∈ done ++ l, ValidPath f.1) → ((done ++ l).map (·.1)).Nodup →
      (l.foldl (fun (idx : Index) f => idx.insert (indexEntry f)) ⟨done.map indexEntry⟩).entries =
        (done ++ l).map indexEntry := by
    intro l
    induction l with
    | nil => simp
    | cons f l ih =>
      intro done hvalid hnodup
      have hfresh : ∀ e ∈ done.map indexEntry,
          pathStorageBytes e.path ≠ pathStorageBytes (indexEntry f).path := by
        intro e he heq
        obtain ⟨g, hg, rfl⟩ := mem_map.mp he
        have hpath : g.1 = f.1 := pathStorageBytes_inj (hvalid g (mem_append_left _ hg))
          (hvalid f (mem_append_right _ mem_cons_self)) heq
        rw [map_append, nodup_append] at hnodup
        exact hnodup.2.2 _ (mem_map_of_mem hg) _ mem_cons_self hpath
      have happend : done ++ f :: l = (done ++ [f]) ++ l := by simp
      rw [foldl_cons, Index.insert, insertInto_of_forall_ne hfresh]
      rw [happend] at hvalid hnodup ⊢
      have := ih (done ++ [f]) hvalid hnodup
      rwa [map_append] at this
  exact hfold files.toList [] hvalid (nodup_paths files)

/-- The index of a map with valid paths reads back with the files of the map. -/
lemma read_indexFromMap {bytes : Bytes} (hvalid : ∀ f ∈ files.toList, ValidPath f.1)
    (hbytes : (indexFromMap files).toBytes = .ok bytes) (fs : RefFiles) :
    ∃ idx, Index.read (fs.set indexPath bytes) indexPath = .ok idx ∧
      ∀ f, f ∈ files.toList ↔ ∃ e ∈ idx.entries, (e.path, e.mode, e.hash) = f := by
  have hentries := entries_indexFromMap hvalid
  refine ⟨⟨sorted (indexFromMap files).entries⟩, ?_, fun f => ?_⟩
  · rw [Index.read, get?_set_self]
    refine parse_toBytes (fun e he => ?_) hbytes
    rw [hentries] at he
    obtain ⟨f, hf, rfl⟩ := mem_map.mp he
    exact hvalid f hf
  · simp only [mem_sorted, hentries, mem_map, exists_exists_and_eq_and]
    exact ⟨fun hf => ⟨f, hf, rfl⟩, by rintro ⟨g, hg, rfl⟩; exact hg⟩

lemma validPath_of_flattenTree (h : flattenTree s id = some (.ok files)) :
    ∀ f ∈ files.toList, ValidPath f.1 := fun f hf =>
  validPath_of_inTree ((mem_flattenTree_iff h).mp (mem_paths.mp ⟨f, hf, rfl⟩))

end Paths

/-! ## Materializing a commit -/

section Materialize

variable {idx : Index} {files : FileMap} {commitId : ObjectId} {c : Commit}

/-- A path is gone: there is nothing, or a directory that a file of the map is in. -/
def Gone (t : FileTree Str) (files : FileMap) (path : RelPath) : Prop :=
  t.node path = none ∨ t.node path = some .dir ∧ ∃ f ∈ files.toList, path <+: f.1

/-- The index has exactly the files of a map, and the working tree has them with their contents and
modes. -/
structure HasFiles (repo : TreeRepo) (files : FileMap) : Prop where
  index : ∃ idx, Index.read repo.files indexPath = .ok idx ∧
    ∀ f, f ∈ files.toList ↔ ∃ e ∈ idx.entries, (e.path, e.mode, e.hash) = f
  tracked : ∀ f ∈ files.toList, ∃ n, entryNode repo.objects f.2.1 f.2.2 = some n ∧
    repo.workdir.node f.1 = some n

/-- The index and the working tree hold the files of a map, and the other files that were in the
index are gone. -/
structure Holds (repo : TreeRepo) (old : Index) (files : FileMap) : Prop extends
    HasFiles repo files where
  removed : ∀ path ∈ old.entries.map (·.path), path ∉ files → Gone repo.workdir files path

/-- The new files can be written over those of the index, and so can their index, and the files that
only the index has can be removed. -/
structure CanHold (mount : Mount) (repo : TreeRepo) (old : Index) (files : FileMap) : Prop where
  applies : Applies mount repo.objects repo.workdir old files
  removes : ∀ path ∈ old.entries.map (·.path), path ∉ files →
    Stale mount repo.workdir old files path ∨ Gone repo.workdir files path
  indexed : ∃ bytes, (indexFromMap files).toBytes = .ok bytes

/-- In a tree an index that can be read can be written. -/
lemma canWrite_indexPath {fs : RefFiles} (htree : fs.IsTree)
    (hidx : Index.read fs indexPath = .ok idx) : fs.canWrite indexPath = true := by
  cases hget : fs.get? indexPath with
  | some content => exact htree.canWrite (hget ▸ rfl)
  | none =>
    have hdir : fs.isDir indexPath = false := by
      rw [Index.read, hget] at hidx
      dsimp only at hidx
      split_ifs at hidx with hdir
      · exact Bool.eq_false_iff.mpr hdir
    have hthrough : ∀ f ∈ fs.files, isBelow indexPath f.1 = false := by
      intro f _
      rw [isBelow, Bool.eq_false_iff, Ne, isPrefixOf_iff_prefix]
      intro hpre
      have hmem : '/' ∈ indexPath := hpre.subset (by simp)
      exact absurd hmem (by decide)
    simpa [canWrite, hdir] using hthrough

lemma writeIndexFromMap_eq_ok {W : Type} {repo repo' : Repo W} {u : Unit}
    (h : (writeIndexFromMap files).run repo = some (.ok u, repo')) :
    ∃ bytes, (indexFromMap files).toBytes = .ok bytes ∧
      repo' = { repo with files := repo.files.set indexPath bytes } := by
  unfold writeIndexFromMap at h
  obtain ⟨bytes, hbytes, hwrite⟩ := lift_bind_eq_ok.mp h
  exact ⟨bytes, hbytes, atomicWrite_eq_ok hwrite⟩

variable {mount : Mount} {repo repo' : TreeRepo}
  (hcommit : Commit.read repo.objects commitId = .ok c)
  (hfiles : flattenTree repo.objects c.tree = some (.ok files))
  (hidx : Index.read repo.files indexPath = .ok idx)

include hcommit hfiles

lemma run_materializeCommit (mount : Mount) : (materializeCommit (treeOs mount) commitId).run repo =
      (do
        applyFilesToWorkdir (treeOs mount) files
        writeIndexFromMap files : Cmd _ Unit).run repo := by
  unfold materializeCommit materializeTree
  rw [run_bind_of_ok (run_readObjects.trans (by rw [hcommit])),
    run_bind_of_ok (walkObjects_eq_ok.mpr ⟨hfiles, rfl⟩)]

variable (repo)

include hidx

/-- Materializing a commit writes its files, and the other files of the index are gone exactly if
they could be removed. -/
lemma materializeCommit_eq_ok
    (h : (materializeCommit (treeOs mount) commitId).run repo = some (.ok (), repo')) :
    HasFiles repo' files ∧ Applies mount repo.objects repo.workdir idx files ∧
      (∃ bytes, (indexFromMap files).toBytes = .ok bytes ∧
        repo'.files = repo.files.set indexPath bytes) ∧
      ∀ q ∉ files, (Gone repo'.workdir files q ↔
        Stale mount repo.workdir idx files q ∨ Gone repo.workdir files q) := by
  rw [run_materializeCommit hcommit hfiles] at h
  obtain ⟨⟨⟩, repo₁, happlied, hwrite⟩ := seq_eq_ok.mp h
  obtain ⟨r, t₁, t, happly, hok, hstale, hwritten⟩ := applyFilesToWorkdir_run mount hidx files
  obtain ⟨rfl, rfl⟩ : r = .ok () ∧ withTree repo t = repo₁ := by
    simpa using happly.symm.trans happlied
  obtain ⟨bytes, hbytes, rfl⟩ := writeIndexFromMap_eq_ok hwrite
  have happlies := hok.mp rfl
  refine ⟨⟨?_, fun f hf => ?_⟩, happlies, ⟨bytes, hbytes, rfl⟩, fun q hq => ?_⟩
  · exact read_indexFromMap (validPath_of_flattenTree hfiles) hbytes _
  · obtain ⟨n, hn⟩ := Option.isSome_iff_exists.mp (happlies.hasNode f hf)
    exact ⟨n, hn, ((hwritten rfl).entry f hf).trans hn⟩
  · have hnode : t.node q = if ∃ f ∈ files.toList, q <+: f.1 then some .dir else t₁.node q :=
      (hwritten rfl).other q fun f hf heq => hq (mem_paths.mp ⟨f, hf, heq.symm⟩)
    unfold Gone
    show t.node q = none ∨ t.node q = some .dir ∧ _ ↔ _
    rw [hnode, hstale]
    by_cases hbelow : ∃ f ∈ files.toList, q <+: f.1
    · -- What was above a new file was no other file, unless it could be removed.
      obtain ⟨f, hf, hpre⟩ := hbelow
      have habove := happlies.above f hf q hpre fun heq => hq (mem_paths.mp ⟨f, hf, heq.symm⟩)
      rw [if_pos ⟨f, hf, hpre⟩]
      refine iff_of_true (.inr ⟨rfl, f, hf, hpre⟩) ?_
      by_cases hdir : repo.workdir.node q = some .dir
      · exact .inr (.inr ⟨hdir, f, hf, hpre⟩)
      · obtain ⟨hnone | htracked, hfree⟩ := habove.resolve_left hdir
        · exact .inr (.inl hnone)
        · exact .inl ⟨htracked, hq, hfree, hdir⟩
    · simp only [hbelow, if_false, and_false, or_false]
      split_ifs with hgone
      · exact iff_of_true rfl (.inl hgone)
      · exact (or_iff_right hgone).symm

/-- Materializing a commit succeeds and leaves its files exactly if they can be held. -/
lemma materializeCommit_run (mount : Mount) (htree : repo.files.IsTree) :
    ∃ r repo', (materializeCommit (treeOs mount) commitId).run repo = some (r, repo') ∧
      (r = .ok () ∧ Holds repo' idx files ↔ CanHold mount repo idx files) ∧
      (∀ e, r = .error e → repo'.files = repo.files) := by
  have hrun := run_materializeCommit hcommit hfiles mount
  obtain ⟨r, t₁, t, happly, hok, -⟩ := applyFilesToWorkdir_run mount hidx files
  cases r with
  | error e =>
    refine ⟨.error e, _, hrun.trans (run_bind_of_error happly), iff_of_false (by simp) fun h => ?_,
      fun _ _ => rfl⟩
    cases hok.mpr h.applies
  | ok u =>
    rw [run_bind_of_ok happly, writeIndexFromMap] at hrun
    cases hbytes : (indexFromMap files).toBytes with
    | error e =>
      rw [hbytes] at hrun
      refine ⟨.error e, _, hrun, iff_of_false (by simp) fun h => ?_, fun _ _ => rfl⟩
      obtain ⟨bytes, h⟩ := h.indexed
      cases hbytes.symm.trans h
    | ok bytes =>
      have hwrite : (withTree repo t).files.canWrite indexPath = true :=
        canWrite_indexPath htree hidx
      rw [hbytes, run_lift_ok_bind, run_atomicWrite hwrite] at hrun
      obtain ⟨hhas, happlies, -, hgone⟩ := materializeCommit_eq_ok repo hcommit hfiles hidx hrun
      refine ⟨.ok (), _, hrun, ⟨fun h => ⟨happlies, fun q hq hnot => ?_, bytes, hbytes⟩,
        fun h => ⟨rfl, hhas, fun q hq hnot => ?_⟩⟩, by simp⟩
      · exact (hgone q hnot).mp (h.2.removed q hq hnot)
      · exact (hgone q hnot).mpr (h.removes q hq hnot)

end Materialize

/-! ## Moving the branch -/

section Move

variable {W : Type} {repo : Repo W} {head : Head} {current target : ObjectId} {idx : Index}

/-- The branch, or a detached `HEAD`, is moved; the index stays. -/
lemma moveHead_run (htree : repo.files.IsTree) (hhead : readHead repo.files = .ok head)
    (hcurrent : resolve repo.files head = .ok (some current))
    (hidx : Index.read repo.files indexPath = .ok idx) (target : ObjectId) :
    ∃ fs, (moveHead target head).run repo = some (.ok (), { repo with files := fs }) ∧
      fs.IsTree ∧ headCommit fs = .ok target ∧ Index.read fs indexPath = .ok idx := by
  cases head with
  | symbolic name =>
    have hvalue := refValue_of_resolve hcurrent
    have hsome := get?_isSome_of_refValue hvalue
    have hname := validateRefName_of_refValue hvalue
    have hwrite := htree.canWrite hsome
    have hneHead : headPath ≠ name := by
      rintro rfl
      rw [refValue_headPath_of_symbolic hhead] at hvalue
      cases hvalue
    have hneIndex : indexPath ≠ name := by
      rintro rfl
      rw [refValue_of_read hidx] at hvalue
      cases hvalue
    refine ⟨repo.files.set name (refContent target), ?_, htree.set hwrite _, ?_, ?_⟩
    · show (writeRef name target).run repo = _
      rw [writeRef, hname, run_lift_ok_bind, run_atomicWrite hwrite]
    · have hread : readHead (repo.files.set name (refContent target)) = .ok (.symbolic name) :=
        readHead_congr (get?_set_of_ne hneHead) hhead
      rw [headCommit, hread, ok_bind, resolve_of_refValue (refValue_set_self hname)]
      rfl
    · rw [read_set hneIndex (isDir_of_isBelow hsome), hidx]
  | detached id =>
    obtain ⟨bytes, hbytes⟩ := get?_of_readHead hhead
    have hsome : (repo.files.get? headPath).isSome := hbytes ▸ rfl
    have hwrite := htree.canWrite hsome
    refine ⟨repo.files.set headPath (headContent (.detached target)), run_atomicWrite hwrite,
      htree.set hwrite _, ?_, ?_⟩
    · rw [headCommit, readHead_of_detached get?_set_self]
      rfl
    · rw [read_set (by decide) (isDir_of_isBelow hsome), hidx]

end Move

/-! ## The commands -/

section Command

variable (hashBytes : Hash) (mount : Mount) (fuel : ℕ) (env : Rebase.Env)

/-- The commands `merge` and `pull` with the commit that they are to merge and the state in which
the merge starts, which is for `pull` the one after its fetch. -/
inductive Starts (repo : TreeRepo) (target : ObjectId) :
    Cmd (FileTree Str) Unit → TreeRepo → Prop where
  | merge {ffOnly : Bool} {message : Option Str} {rev : Str}
      (hrev : resolveRev repo.objects repo.files rev = .ok target) :
      Starts repo target
        (Merge.runInInner hashBytes (treeOs mount) fuel env ffOnly false message rev) repo
  | pull {configEnv : Config.Environment} {connect : Str → Result Remote} {remote branch : Str}
      {insecure : Bool} {summary : FetchSummary} {start : TreeRepo}
      (hfetch : (fetchWithRefspecInner configEnv connect remote none insecure false).run repo =
        some (.ok summary, start))
      (hbranch : Pull.currentBranch start.files = .ok branch)
      (htracking : ∃ id, Pull.checkTracking remote branch start.files = .ok id)
      (hrev : resolveRev start.objects start.files (remote ++ '/' :: branch) = .ok target) :
      Starts repo target
        (Pull.runIn hashBytes (treeOs mount) fuel env configEnv connect remote insecure) start

/-- A commit is a proper descendant of another one. -/
structure Behind (s : Store) (current target : ObjectId) : Prop where
  ne : current ≠ target
  notAncestor : Merge.isAncestor s target current = false
  ancestor : Merge.isAncestor s current target = true

variable {hashBytes mount fuel env} {repo start : TreeRepo} {cmd : Cmd (FileTree Str) Unit}
  {current target : ObjectId} {head : Head} {idx : Index} {c : Commit} {files : FileMap}

section

variable (h : Starts hashBytes mount fuel env repo target cmd start)

include h

lemma Starts.keepsLocal : Pull.KeepsLocal repo start := by
  cases h with
  | merge _ => exact Std.Refl.refl repo
  | pull hfetch _ _ _ => exact Pull.keepsLocal_fetch _ _ _ _ _ _ _ _ hfetch

/-- The commit of `HEAD` is the same when the merge starts. -/
lemma Starts.exists_head (hhead : headCommit repo.files = .ok current) :
    ∃ head, readHead start.files = .ok head ∧ resolve start.files head = .ok (some current) := by
  obtain ⟨head, hread, hhead⟩ := bind_eq_ok.mp hhead
  obtain ⟨id, hid, hsome⟩ := bind_eq_ok.mp hhead
  rw [okOr_eq_ok] at hsome
  subst hsome
  have hkeeps := h.keepsLocal
  have hstart := readHead_congr hkeeps.head hread
  refine ⟨head, hstart, ?_⟩
  cases h with
  | merge _ => exact hid
  | pull _ hbranch _ _ =>
    -- A pull has found a branch under `refs/heads`, which no fetch touches.
    cases (Pull.readHead_of_currentBranch hbranch).symm.trans hstart
    refine resolve_of_refValue ?_
    rw [refValue_congr (hkeeps.branch _)]
    exact refValue_of_resolve hid

/-- Both commands fast-forward. -/
lemma Starts.run_eq (hhead : readHead start.files = .ok head)
    (hcurrent : resolve start.files head = .ok (some current))
    (hbehind : Behind start.objects current target) :
    cmd.run repo = (ffFastForward (treeOs mount) head target).run start := by
  have hmerge : ∀ ffOnly message rev, resolveRev start.objects start.files rev = .ok target →
      (Merge.runInInner hashBytes (treeOs mount) fuel env ffOnly false message rev).run start =
        (ffFastForward (treeOs mount) head target).run start := by
    intro ffOnly message rev hrev
    have hcheck : ensure (¬(ffOnly = true ∧ false = true)) (.invalidArgument
        ["merge: --ff-only and --no-ff are mutually exclusive"] : GytError) = .ok () :=
      ensure_eq_ok.mpr fun h => Bool.false_ne_true h.2
    unfold Merge.runInInner
    rw [hcheck, run_lift_ok_bind, run_gets_bind, hrev, run_lift_ok_bind,
      run_bind_of_ok (run_readFiles.trans (by rw [hhead])),
      run_bind_of_ok (run_readFiles.trans (by rw [hcurrent]))]
    show (mergeInto _ _ _ _ _ _ _ head current target).run start = _
    unfold mergeInto
    rw [run_gets_bind, if_neg hbehind.ne, if_neg (by rw [hbehind.notAncestor]; decide),
      if_pos ⟨hbehind.ancestor, rfl⟩]
  cases h with
  | merge hrev => exact hmerge _ _ _ hrev
  | pull hfetch hbranch htracking hrev =>
    obtain ⟨id, htracking⟩ := htracking
    unfold Pull.runIn Pull.mergeTracked
    rw [run_bind_of_ok hfetch, run_bind_of_ok (run_readFiles.trans (by rw [hbranch])),
      run_bind_of_ok (run_readFiles.trans (by rw [htracking]))]
    exact hmerge _ _ _ hrev

end

/-- A fast-forward of `merge` or `pull` that fails leaves the branch where it was, and one that
succeeds leaves the files of the new commit, exactly if these can be written over the files of the
index and the other files of the index can be removed. -/
theorem fastForward_iff (hstarts : Starts hashBytes mount fuel env repo target cmd start)
    (htree : repo.files.IsTree) (hhead : headCommit repo.files = .ok current)
    (hindex : Index.read repo.files indexPath = .ok idx)
    (hbehind : Behind start.objects current target)
    (hcommit : Commit.read start.objects target = .ok c)
    (hfiles : flattenTree start.objects c.tree = some (.ok files)) :
    (∀ r repo', cmd.run repo = some (r, repo') →
      (∀ e, r = .error e → headCommit repo'.files = .ok current) ∧
        (r = .ok () → Holds repo' idx files)) ↔ CanHold mount start idx files := by
  have hkeeps := hstarts.keepsLocal
  obtain ⟨head, hread, hcurrent⟩ := hstarts.exists_head hhead
  obtain ⟨fs, hmove, htree', htarget, hindex'⟩ := moveHead_run (hkeeps.tree htree) hread hcurrent
    (hkeeps.index.trans hindex) target
  obtain ⟨r, repo', hmaterialize, hok, hfail⟩ :=
    materializeCommit_run { start with files := fs } hcommit hfiles hindex' mount htree'
  have hrun : cmd.run repo = some (r, repo') := by
    rw [hstarts.run_eq hread hcurrent hbehind, ffFastForward, run_bind_of_ok hmove, hmaterialize]
  have hcan : CanHold mount { start with files := fs } idx files ↔ CanHold mount start idx files :=
    ⟨fun h => ⟨h.1, h.2, h.3⟩, fun h => ⟨h.1, h.2, h.3⟩⟩
  rw [hcan] at hok
  constructor
  · intro hsafe
    obtain ⟨herror, hheld⟩ := hsafe r repo' hrun
    rw [← hok]
    cases r with
    | ok u => exact ⟨rfl, hheld rfl⟩
    | error e =>
      have hmoved := herror e rfl
      rw [hfail e rfl, htarget] at hmoved
      exact absurd (Except.ok.inj hmoved).symm hbehind.ne
  · intro hhold r' repo'' hrun'
    obtain ⟨rfl, rfl⟩ : r = r' ∧ repo' = repo'' := by simpa using hrun.symm.trans hrun'
    obtain ⟨rfl, hheld⟩ := hok.mpr hhold
    exact ⟨by simp, fun _ => hheld⟩

end Command

/-! ## A directory in the way -/

section Sample

/-- A commit with a file in the directory `a`, and its child with a file of the given name in place
of it. -/
def sampleObjects (name : Bytes) : Store × ObjectId × ObjectId :=
  let blob := Blob.write sampleHash ⟨[]⟩ [120]
  let dir := Tree.write sampleHash blob.1 [⟨modeFile, [98], blob.2⟩]
  let old := Tree.write sampleHash dir.1 [⟨modeDir, [97], dir.2⟩]
  let parent := Commit.writeSample old.1 old.2 []
  let new := Tree.write sampleHash parent.1 [⟨modeFile, name, blob.2⟩]
  let child := Commit.writeSample new.1 new.2 [parent.2]
  (child.1, parent.2, child.2)

/-- The files of the first commit. -/
def sampleFiles : FileMap :=
  (∅ : FileMap).insert [['a'], ['b']] (modeFile, (Blob.write sampleHash ⟨[]⟩ [120]).2)

/-- A repository at the first commit. -/
def sampleRepo (name : Bytes) : TreeRepo where
  objects := (sampleObjects name).1
  files := ⟨[(headPath, headContent (.symbolic "refs/heads/main")),
    ("refs/heads/main", refContent (sampleObjects name).2.1),
    (indexPath, (indexFromMap sampleFiles).toBytes.toOption.getD [])], []⟩
  workdir := ((FileTree.empty.createDirAll [['a']]).bind (·.write [['a'], ['b']] [120])).getD .empty

/-- Merging the second commit. -/
def sampleMerge (name : Bytes) : Cmd (FileTree Str) Unit :=
  Merge.runInInner sampleHash (treeOs sampleMount) 10 Rebase.sampleEnv true false none
    (sampleObjects name).2.2.toHex

/-- What is needed to fast-forward. -/
lemma behind_sample {name : Bytes} (h : let s := (sampleObjects name).1
      let (current, target) := (sampleObjects name).2
      current ≠ target ∧ Merge.isAncestor s target current = false ∧
        Merge.isAncestor s current target = true) :
    Behind (sampleRepo name).objects (sampleObjects name).2.1 (sampleObjects name).2.2 :=
  ⟨h.1, h.2.1, h.2.2⟩

/-- The index and the files are those of the first commit. -/
lemma holds_sample (name : Bytes) {idx : Index}
    (hidx : Index.read (sampleRepo name).files indexPath = .ok idx)
    (hentries : idx.entries = sampleFiles.toList.map indexEntry)
    (hnode : sampleFiles.toList.all fun f =>
      let n := entryNode (sampleRepo name).objects f.2.1 f.2.2
      n.isSome && decide ((sampleRepo name).workdir.node f.1 = n)) :
    Holds (sampleRepo name) idx sampleFiles := by
  refine ⟨⟨⟨idx, hidx, fun f => ?_⟩, fun f hf => ?_⟩, fun path hpath hnot => ?_⟩
  · simp only [hentries, mem_map, exists_exists_and_eq_and]
    exact ⟨fun hf => ⟨f, hf, rfl⟩, fun ⟨g, hg, heq⟩ => heq ▸ hg⟩
  · have hf := all_eq_true.mp hnode f hf
    rw [Bool.and_eq_true, decide_eq_true_eq] at hf
    obtain ⟨n, hn⟩ := Option.isSome_iff_exists.mp hf.1
    exact ⟨n, hn, hf.2.trans hn⟩
  · rw [hentries, map_map] at hpath
    obtain ⟨f, hf, rfl⟩ := mem_map.mp hpath
    exact absurd (mem_paths.mp ⟨f, hf, rfl⟩) hnot

/-- From a clean working tree, the merge of a commit with a file in place of a directory fails with
the branch moved. -/
theorem branch_moved_by_failed_merge :
    ∃ idx, Index.read (sampleRepo [97]).files indexPath = .ok idx ∧
      Holds (sampleRepo [97]) idx sampleFiles ∧
      (headCommit (sampleRepo [97]).files).toOption = some (sampleObjects [97]).2.1 ∧
      Behind (sampleRepo [97]).objects (sampleObjects [97]).2.1 (sampleObjects [97]).2.2 ∧
      ((sampleMerge [97]).run (sampleRepo [97])).map (fun p =>
        (p.1.toOption, (headCommit p.2.files).toOption)) =
          some (none, some (sampleObjects [97]).2.2) := by
  refine ⟨⟨sampleFiles.toList.map indexEntry⟩, by decide +kernel, ?_, by decide +kernel,
    behind_sample (by decide +kernel), by decide +kernel⟩
  exact holds_sample [97] (by decide +kernel) rfl (by decide +kernel)

/-- The file of the second commit. -/
def sampleNew : TreeFile :=
  ([['c']], modeFile, (Blob.write sampleHash ⟨[]⟩ [120]).2)

/-- The files of a commit. -/
def filesAt (s : Store) (id : ObjectId) : Option FileMap :=
  (Commit.read s id).toOption.bind fun c => (flattenTree s c.tree).bind Except.toOption

lemma exists_of_filesAt {s : Store} {id : ObjectId} {l : List TreeFile}
    (h : (filesAt s id).map (·.toList) = some l) : ∃ c files, Commit.read s id = .ok c ∧
      flattenTree s c.tree = some (.ok files) ∧ files.toList = l := by
  obtain ⟨files, hfiles, hl⟩ := Option.map_eq_some_iff.mp h
  obtain ⟨c, hc, hfiles⟩ := Option.bind_eq_some_iff.mp hfiles
  obtain ⟨r, hr, hfiles⟩ := Option.bind_eq_some_iff.mp hfiles
  rw [toOption_eq_some] at hc hfiles
  exact ⟨c, files, hc, hfiles ▸ hr, hl⟩

lemma exists_toBytes_sample {files : FileMap} (hfiles : files.toList = [sampleNew]) :
    ∃ bytes, (indexFromMap files).toBytes = .ok bytes := by
  rw [indexFromMap, hfiles]
  exact ⟨_, toOption_eq_some.mp (Option.some_get (by decide +kernel)).symm⟩

lemma canHold_sample {files : FileMap} (hfiles : files.toList = [sampleNew])
    (hnode : (entryNode (sampleRepo [99]).objects sampleNew.2.1 sampleNew.2.2).isSome) :
    CanHold sampleMount (sampleRepo [99]) ⟨sampleFiles.toList.map indexEntry⟩ files := by
  refine ⟨⟨fun f hf q hq hne => ?_, fun f hf => ?_, fun _ _ => rfl, fun f hf => ?_,
    fun f hf g hg _ => ?_⟩, fun path hpath hnot => .inl ⟨hpath, hnot, rfl, ?_⟩,
    exists_toBytes_sample hfiles⟩
  · rw [hfiles, mem_singleton] at hf
    subst hf
    rcases prefix_cons_iff.mp hq with rfl | ⟨q', rfl, hq'⟩
    · exact .inl (FileTree.node_nil _)
    · exact absurd (by rw [prefix_nil.mp hq']; rfl) hne
  · rw [hfiles, mem_singleton] at hf
    subst hf
    decide +kernel
  · rw [hfiles, mem_singleton] at hf
    subst hf
    exact hnode
  · rw [hfiles, mem_singleton] at hf hg
    rw [hf, hg]
  · have hall : ∀ path ∈ (sampleFiles.toList.map indexEntry).map (·.path),
        (sampleRepo [99]).workdir.node path ≠ some .dir := by decide +kernel
    exact hall path hpath

/-- A fast-forward that adds a file. -/
theorem fastForward_of_new_file :
    ∃ idx files, Index.read (sampleRepo [99]).files indexPath = .ok idx ∧
      files.toList = [sampleNew] ∧
      ∀ r repo', (sampleMerge [99]).run (sampleRepo [99]) = some (r, repo') →
        (∀ e, r = .error e → headCommit repo'.files = .ok (sampleObjects [99]).2.1) ∧
          (r = .ok () → Holds repo' idx files) := by
  have htarget : (filesAt (sampleRepo [99]).objects (sampleObjects [99]).2.2).map (·.toList) =
      some [sampleNew] := by decide +kernel
  obtain ⟨c, files, hc, hfiles, hlist⟩ := exists_of_filesAt htarget
  have hindex : Index.read (sampleRepo [99]).files indexPath =
      .ok ⟨sampleFiles.toList.map indexEntry⟩ := by decide +kernel
  refine ⟨_, files, hindex, hlist, (fastForward_iff (.merge (by decide +kernel))
    (by decide +kernel) (by decide +kernel) hindex (behind_sample (by decide +kernel)) hc
    hfiles).mpr (canHold_sample hlist (by decide +kernel))⟩

end Sample

end Gyt.FastForward
