import Gyt.Cmd.Switch

/-!
# Resetting to a commit

The command `reset`, `cmd/reset.rs`: the branch is moved to a commit, and the index and the working
tree with it if asked for.  The logs of references are left out.

`reset --hard` first writes the index of the new commit and then calls `materialize_commit`, which
removes the files that the index has and the commit has not.  The index that it reads is the new
one, so that no file is removed: the command leaves what it should exactly if no path of the old
index that the commit has not is in the working tree, other than as a directory of the commit
(`resetHard_iff`).
-/

namespace Gyt.Reset

open Command Text WorkTree FastForward

/-! ## The command -/

/-- How much is reset. -/
inductive Mode where
  /-- The branch only. -/
  | soft
  /-- The branch and the index. -/
  | mixed
  /-- The branch, the index and the working tree. -/
  | hard
  deriving DecidableEq, Repr

/-- The arguments of the command. -/
structure Options where
  mode : Mode
  rev : Option Str
  force : Bool
  deriving DecidableEq, Repr

/-- Reading an argument. -/
def parseArg (o : Options) (a : Str) : Result Options :=
  if a = "--soft" then .ok { o with mode := .soft }
  else if a = "--mixed" then .ok { o with mode := .mixed }
  else if a = "--hard" then .ok { o with mode := .hard }
  else if a = "--force" ∨ a = "-f" then .ok { o with force := true }
  else if a.head? ≠ some '-' then do
    ensure (o.rev = none) (.invalidArgument ["reset: too many positional arguments"])
    return { o with rev := some a }
  else .error (.invalidArgument ["reset: unknown option ", .str a])

/-- Reading the arguments. -/
def parseArgs (args : List Str) : Result Options := args.foldlM parseArg ⟨.mixed, none, false⟩

variable {W : Type} (hashBytes : Hash) (os : Os W) (look : LookOs W)

/-- Whether what is at the path of an entry of the index is missing or something else. -/
def isDirty (w : W) (e : IndexEntry) : Bool :=
  match look.symlinkMetadata e.path w with
  | none => true
  | some .symlink =>
    match look.readLink e.path w with
    | .error _ => true
    | .ok target => hashBytes (buildRaw .blob (Utf8.encode target)) ≠ e.hash
  | some .file | some .dir =>
    match hashBlob hashBytes look e.path w with
    | .error _ => true
    | .ok actual => actual ≠ e.hash

/-- The paths of the index whose content differs in the working tree. -/
def workdirDirtyPaths : Cmd W (List RelPath) := do
  let idx ← readFiles (Index.read · indexPath)
  let w ← gets (·.workdir)
  return ((idx.entries.filter (isDirty hashBytes look w)).map (·.path)).mergeSort
    fun p q => (compare p q).isLE

/-- The error of a hard reset that would lose changes. -/
def dirtyError (dirty : List RelPath) : GytError :=
  let preview := ['\n'].intercalate ((dirty.take 10).map fun p => "  " ++ pathToStorageString p)
  let more : Msg :=
    if dirty.length > 10 then ["\n  ... and ", .num (dirty.length - 10), " more"] else []
  .repo ([.lit "reset --hard: workdir has uncommitted changes; refusing to discard.\n",
    .lit "Run `gyt stash push` first, or pass --force to override.\n", .lit "Dirty paths:\n",
    .str preview] ++ more)

/-- The branch that `HEAD` names. -/
def branchOf : Head → Result Str
  | .symbolic name => .ok name
  | .detached _ =>
    .error (.refs ["won't reset detached HEAD; use `gyt switch -c <branch>` first"])

/-- Refusing a hard reset that would lose changes. -/
def checkClean : Cmd W Unit := do
  let dirty ← workdirDirtyPaths hashBytes look
  lift (ensure (dirty = []) (dirtyError dirty))

/-- Writing the index, and the working tree for a hard reset. -/
def resetFiles (mode : Mode) (target : ObjectId) (payload : Bytes) : Cmd W Unit := do
  let c ← lift (Commit.decode payload)
  let files ← walkObjects (flattenTree · c.tree)
  writeIndexFromMap files
  if mode = .hard then Merge.materializeCommit os target else pure ()

/-- Resetting to a commit. -/
def runIn (args : List Str) : Cmd W Unit := do
  let o ← lift (parseArgs args)
  let rev ← lift (okOr o.rev (.invalidArgument ["reset <rev>"]))
  let head ← readFiles readHead
  let name ← lift (branchOf head)
  let found ← gets fun repo => resolveRev repo.objects repo.files rev
  let target ← lift found
  let obj ← readObjects (·.read target)
  lift (ensure (obj.kind = .commit) (.invalidArgument ["reset: <rev> ", .str rev,
    " is not a commit (got ", .str obj.kind.asStr, ")"]))
  if o.mode = .hard ∧ o.force = false then checkClean hashBytes look else pure ()
  if o.mode = .mixed ∨ o.mode = .hard then resetFiles os o.mode target obj.payload else pure ()
  writeRef name target

/-! ## What a hard reset does -/

section Hard

variable {hashBytes} {look : LookOs (FileTree Str)} {mount : Mount} {args : List Str}
  {rev name : Str}
  {force : Bool} {repo repo' : TreeRepo} {target : ObjectId} {c : Commit} {files : FileMap}

lemma checkClean_eq_ok {repo repo' : Repo W} {look : LookOs W} {u : Unit}
    (h : (checkClean hashBytes look).run repo = some (.ok u, repo')) : repo' = repo := by
  unfold checkClean workdirDirtyPaths at h
  obtain ⟨dirty, repo₁, hpaths, hensure⟩ := seq_eq_ok.mp h
  obtain ⟨-, rfl⟩ := lift_eq_ok.mp hensure
  obtain ⟨idx, -, hdirty⟩ := readFiles_bind_eq_ok.mp hpaths
  rw [run_gets_bind] at hdirty
  exact (lift_eq_ok.mp hdirty).2

/-- The steps of a hard reset that change something. -/
lemma runIn_hard {os : Os W} {look : LookOs W} {repo repo' : Repo W}
    (hargs : parseArgs args = .ok ⟨.hard, some rev, force⟩)
    (hhead : readHead repo.files = .ok (.symbolic name))
    (hrev : resolveRev repo.objects repo.files rev = .ok target)
    (hcommit : Commit.read repo.objects target = .ok c)
    (hfiles : flattenTree repo.objects c.tree = some (.ok files))
    (hrun : (runIn hashBytes os look args).run repo = some (.ok (), repo')) :
    ∃ repo₁ repo₂, (writeIndexFromMap files).run repo = some (.ok (), repo₁) ∧
      (Merge.materializeCommit os target).run repo₁ = some (.ok (), repo₂) ∧
      repo' = { repo₂ with files := repo₂.files.set name (refContent target) } := by
  unfold Commit.read at hcommit
  obtain ⟨obj, hobj, hcommit⟩ := bind_eq_ok.mp hcommit
  obtain ⟨hkind, hdecode⟩ := check_bind_eq_ok.mp hcommit
  unfold runIn at hrun
  rw [hargs, run_lift_ok_bind] at hrun
  dsimp only at hrun
  rw [okOr, run_lift_ok_bind, run_bind_of_ok (run_readFiles.trans (by rw [hhead])), branchOf,
    run_lift_ok_bind, run_gets_bind, hrev, run_lift_ok_bind,
    run_bind_of_ok (run_readObjects.trans (by rw [hobj])), ensure, if_pos (ensure_eq_ok.mp hkind),
    run_lift_ok_bind] at hrun
  have hreset : (do
      resetFiles os .hard target obj.payload
      writeRef name target : Cmd W Unit).run repo = some (.ok (), repo') := by
    simp only [or_true, if_true, true_and] at hrun
    split_ifs at hrun with hforce
    · obtain ⟨⟨⟩, repo₀, hclean, hrest⟩ := seq_eq_ok.mp hrun
      rwa [checkClean_eq_ok hclean] at hrest
    · exact hrun
  obtain ⟨⟨⟩, repo₂, hwrites, href⟩ := seq_eq_ok.mp hreset
  unfold resetFiles at hwrites
  rw [hdecode, run_lift_ok_bind, run_bind_of_ok (walkObjects_eq_ok.mpr ⟨hfiles, rfl⟩)] at hwrites
  obtain ⟨⟨⟩, repo₁, hindex, hmaterialize⟩ := seq_eq_ok.mp hwrites
  rw [if_pos rfl] at hmaterialize
  exact ⟨repo₁, repo₂, hindex, hmaterialize, (writeRef_eq_ok href).2⟩

/-- The index of a repository; an empty one if it cannot be read. -/
def indexOf (repo : Repo W) : Index := (Index.read repo.files indexPath).toOption.getD .new

/-- The index after another file was written. -/
lemma read_set_set {fs : RefFiles} {bytes content : Bytes} {idx : Index}
    (hname : name ≠ indexPath) (h : Index.read (fs.set indexPath bytes) indexPath = .ok idx) :
    Index.read ((fs.set indexPath bytes).set name content) indexPath = .ok idx := by
  rw [← h, Index.read, Index.read, RefFiles.get?_set_of_ne (Ne.symm hname), RefFiles.get?_set_self]

/-- A branch at the path of the index replaces it. -/
lemma read_set_refContent {fs : RefFiles} {id : ObjectId} {idx : Index} :
    Index.read (fs.set indexPath (refContent id)) indexPath ≠ .ok idx := by
  intro h
  have hvalue : refValue (fs.set indexPath (refContent id)) indexPath = some id :=
    refValue_set_self (by decide +kernel)
  rw [Index.refValue_of_read h] at hvalue
  cases hvalue

/-- A hard reset that succeeds leaves the files of the commit, and nothing at the other paths of the
old index than directories of the commit, if and only if that was so before, and `HEAD` does not
name the file of the index. -/
theorem resetHard_iff (hargs : parseArgs args = .ok ⟨.hard, some rev, force⟩)
    (hhead : readHead repo.files = .ok (.symbolic name))
    (hrev : resolveRev repo.objects repo.files rev = .ok target)
    (hcommit : Commit.read repo.objects target = .ok c)
    (hfiles : flattenTree repo.objects c.tree = some (.ok files))
    (hrun : (runIn hashBytes (treeOs mount) look args).run repo = some (.ok (), repo')) :
    Holds repo' (indexOf repo) files ↔ name ≠ indexPath ∧
      ∀ path ∈ (indexOf repo).entries.map (·.path), path ∉ files →
        Gone repo.workdir files path := by
  obtain ⟨repo₁, repo₂, hindex, hmaterialize, rfl⟩ :=
    runIn_hard hargs hhead hrev hcommit hfiles hrun
  obtain ⟨bytes, hbytes, rfl⟩ := writeIndexFromMap_eq_ok hindex
  obtain ⟨idx, hidx, hentries⟩ :=
    read_indexFromMap (validPath_of_flattenTree hfiles) hbytes repo.files
  -- The index that is read here is the one that was just written.
  obtain ⟨hhas, -, ⟨bytes', -, hset⟩, hgone⟩ :=
    materializeCommit_eq_ok ⟨_, repo.files.set indexPath bytes, _⟩ hcommit hfiles hidx hmaterialize
  have hsame : ∀ q ∉ files, (Gone repo₂.workdir files q ↔ Gone repo.workdir files q) := by
    refine fun q hq => (hgone q hq).trans (or_iff_right fun hstale => ?_)
    obtain ⟨e, he, rfl⟩ := List.mem_map.mp hstale.1
    exact hq (mem_paths.mp ⟨_, (hentries _).mpr ⟨e, he, rfl⟩, rfl⟩)
  constructor
  · intro hholds
    refine ⟨?_, fun path hpath hnot => (hsame path hnot).mp (hholds.removed path hpath hnot)⟩
    rintro rfl
    obtain ⟨idx, hread, -⟩ := hholds.index
    exact read_set_refContent hread
  · rintro ⟨hname, hold⟩
    obtain ⟨idx', hidx', hentries'⟩ := hhas.index
    rw [hset] at hidx'
    refine ⟨⟨⟨idx', ?_, hentries'⟩, hhas.tracked⟩,
      fun path hpath hnot => (hsame path hnot).mpr (hold path hpath hnot)⟩
    show Index.read (RefFiles.set _ _ _) _ = _
    rw [hset, read_set_set hname hidx']

end Hard

/-! ## A file that stays -/

section Sample

/-- The second commit of a sample history, which has the file `c` in place of `a/b`. -/
def sampleChild : ObjectId := (sampleObjects [99]).2.2

/-- A repository at the second commit, without changes. -/
def sampleRepo : TreeRepo where
  objects := (sampleObjects [99]).1
  files := ⟨[(headPath, headContent (.symbolic "refs/heads/main")),
    ("refs/heads/main", refContent sampleChild),
    (indexPath,
      (indexFromMap ((∅ : FileMap).insert sampleNew.1 sampleNew.2)).toBytes.toOption.getD [])],
    []⟩
  workdir := (FileTree.empty.write [['c']] [120]).getD .empty

/-- A hard reset of a sample repository. -/
def sampleReset (args : List Str) : Cmd (FileTree Str) Unit :=
  runIn sampleHash (treeOs sampleMount) Switch.sampleDisk.lookOs ("--hard" :: args)

/-- A hard reset to the first commit leaves the file `c`, which the commit has not. -/
theorem resetHard_leaves_file :
    ((Index.read sampleRepo.files indexPath).map fun idx => idx.entries.map (·.path)) =
        .ok [[['c']]] ∧
      (filesAt sampleRepo.objects (sampleObjects [99]).2.1).map (·.toList) =
        some [Switch.sampleOld] ∧
      ((sampleReset [(sampleObjects [99]).2.1.toHex]).run sampleRepo).map (fun p =>
        (p.1, (headCommit p.2.files).toOption, p.2.workdir.node [['c']])) =
          some (.ok (), some (sampleObjects [99]).2.1, some (.file [120] 0o644)) := by
  decide +kernel

/-- A repository at the first commit, with its only file deleted. -/
def sampleDeleted : TreeRepo := withTree (FastForward.sampleRepo [99]) .empty

/-- From the first commit with its only file deleted, a reset to the second commit is as it should
be. -/
theorem resetHard_without_files :
    ∃ files repo', files.toList = [sampleNew] ∧
      (sampleReset ["--force", sampleChild.toHex]).run sampleDeleted = some (.ok (), repo') ∧
      Holds repo' (indexOf sampleDeleted) files := by
  have hfiles : (filesAt sampleDeleted.objects sampleChild).map (·.toList) =
      some [sampleNew] := by decide +kernel
  obtain ⟨c, files, hc, hfiles, hnew⟩ := exists_of_filesAt hfiles
  have hok : ((sampleReset ["--force", sampleChild.toHex]).run sampleDeleted).bind
      (·.1.toOption) = some () := by decide +kernel
  obtain ⟨⟨r, repo'⟩, hrun, hr⟩ := Option.bind_eq_some_iff.mp hok
  rw [toOption_eq_some] at hr
  obtain rfl : r = .ok () := hr
  have hargs : parseArgs ["--hard", "--force", sampleChild.toHex] =
      .ok ⟨.hard, some sampleChild.toHex, true⟩ := by decide +kernel
  have hhead : readHead sampleDeleted.files = .ok (.symbolic "refs/heads/main") := by decide +kernel
  have hrev : resolveRev sampleDeleted.objects sampleDeleted.files sampleChild.toHex =
      .ok sampleChild := by decide +kernel
  refine ⟨files, repo', hnew, hrun, ?_⟩
  unfold sampleReset at hrun
  refine (resetHard_iff hargs hhead hrev hc hfiles hrun).mpr ⟨by decide +kernel, fun path _ _ => ?_⟩
  rcases path with _ | ⟨name, path⟩
  · exact .inr ⟨rfl, sampleNew, by simp [hnew], List.nil_prefix⟩
  · exact .inl rfl

end Sample

end Gyt.Reset
