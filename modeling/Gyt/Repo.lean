import Gyt.Cmd.Util
import Gyt.Head

/-!
# Repositories

The state that commands work on: the objects, the other files of the repository directory, and the
working tree.  The working tree is seen through the calls of the operating system only, which are a
parameter: they can fail at any time, and what a failing call leaves behind is not specified.
-/

namespace Gyt

open Command RefFiles

/-- What is at a path of the working tree. -/
inductive FileType where
  | file
  | dir
  | symlink
  deriving DecidableEq, Repr

/-- The calls of the operating system on working trees `W`.  Paths are relative to the root of the
working tree. -/
structure Os (W : Type) where
  /-- The path of the working tree. -/
  root : Str
  /-- What `symlink_metadata` reports; none if it fails. -/
  fileType : RelPath → W → Option FileType
  removeFile : RelPath → W → Except IoError Unit × W
  createDirAll : RelPath → W → Except IoError Unit × W
  symlink : Str → RelPath → W → Except IoError Unit × W
  write : RelPath → Bytes → W → Except IoError Unit × W
  /-- Setting the permission bits of a file. -/
  setMode : RelPath → ℕ → W → Except IoError Unit × W

/-- A repository with its working tree. -/
structure Repo (W : Type) where
  objects : Store
  /-- The files below the repository directory that are not objects. -/
  files : RefFiles
  workdir : W

/-- A command on a repository. -/
abbrev Cmd (W α : Type) := Command (Repo W) GytError α

variable {W α : Type}

/-! ## Basic commands -/

def readObjects (f : Store → Result α) : Cmd W α := do
  let r ← gets fun repo => f repo.objects
  lift r

/-- Reading from the objects by a recursion that may not end. -/
def walkObjects (f : Store → Option (Result α)) : Cmd W α := do
  let r ← gets fun repo => f repo.objects
  await r

def writeObjects (f : Store → Store × α) : Cmd W α :=
  act fun repo => (.ok (f repo.objects).2, { repo with objects := (f repo.objects).1 })

/-- Reading from the files of the repository directory. -/
def readFiles (f : RefFiles → Result α) : Cmd W α := do
  let r ← gets fun repo => f repo.files
  lift r

/-- Writing a file of the repository directory, `atomic_write`. -/
def atomicWrite (path : Str) (content : Bytes) : Cmd W Unit :=
  act fun repo =>
    match repo.files.write path content with
    | some files => (.ok (), { repo with files })
    | none => (.error (.io (if repo.files.isDir path then .isADirectory else .notADirectory)), repo)

/-- Removing a file of the repository directory; it is no error if that fails. -/
def removeFile (path : Str) : Cmd W Unit :=
  act fun repo => (.ok (), { repo with files := repo.files.remove path })

/-- Writing a reference. -/
def writeRef (name : Str) (id : ObjectId) : Cmd W Unit := do
  lift (validateRefName name)
  atomicWrite name (refContent id)

/-- Deleting a reference. -/
def deleteRef (name : Str) : Cmd W Unit := do
  lift (validateRefName name)
  let found ← gets fun repo => repo.files.exists name
  lift (ensure found (.refs ["ref ", .str name, " not found"]))
  act fun repo =>
    if (repo.files.get? name).isSome then
      (.ok (), { repo with files := repo.files.unlink name })
    else (.error (.io .isADirectory), repo)

/-- Writing `HEAD`. -/
def writeHead : Head → Cmd W Unit
  | .symbolic name => do
    lift (validateRefName name)
    atomicWrite headPath (headContent (.symbolic name))
  | .detached id => atomicWrite headPath (headContent (.detached id))

def writeCommit (hashBytes : Hash) (c : Commit) : Cmd W ObjectId :=
  writeObjects (Commit.write hashBytes · c)

def system (call : W → Except IoError Unit × W) : Cmd W Unit :=
  act fun repo =>
    ((call repo.workdir).1.mapError .io, { repo with workdir := (call repo.workdir).2 })

/-! ## What commands change -/

section Reads

variable {R : Repo W → Repo W → Prop} [Std.Refl R] [IsTrans (Repo W) R]

lemma within_readObjects (f : Store → Result α) : Within R (readObjects f : Cmd W α) :=
  (within_gets _).bind fun r => within_lift r

lemma within_walkObjects (f : Store → Option (Result α)) : Within R (walkObjects f : Cmd W α) :=
  (within_gets _).bind fun r => within_await r

lemma within_readFiles (f : RefFiles → Result α) : Within R (readFiles f : Cmd W α) :=
  (within_gets _).bind fun r => within_lift r

omit [IsTrans (Repo W) R] in
lemma within_write {path : Str} {content : Bytes}
    (h : ∀ repo : Repo W, repo.files.canWrite path = true →
      R repo { repo with files := repo.files.set path content }) :
    Within R (atomicWrite path content : Cmd W Unit) := by
  refine within_act fun repo => ?_
  cases hwrite : repo.files.canWrite path with
  | true => simpa [write, hwrite] using h repo hwrite
  | false => simpa [write, hwrite] using Std.Refl.refl repo

lemma within_deleteRef {name : Str}
    (h : ∀ repo : Repo W, R repo { repo with files := repo.files.unlink name }) :
    Within R (deleteRef name : Cmd W Unit) := by
  refine (within_lift _).bind fun _ => (within_gets _).bind fun _ =>
    (within_lift _).bind fun _ => ?_
  refine within_act fun repo => ?_
  split_ifs
  · exact h repo
  · exact Std.Refl.refl repo

lemma within_writeRef {name : Str}
    (h : ∀ content, Within R (atomicWrite name content : Cmd W Unit)) (id : ObjectId) :
    Within R (writeRef name id : Cmd W Unit) :=
  (within_lift _).bind fun _ => h _

end Reads

/-- What a command that writes no reference, no `HEAD` and no commit keeps: the files with other
paths than the given ones, and the commits. -/
structure Keeps (paths : List Str) (repo repo' : Repo W) : Prop where
  get?_eq : ∀ path ∉ paths, repo'.files.get? path = repo.files.get? path
  commits : repo.objects.SameCommits repo'.objects

section Keeps

variable {paths : List Str}

variable {repo repo' repo'' : Repo W}

@[refl] lemma Keeps.refl (repo : Repo W) : Keeps paths repo repo := ⟨fun _ _ => rfl, .refl _⟩

@[trans] lemma Keeps.trans (h : Keeps paths repo repo') (h' : Keeps paths repo' repo'') :
    Keeps paths repo repo'' :=
  ⟨fun path hpath => (h'.get?_eq path hpath).trans (h.get?_eq path hpath),
    h.commits.trans h'.commits⟩

lemma Keeps.mono {paths' : List Str} (h : Keeps paths repo repo') (hsub : paths ⊆ paths') :
    Keeps paths' repo repo' :=
  ⟨fun path hpath => h.get?_eq path fun hmem => hpath (hsub hmem), h.commits⟩

instance : Std.Refl (Keeps (W := W) paths) := ⟨Keeps.refl⟩

instance : IsTrans (Repo W) (Keeps paths) := ⟨fun _ _ _ => Keeps.trans⟩

lemma within_writeObjects {f : Store → Store × α} (h : ∀ s : Store, s.SameCommits (f s).1) :
    Within (Keeps paths) (writeObjects f : Cmd W α) :=
  within_act fun repo => ⟨fun _ _ => rfl, h repo.objects⟩

lemma within_atomicWrite {path : Str} (hpath : path ∈ paths) (content : Bytes) :
    Within (Keeps paths) (atomicWrite path content : Cmd W Unit) :=
  within_write fun _ _ => ⟨fun _ hpath' => get?_set_of_ne fun heq => hpath' (heq ▸ hpath), .refl _⟩

lemma within_system (call : W → Except IoError Unit × W) : Within (Keeps paths) (system call) :=
  within_act fun _ => ⟨fun _ _ => rfl, .refl _⟩

end Keeps

/-- The files are a tree if they were one. -/
def KeepsTree (repo repo' : Repo W) : Prop := repo.files.IsTree → repo'.files.IsTree

section KeepsTree

instance : Std.Refl (KeepsTree (W := W)) := ⟨fun _ h => h⟩

instance : IsTrans (Repo W) KeepsTree := ⟨fun _ _ _ h h' htree => h' (h htree)⟩

lemma keepsTree_atomicWrite (path : Str) (content : Bytes) :
    Within KeepsTree (atomicWrite path content : Cmd W Unit) :=
  within_write fun _ hwrite htree => htree.set hwrite content

end KeepsTree

/-- The files of the repository directory are the same. -/
def SameFiles (repo repo' : Repo W) : Prop := repo'.files = repo.files

/-- No file of the repository directory is lost; it may have another content. -/
def NoFileLost (repo repo' : Repo W) : Prop :=
  ∀ path, (repo.files.get? path).isSome → (repo'.files.get? path).isSome

section SameFiles

instance : Std.Refl (SameFiles (W := W)) := ⟨fun _ => rfl⟩

instance : IsTrans (Repo W) SameFiles := ⟨fun _ _ _ h h' => Eq.trans h' h⟩

instance : Std.Refl (NoFileLost (W := W)) := ⟨fun _ _ h => h⟩

instance : IsTrans (Repo W) NoFileLost := ⟨fun _ _ _ h h' path hpath => h' path (h path hpath)⟩

lemma noFileLost_of_sameFiles {x : Cmd W α} (hx : Within SameFiles x) : Within NoFileLost x := by
  refine hx.mono fun repo repo' h path hpath => ?_
  rwa [show repo'.files = repo.files from h]

lemma sameFiles_writeObjects (f : Store → Store × α) :
    Within SameFiles (writeObjects f : Cmd W α) :=
  within_act fun _ => rfl

lemma noFileLost_system (call : W → Except IoError Unit × W) : Within NoFileLost (system call) :=
  within_act fun _ _ hpath => hpath

lemma noFileLost_atomicWrite (path : Str) (content : Bytes) :
    Within NoFileLost (atomicWrite path content : Cmd W Unit) := by
  refine within_write fun repo _ path' hpath' => ?_
  by_cases heq : path' = path
  · rw [heq]
    simp
  · rwa [get?_set_of_ne heq]

lemma noFileLost_writeHead (head : Head) : Within NoFileLost (writeHead head : Cmd W Unit) := by
  cases head with
  | symbolic name => exact (within_lift _).bind fun _ => noFileLost_atomicWrite _ _
  | detached id => exact noFileLost_atomicWrite _ _

end SameFiles

section Ends

variable {repo repo' : Repo W} {a : α}

lemma run_readObjects {f : Store → Result α} :
    (readObjects f : Cmd W α).run repo = some (f repo.objects, repo) := rfl

lemma run_readFiles {f : RefFiles → Result α} :
    (readFiles f : Cmd W α).run repo = some (f repo.files, repo) := rfl

lemma readObjects_eq_ok {f : Store → Result α} :
    (readObjects f : Cmd W α).run repo = some (.ok a, repo') ↔
      f repo.objects = .ok a ∧ repo' = repo := by
  unfold readObjects
  rw [seq_eq_ok]
  simp [eq_comm]

lemma walkObjects_eq_ok {f : Store → Option (Result α)} :
    (walkObjects f : Cmd W α).run repo = some (.ok a, repo') ↔
      f repo.objects = some (.ok a) ∧ repo' = repo := by
  unfold walkObjects
  rw [seq_eq_ok]
  simp only [run_gets, Option.some.injEq, Prod.mk.injEq, Except.ok.injEq, await_eq_some]
  constructor
  · rintro ⟨r, _, ⟨rfl, rfl⟩, hr, hrepo⟩
    exact ⟨hr, hrepo⟩
  · rintro ⟨hr, hrepo⟩
    exact ⟨_, _, ⟨rfl, rfl⟩, hr, hrepo⟩

lemma readFiles_eq_ok {f : RefFiles → Result α} :
    (readFiles f : Cmd W α).run repo = some (.ok a, repo') ↔
      f repo.files = .ok a ∧ repo' = repo := by
  unfold readFiles
  rw [seq_eq_ok]
  simp [eq_comm]

lemma readObjects_bind_eq_ok {β : Type} {f : Store → Result α} {g : α → Cmd W β} {b : β} :
    (readObjects f >>= g).run repo = some (.ok b, repo') ↔
      ∃ a, f repo.objects = .ok a ∧ (g a).run repo = some (.ok b, repo') := by
  simp [seq_eq_ok, readObjects_eq_ok, and_assoc]

lemma readFiles_bind_eq_ok {β : Type} {f : RefFiles → Result α} {g : α → Cmd W β} {b : β} :
    (readFiles f >>= g).run repo = some (.ok b, repo') ↔
      ∃ a, f repo.files = .ok a ∧ (g a).run repo = some (.ok b, repo') := by
  simp [seq_eq_ok, readFiles_eq_ok, and_assoc]

lemma atomicWrite_eq_ok {path : Str} {content : Bytes} {u : Unit}
    (h : (atomicWrite path content : Cmd W Unit).run repo = some (.ok u, repo')) :
    repo' = { repo with files := repo.files.set path content } := by
  unfold atomicWrite write at h
  rw [run_act] at h
  split at h
  · next files hfiles =>
    split_ifs at hfiles
    cases hfiles
    cases h
    rfl
  · cases h

/-- A file is not written over a directory. -/
lemma isDir_of_atomicWrite {path : Str} {content : Bytes} {u : Unit}
    (h : (atomicWrite path content : Cmd W Unit).run repo = some (.ok u, repo')) :
    repo.files.isDir path = false := by
  unfold atomicWrite write canWrite at h
  rw [run_act] at h
  cases hdir : repo.files.isDir path with
  | false => rfl
  | true =>
    rw [hdir] at h
    cases h

/-- A file that can be written is written. -/
lemma run_atomicWrite {path : Str} {content : Bytes} (h : repo.files.canWrite path = true) :
    (atomicWrite path content : Cmd W Unit).run repo =
      some (.ok (), { repo with files := repo.files.set path content }) := by
  unfold atomicWrite write
  rw [run_act, if_pos h]

/-- A written reference has its new value. -/
lemma writeRef_eq_ok {name : Str} {id : ObjectId} {u : Unit}
    (h : (writeRef name id : Cmd W Unit).run repo = some (.ok u, repo')) :
    validateRefName name = .ok () ∧
      repo' = { repo with files := repo.files.set name (refContent id) } := by
  unfold writeRef at h
  obtain ⟨⟨⟩, hname, hwrite⟩ := lift_bind_eq_ok.mp h
  exact ⟨hname, atomicWrite_eq_ok hwrite⟩

/-- A deleted reference has lost its file. -/
lemma deleteRef_eq_ok {name : Str} {u : Unit}
    (h : (deleteRef name : Cmd W Unit).run repo = some (.ok u, repo')) :
    repo' = { repo with files := repo.files.unlink name } := by
  unfold deleteRef at h
  obtain ⟨_, -, hrest⟩ := lift_bind_eq_ok.mp h
  rw [run_gets_bind] at hrest
  obtain ⟨_, -, hact⟩ := lift_bind_eq_ok.mp hrest
  rw [run_act] at hact
  split_ifs at hact
  · cases hact
    rfl
  · cases hact

/-- A file that cannot be written leaves the repository as it is. -/
lemma readFiles_eq_error {f : RefFiles → Result α} {e : GytError}
    (h : (readFiles f : Cmd W α).run repo = some (.error e, repo')) : repo' = repo := by
  unfold readFiles at h
  rw [run_gets_bind] at h
  exact (lift_eq_error.mp h).2

lemma atomicWrite_eq_error {path : Str} {content : Bytes} {e : GytError}
    (h : (atomicWrite path content : Cmd W Unit).run repo = some (.error e, repo')) :
    repo' = repo := by
  unfold atomicWrite at h
  rw [run_act] at h
  split at h
  · cases h
  · cases h
    rfl

/-- A reference that cannot be written leaves the repository as it is. -/
lemma writeRef_eq_error {name : Str} {id : ObjectId} {e : GytError}
    (h : (writeRef name id : Cmd W Unit).run repo = some (.error e, repo')) : repo' = repo := by
  unfold writeRef at h
  rcases seq_eq_error.mp h with hname | ⟨_, repo₁, hname, hwrite⟩
  · exact (lift_eq_error.mp hname).2
  · obtain ⟨-, rfl⟩ := lift_eq_ok.mp hname
    exact atomicWrite_eq_error hwrite

end Ends

end Gyt
