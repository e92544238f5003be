import Gyt.Cmd.Workdir

/-!
# Purging paths from the history

The command `getthefuckoutofmyrepo` of `cmd/getthefuckoutofmyrepo.rs`.  It collects the commits that
the references lead to, writes every one of them again without the given paths, moves the references
and removes the paths from the index and the working tree.

Paths are modelled by their components.  The calls of the operating system on paths, the lines that
the user types and the order in which a hash map is iterated are parameters.  The lock, the
reference logs and the texts on the terminal are left out.
-/

namespace Gyt.Purge

open Command Text PopLoop

/-- An absolute path, as the list of its components. -/
abbrev AbsPath := List Str

/-- The name of the directory of the repository. -/
def gytName : Str := ".gyt"

/-- Whether neither path leads to the other. -/
def Apart (p q : AbsPath) : Prop := ¬ p <+: q ∧ ¬ q <+: p

/-- The calls on the paths of the working tree. -/
structure PathOs (W : Type) where
  /-- The path of the working tree. -/
  cwd : AbsPath
  /-- What `canonicalize` makes of that path; none if it fails. -/
  canonicalCwd : W → Option AbsPath
  /-- Whether there is something at a path that is given relative to the working tree. -/
  pathExists : Str → W → Bool
  /-- What `canonicalize` makes of a path that is given relative to the working tree. -/
  canonicalize : Str → W → Except IoError AbsPath
  isDir : AbsPath → W → Bool
  removeDirAll : AbsPath → Repo W → Except IoError Unit × Repo W
  removeFile : AbsPath → Repo W → Except IoError Unit × Repo W
  /-- Removing something away from the directory of the repository leaves the repository alone. -/
  removeDirAll_apart : ∀ p repo, Apart p (cwd ++ [gytName]) →
    (removeDirAll p repo).2.files = repo.files ∧ (removeDirAll p repo).2.objects = repo.objects
  removeFile_apart : ∀ p repo, Apart p (cwd ++ [gytName]) →
    (removeFile p repo).2.files = repo.files ∧ (removeFile p repo).2.objects = repo.objects

/-! ## The paths to purge -/

/-- The paths on the command line; none if the usage is asked for. -/
def parseArgs : List Str → List Str → Result (Option (List Str))
  | [], paths => .ok (some paths)
  | arg :: args, paths =>
    if arg = "--help" ∨ arg = "-h" then .ok none
    else if arg.head? = some '-' then
      .error (.invalidArgument ["getthefuckoutofmyrepo: unknown flag ", .str arg])
    else parseArgs args (paths ++ [arg])

def displayPath (path : AbsPath) : Str := '/' :: List.intercalate ['/'] path

variable {W : Type} (os : PathOs W)

/-- The path that a path on the command line stands for. -/
def resolveTarget (w : W) (p : Str) : Result AbsPath := do
  ensure (os.pathExists p w) (.notFound ["path ", .str p, " does not exist"])
  let canon ← (os.canonicalize p w).mapError .io
  ensure ((os.canonicalCwd w).getD os.cwd <+: canon)
    (.invalidArgument ["path ", .str p, " resolves outside the repository (",
      .str (displayPath canon), "); refusing"])
  return canon

def confirmed (line : Result Str) : Result Bool := do
  let input ← line
  return trim input = "DESTROY"

/-- Removing the paths from the index. -/
def unstage (targets : List AbsPath) : Cmd W Unit := do
  let idx ← readFiles (Index.read · indexPath)
  let toRemove := targets.map fun p => (stripPrefix os.cwd p).getD p
  let bytes ← lift (Index.toBytes ⟨idx.entries.filter (·.path ∉ toRemove)⟩)
  atomicWrite indexPath bytes

/-! ## The commits to rewrite -/

/-- The all-zero identifier stands for nothing. -/
def isNull (id : ObjectId) : Bool := id.bytes.all (· == 0)

/-- The reference that `HEAD` names with its value, or a detached `HEAD`. -/
def headTip (fs : RefFiles) : RefList :=
  match readHead fs with
  | .ok (.symbolic sym) => (refValue fs sym).toList.map (sym, ·)
  | .ok (.detached id) => [(headPath, id)]
  | .error _ => []

/-- The directory of the branches. -/
def refsHeads : Str := "refs/heads"

def refsTags : Str := "refs/tags"

/-- The directory of the remote-tracking references. -/
def refsRemotes : Str := "refs/remotes"

def refsStash : Str := "refs/stash"

/-- The references to rewrite, `head_refs`. -/
def headRefs (fs : RefFiles) : Result RefList := do
  let heads ← listRefs fs refsHeads
  let tags ← listRefs fs refsTags
  let remotes ← listRefs fs refsRemotes
  let stash := (refValue fs refsStash).toList.map (refsStash, ·)
  let metadata := ["refs/issues".toList, "refs/prs".toList, "refs/incidents".toList].flatMap
    fun dir => (listRefs fs dir).toOption.getD []
  return headTip fs ++ heads ++ tags ++ remotes ++ stash ++ metadata

/-- The identifier that a tag is taken to point at: the first 64 bytes of its payload. -/
def tagTarget (payload : Bytes) : Option ObjectId :=
  if hexLen ≤ payload.length then
    (ObjectId.fromHex (Utf8.decodeLossy (payload.take hexLen))).toOption
  else none

/-- Commits with their identifiers. -/
abbrev Commits := List (ObjectId × Commit)

/-- The loop variables of `collect`. -/
structure Collected where
  visited : List ObjectId
  commits : Commits

/-- One iteration of `collect`. -/
def collectStep (s : Store) (st : Collected) (id : ObjectId) :
    Except Empty (Collected × List ObjectId) :=
  if id ∈ st.visited then .ok (st, [])
  else
    match s.get? id with
    | some ⟨.commit, payload⟩ =>
      match Commit.decode payload with
      | .ok c => .ok (⟨id :: st.visited, (id, c) :: st.commits⟩, c.parents)
      | .error _ => .ok (⟨id :: st.visited, st.commits⟩, [])
    | some ⟨.tag, payload⟩ => .ok (⟨id :: st.visited, st.commits⟩, (tagTarget payload).toList)
    | _ => .ok (⟨id :: st.visited, st.commits⟩, [])

/-- What `collect` goes on to from an object. -/
def followed (s : Store) (id : ObjectId) : List ObjectId :=
  match s.get? id with
  | some ⟨.commit, payload⟩ =>
    match Commit.decode payload with
    | .ok c => c.parents
    | .error _ => []
  | some ⟨.tag, payload⟩ => (tagTarget payload).toList
  | _ => []

lemma visitsOnce_collectStep (s : Store) :
    VisitsOnce id (·.visited) (fun _ => False) (followed s) (collectStep s) := by
  intro st x st' next hx
  unfold collectStep at hx
  split_ifs at hx with hseen
  · cases hx
    exact .inl ⟨.inr hseen, rfl, rfl⟩
  · refine .inr ⟨not_false, hseen, ?_⟩
    rw [List.map_id]
    simp only [id, followed]
    split at hx
    · split at hx <;> (cases hx; simp_all)
    · cases hx
      simp_all
    · cases hx
      simp_all

lemma mem_ids_of_followed_ne_nil {s : Store} {id : ObjectId} (h : followed s id ≠ []) :
    id ∈ s.ids := by
  cases hget : s.get? id with
  | none =>
    rw [followed, hget] at h
    exact absurd rfl h
  | some o => exact List.mem_map_of_mem (f := Prod.fst) (Store.mem_entries_of_get? hget)

/-- The loop variables after the commits that the given objects lead to were collected. -/
def collected (s : Store) (tips : List ObjectId) : Collected :=
  let work := (tips.filter (!isNull ·)).reverse
  match (run (.stack _) (collectStep s) (work.length + linksLeft (followed s) s.ids [])
      work ⟨[], []⟩).get
      (run_isSome_of_visitsOnce (visitsOnce_collectStep s) s.ids
        (fun _ hy => mem_ids_of_followed_ne_nil hy) (Nat.le_refl _)) with
  | .ok st => st

/-- The commits that the given objects lead to. -/
def collect (s : Store) (tips : List ObjectId) : Commits :=
  (collected s tips).commits

/-! ## Rewriting -/

/-- The new identifiers of commits and root trees that were rewritten. -/
abbrev Seen := List (ObjectId × ObjectId)

/-- A command with the map of new identifiers. -/
abbrev WalkCmd (W α : Type) := Command (Repo W × Seen) GytError α

variable (hashBytes : Hash) (targets : List AbsPath)

/-- Whether an entry of the tree at a path stays. -/
def kept (subpath : RelPath) (e : TreeEntry) : Bool :=
  os.cwd ++ subpath ++ [Utf8.decodeLossy e.name] ∉ targets

/-- The new identifier of a root tree that was rewritten. -/
def cached (id : ObjectId) (subpath : RelPath) : WalkCmd W (Option ObjectId) :=
  gets fun (_, seen) => if subpath = [] then seen.lookup id else none

/-- Noting the new identifier of a root tree. -/
def remember (id new : ObjectId) (subpath : RelPath) : WalkCmd W Unit :=
  act fun (repo, seen) => (.ok (), repo, if subpath = [] then (id, new) :: seen else seen)

/-- Rewriting an entry that stays, with the rewriting of subtrees as a parameter. -/
def rewriteEntry (rewrite : ObjectId → RelPath → WalkCmd W ObjectId) (subpath : RelPath)
    (e : TreeEntry) : WalkCmd W TreeEntry := do
  if e.mode = modeDir then do
    let hash ← rewrite e.hash (subpath ++ [Utf8.decodeLossy e.name])
    return { e with hash }
  else return e

/-- Writing a tree without the targets again, down to the given depth. -/
def rewriteTreeEntries : ℕ → ObjectId → RelPath → WalkCmd W ObjectId
  | 0, _, _ => await none
  | depth + 1, id, subpath => do
    if isNull id then return id
    else
      match ← cached id subpath with
      | some new => return new
      | none => do
        let entries ← outer (readObjects (Tree.read · id))
        let newEntries ← (entries.filter (kept os targets subpath)).mapM
          (rewriteEntry (rewriteTreeEntries depth) subpath)
        let new ← outer (writeObjects (Tree.write hashBytes · newEntries))
        remember id new subpath
        return new

/-- Rewriting the root tree of a commit.  As for `flattenTree`, no tree is deeper than there are
objects. -/
def rewriteTree (id : ObjectId) : WalkCmd W ObjectId := do
  let depth ← gets fun (repo, _) => repo.objects.entries.length + 1
  rewriteTreeEntries os hashBytes targets depth id []

/-- The commit that takes the place of another one. -/
def rewritten (seen : Seen) (c : Commit) (tree : ObjectId) : Commit :=
  { c with tree, parents := c.parents.map fun p => (seen.lookup p).getD p, signature := none }

/-- Noting the new identifier of a commit, and the parents that have none yet. -/
def pushParents (id new : ObjectId) (parents : List ObjectId) : WalkCmd W (List ObjectId) :=
  act fun (repo, seen) =>
    (.ok (parents.filter fun p => (((id, new) :: seen).lookup p).isNone), repo, (id, new) :: seen)

/-- Writing a commit again; the result is the parents to go on with. -/
def rewriteCommit (id : ObjectId) (c : Commit) : WalkCmd W (List ObjectId) := do
  let tree ← rewriteTree os hashBytes targets c.tree
  let new ← gets fun (_, seen) => rewritten seen c tree
  let newId ← outer (writeCommit hashBytes new)
  pushParents id newId c.parents

/-- One iteration of the rewriting loop. -/
def rewriteStep (commits : Commits) (id : ObjectId) :
    WalkCmd W (List ObjectId) := do
  let known ← gets fun (_, seen) => seen.lookup id
  match known, commits.lookup id with
  | none, some c => rewriteCommit os hashBytes targets id c
  | _, _ => return []

/-- The rewriting loop with a budget of iterations; whether it has completed. -/
def rewriteLoop (commits : Commits) : ℕ → List ObjectId → WalkCmd W Bool
  | _, [] => return true
  | 0, _ :: _ => return false
  | budget + 1, id :: stack => do
    let parents ← rewriteStep os hashBytes targets commits id
    rewriteLoop commits budget (parents.reverse ++ stack)

/-! ## The command -/

/-- The number of iterations that the rewriting loop may take. -/
def walkBudget (commits : Commits) : ℕ := commits.length * 2 + 16

/-- Moving a reference. -/
def updateRef (seen : Seen) (ref : Str × ObjectId) : Cmd W Unit :=
  match seen.lookup ref.2 with
  | some new => writeRef ref.1 new
  | none => pure ()

/-- Moving the references, unless the rewriting loop has not completed. -/
def updateRefs (refs : RefList) (commits : Commits) :
    Bool × Seen → Cmd W Unit
  | (true, seen) => refs.forM (updateRef seen)
  | (false, _) => fail (.repo ["history rewrite did not complete (visited ",
      .num (walkBudget commits + 1), " of at least ", .num commits.length,
      " commits before exceeding the walk budget). Refusing to update refs — a partial ",
      "rewrite would leave the targeted content reachable through unrewritten ancestors."])

/-- Rewriting the history; `iter` is the order in which the commits are iterated. -/
def rewriteHistory (iter : List ObjectId → List ObjectId) : Cmd W Unit := do
  let refs ← readFiles headRefs
  let commits ← gets fun repo => collect repo.objects (refs.map (·.2))
  let walk ← withLocal [] (rewriteLoop os hashBytes targets commits (walkBudget commits)
    (iter (commits.map (·.1))).reverse)
  updateRefs refs commits walk

/-- A call of the operating system on the repository and its working tree. -/
def systemCall (call : Repo W → Except IoError Unit × Repo W) : Cmd W Unit :=
  act fun repo => ((call repo).1.mapError .io, (call repo).2)

/-- Removing a path from the working tree. -/
def removeTarget (p : AbsPath) : Cmd W Unit := do
  let dir ← gets fun repo => os.isDir p repo.workdir
  if dir then systemCall (os.removeDirAll p) else systemCall (os.removeFile p)

/-- How the command ends if it does not fail. -/
inductive Outcome where
  | usage
  | aborted
  | purged
  deriving DecidableEq, Repr

/-- Purging the paths once they are confirmed. -/
def purge (iter : List ObjectId → List ObjectId) : Cmd W Outcome := do
  unstage os targets
  rewriteHistory os hashBytes targets iter
  targets.forM (removeTarget os)
  return .purged

/-- Purging the paths if they are confirmed twice. -/
def confirmAndPurge (iter : List ObjectId → List ObjectId) (first second : Result Str) :
    Cmd W Outcome := do
  if ← lift (confirmed first) then
    if ← lift (confirmed second) then purge os hashBytes targets iter
    else return .aborted
  else return .aborted

def run (args : List Str) (iter : List ObjectId → List ObjectId) (first second : Result Str) :
    Cmd W Outcome := do
  match ← lift (parseArgs args []) with
  | none => return .usage
  | some [] =>
    fail (.invalidArgument ["getthefuckoutofmyrepo: at least one path required"])
  | some (p :: paths) => do
    let w ← gets (·.workdir)
    let targets ← lift ((p :: paths).mapM (resolveTarget os w))
    confirmAndPurge os hashBytes targets iter first second

end Gyt.Purge
