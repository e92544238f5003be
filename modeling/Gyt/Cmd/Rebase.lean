import Gyt.Cmd.Workdir
import Gyt.Merge.Base
import Gyt.Merge.Lines
import Gyt.Merge.Trees
import Gyt.Signing

/-!
# Rebase

The command `rebase` of `cmd/rebase.rs` with its modes `--continue` and `--abort`.  It replays the
commits between a merge base and `HEAD` one after the other onto an upstream commit.  At a conflict
it writes the files `REBASE_HEAD`, `REBASE_ONTO` and `REBASE_TODO` and stops; `--continue` commits
the index as the resolution of the first commit that is left, and replays the others.

The revision on the command line is given by its identifier, the lock of the repository is held
throughout, and the reference logs are left out.  The bound `fuel` is that of the merge of lines.
-/

namespace Gyt.Rebase

open Command Text Merge Merge3

/-- What a command finds in its environment. -/
structure Env where
  /-- The configuration, unless it cannot be loaded. -/
  config : Result Config
  /-- Loading the signing key and signing. -/
  sign : Bytes → Result Bytes
  /-- The time at which the command makes its `n`-th commit, in seconds. -/
  now : ℕ → ℕ

/-- An operating system without failures. -/
def idleOs : Os Unit where
  root := []
  fileType _ _ := none
  removeFile _ _ := (.ok (), ())
  createDirAll _ _ := (.ok (), ())
  symlink _ _ _ := (.ok (), ())
  write _ _ _ := (.ok (), ())
  setMode _ _ _ := (.ok (), ())

/-- An environment without an identity and without a signing key. -/
def sampleEnv : Env where
  config := .ok .default
  sign _ := .error (.repo [])
  now _ := 0

namespace Env

/-- The identity of the committer, `identity_for`. -/
def identity (env : Env) : Str :=
  match env.config with
  | .ok cfg => cfg.identity.toOption.getD "-"
  | .error _ => "-"

/-- The committer line of the `n`-th commit. -/
def stamped (env : Env) (n : ℕ) : Str :=
  env.identity ++ ' ' :: ofNat (env.now n) ++ " +0000"

end Env

/-- The file with the original tip. -/
def rebaseHead : Str := "REBASE_HEAD"

/-- The file with the upstream commit. -/
def rebaseOnto : Str := "REBASE_ONTO"

/-- The file with the commits that are left. -/
def rebaseTodo : Str := "REBASE_TODO"

/-- The first digits of an identifier. -/
def short (id : ObjectId) : Str := id.toHex.take 12

/-- The error with which `rebase` stops at a conflict. -/
def conflictAt (c : ObjectId) : GytError :=
  .repo ["rebase: conflicts replaying ", .str (short c),
    ". Resolve files and re-commit, then run `gyt rebase --abort` to give up."]

/-- The error with which `rebase --continue` stops at a conflict. -/
def continueConflictAt (c : ObjectId) : GytError :=
  .repo ["rebase --continue: conflicts replaying ", .str (short c),
    ". Resolve and re-run."]

/-- The contents with conflict markers, by path. -/
abbrev ConflictBlobs := Std.TreeMap RelPath Bytes

variable {W : Type} (hashBytes : Hash) (os : Os W) (fuel : ℕ) (env : Env)

/-! ## Replaying a commit -/

/-- The content of a blob, and nothing if it cannot be read. -/
def blobOrDefault (id : ObjectId) : Cmd W Bytes :=
  gets fun repo => (Blob.read repo.objects id).toOption.getD []

/-- The content of a blob that need not exist. -/
def baseBlob : Option FileEntry → Cmd W Bytes
  | some b => blobOrDefault b.2
  | none => pure []

/-- Merging the content of a file that both sides changed. -/
def resolveContent : Resolver (Command (Repo W × ConflictBlobs) GytError) :=
  fun path ours theirs base => do
    let ob ← outer (blobOrDefault ours.2)
    let tb ← outer (blobOrDefault theirs.2)
    let bb ← outer (baseBlob base)
    let merged ← outer (await ((mergeLines fuel bb ob tb).map .ok))
    if merged.clean then
      let bytes := renderWithMarkers merged "ours" "theirs"
      let hash ← outer (writeObjects (Blob.write hashBytes · bytes))
      return .resolved hash
    else
      let bytes := renderWithMarkers merged "HEAD" "picked"
      act fun (repo, blobs) => (.ok (.conflict ours.2 theirs.2), repo, blobs.insert path bytes)

/-- The tree that the changes of a commit are relative to. -/
def baseTree (pc : Commit) : Cmd W ObjectId :=
  match pc.parents with
  | p :: _ => readObjects fun s => (Commit.read s p).map (·.tree)
  | [] => writeObjects (Tree.write hashBytes · [])

/-- Merging the changes of a commit into the files of `cursor`. -/
def mergeReplay (cursor c : ObjectId) : Cmd W (Commit × TreeMerge × ConflictBlobs) := do
  let pc ← readObjects (Commit.read · c)
  let base ← baseTree hashBytes pc
  let cursorCommit ← readObjects (Commit.read · cursor)
  let baseFiles ← walkObjects (flattenTree · base)
  let oursFiles ← walkObjects (flattenTree · cursorCommit.tree)
  let theirsFiles ← walkObjects (flattenTree · pc.tree)
  let (tm, blobs) ← withLocal ∅
    (mergeTrees baseFiles oursFiles theirsFiles (resolveContent hashBytes fuel))
  return (pc, tm, blobs)

/-- The commit that takes the place of a replayed one. -/
def replayed (pc : Commit) (tree cursor : ObjectId) (committer : Str) : Commit where
  tree := tree
  parents := [cursor]
  authors := pc.authors
  committer := committer
  aiAssists := pc.aiAssists
  reviewers := pc.reviewers
  signature := none
  message := pc.message

/-- Writing the commit that takes the place of a replayed one, the `n`-th of the command. -/
def commitReplayed (n : ℕ) (pc : Commit) (tree cursor : ObjectId) : Cmd W ObjectId := do
  let new ← lift (Signing.maybeSignCommit env.config env.sign
    (replayed pc tree cursor (env.stamped n)) false)
  writeCommit hashBytes new

/-- Replaying a commit that merged without conflicts. -/
def replayClean (n : ℕ) (pc : Commit) (cursor : ObjectId) (merged : FileMap) :
    Cmd W ObjectId := do
  applyFilesToWorkdir os merged
  writeIndexFromMap merged
  let tree ← writeTreeFromMap hashBytes merged
  commitReplayed hashBytes env n pc tree cursor

/-- Writing a file with conflict markers. -/
def writeMarkers (file : RelPath × Bytes) : Cmd W Unit := do
  safeWorkdirPath os file.1
  system (os.createDirAll file.1.dropLast)
  system (os.write file.1 file.2)

/-- Leaving a conflict in the working tree. -/
def leaveConflict (tm : TreeMerge) (blobs : ConflictBlobs) : Cmd W Unit := do
  applyFilesToWorkdir os tm.merged
  writeIndexFromMap tm.merged
  blobs.toList.forM (writeMarkers os)

/-! ## The state of a stopped rebase -/

/-- Writing the state files. -/
def saveState (head onto : ObjectId) (todo : List ObjectId) : Cmd W Unit := do
  atomicWrite rebaseHead (refContent head)
  atomicWrite rebaseOnto (refContent onto)
  atomicWrite rebaseTodo (Utf8.encode (joinLines (todo.map ObjectId.toHex)))

/-- Removing the state files. -/
def clearState : Cmd W Unit := do
  removeFile rebaseHead
  removeFile rebaseOnto
  removeFile rebaseTodo

/-- Reading a file of the repository directory as a text, `read_to_string`. -/
def readToString (fs : RefFiles) (path : Str) : Result Str := do
  let bytes ← fs.readAll path
  okOr (Utf8.decode bytes) (.io .invalidData)

/-- The identifier in a state file. -/
def readStateId (path : Str) (fs : RefFiles) : Result ObjectId := do
  let hex ← readToString fs path
  ObjectId.fromHex (trim hex)

/-- The commits that are left. -/
def readTodo (fs : RefFiles) : Result (List ObjectId) := do
  let text ← readToString fs rebaseTodo
  ((lines text).filter (trim · ≠ [])).mapM fun l => ObjectId.fromHex (trim l)

/-! ## The command -/

/-- How a command ends that does not fail otherwise: with the rebase finished, or at a commit with
conflicts. -/
inductive Outcome where
  | finished
  | stopped (c : ObjectId)
  deriving DecidableEq, Repr

/-- How a replay loop ends: with the last commit that it wrote, or at a commit with conflicts. -/
inductive LoopEnd where
  | done (tip : ObjectId)
  | stopped (c : ObjectId)
  deriving DecidableEq, Repr

/-- Returning an outcome; a stop at a conflict is an error. -/
def report (conflict : ObjectId → GytError) : Outcome → Cmd W Unit
  | .finished => pure ()
  | .stopped c => fail (conflict c)

/-- The replay loop of `rebase`. -/
def replayLoop (current target : ObjectId) : ℕ → ObjectId → List ObjectId → Cmd W LoopEnd
  | _, cursor, [] => pure (.done cursor)
  | n, cursor, c :: rest => do
    let (pc, tm, blobs) ← mergeReplay hashBytes fuel cursor c
    if tm.conflicts = [] then do
      let new ← replayClean hashBytes os env n pc cursor tm.merged
      replayLoop current target (n + 1) new rest
    else do
      saveState current target (c :: rest)
      leaveConflict os tm blobs
      return .stopped c

/-- Moving the branch to a commit. -/
def moveTo (headRef : Str) (target : ObjectId) : Cmd W Unit := do
  writeRef headRef target
  let c ← readObjects (Commit.read · target)
  materializeTree os c.tree

/-- Moving the branch to the end of the replayed commits. -/
def finishLoop (headRef : Str) : LoopEnd → Cmd W Outcome
  | .done tip => do
    writeRef headRef tip
    return .finished
  | .stopped c => return .stopped c

def replayOnto (headRef : Str) (current target : ObjectId) (commits : List ObjectId) :
    Cmd W Outcome := do
  let c ← readObjects (Commit.read · target)
  materializeTree os c.tree
  let loopEnd ← replayLoop hashBytes os fuel env current target 0 target commits
  finishLoop headRef loopEnd

/-- Taking the upstream commit as it is. -/
def takeUpstream (headRef : Str) (target : ObjectId) : Cmd W Outcome := do
  moveTo os headRef target
  return .finished

/-- Replaying the commits of a branch that has diverged from the upstream commit. -/
def replayDiverged (headRef : Str) (current target : ObjectId) (s : Store) : Cmd W Outcome := do
  let base ← lift (okOr (mergeBase s current target)
    (.repo ["rebase: no common ancestor between HEAD and upstream"]))
  if commitsBetween s base current = [] then takeUpstream os headRef target
  else replayOnto hashBytes os fuel env headRef current target (commitsBetween s base current)

/-- Rebasing a branch that has commits. -/
def rebaseBranch (ffOnly : Bool) (headRef : Str) (current target : ObjectId) :
    Cmd W Outcome := do
  let s ← gets (·.objects)
  if current = target then return .finished
  else if Merge.isAncestor s current target then takeUpstream os headRef target
  else if ffOnly then
    fail (.repo ["rebase --ff-only: current is not an ancestor of upstream"])
  else replayDiverged hashBytes os fuel env headRef current target s

/-- The reference that `HEAD` names; a detached `HEAD` is an error. -/
def symbolicHead (detached : GytError) (fs : RefFiles) : Result Str := do
  match ← readHead fs with
  | .symbolic name => return name
  | .detached _ => .error detached

/-- The body of the command `rebase`. -/
def rebase (ffOnly : Bool) (upstreamRev : Str) (target : ObjectId) : Cmd W Outcome := do
  let obj ← readObjects (·.read target)
  lift (ensure (obj.kind = .commit)
    (.invalidArgument ["rebase: ", .str upstreamRev, " is not a commit"]))
  let headRef ← readFiles (symbolicHead (.refs ["rebase does not support detached HEAD"]))
  match ← readFiles (resolve · (.symbolic headRef)) with
  | none => takeUpstream os headRef target
  | some current => rebaseBranch hashBytes os fuel env ffOnly headRef current target

/-- The command `rebase`. -/
def runIn (ffOnly : Bool) (upstreamRev : Str) (target : ObjectId) : Cmd W Unit := do
  let outcome ← rebase hashBytes os fuel env ffOnly upstreamRev target
  report conflictAt outcome

/-! ## Resuming -/

/-- What became of a commit that `--continue` replays. -/
inductive ReplayOutcome where
  | clean (id : ObjectId)
  | conflict
  deriving DecidableEq, Repr

/-- Replaying a commit onto `cursor`. -/
def replayOne (n : ℕ) (cursor c : ObjectId) : Cmd W ReplayOutcome := do
  let (pc, tm, blobs) ← mergeReplay hashBytes fuel cursor c
  if tm.conflicts = [] then do
    let id ← replayClean hashBytes os env n pc cursor tm.merged
    return .clean id
  else do
    leaveConflict os tm blobs
    return .conflict

/-- The replay loop of `rebase --continue`. -/
def continueLoop (headRef : Str) (prevHead onto : ObjectId) :
    ℕ → ObjectId → List ObjectId → Cmd W LoopEnd
  | _, cursor, [] => pure (.done cursor)
  | n, cursor, c :: rest => do
    match ← replayOne hashBytes os fuel env n cursor c with
    | .clean id => continueLoop headRef prevHead onto (n + 1) id rest
    | .conflict => do
      saveState prevHead onto (c :: rest)
      writeRef headRef cursor
      return .stopped c

/-- Committing the index as the resolution of the first commit that is left. -/
def commitResolution (cursor first : ObjectId) : Cmd W ObjectId := do
  let pc ← readObjects (Commit.read · first)
  let idx ← readFiles (Index.read · indexPath)
  let tree ← writeObjects (buildTreeFromIndex hashBytes · idx)
  commitReplayed hashBytes env 0 pc tree cursor

/-- The end of `rebase --continue`. -/
def finishContinue (headRef : Str) (loopEnd : LoopEnd) : Cmd W Outcome := do
  match ← finishLoop headRef loopEnd with
  | .finished => do
    clearState
    return .finished
  | .stopped c => return .stopped c

/-- Resuming with the commits that are left. -/
def resumeWith (prevHead onto first : ObjectId) (rest : List ObjectId) : Cmd W Outcome := do
  let headRef ← readFiles (symbolicHead (.refs ["rebase --continue: detached HEAD"]))
  let cursor ← readFiles fun fs => mapErr
    (fun _ => .repo ["rebase --continue: cannot read ", .str headRef]) (readRef fs headRef)
  let cursor ← commitResolution hashBytes env cursor first
  let loopEnd ← continueLoop hashBytes os fuel env headRef prevHead onto 1 cursor rest
  finishContinue headRef loopEnd

/-- The body of the command `rebase --continue`. -/
def resume : Cmd W Outcome := do
  readFiles fun fs => ensure (fs.exists rebaseTodo) (.repo ["no rebase in progress"])
  let prevHead ← readFiles (readStateId rebaseHead)
  let onto ← readFiles (readStateId rebaseOnto)
  match ← readFiles readTodo with
  | [] => do
    clearState
    fail (.repo ["rebase --continue: TODO is empty"])
  | first :: rest => resumeWith hashBytes os fuel env prevHead onto first rest

/-- The command `rebase --continue`. -/
def runContinue : Cmd W Unit := do
  let outcome ← resume hashBytes os fuel env
  report continueConflictAt outcome

/-! ## Giving up -/

/-- Moving the branch of a symbolic `HEAD` back to its original tip. -/
def restore (prev : ObjectId) : Head → Cmd W Unit
  | .symbolic name => moveTo os name prev
  | .detached _ => pure ()

/-- The command `rebase --abort`. -/
def runAbort : Cmd W Unit := do
  readFiles fun fs => ensure (fs.exists rebaseHead) (.repo ["no rebase in progress"])
  let prev ← readFiles (readStateId rebaseHead)
  let head ← readFiles readHead
  restore os prev head
  clearState

end Gyt.Rebase
