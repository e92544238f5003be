import Gyt.Cmd.Rebase
import Gyt.Cmd.Revision

/-!
# Merging

The command `gyt merge`, `cmd/merge.rs`: a fast-forward if the target is a descendant of `HEAD`, and
otherwise a three-way merge, which makes a commit or leaves its conflicts in the working tree.

The lock of the repository is held throughout, and the reference logs and what is printed are left
out.  The bound `fuel` is that of the merge of lines.
-/

namespace Gyt.Merge

open Command Text Merge3

/-- The file with the commit that is being merged. -/
def mergeHead : Str := "MERGE_HEAD"

/-- The file with the message of a commit in progress. -/
def mergeMsg : Str := "MERGE_MSG"

/-- The first digits of an identifier. -/
def short (id : ObjectId) : Str := id.toHex.take 12

variable {W : Type} (hashBytes : Hash) (os : Os W) (fuel : ℕ) (env : Rebase.Env)

/-- Moving the branch, or a detached `HEAD`, to a commit. -/
def moveHead (target : ObjectId) : Head → Cmd W Unit
  | .symbolic name => writeRef name target
  | .detached _ => writeHead (.detached target)

/-! ## Fast-forwards -/

/-- Bringing the working tree and the index to the tree of a commit. -/
def materializeCommit (commitId : ObjectId) : Cmd W Unit := do
  let c ← readObjects (Commit.read · commitId)
  materializeTree os c.tree

def ffFastForward (head : Head) (target : ObjectId) : Cmd W Unit := do
  moveHead target head
  materializeCommit os target

/-! ## Three-way merges -/

/-- The texts with conflict markers, in the order in which they were found. -/
abbrev ConflictRender := List (RelPath × Bytes)

/-- Merging the content of a file that both sides changed. -/
def resolveContent : Resolver (Command (Repo W × ConflictRender) GytError) :=
  fun path ours theirs base => do
    let ob ← outer (gets fun repo => Blob.read repo.objects ours.2)
    let tb ← outer (gets fun repo => Blob.read repo.objects theirs.2)
    match ob, tb with
    | .ok ob, .ok tb => do
      let bb ← outer (Rebase.baseBlob base)
      let merged ← outer (await ((mergeLines fuel bb ob tb).map .ok))
      let bytes := renderWithMarkers merged "ours" "theirs"
      if merged.clean then
        let hash ← outer (writeObjects (Blob.write hashBytes · bytes))
        return .resolved hash
      else
        act fun (repo, paths) =>
          (.ok (.conflict ours.2 theirs.2), repo, paths ++ [(path, bytes)])
    | _, _ => return .conflict ours.2 theirs.2

def kindText : ConflictKind → String
  | .addAdd => "add/add"
  | .modifyDelete => "modify/delete"
  | .content => "content"
  | .mode => "mode"

/-- One side of a conflict in the marker file. -/
def appendSide (s : Store) (mode : UInt32) (hash : ObjectId) : Bytes :=
  match Blob.read s hash with
  | .ok bytes => if bytes.getLast? = some 0x0a then bytes else bytes ++ [0x0a]
  | .error _ => Utf8.encode ("mode=" ++ Tree.modeText mode ++ ' ' :: hash.toHex ++
      " (blob unreadable)\n")

def renderSide (s : Store) (missing : String) : Option FileEntry → Bytes
  | some e => appendSide s e.1 e.2
  | none => Utf8.encode missing.toList

def renderBase : Option FileEntry → Bytes
  | some e => Utf8.encode ("||||||| base\n" ++ "mode=" ++ Tree.modeText e.1 ++
      ' ' :: e.2.toHex ++ ['\n'])
  | none => []

/-- The marker file of a conflict that is not one of lines. -/
def renderTreeConflictMarker (s : Store) (c : TreeConflict) : Bytes :=
  Utf8.encode ("<<<<<<< CONFLICT (" ++ (kindText c.kind).toList ++ "): " ++
      pathToStorageString c.path ++ "\n<<<<<<< ours\n") ++
    renderSide s "(deleted on our side)\n" c.ours ++ renderBase c.base ++
    Utf8.encode "=======\n" ++ renderSide s "(deleted on their side)\n" c.theirs ++
    Utf8.encode ">>>>>>> theirs\n"

/-- Writing the marker file of a conflict for which there is none yet. -/
def writeTreeConflict (rendered : ConflictRender) (c : TreeConflict) : Cmd W Unit :=
  if (rendered.map Prod.fst).contains c.path then pure ()
  else do
    let bytes ← gets fun repo => renderTreeConflictMarker repo.objects c
    safeWorkdirWrite os c.path bytes

def kindName : ConflictKind → String
  | .addAdd => "AddAdd"
  | .modifyDelete => "ModifyDelete"
  | .content => "Content"
  | .mode => "Mode"

/-- The list of conflicts in error messages. -/
def conflictList (conflicts : List TreeConflict) : Str :=
  List.intercalate ['\n'] (conflicts.map fun c => "  " ++ (kindName c.kind).toList ++
    ": " ++ pathToStorageString c.path)

/-- The error with which a merge ends that left conflicts. -/
def conflictsLeft (conflicts : List TreeConflict) : GytError :=
  .repo ["merge: conflicts (left in workdir; resolve and re-commit):\n",
    .str (conflictList conflicts)]

/-- Leaving conflicts in the working tree. -/
def leaveConflicts (theirs : ObjectId) (message : Str) (tm : TreeMerge)
    (rendered : ConflictRender) : Cmd W Unit := do
  applyFilesToWorkdir os tm.merged
  writeIndexFromMap tm.merged
  atomicWrite mergeHead (refContent theirs)
  rendered.forM fun file => safeWorkdirWrite os file.1 file.2
  tm.conflicts.forM (writeTreeConflict os rendered)
  atomicWrite mergeMsg (Utf8.encode message)

def mergeCommit (tree ours theirs : ObjectId) (stamped message : Str) : Commit where
  tree := tree
  parents := [ours, theirs]
  authors := [stamped]
  committer := stamped
  aiAssists := []
  reviewers := []
  signature := none
  message := message

/-- Making the commit of a merge without conflicts. -/
def commitMerge (head : Head) (ours theirs : ObjectId) (message : Str) (merged : FileMap) :
    Cmd W Unit := do
  applyFilesToWorkdir os merged
  writeIndexFromMap merged
  let tree ← writeTreeFromMap hashBytes merged
  let c ← lift (Signing.maybeSignCommit env.config env.sign
    (mergeCommit tree ours theirs (env.stamped 0) message) false)
  let id ← writeCommit hashBytes c
  moveHead id head

/-- The files of the base and of the two sides of a merge. -/
def mergeInputs (ours theirs : ObjectId) : Cmd W (FileMap × FileMap × FileMap) := do
  let s ← gets (·.objects)
  let base ← lift (okOr (mergeBase s ours theirs)
    (.repo ["merge: no common ancestor between HEAD and target"]))
  let baseCommit ← readObjects (Commit.read · base)
  let oursCommit ← readObjects (Commit.read · ours)
  let theirsCommit ← readObjects (Commit.read · theirs)
  let baseFiles ← walkObjects (flattenTree · baseCommit.tree)
  let oursFiles ← walkObjects (flattenTree · oursCommit.tree)
  let theirsFiles ← walkObjects (flattenTree · theirsCommit.tree)
  return (baseFiles, oursFiles, theirsFiles)

def threeWayMerge (head : Head) (ours theirs : ObjectId) (message : Str) : Cmd W Unit := do
  let (baseFiles, oursFiles, theirsFiles) ← mergeInputs ours theirs
  let (tm, rendered) ← withLocal []
    (mergeTrees baseFiles oursFiles theirsFiles (resolveContent hashBytes fuel))
  if tm.conflicts = [] then commitMerge hashBytes os env head ours theirs message tm.merged
  else do
    leaveConflicts os theirs message tm rendered
    fail (conflictsLeft tm.conflicts)

/-! ## The command -/

/-- Merging into a branch that has commits. -/
def mergeInto (ffOnly noFf : Bool) (message : Option Str) (head : Head)
    (current target : ObjectId) : Cmd W Unit := do
  let s ← gets (·.objects)
  if current = target then pure ()
  else if isAncestor s target current then pure ()
  else if isAncestor s current target ∧ noFf = false then ffFastForward os head target
  else if ffOnly then
    fail (.repo [.lit
      "merge: cannot fast-forward — divergent histories (rerun without --ff-only)"])
  else
    threeWayMerge hashBytes os fuel env head current target
      (message.getD ("Merge " ++ short target ++ " into HEAD"))

/-- The command `merge`, under the lock on the repository. -/
def runInInner (ffOnly noFf : Bool) (message : Option Str) (rev : Str) : Cmd W Unit := do
  lift (ensure (¬(ffOnly = true ∧ noFf = true))
    (.invalidArgument ["merge: --ff-only and --no-ff are mutually exclusive"]))
  let resolved ← gets fun repo => resolveRev repo.objects repo.files rev
  let target ← lift resolved
  let head ← readFiles readHead
  match ← readFiles (resolve · head) with
  | none => ffFastForward os head target
  | some current => mergeInto hashBytes os fuel env ffOnly noFf message head current target

end Gyt.Merge
