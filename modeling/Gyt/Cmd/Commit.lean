import Gyt.Cmd.Workdir
import Gyt.ConfigFile
import Gyt.Object.Closure
import Gyt.Signing

/-!
# Committing

The command `commit` of `cmd/commit.rs`: it builds the tree of the index and writes a commit on top
of the one that `HEAD` denotes, or in its place.

The texts of a commit come from the command line, from the configuration and from the environment.
Those from the command line are checked for control bytes, the identity of the user is not.
-/

namespace Gyt.CommitCmd

open Command Text

/-! ## The command line -/

/-- What the command line asks for. -/
structure Options where
  message : Option Str
  aiAssists : List Str
  coAuthors : List Str
  reviewers : List Str
  amend : Bool
  allowEmpty : Bool
  sign : Bool
  deriving DecidableEq, Repr

/-- The options without arguments. -/
def Options.init : Options := ⟨none, [], [], [], false, false, false⟩

/-- The options that take a value. -/
inductive ValueFlag where
  | message
  | ai
  | coAuthor
  | reviewer
  deriving DecidableEq, Repr

def ValueFlag.name : ValueFlag → String
  | .message => "-m"
  | .ai => "--ai"
  | .coAuthor => "--co-author"
  | .reviewer => "--reviewer"

/-- The option with the given text. -/
def ValueFlag.parse (a : Str) : Option ValueFlag :=
  if a = "-m" ∨ a = "--message" then some .message
  else if a = "--ai" then some .ai
  else if a = "--co-author" then some .coAuthor
  else if a = "--reviewer" then some .reviewer
  else none

def isControlByte (b : UInt8) : Bool := b < 0x20 || b == 0x7f

/-- The check of a value that goes into a line of its own. -/
def rejectControlBytes (flag : ValueFlag) (value : Str) : Result Unit :=
  match (Utf8.encode value).find? isControlByte with
  | some b => .error (.invalidArgument
      ["commit: ", .lit flag.name, " value contains control byte 0x", .hex02 b])
  | none => .ok ()

def Options.add (opts : Options) (value : Str) : ValueFlag → Result Options
  | .message => .ok { opts with message := some value }
  | .ai => do
    rejectControlBytes .ai value
    return { opts with aiAssists := opts.aiAssists ++ [value] }
  | .coAuthor => do
    rejectControlBytes .coAuthor value
    return { opts with coAuthors := opts.coAuthors ++ [value] }
  | .reviewer => do
    rejectControlBytes .reviewer value
    return { opts with reviewers := opts.reviewers ++ [value] }

/-- Parsing the command line; none if the usage is asked for. -/
def parseArgs : List Str → Options → Result (Option Options)
  | [], opts => .ok (some opts)
  | a :: rest, opts =>
    if a = "--help" ∨ a = "-h" then .ok none
    else if a = "--amend" then parseArgs rest { opts with amend := true }
    else if a = "--allow-empty" then parseArgs rest { opts with allowEmpty := true }
    else if a = "--sign" ∨ a = "-S" then parseArgs rest { opts with sign := true }
    else
      match ValueFlag.parse a, rest with
      | none, _ => .error (.invalidArgument ["commit: unexpected argument ", .str a])
      | some flag, [] => .error (.invalidArgument
          ["commit: ", .lit flag.name, " requires a value"])
      | some flag, value :: rest => do
        let opts ← opts.add value flag
        parseArgs rest opts

/-! ## The tree -/

variable {W : Type} (hashBytes : Hash)

/-- The object that `HEAD` denotes. -/
def resolveHead (fs : RefFiles) : Result ObjectId := do
  let head ← readHead fs
  let id ← resolve fs head
  okOr id (.refs ["HEAD has no commit yet"])

/-- The tree of an object, along tags; a loop of tags would not end. -/
def resolveTreeFrom (s : Store) : ℕ → ObjectId → Option (Result ObjectId)
  | 0, _ => none
  | fuel + 1, id =>
    match s.read id with
    | .error e => some (.error e)
    | .ok ⟨.commit, payload⟩ => some ((Commit.decode payload).map (·.tree))
    | .ok ⟨.tree, _⟩ => some (.ok id)
    | .ok ⟨.tag, payload⟩ =>
      match Tag.decode payload with
      | .ok t => resolveTreeFrom s fuel t.target
      | .error e => some (.error e)
    | .ok ⟨.blob, _⟩ =>
      some (.error (.object ["rev HEAD resolves to a blob, not a tree"]))

/-- The tree of `HEAD`. -/
def resolveTree : Cmd W ObjectId := do
  let id ← readFiles resolveHead
  walkObjects fun s => resolveTreeFrom s (s.entries.length + 1) id

/-- Whether there is nothing to remove from the tree of `HEAD`. -/
def headTreeEmpty : Cmd W Bool := do
  match ← attempt resolveTree with
  | .ok id => gets fun repo => ((Tree.read repo.objects id).toOption.map (·.isEmpty)).getD true
  | .error _ => return true

/-- Refusing to commit nothing. -/
def checkChanged (opts : Options) (index : Index) : Cmd W Unit := do
  if !opts.allowEmpty && !opts.amend && index.entries.isEmpty then do
    if ← headTreeEmpty then fail (.repo ["nothing to commit"])
  else return ()

def buildTree (opts : Options) (index : Index) : Cmd W ObjectId := do
  if index.entries.isEmpty && opts.allowEmpty then do
    match ← attempt resolveTree with
    | .ok id => return id
    | .error _ => writeObjects (Tree.write hashBytes · [])
  else writeObjects (buildTreeFromIndex hashBytes · index)

/-! ## The commit -/

def parentsAndMessage (opts : Options) (parent : Option ObjectId) :
    Cmd W (List ObjectId × Str) := do
  if opts.amend then do
    let prevId ← lift (okOr parent (.repo ["cannot amend: HEAD has no commit yet"]))
    let prev ← readObjects (Commit.read · prevId)
    return (prev.parents, opts.message.getD prev.message)
  else do
    let message ← lift (okOr opts.message (.invalidArgument ["commit: -m <msg> is required"]))
    return (parent.toList, message)

def stamped (identity : Str) (secs : ℕ) : Str := identity ++ ' ' :: ofNat secs ++ " +0000"

def newCommit (opts : Options) (stamp : Str) (tree : ObjectId) (parents : List ObjectId)
    (message : Str) : Commit :=
  ⟨tree, parents, stamp :: opts.coAuthors, stamp, opts.aiAssists, opts.reviewers, none, message⟩

/-- Signing the commit if the command line asks for it. -/
def signCommit (sign : Bytes → Result Bytes) (opts : Options) (c : Commit) : Result Commit :=
  if opts.sign then do
    let sig ← sign (Signing.commitPayloadWithoutSig c)
    return { c with signature := some (Signing.base64Encode sig) }
  else .ok c

/-- Moving the branch or the detached `HEAD`. -/
def advance (head : Head) (id : ObjectId) : Cmd W Unit :=
  match head with
  | .symbolic name => writeRef name id
  | .detached _ => writeHead (.detached id)

/-- How the command ends if it does not fail. -/
inductive Outcome where
  | usage
  | committed (id : ObjectId)
  deriving DecidableEq, Repr

variable (env : Config.Environment) (secs : ℕ) (sign : Bytes → Result Bytes)

/-- Committing with parsed options. -/
def commit (opts : Options) : Cmd W Outcome := do
  let cfg ← readFiles (Config.load env)
  let identity ← lift cfg.identity
  let index ← readFiles (Index.read · indexPath)
  checkChanged opts index
  let tree ← buildTree hashBytes opts index
  let head ← readFiles readHead
  let parent ← readFiles (resolve · head)
  let (parents, message) ← parentsAndMessage opts parent
  lift (ensure (¬(cfg.signRequired ∧ !opts.sign))
    (.repo ["this repository requires signed commits; use --sign (-S)"]))
  let c ← lift (signCommit sign opts
    (newCommit opts (stamped identity secs) tree parents message))
  let id ← writeCommit hashBytes c
  advance head id
  return .committed id

def run (args : List Str) : Cmd W Outcome := do
  match ← lift (parseArgs args .init) with
  | none => return .usage
  | some opts => commit hashBytes env secs sign opts

end Gyt.CommitCmd
