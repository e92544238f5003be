import Gyt.Cmd.Workdir
import Gyt.IndexFile

/-!
# Staging

The commands `add` and `rm` of `cmd/add.rs` and `cmd/rm.rs`, with the walk over the working tree of
`workdir.rs`.  Both read the index, change it in memory and write it back.

File names are byte strings here.  In memory the index has the paths of the operating system; it
compares and stores them as text, in which what is not UTF-8 has been replaced.  The working tree is
seen through the calls of the operating system only, and nothing is assumed about what they return.
The paths that `rm` is given can lead into the repository directory; its files are removed as well,
after the index was written.  Only the files of objects are left out there.
-/

namespace Gyt

open Command Text

/-- A path of the operating system relative to the working tree, as the list of its components. -/
abbrev OsPath := List Bytes

def OsPath.toText (path : OsPath) : RelPath := path.map Utf8.decodeLossy

/-- The path whose components have the given texts. -/
def OsPath.ofText (path : RelPath) : OsPath := path.map Utf8.encode

def forwardSlash (path : OsPath) : Str := pathToStorageString path.toText

/-- What `symlink_metadata` reports. -/
structure Metadata where
  fileType : FileType
  /-- The permission bits. -/
  perm : UInt32
  len : UInt64
  /-- The seconds from the epoch to the last modification; none if it was before the epoch. -/
  modified : Option ℕ
  ctime : Int64
  deriving DecidableEq, Repr

lemma Metadata.fileType_of_map {x : Except IoError Metadata} {t : FileType} {md : Metadata}
    (htype : x.map (·.fileType) = .ok t) (hmd : x = .ok md) : md.fileType = t := by
  rw [hmd] at htype
  exact Except.ok.inj htype

/-- The answers to the question whether to add an ignored file. -/
inductive IgnoredDecision where
  | skip
  | add
  | getDefault
  deriving DecidableEq, Repr

/-- The calls of the operating system on working trees `W` that staging makes. -/
structure WorkOs (W : Type) where
  /-- The path of the working tree. -/
  root : Str
  readDir : OsPath → W → Except IoError (List (Except IoError Bytes))
  symlinkMetadata : OsPath → W → Except IoError Metadata
  /-- The type of an entry of a directory, which can be known where the metadata cannot be read. -/
  fileType : OsPath → W → Except IoError FileType :=
    fun path w => (symlinkMetadata path w).map (·.fileType)
  fileType_eq : ∀ {path w t md}, fileType path w = .ok t → symlinkMetadata path w = .ok md →
    md.fileType = t := by exact Metadata.fileType_of_map
  read : OsPath → W → Except IoError Bytes
  readLink : OsPath → W → Except IoError Bytes
  pathExists : OsPath → W → Bool
  removeFile : OsPath → W → W
  /-- The file of the repository directory that a path leads to, if there is one. -/
  repositoryFile : OsPath → W → Option Str
  /-- Whether there is anything at the path that an argument means in the current directory. -/
  argExists : Str → W → Bool
  /-- The path of an argument without symbolic links; none if it leads out of the working tree. -/
  canonicalize : Str → W → Except IoError (Option OsPath)
  /-- The path that an argument means in the current directory; none if it is outside. -/
  argPath : Str → Option OsPath
  /-- The rules of the ignore file: whether a path is ignored, as a directory or not. -/
  loadIgnore : W → Result (Str → Bool → Bool)
  /-- The answer of the user about an ignored file. -/
  promptIgnored : Str → W → Option IgnoredDecision
  writeDefaultGytignore : W → Except IoError Unit × W

variable {W : Type}

def readWork {α : Type} (f : W → Result α) : Cmd W α := do
  let r ← gets fun repo => f repo.workdir
  lift r

/-! ## The walk over the working tree -/

/-- A file or directory that the walk finds. -/
structure WorkdirEntry where
  path : OsPath
  isDir : Bool
  mode : UInt32
  deriving DecidableEq, Repr

/-- The mode of a file or link. -/
def modeFor (md : Metadata) : UInt32 :=
  if md.fileType = .symlink then modeSymlink
  else if md.perm &&& 0o111 ≠ 0 then modeExec
  else modeFile

/-- The mode of anything in the working tree. -/
def workdirModeFor (md : Metadata) : UInt32 :=
  if md.fileType = .dir then modeDir else modeFor md

section Walk

variable (os : WorkOs W) (ignored : Str → Bool → Bool)

/-- One iteration of `walkRecurse`, with the walk of directories as a parameter. -/
def walkName (walk : OsPath → Cmd W (List WorkdirEntry)) (dir : OsPath)
    (ent : Except IoError Bytes) : Cmd W (List WorkdirEntry) := do
  let name ← lift (ent.mapError .io)
  if Utf8.decodeLossy name = ".gyt" then return []
  else do
    let rel := dir ++ [name]
    let fileType ← readWork fun w => (os.fileType rel w).mapError .io
    let isDir := fileType = .dir
    if ignored (forwardSlash rel) isDir then return []
    else do
      let md ← readWork fun w => (os.symlinkMetadata rel w).mapError .io
      -- The path is made from the text, not from the name.
      let found := ⟨OsPath.ofText rel.toText, isDir, workdirModeFor md⟩
      if isDir then do
        let below ← walk rel
        return found :: below
      else return [found]

/-- What is below a directory, down to the given depth. -/
def walkRecurse : ℕ → OsPath → Cmd W (List WorkdirEntry)
  | 0, _ => await none
  | depth + 1, dir => do
    let names ← readWork fun w => (os.readDir dir w).mapError fun e => .repo
      ["failed to read directory ", .str (os.root ++ '/' :: forwardSlash dir), ": ", .io e]
    let found ← names.mapM (walkName os ignored (walkRecurse depth) dir)
    return found.flatten

/-- What is in the working tree, in the order of the paths. -/
def walk (depth : ℕ) : Cmd W (List WorkdirEntry) := do
  let found ← walkRecurse os ignored depth []
  return found.insertionSort (·.path ≤ ·.path)

end Walk

/-! ## The index in memory -/

/-- An entry of the index in memory. -/
structure StagedEntry where
  ctimeSecs : Int64
  mtimeSecs : Int64
  size : UInt64
  mode : UInt32
  hash : ObjectId
  path : OsPath
  deriving DecidableEq, Repr

namespace StagedEntry

def stored (e : StagedEntry) : IndexEntry :=
  ⟨e.ctimeSecs, e.mtimeSecs, e.size, e.mode, e.hash, e.path.toText⟩

def ofStored (e : IndexEntry) : StagedEntry :=
  ⟨e.ctimeSecs, e.mtimeSecs, e.size, e.mode, e.hash, OsPath.ofText e.path⟩

/-- The bytes by which paths are compared. -/
def key (e : StagedEntry) : Bytes := pathStorageBytes e.path.toText

end StagedEntry

/-- The index in memory. -/
abbrev Staged := List StagedEntry

namespace Staged

def find (idx : Staged) (path : OsPath) : Option StagedEntry :=
  List.find? (·.key = pathStorageBytes path.toText) idx

def insert (entry : StagedEntry) : Staged → Staged
  | [] => [entry]
  | e :: idx => if e.key = entry.key then entry :: idx else e :: insert entry idx

/-- Removing the entries of a path. -/
def remove (path : OsPath) (idx : Staged) : Staged :=
  List.filter (·.key ≠ pathStorageBytes path.toText) idx

def toIndex (idx : Staged) : Index := ⟨List.map StagedEntry.stored idx⟩

def read : Cmd W Staged := do
  let idx ← readFiles (Index.read · indexPath)
  return idx.entries.map .ofStored

/-- Writing the index. -/
def write (idx : Staged) : Cmd W Unit := do
  let bytes ← lift idx.toIndex.toBytes
  atomicWrite indexPath bytes

end Staged

/-- How the commands end if they do not fail. -/
inductive StageOutcome where
  | usage
  /-- The index was written with these entries, and then these files of the repository directory
  were removed. -/
  | wrote (entries : Staged) (removed : List Str)
  deriving DecidableEq, Repr

variable (hashBytes : Hash) (os : WorkOs W)

/-! ## Adding -/

namespace Add

/-- What the command line asks for. -/
structure Options where
  all : Bool
  paths : List Str
  deriving DecidableEq, Repr

/-- Parsing the command line; none if the usage is asked for. -/
def parseArgs : List Str → Options → Result (Option Options)
  | [], opts => .ok (some opts)
  | arg :: args, opts =>
    if arg = "--help" ∨ arg = "-h" then .ok none
    else if arg = "-A" ∨ arg = "--all" then parseArgs args { opts with all := true }
    else if arg.head? = some '-' then
      .error (.invalidArgument ["add: unknown flag ", .str arg])
    else parseArgs args { opts with paths := opts.paths ++ [arg] }

/-- The times of a file in seconds: of its last modification and of its last change. -/
def times (md : Metadata) : Int64 × Int64 := ((md.modified.map Int64.ofNat).getD 0, md.ctime)

/-- Storing the content of a file, or the target of a link. -/
def writeContent (path : OsPath) (md : Metadata) : Cmd W ObjectId := do
  if md.fileType = .symlink then do
    let target ← readWork fun w => (os.readLink path w).mapError .io
    writeObjects (Blob.write hashBytes · (Utf8.encode (Utf8.decodeLossy target)))
  else do
    let bytes ← readWork fun w => (os.read path w).mapError .io
    writeObjects (Blob.write hashBytes · bytes)

def stageOne (idx : Staged) (ent : WorkdirEntry) : Cmd W Staged := do
  if ent.isDir then return idx
  else do
    let md ← readWork fun w => (os.symlinkMetadata ent.path w).mapError .io
    let hash ← writeContent hashBytes os ent.path md
    let (mtimeSecs, ctimeSecs) := times md
    return idx.insert ⟨ctimeSecs, mtimeSecs, md.len, ent.mode, hash, ent.path⟩

/-- The path that an argument leads to. -/
def locate (arg : Str) : Cmd W OsPath := do
  let found ← gets fun repo => os.argExists arg repo.workdir
  lift (ensure found (.notFound ["path ", .str arg]))
  let path ← readWork fun w => (os.canonicalize arg w).mapError .io
  lift (okOr path (.invalidArgument ["path ", .str arg, " is outside the repository"]))

/-- Whether a path is at or below another one, as texts. -/
def inSubtree (rel path : Str) : Bool :=
  rel.isEmpty || path = rel || (rel ++ ['/']).isPrefixOf path

/-- Whether an ignored file is to be added nevertheless. -/
def addIgnored (rel : Str) : Cmd W Bool := do
  let decision ← gets fun repo => os.promptIgnored rel repo.workdir
  match decision with
  | some .add => return true
  | some .getDefault => do
    let _ ← attempt (system os.writeDefaultGytignore)
    let ignored ← readWork os.loadIgnore
    return !ignored rel false
  | some .skip | none => return false

/-- Whether a single file is to be added. -/
def wanted (ignored : Str → Bool → Bool) (rel : Str) : Cmd W Bool := do
  if ignored rel false then addIgnored os rel else return true

/-- The files that an argument asks for. -/
def selectArg (depth : ℕ) (ignored : Str → Bool → Bool) (arg : Str) :
    Cmd W (List WorkdirEntry) := do
  if arg = "." then walk os ignored depth
  else do
    let rel ← locate os arg
    let md ← readWork fun w => (os.symlinkMetadata rel w).mapError .io
    if md.fileType = .dir then do
      let found ← walk os ignored depth
      return found.filter fun ent => inSubtree (forwardSlash rel) (forwardSlash ent.path)
    else if ← wanted os ignored (forwardSlash rel) then return [⟨rel, false, modeFor md⟩]
    else return []

/-- Staging the files that an argument asks for. -/
def stageArg (depth : ℕ) (ignored : Str → Bool → Bool) (idx : Staged) (arg : Str) :
    Cmd W Staged := do
  let found ← selectArg os depth ignored arg
  found.foldlM (stageOne hashBytes os) idx

/-- Staging everything, and unstaging what is gone. -/
def stageAll (depth : ℕ) (ignored : Str → Bool → Bool) (idx : Staged) : Cmd W Staged := do
  let found ← walk os ignored depth
  let idx ← found.foldlM (stageOne hashBytes os) idx
  let gone ← gets fun repo => List.filter (fun e => !os.pathExists e.path repo.workdir) idx
  return gone.foldl (fun idx e => idx.remove e.path) idx

/-- Staging what the command line asks for. -/
def stage (depth : ℕ) (ignored : Str → Bool → Bool) (opts : Options) (idx : Staged) :
    Cmd W Staged := do
  if opts.all then stageAll hashBytes os depth ignored idx
  else do
    lift (ensure (opts.paths ≠ []) (.invalidArgument ["add: at least one path required"]))
    opts.paths.foldlM (stageArg hashBytes os depth ignored) idx

/-- The command.  The depth bounds the nesting of directories. -/
def run (depth : ℕ) (args : List Str) : Cmd W StageOutcome := do
  match ← lift (parseArgs args ⟨false, []⟩) with
  | none => return .usage
  | some opts => do
    let ignored ← readWork os.loadIgnore
    let idx ← Staged.read
    let idx ← stage hashBytes os depth ignored opts idx
    Staged.write idx
    return .wrote idx []

end Add

/-! ## Removing -/

namespace Rm

/-- What the command line asks for. -/
structure Options where
  force : Bool
  paths : List Str
  deriving DecidableEq, Repr

/-- Parsing the command line; none if the usage is asked for. -/
def parseArgs : List Str → Options → Result (Option Options)
  | [], opts => .ok (some opts)
  | arg :: args, opts =>
    if arg = "--help" ∨ arg = "-h" then .ok none
    else if arg = "-f" ∨ arg = "--force" then
      parseArgs args { opts with force := true }
    else if arg.head? = some '-' then
      .error (.invalidArgument ["rm: unknown flag ", .str arg])
    else parseArgs args { opts with paths := opts.paths ++ [arg] }

/-- The index, and the files that will be removed from the working tree. -/
structure Plan where
  idx : Staged
  unlinks : List OsPath

/-- Unstaging a path whose file, if there is one, is removed as well. -/
def Plan.drop (plan : Plan) (path : OsPath) (unlink : Bool) : Plan :=
  ⟨plan.idx.remove path, plan.unlinks ++ if unlink then [path] else []⟩

/-- Removing everything that is staged. -/
def planAll (plan : Plan) : Cmd W Plan := do
  gets fun repo => List.foldl
    (fun plan e => plan.drop e.path (os.pathExists e.path repo.workdir)) plan
    plan.idx

/-- Refusing to remove a directory. -/
def checkFile (arg : Str) (path : OsPath) : Cmd W Unit := do
  let md ← readWork fun w => (os.symlinkMetadata path w).mapError .io
  lift (ensure (md.fileType ≠ .dir) (.invalidArgument ["gyt rm: '", .str arg,
    "' is a directory (use \x60gyt add\x60 to unstage, then remove contents manually)"]))

/-- Removing the file that an argument means. -/
def planPath (force : Bool) (plan : Plan) (arg : Str) : Cmd W Plan := do
  let path ← lift (okOr (os.argPath arg)
    (.invalidArgument ["path ", .str arg, " is outside the repository"]))
  let present ← gets fun repo => os.pathExists path repo.workdir
  if present then do
    checkFile os arg path
    return plan.drop path true
  else do
    lift (ensure force (if (plan.idx.find path).isSome then
        .invalidArgument ["gyt rm: '", .str arg, "' is staged; use -f to force remove"]
      else .notFound ["path ", .str arg,
        ": not found (use -f to remove from index anyway)"]))
    return plan.drop path false

/-- One iteration over the arguments. -/
def planArg (force : Bool) (plan : Plan) (arg : Str) : Cmd W Plan :=
  if arg = "." then planAll os plan else planPath os force plan arg

/-- Removing a file, which may be one of the repository directory; a failure is no error. -/
def unlink (path : OsPath) : Cmd W (Option Str) :=
  act fun repo =>
    let name := os.repositoryFile path repo.workdir
    (.ok name, { repo with
      files := name.elim repo.files repo.files.remove
      workdir := os.removeFile path repo.workdir })

/-- What the command does before it unlinks files. -/
def prepare (opts : Options) : Cmd W Plan := do
  lift (ensure (opts.paths ≠ []) (.invalidArgument ["rm: at least one path required"]))
  let idx ← Staged.read
  let plan ← opts.paths.foldlM (planArg os opts.force) ⟨idx, []⟩
  Staged.write plan.idx
  return plan

def run (args : List Str) : Cmd W StageOutcome := do
  if args.any fun a => a = "--help" ∨ a = "-h" then return .usage
  else
    match ← lift (parseArgs args ⟨false, []⟩) with
    | none => return .usage
    | some opts => do
      let plan ← prepare os opts
      let removed ← plan.unlinks.mapM (unlink os)
      return .wrote plan.idx removed.reduceOption

end Rm

end Gyt
