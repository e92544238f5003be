import Gyt.Repo

/-!
# The working tree

How commands bring the working tree and the index to a map of files: `workdir.rs` and the functions
of this purpose that several commands share.
-/

namespace Gyt

open Command Text

def Blob.read (s : Store) (id : ObjectId) : Result Bytes := do
  let obj ← s.read id
  ensure (obj.kind = .blob) (.object ["expected blob, got ", .str obj.kind.asStr])
  return obj.payload

def Blob.write (hashBytes : Hash) (s : Store) (payload : Bytes) : Store × ObjectId :=
  s.writeBytes hashBytes .blob payload

/-- Writing a tree with one file. -/
def writeSampleFile (s : Store) (name content : Bytes) : Store × ObjectId :=
  let blob := Blob.write sampleHash s content
  Tree.write sampleHash blob.1 [⟨modeFile, name, blob.2⟩]

def indexPath : Str := "index"

/-- Validating the target of a symbolic link. -/
def validateSymlinkTarget (target : Str) : Result Unit := do
  let len := (Utf8.encode target).length
  ensure (target ≠ []) (.object ["symlink: empty target"])
  ensure (len ≤ 4096) (.object ["symlink: target length ", .num len, " exceeds 4096"])
  ensure (Char.ofNat 0 ∉ target) (.object ["symlink: NUL in target"])
  ensure (target.head? ≠ some '/')
    (.object ["symlink: absolute target ", .debug target, " not allowed"])
  ensure (['.', '.'] ∉ split '/' target)
    (.object ["symlink: target ", .debug target, " contains parent reference"])

variable {W : Type} (os : Os W)

/-- The error of a path that leads through a symbolic link. -/
def symlinkAncestor (path : RelPath) : GytError :=
  .repo ["safe_workdir_path: ancestor ", .str (os.root ++ '/' :: pathToStorageString path),
    " is a symlink"]

/-- Refusing a path of which a proper part is a symbolic link, `safe_workdir_path`. -/
def safeWorkdirPath (path : RelPath) : Cmd W Unit :=
  (path.dropLast.inits.drop 1).forM fun dir => do
    let ft ← gets fun repo => os.fileType dir repo.workdir
    if ft = some .symlink then fail (symlinkAncestor os dir) else pure ()

/-- Writing a symbolic link in the place of whatever file is there. -/
def writeSymlink (path : RelPath) (bytes : Bytes) : Cmd W Unit := do
  let target ← lift (okOr (Utf8.decode bytes) (.object ["symlink target is not utf-8"]))
  lift (validateSymlinkTarget target)
  let _ ← attempt (system (os.removeFile path))
  system (os.symlink target path)

/-- Removing a symbolic link. -/
def unlinkSymlink (path : RelPath) : Cmd W Unit := do
  let ft ← gets fun repo => os.fileType path repo.workdir
  if ft = some .symlink then system (os.removeFile path) else pure ()

/-- Writing a regular file, not through a symbolic link. -/
def writeRegular (path : RelPath) (mode : UInt32) (bytes : Bytes) : Cmd W Unit := do
  unlinkSymlink os path
  system (os.write path bytes)
  system (os.setMode path (if mode = modeExec then 0o755 else 0o644))

/-- Writing a text in the place of whatever file or symbolic link is there, `safe_workdir_write`. -/
def safeWorkdirWrite (path : RelPath) (data : Bytes) : Cmd W Unit := do
  safeWorkdirPath os path
  system (os.createDirAll path.dropLast)
  unlinkSymlink os path
  system (os.write path data)

/-- Writing an entry of a map of files to the working tree. -/
def writeWorkdirEntry (path : RelPath) (mode : UInt32) (hash : ObjectId) : Cmd W Unit := do
  let bytes ← readObjects (Blob.read · hash)
  if mode = modeSymlink then writeSymlink os path bytes else writeRegular os path mode bytes

/-- Removing a file that the index has and the new files have not. -/
def removeStale (merged : FileMap) (entry : IndexEntry) : Cmd W Unit := do
  let ft ← gets fun repo => os.fileType entry.path repo.workdir
  if entry.path ∉ merged ∧ ft.isSome then
    let _ ← attempt (system (os.removeFile entry.path))
  else pure ()

/-- Writing one of the new files. -/
def writeFile (file : TreeFile) : Cmd W Unit := do
  safeWorkdirPath os file.1
  system (os.createDirAll file.1.dropLast)
  writeWorkdirEntry os file.1 file.2.1 file.2.2

/-- Bringing the working tree from the files of the index to the given ones. -/
def applyFilesToWorkdir (merged : FileMap) : Cmd W Unit := do
  let curIndex ← readFiles (Index.read · indexPath)
  curIndex.entries.forM (removeStale os merged)
  merged.toList.forM (writeFile os)

/-- The index with the given files. -/
def indexFromMap (merged : FileMap) : Index :=
  merged.toList.foldl (fun idx (path, mode, hash) => idx.insert ⟨0, 0, 0, mode, hash, path⟩) .new

/-- Writing the index with the given files. -/
def writeIndexFromMap (merged : FileMap) : Cmd W Unit := do
  let bytes ← lift (indexFromMap merged).toBytes
  atomicWrite indexPath bytes

/-- Writing the tree of the given files. -/
def writeTreeFromMap (hashBytes : Hash) (merged : FileMap) : Cmd W ObjectId :=
  writeObjects (buildTreeFromIndex hashBytes · (indexFromMap merged))

/-- Bringing the working tree and the index to a tree. -/
def materializeTree (id : ObjectId) : Cmd W Unit := do
  let files ← walkObjects (flattenTree · id)
  applyFilesToWorkdir os files
  writeIndexFromMap files

/-! ## What changes -/

section Keeps

variable {R : Repo W → Repo W → Prop} [Std.Refl R] [IsTrans (Repo W) R] {paths : List Str}

lemma within_safeWorkdirPath (path : RelPath) : Within R (safeWorkdirPath os path) :=
  within_forM fun _ => (within_gets _).bind fun _ => by
    split
    · exact within_fail _
    · exact within_pure _

lemma within_unlinkSymlink (h : ∀ call, Within R (system call)) (path : RelPath) :
    Within R (unlinkSymlink os path) :=
  (within_gets _).bind fun _ => by
    split
    · exact h _
    · exact within_pure _

lemma within_writeWorkdirEntry (path : RelPath) (mode : UInt32) (hash : ObjectId) :
    Within (Keeps paths) (writeWorkdirEntry os path mode hash) := by
  refine (within_readObjects _).bind fun bytes => ?_
  split
  · exact (within_lift _).bind fun target => (within_lift _).bind fun _ =>
      (within_system _).attempt.bind fun _ => within_system _
  · exact (within_unlinkSymlink os within_system path).bind fun _ =>
      (within_system _).bind fun _ => within_system _

lemma within_applyFilesToWorkdir (merged : FileMap) :
    Within (Keeps paths) (applyFilesToWorkdir os merged) := by
  refine (within_readFiles _).bind fun idx => Within.bind ?_ fun _ => ?_
  · refine within_forM fun entry => (within_gets _).bind fun ft => ?_
    split
    · exact (within_system _).attempt.bind fun _ => within_pure _
    · exact within_pure _
  · exact within_forM fun file => (within_safeWorkdirPath os file.1).bind fun _ =>
      (within_system _).bind fun _ => within_writeWorkdirEntry os _ _ _

lemma within_writeIndexFromMap (hindex : indexPath ∈ paths) (merged : FileMap) :
    Within (Keeps paths) (writeIndexFromMap merged : Cmd W Unit) :=
  (within_lift _).bind fun _ => within_atomicWrite hindex _

lemma within_writeTreeFromMap (hashBytes : Hash) (merged : FileMap) :
    Within (Keeps paths) (writeTreeFromMap hashBytes merged : Cmd W ObjectId) :=
  within_writeObjects fun s => sameCommits_buildTreeFromIndex hashBytes s _

lemma within_materializeTree (hindex : indexPath ∈ paths) (id : ObjectId) :
    Within (Keeps paths) (materializeTree os id) :=
  (within_walkObjects _).bind fun files => (within_applyFilesToWorkdir os files).bind fun _ =>
    within_writeIndexFromMap hindex files

end Keeps

end Gyt
