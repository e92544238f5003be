import Gyt.Foundation.Command
import Gyt.Graph
import Gyt.Index
import Gyt.Object.Tree

/-!
# Trees and flat lists of files

The two directions between tree objects and flat maps from paths to files, `cmd/util.rs`:
`flattenTree` walks a tree with all its subtrees, and `buildTreeFromIndex` writes the trees of an
index.

`InTree` says what the files of a tree are, and `mem_flattenTree_iff` that flattening finds exactly
these.
-/

namespace Gyt

open Command

/-- A map from the paths of files to their modes and contents, in the order of the paths. -/
abbrev FileMap := Std.TreeMap RelPath (UInt32 × ObjectId)

/-- A file of such a map, with its mode and the identifier of its content. -/
abbrev TreeFile := RelPath × UInt32 × ObjectId

/-! ## Flattening -/

/-- One iteration of `walkTree`, with the walk of subtrees as a parameter. -/
def walkEntry (walk : ObjectId → RelPath → Command FileMap GytError Unit) (pre : RelPath)
    (e : TreeEntry) : Command FileMap GytError Unit := do
  let name ← lift (okOr (Utf8.decode e.name) (.object ["tree entry name is not utf-8"]))
  if e.mode = modeDir then walk e.hash (pre ++ [name])
  else act fun out => (.ok (), out.insert (pre ++ [name]) (e.mode, e.hash))

/-- The walk over a tree that collects its files, down to the given depth. -/
def walkTree (s : Store) : ℕ → ObjectId → RelPath → Command FileMap GytError Unit
  | 0, _, _ => await none
  | depth + 1, id, pre => do
    let entries ← lift (Tree.read s id)
    entries.forM (walkEntry (walkTree s depth) pre)

/-- The files of a tree.  Trees that do not contain themselves are at most as deep as there are
objects; for others the recursion of the source does not end. -/
def flattenTree (s : Store) (id : ObjectId) : Option (Result FileMap) :=
  ((walkTree s (s.entries.length + 1) id []).run ∅).map fun (r, out) => r.map fun _ => out

/-- The files of a tree: the entries that are not subtrees, and the files of the subtrees. -/
inductive InTree (s : Store) : ObjectId → RelPath → Prop
  | file {id : ObjectId} {entries : List TreeEntry} {e : TreeEntry} {name : Str}
      (hread : Tree.read s id = .ok entries) (he : e ∈ entries) (hmode : e.mode ≠ modeDir)
      (hname : Utf8.decode e.name = some name) : InTree s id [name]
  | dir {id : ObjectId} {entries : List TreeEntry} {e : TreeEntry} {name : Str} {path : RelPath}
      (hread : Tree.read s id = .ok entries) (he : e ∈ entries) (hmode : e.mode = modeDir)
      (hname : Utf8.decode e.name = some name) (hpath : InTree s e.hash path) :
      InTree s id (name :: path)

section Flatten

variable {s : Store} {id : ObjectId} {pre path : RelPath} {out out' : FileMap} {depth : ℕ}

/-- The paths that one entry of a tree contributes. -/
def FromEntry (s : Store) (e : TreeEntry) (path : RelPath) : Prop :=
  ∃ name, Utf8.decode e.name = some name ∧
    if e.mode = modeDir then ∃ rest, path = name :: rest ∧ InTree s e.hash rest else path = [name]

/-- The files of a tree are those of its entries. -/
lemma inTree_iff {entries : List TreeEntry} (hread : Tree.read s id = .ok entries) :
    InTree s id path ↔ ∃ e ∈ entries, FromEntry s e path := by
  constructor
  · intro h
    cases h with
    | file hread' he hmode hname =>
      cases hread.symm.trans hread'
      exact ⟨_, he, _, hname, by rw [if_neg hmode]⟩
    | dir hread' he hmode hname hpath =>
      cases hread.symm.trans hread'
      exact ⟨_, he, _, hname, by rw [if_pos hmode]; exact ⟨_, rfl, hpath⟩⟩
  · rintro ⟨e, he, name, hname, hfrom⟩
    split_ifs at hfrom with hmode
    · obtain ⟨rest, rfl, hrest⟩ := hfrom
      exact .dir hread he hmode hname hrest
    · rw [hfrom]
      exact .file hread he hmode hname

/-- What the walk over a tree adds to the map. -/
def Adds (s : Store) (id : ObjectId) (pre : RelPath) (out out' : FileMap) : Prop :=
  ∀ path, path ∈ out' ↔ path ∈ out ∨ ∃ rest, path = pre ++ rest ∧ InTree s id rest

lemma mem_insert_iff {v : UInt32 × ObjectId} {path' : RelPath} :
    path' ∈ out.insert path v ↔ path' ∈ out ∨ path' = path := by
  rw [Std.TreeMap.mem_insert, Std.LawfulEqCmp.compare_eq_iff_eq, or_comm, eq_comm]

/-- One iteration adds the files of its entry. -/
lemma walkEntry_adds {walk : ObjectId → RelPath → Command FileMap GytError Unit}
    (hwalk : ∀ id pre out out', (walk id pre).run out = some (.ok (), out') →
      Adds s id pre out out')
    {e : TreeEntry} (h : (walkEntry walk pre e).run out = some (.ok (), out')) (path : RelPath) :
    path ∈ out' ↔ path ∈ out ∨ ∃ rest, path = pre ++ rest ∧ FromEntry s e rest := by
  unfold walkEntry at h
  obtain ⟨name, hname, hrest⟩ := lift_bind_eq_ok.mp h
  rw [okOr_eq_ok] at hname
  have hfrom : ∀ rest, FromEntry s e rest ↔ if e.mode = modeDir then
      ∃ rest', rest = name :: rest' ∧ InTree s e.hash rest' else rest = [name] := by
    intro rest
    simp only [FromEntry, hname, Option.some.injEq, exists_eq_left']
  split_ifs at hrest with hmode
  · rw [hwalk _ _ _ _ hrest path]
    simp only [hfrom, if_pos hmode, List.append_assoc, List.singleton_append]
    constructor
    · rintro (hout | ⟨rest, rfl, hrest⟩)
      · exact .inl hout
      · exact .inr ⟨_, rfl, rest, rfl, hrest⟩
    · rintro (hout | ⟨_, rfl, rest, rfl, hrest⟩)
      · exact .inl hout
      · exact .inr ⟨rest, rfl, hrest⟩
  · obtain ⟨-, rfl⟩ := Prod.mk.inj (Option.some.inj hrest)
    rw [mem_insert_iff]
    simp only [hfrom, if_neg hmode, exists_eq_right]

/-- The iterations over the entries of a tree add the files of these entries. -/
lemma forM_walkEntry_adds {walk : ObjectId → RelPath → Command FileMap GytError Unit}
    (hwalk : ∀ id pre out out', (walk id pre).run out = some (.ok (), out') →
      Adds s id pre out out')
    {entries : List TreeEntry}
    (h : (entries.forM (walkEntry walk pre)).run out = some (.ok (), out'))
    (path : RelPath) : path ∈ out' ↔ path ∈ out ∨
      ∃ rest, path = pre ++ rest ∧ ∃ e ∈ entries, FromEntry s e rest := by
  induction entries generalizing out with
  | nil =>
    obtain ⟨-, rfl⟩ := Prod.mk.inj (Option.some.inj h)
    simp
  | cons e entries ih =>
    obtain ⟨_, out₁, he, hentries⟩ := seq_eq_ok.mp h
    rw [ih hentries, walkEntry_adds hwalk he path]
    simp only [List.mem_cons, exists_eq_or_imp, and_or_left, exists_or, or_assoc]

lemma walkTree_adds (h : (walkTree s depth id pre).run out = some (.ok (), out')) :
    Adds s id pre out out' := by
  induction depth generalizing id pre out out' with
  | zero => cases h
  | succ depth ih =>
    unfold walkTree at h
    obtain ⟨entries, hread, hentries⟩ := lift_bind_eq_ok.mp h
    intro path
    rw [forM_walkEntry_adds (fun id pre out out' h => ih h) hentries path]
    simp only [inTree_iff hread]

/-- Flattening a tree finds exactly its files. -/
theorem mem_flattenTree_iff (h : flattenTree s id = some (.ok out)) :
    path ∈ out ↔ InTree s id path := by
  obtain ⟨⟨r, out'⟩, hwalk, hmap⟩ := Option.map_eq_some_iff.mp h
  cases r with
  | error e => cases hmap
  | ok u =>
    cases hmap
    rw [walkTree_adds hwalk path]
    simp

end Flatten

/-! ## Building trees -/

/-- A directory that is being built: its files, and its subdirectories in the order of their
names. -/
inductive DirNode where
  | mk (files : List (Str × UInt32 × ObjectId)) (subdirs : List (Str × DirNode))

namespace DirNode

/-- A directory without entries. -/
def empty : DirNode := .mk [] []

/-- Changing the subdirectory with the given name, which is created if there is none. -/
def updateSubdir (comp : Str) (f : DirNode → DirNode) :
    List (Str × DirNode) → List (Str × DirNode)
  | [] => [(comp, f empty)]
  | (name, node) :: subdirs =>
    if comp = name then (name, f node) :: subdirs
    else if comp < name then (comp, f empty) :: (name, node) :: subdirs
    else (name, node) :: updateSubdir comp f subdirs

/-- Inserting a file at a path, `insert_entry`. -/
def insertEntry (mode : UInt32) (hash : ObjectId) : RelPath → DirNode → DirNode
  | [], node => node
  | [leaf], .mk files subdirs => .mk (files ++ [(leaf, mode, hash)]) subdirs
  | comp :: c :: path, .mk files subdirs =>
    .mk files (updateSubdir comp (insertEntry mode hash (c :: path)) subdirs)

def fileEntry (file : Str × UInt32 × ObjectId) : TreeEntry :=
  ⟨file.2.1, Utf8.encode file.1, file.2.2⟩

mutual

/-- Writing the trees of a directory and all directories in it. -/
def writeDir (hashBytes : Hash) : DirNode → Store → Store × ObjectId
  | .mk files subdirs, s =>
    let (s, entries) := writeSubdirs hashBytes subdirs s
    Tree.write hashBytes s (files.map fileEntry ++ entries)

/-- Writing the subdirectories of a directory, and the entries for them. -/
def writeSubdirs (hashBytes : Hash) :
    List (Str × DirNode) → Store → Store × List TreeEntry
  | [], s => (s, [])
  | (name, node) :: subdirs, s =>
    let (s, id) := writeDir hashBytes node s
    let (s, entries) := writeSubdirs hashBytes subdirs s
    (s, ⟨modeDir, Utf8.encode name, id⟩ :: entries)

end

mutual

/-- Building trees writes no commits. -/
lemma sameCommits_writeDir (hashBytes : Hash) :
    ∀ (node : DirNode) (s : Store), s.SameCommits (writeDir hashBytes node s).1
  | .mk files subdirs, s => by
    rw [writeDir]
    exact (sameCommits_writeSubdirs hashBytes subdirs s).trans
      (Store.sameCommits_writeBytes hashBytes _ (by decide) _)

lemma sameCommits_writeSubdirs (hashBytes : Hash) :
    ∀ (subdirs : List (Str × DirNode)) (s : Store),
      s.SameCommits (writeSubdirs hashBytes subdirs s).1
  | [], s => .refl s
  | (name, node) :: subdirs, s => by
    rw [writeSubdirs]
    exact (sameCommits_writeDir hashBytes node s).trans
      (sameCommits_writeSubdirs hashBytes subdirs _)

end

end DirNode

/-- Writing the trees of an index; the result is the root tree. -/
def buildTreeFromIndex (hashBytes : Hash) (s : Store) (idx : Index) :
    Store × ObjectId :=
  let root := idx.entries.foldl (fun root e => .insertEntry e.mode e.hash e.path root) DirNode.empty
  root.writeDir hashBytes s

lemma sameCommits_buildTreeFromIndex (hashBytes : Hash) (s : Store) (idx : Index) :
    s.SameCommits (buildTreeFromIndex hashBytes s idx).1 :=
  DirNode.sameCommits_writeDir hashBytes _ s

end Gyt
