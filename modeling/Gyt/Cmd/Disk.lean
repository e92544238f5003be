import Gyt.Cmd.WorkTree
import Gyt.Foundation.PathWalk

/-!
# Working trees on a disk

The calls with which commands look at files of the working tree.  They follow symbolic links: all
but the last component of a path may be links, which can lead to any place on the disk, and for most
calls the last one as well.  A `Disk` says where the working tree is and what is outside of it; the
metadata directory is outside.  It also says which files the process may not read, and nothing is
assumed about these.

A path that is a file in the working tree has only directories above it, so that the calls find that
file (`lstat_of_node`, `find_of_node`).  If there are no links, they find nothing but what is in the
working tree (`lstat_of_no_links`).
-/

namespace Gyt

open Text PathWalk List

/-- The calls of the operating system that look at a file of a working tree `W`. -/
structure LookOs (W : Type) where
  pathExists : RelPath → W → Bool
  symlinkMetadata : RelPath → W → Option FileType
  read : RelPath → W → Except IoError Bytes
  readLink : RelPath → W → Except IoError Str

/-- The identifier that the content of a file would have as a blob, `hash_blob`. -/
def hashBlob {W : Type} (hashBytes : Hash) (os : LookOs W) (path : RelPath) (w : W) :
    Result ObjectId := do
  let payload ← (os.read path w).mapError .io
  return hashBytes (buildRaw .blob payload)

/-- The place of a working tree, what is elsewhere on the disk, the number of links that are
followed, and the places of the files that may not be read. -/
structure Disk where
  workdir : Loc
  outside : Loc → Option Node
  links : ℕ
  unreadable : Loc → Bool

namespace Disk

/-- The name of the metadata directory. -/
def gytDir : Str := ".gyt"

/-- Whether a path of the working tree is outside of the metadata directory. -/
def Inside (path : RelPath) : Prop := path.head? ≠ some gytDir

instance (path : RelPath) : Decidable (Inside path) :=
  inferInstanceAs (Decidable (path.head? ≠ some gytDir))

variable (disk : Disk) (t : FileTree Str)

/-- What is at a place of the disk. -/
def node (q : Loc) : Option Node :=
  if disk.workdir <+: q ∧ Inside (q.drop disk.workdir.length) then
    t.node (q.drop disk.workdir.length)
  else disk.outside q

/-- What can be read at a place of the disk. -/
def readable (q : Loc) : Option Node := if disk.unreadable q then none else disk.node t q

/-- Where a path leads to. -/
def find (path : RelPath) : Option (Loc × ℕ) :=
  PathWalk.walk (disk.node t) false disk.links disk.workdir (path.map .down)

/-- What is at a path, if links above it are followed. -/
def lstat (path : RelPath) : Option Node :=
  match path.getLast? with
  | none => some .dir
  | some name => (disk.find t path.dropLast).bind fun (d, _) =>
    if disk.node t d = some .dir then disk.node t (d ++ [name]) else none

/-- The calls on a file tree. -/
def lookOs : LookOs (FileTree Str) where
  pathExists path t := (disk.find t path).isSome
  symlinkMetadata path t := (disk.lstat t path).map Node.fileType
  read path t :=
    match (disk.find t path).bind fun (q, _) => disk.readable t q with
    | some (.file content _) => .ok content
    | some .dir | some (.link _) | none => .error .other
  readLink path t :=
    match disk.lstat t path with
    | some (.link target) => .ok target
    | some .dir | some (.file _ _) | none => .error .other

section Lemmas

variable {disk t} {path : RelPath} {n : Node}

lemma node_append (h : Inside path) : disk.node t (disk.workdir ++ path) = t.node path := by
  rw [node, drop_left, if_pos ⟨prefix_append _ _, h⟩]

lemma Inside.of_prefix {q : RelPath} (h : Inside path) (hq : q <+: path) : Inside q := by
  rcases q with _ | ⟨name, q⟩
  · exact nofun
  · obtain ⟨rest, rfl⟩ := hq
    exact h

section

variable (hinside : Inside path)
  (h : t.node path = some .dir ∨ ∃ content mode, t.node path = some (.file content mode))

include hinside h

/-- A path below directories leads down. -/
lemma walks_of_node :
    Walks (disk.node t) false disk.links disk.workdir (path.map .down) (disk.workdir ++ path)
      disk.links := by
  have hsome : (t.node path).isSome := by
    rcases h with h | ⟨content, mode, h⟩
    · exact h ▸ rfl
    · exact h ▸ rfl
  refine walks_down ?_ ?_
  · intro q hq hne
    rw [node_append (hinside.of_prefix hq)]
    exact FileTree.node_of_prefix hq hne hsome
  · rwa [node_append hinside]

/-- A path that the tree has is found below the work tree. -/
theorem find_of_node : disk.find t path = some (disk.workdir ++ path, disk.links) :=
  walk_of_walks (walks_of_node hinside h)

end

lemma lstat_append (name : Str) : disk.lstat t (path ++ [name]) =
    (disk.find t path).bind fun (d, _) =>
      if disk.node t d = some .dir then disk.node t (d ++ [name]) else none := by
  rw [lstat, getLast?_concat, dropLast_concat]

/-- What is in the working tree is found. -/
theorem lstat_of_node (hinside : Inside path) (h : t.node path = some n) :
    disk.lstat t path = some n := by
  rcases eq_nil_or_concat path with rfl | ⟨dir, name, rfl⟩
  · exact t.node_nil.symm.trans h
  · rw [concat_eq_append] at h hinside ⊢
    have hdir : t.node dir = some .dir := t.node_parent dir name (h ▸ rfl)
    have hdirIn : Inside dir := hinside.of_prefix (prefix_append _ _)
    rw [lstat_append, find_of_node hdirIn (.inl hdir), Option.bind_some]
    dsimp only
    rw [if_pos ((node_append hdirIn).trans hdir), append_assoc, node_append hinside, h]

section

variable (hinside : Inside path) (hlinks : ∀ q target, t.node q ≠ some (.link target))
  (h : t.node path = none)

include hinside hlinks h

/-- Without links in the working tree, only what is there is found. -/
lemma find_of_no_links : disk.find t path = none := by
  cases hfind : disk.find t path with
  | none => rfl
  | some found =>
    obtain ⟨d, m⟩ := found
    have hlinks' : ∀ q, q <+: path → ∀ target,
        disk.node t (disk.workdir ++ q) ≠ some (.link target) := by
      intro q hq target
      rw [node_append (hinside.of_prefix hq)]
      exact hlinks q target
    obtain ⟨rfl, hsome⟩ := (walk_eq_some.mp hfind).eq_down hlinks'
    rw [node_append hinside, h] at hsome
    refine absurd (hsome ?_) Bool.false_ne_true
    rintro rfl
    cases t.node_nil.symm.trans h

/-- A path that the tree lacks is not found, as no link leads on. -/
theorem lstat_of_no_links : disk.lstat t path = none := by
  rcases eq_nil_or_concat path with rfl | ⟨dir, name, rfl⟩
  · cases t.node_nil.symm.trans h
  · rw [concat_eq_append] at h hinside ⊢
    have hdirIn : Inside dir := hinside.of_prefix (prefix_append _ _)
    rw [lstat_append]
    rcases hdir : t.node dir with _ | _ | ⟨content, mode⟩ | target
    · rw [find_of_no_links hdirIn hlinks hdir, Option.bind_none]
    · rw [find_of_node hdirIn (.inl hdir), Option.bind_some]
      dsimp only
      rw [append_assoc, node_append hinside, h, ite_self]
    · rw [find_of_node hdirIn (.inr ⟨content, mode, hdir⟩), Option.bind_some]
      dsimp only
      rw [append_assoc, node_append hinside, h, ite_self]
    · exact absurd hdir (hlinks dir target)

end

end Lemmas

end Disk

end Gyt
