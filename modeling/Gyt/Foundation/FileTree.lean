import Mathlib

/-!
# File trees

A tree of directories, files and symbolic links, with the calls of an operating system that change
it.  A call that fails has no effect.  Links are not followed: a path through a link leads nowhere.

For every call there is a lemma on when it succeeds and one on the nodes of the tree after it.
-/

namespace Gyt

open List

/-- What can be at a path. -/
inductive Node where
  | dir
  | file (content : List UInt8) (mode : ℕ)
  | link (target : List Char)
  deriving DecidableEq, Repr

/-- A tree of nodes, by their paths.  What is above a node is a directory. -/
structure FileTree (κ : Type) where
  node : List κ → Option Node
  node_nil : node [] = some .dir
  node_parent : ∀ p k, (node (p ++ [k])).isSome → node p = some .dir

namespace FileTree

variable {κ : Type} {t t' : FileTree κ} {p q : List κ} {n : Node}

lemma node_of_prefix (hpre : p <+: q) (hne : p ≠ q) (h : (t.node q).isSome) :
    t.node p = some .dir := by
  obtain ⟨rest, rfl⟩ := hpre
  induction rest using reverseRecOn with
  | nil => exact absurd (append_nil p).symm hne
  | append_singleton rest k ih =>
    rw [← append_assoc] at h
    have hparent := t.node_parent _ _ h
    by_cases hrest : rest = []
    · rwa [hrest, append_nil] at hparent
    · refine ih (fun heq => hrest ?_) (hparent ▸ rfl)
      exact append_right_eq_self.mp heq.symm

/-- The node above a node is a directory. -/
lemma node_dropLast (h : (t.node p).isSome) : t.node p.dropLast = some .dir := by
  rcases eq_nil_or_concat p with rfl | ⟨p, k, rfl⟩
  · exact t.node_nil
  · rw [concat_eq_append, dropLast_concat]
    exact t.node_parent p k (concat_eq_append ▸ h)

def empty : FileTree κ where
  node p := if p.isEmpty then some .dir else none
  node_nil := rfl
  node_parent p k h := by simp at h

variable [DecidableEq κ]

/-- Putting a node at a path that is no directory and is in a directory. -/
def put (t : FileTree κ) (p : List κ) (n : Node) (hne : p ≠ [])
    (hparent : t.node p.dropLast = some .dir) (hleaf : t.node p ≠ some .dir) : FileTree κ where
  node q := if q = p then some n else t.node q
  node_nil := by rw [if_neg (Ne.symm hne), t.node_nil]
  node_parent q k h := by
    by_cases hq : q = p
    · -- There is nothing below the new node.
      subst hq
      have hself : q ++ [k] ≠ q := by simp
      rw [if_neg hself] at h
      exact absurd (t.node_parent q k h) hleaf
    · rw [if_neg hq]
      split_ifs at h with hqk
      · rw [← hqk, List.dropLast_concat] at hparent
        exact hparent
      · exact t.node_parent q k h

/-- Taking away a node that is no directory. -/
def erase (t : FileTree κ) (p : List κ) (hleaf : t.node p ≠ some .dir) : FileTree κ where
  node q := if q = p then none else t.node q
  node_nil := by
    rw [if_neg, t.node_nil]
    rintro rfl
    exact hleaf t.node_nil
  node_parent q k h := by
    have hparent : t.node q = some .dir := by
      split_ifs at h with hqk
      · cases h
      · exact t.node_parent q k h
    rw [if_neg, hparent]
    rintro rfl
    exact hleaf hparent

/-- A directory and all directories above it. -/
def mkdirs (t : FileTree κ) (p : List κ) : FileTree κ where
  node q := if q <+: p then some .dir else t.node q
  node_nil := if_pos p.nil_prefix
  node_parent q k hk := by
    split_ifs at hk with hpre
    · rw [if_pos ((List.prefix_append q [k]).trans hpre)]
    · rw [t.node_parent q k hk, ite_self]

/-! ## Calls -/

/-- Removing a file or a link. -/
def removeFile (t : FileTree κ) (p : List κ) : Option (FileTree κ) :=
  if h : t.node p = none ∨ t.node p = some .dir then none
  else some (t.erase p fun hdir => h (.inr hdir))

/-- Creating a directory and the directories above it, where they are missing. -/
def createDirAll (t : FileTree κ) (p : List κ) : Option (FileTree κ) :=
  if ∀ q ∈ p.inits, t.node q = none ∨ t.node q = some .dir then some (t.mkdirs p) else none

/-- Putting a node at a path, unless there is a directory or the path is in no directory. -/
def place (t : FileTree κ) (p : List κ) (n : Node) : Option (FileTree κ) :=
  if h : t.node p.dropLast = some .dir ∧ t.node p ≠ some .dir then
    some (t.put p n (fun hnil => h.2 (hnil ▸ t.node_nil)) h.1 h.2)
  else none

def write (t : FileTree κ) (p : List κ) (content : List UInt8) : Option (FileTree κ) :=
  match t.node p with
  | some (.file _ mode) => t.place p (.file content mode)
  | some .dir | some (.link _) => none
  | none => t.place p (.file content 0o644)

/-- Creating a symbolic link. -/
def symlink (t : FileTree κ) (target : List Char) (p : List κ) : Option (FileTree κ) :=
  match t.node p with
  | some _ => none
  | none => t.place p (.link target)

def setMode (t : FileTree κ) (p : List κ) (mode : ℕ) : Option (FileTree κ) :=
  match t.node p with
  | some (.file content _) => t.place p (.file content mode)
  | some .dir | some (.link _) | none => none

section Calls

variable {content : List UInt8} {mode : ℕ} {target : List Char}

lemma removeFile_isSome : (t.removeFile p).isSome ↔ t.node p ≠ none ∧ t.node p ≠ some .dir := by
  rw [Ne, Ne, ← not_or]
  unfold removeFile
  split_ifs with h <;> simp [h]

lemma node_removeFile (h : t.removeFile p = some t') (q : List κ) :
    t'.node q = if q = p then none else t.node q := by
  unfold removeFile at h
  split_ifs at h
  cases h
  rfl

lemma createDirAll_isSome : (t.createDirAll p).isSome ↔
    ∀ q, q <+: p → t.node q = none ∨ t.node q = some .dir := by
  have hinits : (∀ q ∈ p.inits, t.node q = none ∨ t.node q = some .dir) ↔
      ∀ q, q <+: p → t.node q = none ∨ t.node q = some .dir :=
    forall_congr' fun q => by rw [mem_inits]
  rw [← hinits]
  unfold createDirAll
  split_ifs with h
  · exact iff_of_true rfl h
  · exact iff_of_false Bool.false_ne_true h

lemma node_createDirAll (h : t.createDirAll p = some t') (q : List κ) :
    t'.node q = if q <+: p then some .dir else t.node q := by
  unfold createDirAll at h
  split_ifs at h
  cases h
  rfl

lemma place_isSome :
    (t.place p n).isSome ↔ t.node p.dropLast = some .dir ∧ t.node p ≠ some .dir := by
  unfold place
  split_ifs with h <;> simp [h]

lemma node_place (h : t.place p n = some t') (q : List κ) :
    t'.node q = if q = p then some n else t.node q := by
  unfold place at h
  split_ifs at h
  cases h
  rfl

lemma write_isSome : (t.write p content).isSome ↔ t.node p.dropLast = some .dir ∧
    t.node p ≠ some .dir ∧ ∀ target, t.node p ≠ some (.link target) := by
  unfold write
  split <;> simp_all [place_isSome]

lemma node_write (h : t.write p content = some t') : ∃ mode, ∀ q,
    t'.node q = if q = p then some (.file content mode) else t.node q := by
  unfold write at h
  split at h
  · exact ⟨_, node_place h⟩
  · cases h
  · cases h
  · exact ⟨_, node_place h⟩

lemma symlink_isSome : (t.symlink target p).isSome ↔
    t.node p.dropLast = some .dir ∧ t.node p = none := by
  unfold symlink
  split <;> simp_all [place_isSome]

lemma node_symlink (h : t.symlink target p = some t') (q : List κ) :
    t'.node q = if q = p then some (.link target) else t.node q := by
  unfold symlink at h
  split at h
  · cases h
  · exact node_place h q

lemma setMode_of_file (h : t.node p = some (.file content mode)) (mode' : ℕ) :
    ∃ t', t.setMode p mode' = some t' ∧
      ∀ q, t'.node q = if q = p then some (.file content mode') else t.node q := by
  unfold setMode
  rw [h]
  have hsome : (t.place p (.file content mode')).isSome :=
    place_isSome.mpr ⟨node_dropLast (h ▸ rfl), by simp [h]⟩
  obtain ⟨t', ht'⟩ := Option.isSome_iff_exists.mp hsome
  exact ⟨t', ht', node_place ht'⟩

end Calls

end FileTree

end Gyt
