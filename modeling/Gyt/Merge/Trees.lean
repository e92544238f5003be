import Gyt.Cmd.Util

/-!
# Merging trees

The three-way merge of flat maps of files, `merge_trees` of `merge3.rs`.  Files that both sides
changed are handed to a callback, which may have effects of its own.
-/

namespace Gyt.Merge3

/-- What a map of files holds at a path. -/
abbrev FileEntry := UInt32 × ObjectId

/-- Why a path could not be merged. -/
inductive ConflictKind where
  /-- Both sides created the path with different content. -/
  | addAdd
  /-- One side modified the file, and the other one deleted it. -/
  | modifyDelete
  /-- Both sides modified the file, and the lines could not be merged. -/
  | content
  /-- Both sides changed the mode differently. -/
  | mode
  deriving DecidableEq, Repr

/-- A path that could not be merged. -/
structure TreeConflict where
  path : RelPath
  kind : ConflictKind
  base : Option FileEntry
  ours : Option FileEntry
  theirs : Option FileEntry
  deriving DecidableEq, Repr

/-- The result of merging trees. -/
structure TreeMerge where
  merged : FileMap
  conflicts : List TreeConflict

/-- The result of merging the content of a file. -/
inductive ContentResult where
  | resolved (hash : ObjectId)
  | conflict (oursHash theirsHash : ObjectId)
  deriving DecidableEq, Repr

namespace TreeMerge

def insert (tm : TreeMerge) (path : RelPath) (e : FileEntry) : TreeMerge :=
  { tm with merged := tm.merged.insert path e }

def push (tm : TreeMerge) (c : TreeConflict) : TreeMerge :=
  { tm with conflicts := tm.conflicts ++ [c] }

end TreeMerge

variable {m : Type → Type} [Monad m]

/-- The callback that merges the content of a file. -/
abbrev Resolver (m : Type → Type) :=
  RelPath → FileEntry → FileEntry → Option FileEntry → m ContentResult

/-- A file that both sides changed, and changed differently. -/
def mergeChanged (resolveContent : Resolver m) (path : RelPath) (b o t : FileEntry)
    (tm : TreeMerge) : m TreeMerge :=
  if o.1 ≠ t.1 ∧ o.1 ≠ b.1 ∧ t.1 ≠ b.1 then
    pure (tm.push ⟨path, .mode, some b, some o, some t⟩)
  else do
    match ← resolveContent path o t (some b) with
    | .resolved hash => pure (tm.insert path (if o.1 = b.1 then t.1 else o.1, hash))
    | .conflict oursHash theirsHash =>
      pure (tm.push ⟨path, .content, some b, some (o.1, oursHash), some (t.1, theirsHash)⟩)

/-- One iteration of `mergeTrees`: the entries of the base and the two sides at a path. -/
def mergePath (resolveContent : Resolver m) (path : RelPath) (tm : TreeMerge) :
    Option FileEntry → Option FileEntry → Option FileEntry → m TreeMerge
  | none, none, none => pure tm
  | some b, some o, some t =>
    if o = t then pure (tm.insert path o)
    else if b = o then pure (tm.insert path t)
    else if b = t then pure (tm.insert path o)
    else mergeChanged resolveContent path b o t tm
  | none, some o, some t =>
    if o = t then pure (tm.insert path o)
    else pure (tm.push ⟨path, .addAdd, none, some o, some t⟩)
  | some b, some o, none =>
    if b = o then pure tm else pure (tm.push ⟨path, .modifyDelete, some b, some o, none⟩)
  | some b, none, some t =>
    if b = t then pure tm else pure (tm.push ⟨path, .modifyDelete, some b, none, some t⟩)
  | none, some o, none => pure (tm.insert path o)
  | none, none, some t => pure (tm.insert path t)
  | some _, none, none => pure tm

/-- All paths of three maps, in order. -/
def allPaths (base ours theirs : FileMap) : List RelPath :=
  ((base.keys ++ ours.keys ++ theirs.keys).foldl (·.insert ·) (∅ : Std.TreeSet RelPath)).toList

def mergeTrees (base ours theirs : FileMap) (resolveContent : Resolver m) : m TreeMerge :=
  (allPaths base ours theirs).foldlM
    (fun tm path => mergePath resolveContent path tm base[path]? ours[path]? theirs[path]?) ⟨∅, []⟩

section Within

open Command

variable {σ ε : Type} {R : σ → σ → Prop} [Std.Refl R] [IsTrans σ R]
  {resolveContent : Resolver (Command σ ε)}

lemma within_mergeChanged (h : ∀ path o t b, Within R (resolveContent path o t b))
    (path : RelPath) (b o t : FileEntry) (tm : TreeMerge) :
    Within R (mergeChanged resolveContent path b o t tm) := by
  unfold mergeChanged
  split
  · exact within_pure _
  · refine (h path o t (some b)).bind fun r => ?_
    cases r <;> exact within_pure _

/-- Merging trees does to the state what the callback does. -/
lemma within_mergeTrees (h : ∀ path o t b, Within R (resolveContent path o t b))
    (base ours theirs : FileMap) : Within R (mergeTrees base ours theirs resolveContent) := by
  refine within_foldlM (fun tm path => ?_) _
  unfold mergePath
  split
  · exact within_pure _
  · split_ifs
    iterate 3 exact within_pure _
    exact within_mergeChanged h _ _ _ _ _
  · split_ifs <;> exact within_pure _
  · split_ifs <;> exact within_pure _
  · split_ifs <;> exact within_pure _
  · exact within_pure _
  · exact within_pure _
  · exact within_pure _

end Within

end Gyt.Merge3
