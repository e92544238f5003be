import Gyt.Diff.Myers

/-!
# Minimal scripts

A script is a path through the edit graph with one non-diagonal step for every change, so no script
has fewer changes than the first row of the search that gets to the corner.  The lines that a script
keeps are a common sublist of the two lists, and each common sublist is kept by some script; hence
the smallest number of changes is given by the longest common sublist (`myers_minimal`).
-/

namespace Gyt

open List

namespace Diff

open scoped List

open EditGraph

variable {α : Type}

/-- The script of two lists of lines reads as the first one on one side and as the second one on the
other. -/
structure IsScript (a b : List α) (ops : Script α) : Prop where
  old : oldLines ops = a
  new : newLines ops = b

/-- The lines that a script keeps. -/
def keptLines (ops : Script α) : List α :=
  ops.filterMap fun
    | .equal l => some l
    | .delete _ => none
    | .insert _ => none

variable {a b l : List α} {ops : Script α}

@[simp] lemma keptLines_append (ops ops' : Script α) :
    keptLines (ops ++ ops') = keptLines ops ++ keptLines ops' := filterMap_append

@[simp] lemma keptLines_map_insert (ls : List α) : keptLines (ls.map .insert) = [] := by
  simp [keptLines, filterMap_map]

lemma keptLines_sublist_oldLines (ops : Script α) : keptLines ops <+ oldLines ops := by
  induction ops with
  | nil => exact Sublist.slnil
  | cons op ops ih =>
    cases op with
    | equal l => exact ih.cons_cons l
    | delete l => exact ih.cons l
    | insert l => exact ih

lemma keptLines_sublist_newLines (ops : Script α) : keptLines ops <+ newLines ops := by
  induction ops with
  | nil => exact Sublist.slnil
  | cons op ops ih =>
    cases op with
    | equal l => exact ih.cons_cons l
    | delete l => exact ih
    | insert l => exact ih.cons l

/-- Every line of the two lists is kept, which counts it twice, or changed. -/
lemma changes_add_keptLines (ops : Script α) :
    changes ops + 2 * (keptLines ops).length = (oldLines ops).length + (newLines ops).length := by
  induction ops with
  | nil => rfl
  | cons op ops ih =>
    cases op with
    | equal l =>
      show changes (.equal l :: ops) + 2 * ((keptLines ops).length + 1) =
        (oldLines ops).length + 1 + ((newLines ops).length + 1)
      rw [changes_equal]
      omega
    | delete l =>
      show changes (.delete l :: ops) + 2 * (keptLines ops).length =
        (oldLines ops).length + 1 + (newLines ops).length
      rw [changes_delete]
      omega
    | insert l =>
      show changes (.insert l :: ops) + 2 * (keptLines ops).length =
        (oldLines ops).length + ((newLines ops).length + 1)
      rw [changes_insert]
      omega

lemma IsScript.changes_add (h : IsScript a b ops) :
    changes ops + 2 * (keptLines ops).length = a.length + b.length := by
  rw [changes_add_keptLines, h.old, h.new]

/-- The lines that a script keeps are in both lists. -/
lemma IsScript.keptLines_sublist (h : IsScript a b ops) :
    keptLines ops <+ a ∧ keptLines ops <+ b := by
  constructor
  · rw [← h.old]
    exact keptLines_sublist_oldLines ops
  · rw [← h.new]
    exact keptLines_sublist_newLines ops

/-- Every common sublist is kept by some script. -/
lemma exists_script (ha : l <+ a) (hb : l <+ b) : ∃ ops, IsScript a b ops ∧ keptLines ops = l := by
  induction ha generalizing b with
  | slnil =>
    exact ⟨b.map .insert, ⟨oldLines_map_insert b, newLines_map_insert b⟩, keptLines_map_insert b⟩
  | cons x _ ih =>
    obtain ⟨ops, hops, hkept⟩ := ih hb
    exact ⟨.delete x :: ops, ⟨congrArg (x :: ·) hops.old, hops.new⟩, hkept⟩
  | cons_cons x _ ih =>
    -- The line is found in the other list, and what is before it there is inserted.
    obtain ⟨front, back, rfl, hx, hback⟩ := cons_sublist_iff.mp hb
    obtain ⟨pre, post, rfl⟩ := append_of_mem hx
    obtain ⟨ops, hops, hkept⟩ := ih (hback.trans (sublist_append_right post back))
    refine ⟨pre.map .insert ++ .equal x :: ops, ⟨?_, ?_⟩, ?_⟩
    · rw [oldLines_append, oldLines_map_insert]
      exact congrArg (x :: ·) hops.old
    · rw [newLines_append, newLines_map_insert, append_assoc]
      exact congrArg (pre ++ x :: ·) hops.new
    · rw [keptLines_append, keptLines_map_insert]
      exact congrArg (x :: ·) hkept

/-- A script goes on a path through the edit graph with one non-diagonal step for every change. -/
lemma path_of_script (xs ys : List α) {d : ℕ} (ops : Script α)
    (h : Path (xs ++ oldLines ops) (ys ++ newLines ops) d xs.length ys.length) :
    Path (xs ++ oldLines ops) (ys ++ newLines ops) (d + changes ops)
      (xs ++ oldLines ops).length (ys ++ newLines ops).length := by
  induction ops generalizing xs ys d with
  | nil =>
    have hold : xs ++ oldLines ([] : Script α) = xs := append_nil xs
    have hnew : ys ++ newLines ([] : Script α) = ys := append_nil ys
    rw [hold, hnew] at h ⊢
    exact h
  | cons op ops ih =>
    cases op with
    | equal l =>
      have hold : xs ++ oldLines (.equal l :: ops) = xs ++ [l] ++ oldLines ops :=
        append_cons xs l (oldLines ops)
      have hnew : ys ++ newLines (.equal l :: ops) = ys ++ [l] ++ newLines ops :=
        append_cons ys l (newLines ops)
      rw [hold, hnew] at h ⊢
      rw [changes_equal]
      refine ih (xs ++ [l]) (ys ++ [l]) ?_
      rw [length_append, length_append]
      have hx : (xs ++ [l] ++ oldLines ops)[xs.length]? = some l := by simp
      exact h.diagonal hx (by simp)
    | delete l =>
      have hold : xs ++ oldLines (.delete l :: ops) = xs ++ [l] ++ oldLines ops :=
        append_cons xs l (oldLines ops)
      have hnew : newLines (.delete l :: ops) = newLines ops := rfl
      rw [hold, hnew] at h ⊢
      rw [changes_delete, Nat.add_comm _ 1, ← Nat.add_assoc]
      refine ih (xs ++ [l]) ys ?_
      rw [length_append]
      exact h.right
    | insert l =>
      have hold : oldLines (.insert l :: ops) = oldLines ops := rfl
      have hnew : ys ++ newLines (.insert l :: ops) = ys ++ [l] ++ newLines ops :=
        append_cons ys l (newLines ops)
      rw [hold, hnew] at h ⊢
      rw [changes_insert, Nat.add_comm _ 1, ← Nat.add_assoc]
      refine ih xs (ys ++ [l]) ?_
      rw [length_append]
      exact h.down

lemma IsScript.path (h : IsScript a b ops) : Path a b (changes ops) a.length b.length := by
  have hpath := path_of_script [] [] ops .start
  rw [nil_append, nil_append, h.old, h.new, Nat.zero_add] at hpath
  exact hpath

variable [DecidableEq α]

/-- Up to the limit, no script has fewer changes than the one that is computed. -/
lemma myers_changes_le (hmax : a.length + b.length ≤ maxDiffLines) :
    ∃ ops, myers a b = some ops ∧ IsScript a b ops ∧
      ∀ ops', IsScript a b ops' → changes ops ≤ changes ops' := by
  by_cases hempty : a = [] ∨ b = []
  · -- Nothing can be kept, so that all scripts have the same number of changes.
    obtain ⟨ops, hops, hold, hnew⟩ := myers_spec a b
    have hall : ∀ ops', IsScript a b ops' → changes ops' = a.length + b.length := by
      intro ops' hops'
      have hkept : keptLines ops' = [] := by
        rcases hempty with rfl | rfl
        · exact sublist_nil.mp hops'.keptLines_sublist.1
        · exact sublist_nil.mp hops'.keptLines_sublist.2
      have hadd := hops'.changes_add
      rw [hkept] at hadd
      exact hadd
    refine ⟨ops, hops, ⟨hold, hnew⟩, ?_⟩
    intro ops' hops'
    rw [hall ops ⟨hold, hnew⟩, hall ops' hops']
  · rw [not_or] at hempty
    obtain ⟨ops, hops, hold, hnew, hfirst⟩ := myers_of_search hempty.1 hempty.2 hmax
    refine ⟨ops, hops, ⟨hold, hnew⟩, ?_⟩
    intro ops' hops'
    by_contra hlt
    obtain ⟨hrow, hpast⟩ := hops'.path.past
    exact hfirst (changes ops') (Nat.lt_of_not_le hlt) _ hrow hpast

/-- The difference of a list of lines with itself keeps every line, up to the limit. -/
lemma myers_self (hmax : a.length + a.length ≤ maxDiffLines) :
    ∃ ops, myers a a = some ops ∧ IsScript a a ops ∧ changes ops = 0 := by
  obtain ⟨ops, hops, hscript, hmin⟩ := myers_changes_le hmax
  have hkeep : IsScript a a (a.map .equal) := ⟨oldLines_map_equal a, newLines_map_equal a⟩
  have hle := hmin _ hkeep
  rw [changes_map_equal, Nat.le_zero] at hle
  exact ⟨ops, hops, hscript, hle⟩

/-- The script that is computed for two lists of lines is valid, whatever their lengths are. -/
theorem myers_isScript (a b : List α) : ∃ ops, myers a b = some ops ∧ IsScript a b ops := by
  obtain ⟨ops, hops, hold, hnew⟩ := myers_spec a b
  exact ⟨ops, hops, hold, hnew⟩

/-- Up to the limit, the script has the smallest number of changes of all scripts: the lines of both
lists without a longest common sublist. -/
theorem myers_minimal (a b : List α) (hmax : a.length + b.length ≤ maxDiffLines) :
    ∃ ops lcs, myers a b = some ops ∧
      (∀ ops', IsScript a b ops' → changes ops ≤ changes ops') ∧
      IsGreatest {n | ∃ l, l <+ a ∧ l <+ b ∧ l.length = n} lcs ∧
      changes ops + 2 * lcs = a.length + b.length := by
  obtain ⟨ops, hops, hscript, hmin⟩ := myers_changes_le hmax
  refine ⟨ops, (keptLines ops).length, hops, hmin, ⟨?_, ?_⟩, hscript.changes_add⟩
  · exact ⟨keptLines ops, hscript.keptLines_sublist.1, hscript.keptLines_sublist.2, rfl⟩
  · rintro n ⟨l, ha, hb, rfl⟩
    obtain ⟨ops', hscript', hkept⟩ := exists_script ha hb
    have hle := hmin ops' hscript'
    have hadd := hscript.changes_add
    have hadd' := hscript'.changes_add
    rw [hkept] at hadd'
    omega

/-- Two lists of three lines with a common sublist of two lines. -/
theorem myers_minimal_shift : ∃ ops lcs, myers [1, 2, 3] [2, 3, 4] = some ops ∧
    (∀ ops', IsScript [1, 2, 3] [2, 3, 4] ops' → changes ops ≤ changes ops') ∧
    IsGreatest {n | ∃ l, l <+ [1, 2, 3] ∧ l <+ [2, 3, 4] ∧ l.length = n} lcs ∧
    changes ops + 2 * lcs = 3 + 3 :=
  myers_minimal [1, 2, 3] [2, 3, 4] (by decide)

end Diff

end Gyt
