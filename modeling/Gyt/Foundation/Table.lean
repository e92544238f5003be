import Mathlib

/-!
# Tables

Finite maps as lists of entries with distinct keys, in no particular order: the hash maps of
programs.  Setting a key, and keeping only the entries with a property, are described by what a
lookup finds afterwards.
-/

namespace Gyt

open List

/-- A map with finitely many entries. -/
structure Table (κ ν : Type*) where
  entries : List (κ × ν)
  nodup : (entries.map Prod.fst).Nodup

namespace Table

variable {κ ν : Type*} [DecidableEq κ]

/-- The table without entries. -/
def empty : Table κ ν := ⟨[], List.nodup_nil⟩

/-- The number of entries. -/
def size (t : Table κ ν) : ℕ := t.entries.length

/-- The value of a key. -/
def get? (t : Table κ ν) (k : κ) : Option ν := t.entries.lookup k

/-- The table after a key was set. -/
def insert (t : Table κ ν) (k : κ) (v : ν) : Table κ ν where
  entries := (k, v) :: t.entries.filter (·.1 ≠ k)
  nodup := by
    rw [List.map_cons, List.nodup_cons]
    refine ⟨?_, t.nodup.sublist (List.filter_sublist.map _)⟩
    intro hmem
    obtain ⟨e, he, hkey⟩ := List.mem_map.mp hmem
    exact of_decide_eq_true (List.mem_filter.mp he).2 hkey

/-- The table of the entries with a property. -/
def retain (t : Table κ ν) (p : κ → ν → Bool) : Table κ ν where
  entries := t.entries.filter fun e => p e.1 e.2
  nodup := t.nodup.sublist (List.filter_sublist.map _)

variable {t : Table κ ν} {k k' : κ} {v : ν} {p : κ → ν → Bool}

@[simp] lemma get?_empty : (empty : Table κ ν).get? k = none := rfl

@[simp] lemma get?_insert_self : (t.insert k v).get? k = some v := lookup_cons_self

lemma get?_eq_some : t.get? k = some v ↔ (k, v) ∈ t.entries := by
  obtain ⟨l, hnodup⟩ := t
  change l.lookup k = some v ↔ (k, v) ∈ l
  induction l with
  | nil => simp
  | cons e l ih =>
    obtain ⟨k', v'⟩ := e
    rw [map_cons, nodup_cons] at hnodup
    by_cases hkey : k = k'
    · subst hkey
      have hrest : (k, v) ∉ l := fun hmem => hnodup.1 (mem_map.mpr ⟨_, hmem, rfl⟩)
      simp [hrest, eq_comm]
    · rw [lookup_cons, beq_eq_false_iff_ne.mpr hkey, mem_cons]
      simp [ih hnodup.2, hkey]

lemma get?_insert_of_ne (h : k' ≠ k) : (t.insert k v).get? k' = t.get? k' := by
  ext v'
  simp [get?_eq_some, insert, h]

/-- A key is kept exactly if its value has the property. -/
lemma get?_retain : (t.retain p).get? k = (t.get? k).filter (p k) := by
  ext v
  simp [get?_eq_some, retain, Option.filter_eq_some_iff]

/-! ## Sums -/

/-- The sum of what the values weigh. -/
def sum (w : ν → ℕ) (t : Table κ ν) : ℕ := (t.entries.map fun e => w e.2).sum

variable {w : ν → ℕ}

omit [DecidableEq κ] in
lemma sum_retain_add_sum_retain (w : ν → ℕ) (t : Table κ ν) (p : κ → ν → Bool) :
    (t.retain p).sum w + (t.retain fun k v => !p k v).sum w = t.sum w := by
  obtain ⟨l, hnodup⟩ := t
  simp only [sum, retain]
  clear hnodup
  induction l with
  | nil => rfl
  | cons e l ih =>
    simp only [filter_cons, map_cons, sum_cons]
    cases p e.1 e.2 <;> simp <;> omega

lemma retain_ne_of_get?_eq_none (h : t.get? k = none) : (t.retain fun k' _ => k' ≠ k) = t := by
  obtain ⟨l, hnodup⟩ := t
  simp only [retain, mk.injEq, filter_eq_self, decide_eq_true_eq]
  rintro ⟨k', v⟩ he rfl
  cases h.symm.trans (get?_eq_some.mpr he)

/-- What a key weighs, and all the others. -/
lemma sum_retain_ne_add (w : ν → ℕ) (h : t.get? k = some v) :
    (t.retain fun k' _ => k' ≠ k).sum w + w v = t.sum w := by
  have hperm : (t.insert k v).entries.Perm t.entries := by
    refine (perm_ext_iff_of_nodup (t.insert k v).nodup.of_map t.nodup.of_map).mpr ?_
    rintro ⟨k', v'⟩
    rw [← get?_eq_some, ← get?_eq_some]
    by_cases hkey : k' = k
    · rw [hkey, get?_insert_self, h]
    · rw [get?_insert_of_ne hkey]
  have hsum := (hperm.map fun e => w e.2).sum_eq
  rw [insert, map_cons, sum_cons] at hsum
  exact (Nat.add_comm ..).trans hsum

omit [DecidableEq κ] in
lemma sum_one (t : Table κ ν) : t.sum (fun _ => 1) = t.size := by simp [sum, size]

end Table

end Gyt
