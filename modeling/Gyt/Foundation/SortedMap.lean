import Mathlib

/-!
# Sorted maps

Maps as lists of entries in the order of their keys.  `mapInsert` sets a key of such a list, and
`SortedMap` is the type of the lists that are in order.
-/

namespace Gyt

open List

variable {κ ν : Type*} [LinearOrder κ]

/-- Inserting into an ordered map, given as the list of its entries in key order. -/
def mapInsert (k : κ) (v : ν) : List (κ × ν) → List (κ × ν)
  | [] => [(k, v)]
  | e :: m =>
    if k = e.1 then (k, v) :: m else if k < e.1 then (k, v) :: e :: m else e :: mapInsert k v m

section Insert

variable {k k' : κ} {v : ν} {m acc : List (κ × ν)}

/-- A key above all others is added at the end. -/
lemma mapInsert_of_lt (h : ∀ e ∈ m, e.1 < k) : mapInsert k v m = m ++ [(k, v)] := by
  induction m with
  | nil => rfl
  | cons e m ih =>
    obtain ⟨he, hm⟩ := forall_mem_cons.mp h
    rw [mapInsert, if_neg he.ne', if_neg he.not_gt, ih hm, cons_append]

/-- Inserting the entries of a map in key order gives the map. -/
lemma foldl_mapInsert (hm : (acc ++ m).Pairwise fun a b => a.1 < b.1) :
    m.foldl (fun acc e => mapInsert e.1 e.2 acc) acc = acc ++ m := by
  induction m generalizing acc with
  | nil => rw [foldl_nil, append_nil]
  | cons e m ih =>
    have hlast : ∀ e' ∈ acc, e'.1 < e.1 := fun e' he' =>
      (pairwise_append.mp hm).2.2 e' he' e mem_cons_self
    rw [foldl_cons, mapInsert_of_lt hlast, ih (by rwa [append_assoc]), append_assoc]
    rfl

lemma mem_mapInsert {e : κ × ν} (h : e ∈ mapInsert k v m) : e = (k, v) ∨ e ∈ m := by
  induction m with
  | nil => exact .inl (mem_singleton.mp h)
  | cons e' m ih =>
    rw [mapInsert] at h
    split_ifs at h
    · exact (mem_cons.mp h).imp_right (mem_cons_of_mem _)
    · exact mem_cons.mp h
    · rcases mem_cons.mp h with rfl | h
      · exact .inr mem_cons_self
      · exact (ih h).imp_right (mem_cons_of_mem _)

/-- Inserting keeps the order of the keys. -/
lemma pairwise_mapInsert (hm : m.Pairwise fun a b => a.1 < b.1) :
    (mapInsert k v m).Pairwise fun a b => a.1 < b.1 := by
  induction m with
  | nil => exact pairwise_singleton _ _
  | cons e m ih =>
    obtain ⟨he, hrest⟩ := pairwise_cons.mp hm
    rw [mapInsert]
    split_ifs with heq hlt
    · exact pairwise_cons.mpr ⟨fun e' he' => heq ▸ he e' he', hrest⟩
    · exact pairwise_cons.mpr ⟨forall_mem_cons.mpr ⟨hlt, fun e' he' => hlt.trans (he e' he')⟩, hm⟩
    · refine pairwise_cons.mpr ⟨fun e' he' => ?_, ih hrest⟩
      rcases mem_mapInsert he' with rfl | he'
      · exact lt_of_le_of_ne (not_lt.mp hlt) (Ne.symm heq)
      · exact he e' he'

lemma lookup_cons_eq_ite (e : κ × ν) :
    (e :: m).lookup k = if k = e.1 then some e.2 else m.lookup k := by
  rw [lookup_cons]
  by_cases h : k = e.1
  · rw [if_pos h, beq_iff_eq.mpr h]
  · rw [if_neg h, beq_eq_false_iff_ne.mpr h]

/-- Inserting sets one key. -/
lemma lookup_mapInsert :
    (mapInsert k v m).lookup k' = if k' = k then some v else m.lookup k' := by
  induction m with
  | nil => rw [mapInsert, lookup_cons_eq_ite]
  | cons e m ih =>
    rw [mapInsert]
    split_ifs
    all_goals simp only [lookup_cons_eq_ite, ih]
    all_goals grind

end Insert

/-- A map with its entries in the order of their keys. -/
structure SortedMap (κ ν : Type*) [LinearOrder κ] where
  entries : List (κ × ν)
  sorted : entries.Pairwise fun a b => a.1 < b.1
  deriving DecidableEq, Repr

namespace SortedMap

/-- The map without entries. -/
def empty : SortedMap κ ν := ⟨[], .nil⟩

/-- The value of a key. -/
def get? (m : SortedMap κ ν) (k : κ) : Option ν := m.entries.lookup k

/-- Setting a key. -/
def insert (m : SortedMap κ ν) (k : κ) (v : ν) : SortedMap κ ν :=
  ⟨mapInsert k v m.entries, pairwise_mapInsert m.sorted⟩

/-- Setting the keys of another map. -/
def insertAll (m other : SortedMap κ ν) : SortedMap κ ν :=
  other.entries.foldl (fun m e => m.insert e.1 e.2) m

/-- Removing a key. -/
def erase (m : SortedMap κ ν) (k : κ) : SortedMap κ ν :=
  ⟨m.entries.filter (·.1 ≠ k), m.sorted.filter _⟩

@[simp] lemma get?_empty (k : κ) : (empty : SortedMap κ ν).get? k = none := rfl

lemma get?_insert (m : SortedMap κ ν) (k k' : κ) (v : ν) :
    (m.insert k v).get? k' = if k' = k then some v else m.get? k' := lookup_mapInsert

/-- The keys of the other map win. -/
lemma get?_insertAll (m other : SortedMap κ ν) (k : κ) :
    (m.insertAll other).get? k = (other.get? k).or (m.get? k) := by
  obtain ⟨entries, hsorted⟩ := other
  show (entries.foldl (fun m e => m.insert e.1 e.2) m).get? k = (entries.lookup k).or (m.get? k)
  induction entries generalizing m with
  | nil => rfl
  | cons e entries ih =>
    obtain ⟨he, hrest⟩ := pairwise_cons.mp hsorted
    rw [foldl_cons, ih _ hrest, get?_insert, lookup_cons_eq_ite]
    by_cases hk : k = e.1
    · have hnone : entries.lookup k = none :=
        lookup_eq_none_iff.mpr fun e' he' => by simpa [hk] using (he e' he').ne
      rw [hnone, if_pos hk, if_pos hk]
      rfl
    · rw [if_neg hk, if_neg hk]

lemma entries_insertAll (m other : SortedMap κ ν) : (m.insertAll other).entries =
      other.entries.foldl (fun acc e => mapInsert e.1 e.2 acc) m.entries := by
  obtain ⟨entries, hsorted⟩ := other
  show (entries.foldl (fun m e => m.insert e.1 e.2) m).entries =
    entries.foldl (fun acc e => mapInsert e.1 e.2 acc) m.entries
  clear hsorted
  induction entries generalizing m with
  | nil => rfl
  | cons e entries ih => exact ih (m.insert e.1 e.2)

/-- Setting the keys of a map one after another gives the map. -/
@[simp] lemma empty_insertAll (m : SortedMap κ ν) : empty.insertAll m = m := by
  have hentries : (empty.insertAll m).entries = m.entries := by
    rw [entries_insertAll]
    exact foldl_mapInsert m.sorted
  cases h : empty.insertAll m
  cases m
  simpa [h] using hentries

end SortedMap

end Gyt
