import Gyt.Graph
import Gyt.Object.Tag
import Gyt.Object.Tree

/-!
# What objects need

The links between all kinds of objects: a commit mentions its tree and its parents, a tree the
objects of its entries, and a tag its target.  An object needs what it mentions and what these
objects need in turn.
-/

namespace Gyt.Store

/-- The identifiers in an object; none if it is missing or does not decode. -/
def mentions (s : Store) (id : ObjectId) : List ObjectId :=
  match s.get? id with
  | some ⟨.commit, payload⟩ =>
      ((Commit.decode payload).toOption.map fun c => c.tree :: c.parents).getD []
  | some ⟨.tree, payload⟩ => ((Tree.decode payload).toOption.map (·.map (·.hash))).getD []
  | some ⟨.tag, payload⟩ => ((Tag.decode payload).toOption.map (·.target)).toList
  | _ => []

/-- Whether the first object needs the second one. -/
def Needs (s : Store) : ObjectId → ObjectId → Prop :=
  Relation.ReflTransGen fun a b => b ∈ s.mentions a

variable {s t : Store} {id y : ObjectId}

lemma mentions_of_commitRead {c : Commit} (h : Commit.read s id = .ok c) :
    s.mentions id = c.tree :: c.parents := by
  obtain ⟨payload, hget, hdec⟩ := commitRead_eq_ok.mp h
  simp [mentions, hget, hdec, Except.toOption]

lemma mentions_of_treeRead {entries : List TreeEntry} (h : Tree.read s id = .ok entries) :
    s.mentions id = entries.map (·.hash) := by
  obtain ⟨payload, hget, hdec⟩ := Tree.read_eq_ok.mp h
  simp [mentions, hget, hdec, Except.toOption]

lemma tagRead_eq_ok {g : Tag} : Tag.read s id = .ok g ↔
    ∃ payload, s.get? id = some ⟨.tag, payload⟩ ∧ Tag.decode payload = .ok g :=
  read_bind_eq_ok

lemma mentions_of_tagRead {g : Tag} (h : Tag.read s id = .ok g) : s.mentions id = [g.target] := by
  obtain ⟨payload, hget, hdec⟩ := tagRead_eq_ok.mp h
  simp [mentions, hget, hdec, Except.toOption]

lemma mem_mentions_of_mem_parents (h : y ∈ s.parents id) : y ∈ s.mentions id := by
  obtain ⟨c, hc⟩ := readable_of_parents_ne_nil (List.ne_nil_of_mem h)
  rw [mentions_of_commitRead hc]
  rw [parents_of_read hc] at h
  exact List.mem_cons_of_mem _ h

/-- A set of objects with all that they mention has all that they need. -/
lemma Needs.mem {l : List ObjectId} (hclosed : ∀ a ∈ l, ∀ b ∈ s.mentions a, b ∈ l) (hid : id ∈ l)
    (h : s.Needs id y) : y ∈ l := by
  induction h with
  | refl => exact hid
  | tail _ hstep ih => exact hclosed _ ih _ hstep

/-- Whether no object is missing that another one mentions. -/
def Closed (s : Store) : Prop := ∀ a ∈ s.ids, ∀ b ∈ s.mentions a, b ∈ s.ids

instance (s : Store) : Decidable s.Closed := inferInstanceAs (Decidable (∀ a ∈ s.ids, _))

lemma mem_ids_iff : id ∈ s.ids ↔ (s.get? id).isSome := by
  rw [ids, get?, ← Option.not_isNone, Bool.not_eq_true', Option.isNone_eq_false_iff,
    Option.isSome_iff_ne_none, Ne, List.lookup_eq_none_iff, List.mem_map]
  constructor
  · rintro ⟨e, he, rfl⟩ hall
    simpa using hall e he
  · intro hall
    by_contra hnot
    refine hall fun e he => ?_
    rw [bne_iff_ne]
    rintro rfl
    exact hnot ⟨e, he, rfl⟩

end Gyt.Store
