import Gyt.Cmd.Purge
import Gyt.Object.Closure

/-!
# What a purge is for

A purge of some paths is complete if no commit holds one of them that a branch, a tag, a
remote-tracking reference, the stash or `HEAD` leads to, along parents and the targets of tags.

This module also says in which order the rewriting loop visits the commits.  The loop takes the new
parents of a commit from what it has visited before.
-/

namespace Gyt

/-! ## Histories -/

namespace Store

/-- The parents of a commit, and the target of a tag. -/
def links (s : Store) (id : ObjectId) : List ObjectId :=
  s.parents id ++ ((Tag.read s id).toOption.map (·.target)).toList

/-- Whether the first object leads to the second along parents and the targets of tags. -/
def Leads (s : Store) : ObjectId → ObjectId → Prop :=
  Relation.ReflTransGen fun a b => b ∈ s.links a

variable {s t : Store} {id y : ObjectId}

/-- What an object links to depends on that object only. -/
lemma links_congr (h : t.get? id = s.get? id) : t.links id = s.links id := by
  simp only [links, parents, Commit.read, Tag.read, read, h]

lemma mem_links_of_mem_parents (h : y ∈ s.parents id) : y ∈ s.links id :=
  List.mem_append_left _ h

/-- What is reached along parents is led to. -/
lemma Reaches.leads (h : s.Reaches id y) : s.Leads id y := by
  induction h with
  | refl => exact .refl
  | tail _ hp ih => exact ih.tail (mem_links_of_mem_parents hp)

/-- A commit is not a tag. -/
lemma links_of_commitRead {c : Commit} (h : Commit.read s id = .ok c) : s.links id = c.parents := by
  obtain ⟨payload, hget, -⟩ := commitRead_eq_ok.mp h
  have htag : (Tag.read s id).toOption = none := by
    simp [Tag.read, read, hget, okOr, ensure, Except.toOption]
  rw [links, htag, parents_of_read h]
  simp

end Store

namespace Purge

variable {s t : Store} {paths : List RelPath} {id y : ObjectId} {c : Commit}

/-- Whether one of the paths or a path below one of them is among the files of a tree. -/
def HoldsTarget (s : Store) (paths : List RelPath) (tree : ObjectId) : Prop :=
  ∃ path, InTree s tree path ∧ ∃ p ∈ paths, p <+: path

/-- The files of a tree that can be flattened are those of the flattened tree. -/
lemma holdsTarget_iff_flattenTree {tree : ObjectId} {files : FileMap}
    (h : flattenTree s tree = some (.ok files)) :
    HoldsTarget s paths tree ↔ ∃ path ∈ files, ∃ p ∈ paths, p <+: path := by
  simp only [HoldsTarget, mem_flattenTree_iff h]

/-- Whether no commit that an object leads to holds one of the paths. -/
def Clean (s : Store) (paths : List RelPath) (id : ObjectId) : Prop :=
  ∀ y, s.Leads id y → ∀ c, Commit.read s y = .ok c → ¬ HoldsTarget s paths c.tree

/-- An object is clean if it holds none of the paths itself and what it links to is clean. -/
lemma clean_iff : Clean s paths id ↔
    (∀ c, Commit.read s id = .ok c → ¬ HoldsTarget s paths c.tree) ∧
      ∀ y ∈ s.links id, Clean s paths y := by
  constructor
  · intro h
    exact ⟨h id .refl, fun y hy z hz => h z (hz.head hy)⟩
  · rintro ⟨hself, hlinks⟩ z hz
    rcases hz.cases_head with rfl | ⟨y, hy, hyz⟩
    · exact hself
    · exact hlinks y hy z hyz

lemma Clean.leads (h : Clean s paths id) (hy : s.Leads id y) : Clean s paths y :=
  fun z hz => h z (hy.trans hz)

/-- What is neither a commit nor a tag leads nowhere. -/
lemma clean_of_isTree {payload : Bytes} (h : s.get? id = some ⟨.tree, payload⟩) :
    Clean s paths id := by
  have hcommit : ∀ c, Commit.read s id ≠ .ok c := by
    intro c hc
    obtain ⟨payload', hget, -⟩ := Store.commitRead_eq_ok.mp hc
    rw [h] at hget
    cases hget
  have hlinks : s.links id = [] := by
    simp [Store.links, Store.parents, Commit.read, Tag.read, Store.read, h, okOr, ensure,
      Except.toOption]
  rw [clean_iff, hlinks]
  exact ⟨fun c hc => absurd hc (hcommit c), fun y hy => absurd hy List.not_mem_nil⟩

/-- Whether a purge is about the reference with a name. -/
def Scoped (fs : RefFiles) (name : Str) : Prop :=
  (∃ dir ∈ [refsHeads, refsTags, refsRemotes], RefFiles.isBelow name dir = true) ∨
    name = refsStash ∨ readHead fs = .ok (.symbolic name)

/-- What a purge is about: the values of these references, and a detached `HEAD`. -/
inductive InScope (fs : RefFiles) (id : ObjectId) : Prop
  | ref {name : Str} (hname : Scoped fs name) (hvalue : refValue fs name = some id)
  | detached (hhead : readHead fs = .ok (.detached id))

/-- Whether the paths are gone from the history. -/
def Complete {W : Type} (repo : Repo W) (paths : List RelPath) : Prop :=
  ∀ id, InScope repo.files id → Clean repo.objects paths id

/-! ## Histories in a larger store -/

/-- Whether the second store has the same objects as the first one, as far as an object needs
them. -/
def Kept (s t : Store) (id : ObjectId) : Prop := ∀ y, s.Needs id y → t.get? y = s.get? y

section

variable (h : Kept s t id)

include h

lemma Kept.needs (hy : s.Needs id y) : Kept s t y :=
  fun z hz => h z (hy.trans hz)

lemma Kept.get?_eq : t.get? id = s.get? id := h id .refl

lemma Kept.leads (hy : s.Leads id y) : Kept s t y := by
  refine h.needs ?_
  induction hy with
  | refl => exact .refl
  | @tail a b _ hstep ih =>
    refine ih.tail ?_
    rcases List.mem_append.mp hstep with hparent | htag
    · exact Store.mem_mentions_of_mem_parents hparent
    · cases hread : Tag.read s a with
      | error e =>
        rw [hread] at htag
        cases htag
      | ok g =>
        rw [hread] at htag
        rw [Store.mentions_of_tagRead hread]
        simpa [Except.toOption] using htag

/-- Such a history stays the same. -/
lemma leads_iff_of_kept : t.Leads id y ↔ s.Leads id y := by
  constructor
  · intro hy
    induction hy with
    | refl => exact .refl
    | tail _ hstep ih =>
      rw [Store.links_congr (h.leads ih).get?_eq] at hstep
      exact ih.tail hstep
  · intro hy
    induction hy with
    | refl => exact .refl
    | tail hy hstep ih =>
      rw [← Store.links_congr (h.leads hy).get?_eq] at hstep
      exact ih.tail hstep

lemma treeRead_eq_of_kept : Tree.read t id = Tree.read s id := by
  rw [Tree.read, Tree.read, Store.read, Store.read, h.get?_eq]

lemma Kept.entry {entries : List TreeEntry} {e : TreeEntry}
    (hread : Tree.read s id = .ok entries) (he : e ∈ entries) : Kept s t e.hash := by
  refine h.needs (.single ?_)
  rw [Store.mentions_of_treeRead hread]
  exact List.mem_map_of_mem (f := TreeEntry.hash) he

/-- Such a tree has the same files. -/
lemma inTree_iff_of_kept {path : RelPath} : InTree t id path ↔ InTree s id path := by
  constructor
  · intro hpath
    induction hpath with
    | file hread he hmode hname => exact .file (treeRead_eq_of_kept h ▸ hread) he hmode hname
    | dir hread he hmode hname _ ih =>
      have hread' := treeRead_eq_of_kept h ▸ hread
      exact .dir hread' he hmode hname (ih (h.entry hread' he))
  · intro hpath
    induction hpath with
    | file hread he hmode hname =>
      exact .file ((treeRead_eq_of_kept h).trans hread) he hmode hname
    | dir hread he hmode hname _ ih =>
      exact .dir ((treeRead_eq_of_kept h).trans hread) he hmode hname (ih (h.entry hread he))

lemma holdsTarget_iff_of_kept (hc : Commit.read s id = .ok c) :
    HoldsTarget t paths c.tree ↔ HoldsTarget s paths c.tree := by
  have htree : Kept s t c.tree := by
    refine h.needs (.single ?_)
    rw [Store.mentions_of_commitRead hc]
    exact List.mem_cons_self
  simp only [HoldsTarget, inTree_iff_of_kept htree]

/-- Whether such a history is clean does not change. -/
lemma clean_iff_of_kept : Clean t paths id ↔ Clean s paths id := by
  have hiff : ∀ y, s.Leads id y → ((∀ c, Commit.read t y = .ok c → ¬ HoldsTarget t paths c.tree) ↔
      ∀ c, Commit.read s y = .ok c → ¬ HoldsTarget s paths c.tree) := by
    intro y hy
    have hread : Commit.read t y = Commit.read s y := by
      simp only [Commit.read, Store.read, (h.leads hy).get?_eq]
    rw [hread]
    exact forall_congr' fun c => forall_congr' fun hc =>
      not_congr (holdsTarget_iff_of_kept (h.leads hy) hc)
  constructor
  · intro hclean y hy
    exact (hiff y hy).mp (hclean y ((leads_iff_of_kept h).mpr hy))
  · intro hclean y hy
    have hy' := (leads_iff_of_kept h).mp hy
    exact (hiff y hy').mpr (hclean y hy')

end

/-! ## The order of the visits -/

/-- The identifiers with a new one after a root tree was rewritten. -/
def treeKeys (tree : ObjectId) (keys : List ObjectId) : List ObjectId :=
  if isNull tree ∨ tree ∈ keys then keys else tree :: keys

/-- What one iteration of the rewriting loop does to the identifiers that have a new one. -/
def visitStep (commits : Commits) (keys : List ObjectId) (id : ObjectId) :
    Except Empty (List ObjectId × List ObjectId) :=
  if id ∈ keys then .ok (keys, [])
  else
    match commits.lookup id with
    | none => .ok (keys, [])
    | some c =>
      .ok (id :: treeKeys c.tree keys, c.parents.filter (· ∉ id :: treeKeys c.tree keys))

/-- The commits and root trees in the order in which the rewriting loop visits them, the last one
first, if the commits are iterated in the given order. -/
def visitOrder (commits : Commits) (order : List ObjectId) : List ObjectId :=
  match PopLoop.run (.stack _) (visitStep commits) (walkBudget commits) order.reverse [] with
  | some (.ok keys) => keys
  | _ => []

/-- Whether the first identifier comes before the second one. -/
def Precedes (keys : List ObjectId) (p c : ObjectId) : Prop :=
  ∃ later earlier, keys = later ++ c :: earlier ∧ p ∈ earlier

end Purge

end Gyt
