import Gyt.Object.Commit
import Gyt.Foundation.PopLoop

/-!
# The commit graph

The parent links between the commits of a store, reachability along them, and the amount of work
that bounds every walk over them.
-/

namespace Gyt.Store

open List

/-- The parents of a commit; none if the object is missing or not a commit that decodes. -/
def parents (s : Store) (id : ObjectId) : List ObjectId :=
  match Commit.read s id with
  | .ok c => c.parents
  | .error _ => []

/-- Whether an object is a commit that decodes. -/
def Readable (s : Store) (id : ObjectId) : Prop := ∃ c, Commit.read s id = .ok c

instance (s : Store) (id : ObjectId) : Decidable (s.Readable id) :=
  match h : Commit.read s id with
  | .ok c => .isTrue ⟨c, h⟩
  | .error _ => .isFalse fun ⟨_, hc⟩ => nomatch h.symm.trans hc

/-- Whether the second object is reached from the first along parent links. -/
def Reaches (s : Store) : ObjectId → ObjectId → Prop :=
  Relation.ReflTransGen fun a b => b ∈ s.parents a

/-- The identifiers of the stored objects. -/
def ids (s : Store) : List ObjectId := s.entries.map (·.1)

/-- Enough iterations for a walk that pops `n` items and the parents of every commit once. -/
def walkFuel (s : Store) (n : ℕ) : ℕ := n + PopLoop.linksLeft s.parents s.ids []

variable {s t : Store} {id : ObjectId} {c : Commit}

lemma parents_of_read (h : Commit.read s id = .ok c) : s.parents id = c.parents := by
  rw [parents, h]

lemma readable_of_parents_ne_nil (h : s.parents id ≠ []) : s.Readable id := by
  unfold parents at h
  split at h
  · next c hc => exact ⟨c, hc⟩
  · exact absurd rfl h

lemma commitRead_eq_ok : Commit.read s id = .ok c ↔
      ∃ payload, s.get? id = some ⟨.commit, payload⟩ ∧ Commit.decode payload = .ok c :=
  read_bind_eq_ok

/-- A commit with parents is among the stored objects. -/
lemma mem_ids_of_parents_ne_nil (h : s.parents id ≠ []) : id ∈ s.ids := by
  obtain ⟨c, hc⟩ := readable_of_parents_ne_nil h
  obtain ⟨payload, hget, -⟩ := commitRead_eq_ok.mp hc
  exact mem_map_of_mem (f := Prod.fst) (mem_entries_of_get? hget)

/-- Commits stay as they are when the store grows. -/
lemma Extends.commitRead (h : s.Extends t) (hc : Commit.read s id = .ok c) :
    Commit.read t id = .ok c := by
  obtain ⟨payload, hget, hdec⟩ := commitRead_eq_ok.mp hc
  exact commitRead_eq_ok.mpr ⟨payload, h id _ hget, hdec⟩

lemma Extends.parents_eq (h : s.Extends t) (hid : s.Readable id) : t.parents id = s.parents id := by
  obtain ⟨c, hc⟩ := hid
  rw [parents_of_read hc, parents_of_read (h.commitRead hc)]

/-- Reachability is kept when the store grows. -/
theorem Extends.reaches {a b : ObjectId} (h : s.Extends t) (hab : s.Reaches a b) :
    t.Reaches a b := by
  induction hab with
  | refl => exact .refl
  | tail _ hstep ih =>
    refine ih.tail ?_
    rw [h.parents_eq (readable_of_parents_ne_nil (ne_nil_of_mem hstep))]
    exact hstep

/-- From a commit with a complete history nothing more is reached when the store grows. -/
lemma Extends.reaches_of_readable {a b : ObjectId} (h : s.Extends t)
    (hread : ∀ x, s.Reaches a x → s.Readable x) (hab : t.Reaches a b) : s.Reaches a b := by
  induction hab with
  | refl => exact .refl
  | tail _ hstep ih =>
    rw [h.parents_eq (hread _ ih)] at hstep
    exact ih.tail hstep

/-- Only readable commits reach others. -/
lemma Reaches.eq_or_readable {a b : ObjectId} (h : s.Reaches a b) : a = b ∨ s.Readable a := by
  rcases h.cases_head with heq | ⟨p, hp, -⟩
  · exact .inl heq
  · exact .inr (readable_of_parents_ne_nil (ne_nil_of_mem hp))

/-- What is reached from a list of objects that holds their parents is in it. -/
lemma Reaches.mem_of_closed {l : List ObjectId} (hl : ∀ x ∈ l, ∀ p ∈ s.parents x, p ∈ l)
    {a b : ObjectId} (ha : a ∈ l) (h : s.Reaches a b) : b ∈ l := by
  induction h with
  | refl => exact ha
  | tail _ hstep ih => exact hl _ ih _ hstep

/-- A history in which the parents of the stored commits have a lower rank has no cycles. -/
lemma not_reaches_of_rank (f : ObjectId → ℕ) (hf : ∀ x ∈ s.ids, ∀ p ∈ s.parents x, f p < f x)
    (x : ObjectId) : ∀ p ∈ s.parents x, ¬ s.Reaches p x := by
  have hrank : ∀ x, ∀ p ∈ s.parents x, f p < f x := fun x p hp =>
    hf x (mem_ids_of_parents_ne_nil (ne_nil_of_mem hp)) p hp
  intro p hp hreach
  have hle : f x ≤ f p := by
    clear hp
    induction hreach with
    | refl => exact le_rfl
    | tail _ hstep ih => exact (hrank _ _ hstep).le.trans ih
  exact absurd (hrank x p hp) (Nat.not_lt.mpr hle)

lemma extends_of_grows (h : s.entries <+: t.entries) : s.Extends t := by
  obtain ⟨new, hnew⟩ := h
  have hext := s.extends_append new
  rw [hnew] at hext
  exact hext

/-- A store that has more objects than another one, but no more commits. -/
def SameCommits (s t : Store) : Prop :=
  ∃ new, t.entries = s.entries ++ new ∧ ∀ e ∈ new, e.2.kind ≠ .commit

@[refl] lemma SameCommits.refl (s : Store) : s.SameCommits s :=
  ⟨[], by simp, fun _ he => absurd he not_mem_nil⟩

@[trans] lemma SameCommits.trans {u : Store} (h : s.SameCommits t) (h' : t.SameCommits u) :
    s.SameCommits u := by
  obtain ⟨new, ht, hnew⟩ := h
  obtain ⟨new', hu, hnew'⟩ := h'
  refine ⟨new ++ new', by rw [hu, ht, append_assoc], fun e he => ?_⟩
  rcases mem_append.mp he with he | he
  · exact hnew e he
  · exact hnew' e he

lemma sameCommits_writeBytes (hashBytes : Hash) (s : Store) {kind : ObjectKind}
    (hkind : kind ≠ .commit) (payload : Bytes) :
    s.SameCommits (s.writeBytes hashBytes kind payload).1 :=
  ⟨_, rfl, fun e he => by rw [mem_singleton.mp he]; exact hkind⟩

section

variable (h : s.SameCommits t)

include h

lemma SameCommits.grows : s.entries <+: t.entries := by
  obtain ⟨new, ht, -⟩ := h
  exact ⟨new, ht.symm⟩

lemma SameCommits.extends : s.Extends t := extends_of_grows h.grows

/-- The commits of the larger store are those of the smaller one. -/
lemma SameCommits.commitRead_iff : Commit.read t id = .ok c ↔ Commit.read s id = .ok c := by
  refine ⟨fun hc => ?_, h.extends.commitRead⟩
  obtain ⟨payload, hget, hdec⟩ := commitRead_eq_ok.mp hc
  refine commitRead_eq_ok.mpr ⟨payload, ?_, hdec⟩
  cases hs : s.get? id with
  | some o => rw [← h.extends id o hs, hget]
  | none =>
    -- A commit that is new would be among the new objects.
    obtain ⟨new, ht, hnew⟩ := h
    rw [get?, ht, lookup_append] at hget
    rw [get?] at hs
    rw [hs, Option.none_or] at hget
    have hmem : (id, (⟨.commit, payload⟩ : Object)) ∈ (⟨new⟩ : Store).entries :=
      mem_entries_of_get? hget
    exact absurd rfl (hnew _ hmem)

lemma SameCommits.parents_eq : t.parents = s.parents := by
  funext id
  cases hs : Commit.read s id with
  | ok c => rw [parents_of_read hs, parents_of_read (h.commitRead_iff.mpr hs)]
  | error e =>
    cases ht : Commit.read t id with
    | ok c => rw [h.commitRead_iff.mp ht] at hs; cases hs
    | error e' => rw [parents, parents, hs, ht]

lemma SameCommits.reaches_eq : t.Reaches = s.Reaches := by
  unfold Reaches
  rw [h.parents_eq]

end

/-! ## Writing a commit -/

section Write

variable {hashBytes : Hash}

/-- Without collisions, a well-formed commit that was written can be read. -/
lemma commitRead_of_write (hc : c.WellFormed) (ht : t.CollisionFree)
    (hsub : (Commit.write hashBytes s c).1.entries ⊆ t.entries) :
    Commit.read t (Commit.write hashBytes s c).2 = .ok c :=
  commitRead_eq_ok.mpr ⟨c.encode,
    get?_of_mem_entries ht (hsub (mem_entries_writeBytes hashBytes s .commit c.encode)),
    Commit.decode_encode hc⟩

lemma parents_write_of_ne (h : id ≠ (Commit.write hashBytes s c).2) :
    (Commit.write hashBytes s c).1.parents id = s.parents id := by
  have hget : (Commit.write hashBytes s c).1.get? id = s.get? id := by
    have hnone : [((Commit.write hashBytes s c).2, (⟨.commit, c.encode⟩ : Object))].lookup id =
        none := by
      rw [lookup_cons, beq_eq_false_iff_ne.mpr h]
      rfl
    show lookup id (s.entries ++ _) = _
    rw [lookup_append]
    exact (congrArg _ hnone).trans (Option.or_none)
  simp only [parents, Commit.read, read, hget]

/-- From a new commit nothing is reached but itself and what its parents reach. -/
lemma reaches_write (hc : c.WellFormed) (hs : (Commit.write hashBytes s c).1.CollisionFree)
    {y : ObjectId}
    (h : (Commit.write hashBytes s c).1.Reaches (Commit.write hashBytes s c).2 y) :
    y = (Commit.write hashBytes s c).2 ∨ ∃ p ∈ c.parents, s.Reaches p y := by
  have hnew := parents_of_read (commitRead_of_write hc hs (Subset.refl _))
  induction h with
  | refl => exact .inl rfl
  | @tail x z _ hstep ih =>
    by_cases hx : x = (Commit.write hashBytes s c).2
    · rw [hx, hnew] at hstep
      exact .inr ⟨z, hstep, .refl⟩
    · rw [parents_write_of_ne hx] at hstep
      obtain ⟨p, hp, hreach⟩ := ih.resolve_left hx
      exact .inr ⟨p, hp, hreach.tail hstep⟩

end Write

section Walk

variable {α σ β : Type} {D : PushDiscipline α} {body : σ → α → Except β (σ × List α)}
  {key : α → ObjectId} {seen : σ → List ObjectId} {excluded : ObjectId → Prop}

/-- A walk that visits every commit once and pushes its parents ends. -/
lemma walk_isSome (hbody : PopLoop.VisitsOnce key seen excluded s.parents body)
    (work : List α) {st : σ} (hseen : seen st = []) :
    (PopLoop.run D body (s.walkFuel work.length) work st).isSome := by
  refine PopLoop.run_isSome_of_visitsOnce hbody s.ids (fun y hy => mem_ids_of_parents_ne_nil hy) ?_
  rw [hseen]
  exact Nat.le_refl _

/-- Without excluded commits, a walk from one commit reaches what the parent links reach. -/
lemma reachable_iff_reaches {a b : ObjectId} :
    PopLoop.Reachable (fun _ => False) s.parents [a] b ↔ s.Reaches a b := by
  simp [PopLoop.Reachable, Reaches]

end Walk

end Gyt.Store
