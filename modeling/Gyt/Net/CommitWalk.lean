import Gyt.Merge.Base

/-!
# Commit walks of the reference policy

The two bounded walks over the commit graph in `net/refs_policy.rs`: whether a commit descends from
another one, and which commits an update brings in.
-/

namespace Gyt

open PopLoop List Option Store

/-- The number of commits that a walk is willing to visit, `MAX_WALK_COMMITS`. -/
def maxWalkCommits : ℕ := 1000000

/-- The error of a walk that visits too many commits. -/
def walkExceeded (what : String) : GytError :=
  .repo [.lit what, " walk exceeded ", .num maxWalkCommits, " commits"]

variable {s : Store} {old : Option ObjectId} {a b y new : ObjectId} {ids : List ObjectId}

/-! ## Descent -/

/-- One iteration of `isAncestor`, which leaves the loop with the result of the function. -/
def isAncestorStep (s : Store) (ancestor : ObjectId) :
    List ObjectId → ObjectId → Except (Result Bool) (List ObjectId × List ObjectId) :=
  searchStep s.parents fun seen id =>
    if maxWalkCommits < (id :: seen).length then some (.error (walkExceeded "commit graph"))
    else if id = ancestor then some (.ok true)
    else none

/-- Whether the first commit is an ancestor of the second one, or the same. -/
def isAncestor (s : Store) (ancestor descendant : ObjectId) : Result Bool :=
  if ancestor = descendant then .ok true
  else
    match (run (.stack _) (isAncestorStep s ancestor) (s.walkFuel 1) [descendant] []).get
        (Store.walk_isSome visitsOnce_searchStep [descendant] rfl) with
    | .ok _ => .ok false
    | .error r => r

/-- A positive answer is right. -/
lemma reaches_of_isAncestor (h : isAncestor s a b = .ok true) : s.Reaches b a := by
  unfold isAncestor at h
  split_ifs at h with hab
  · exact hab ▸ .refl
  · split at h
    · cases h
    · next r hr =>
      subst h
      -- The walk answers only at the ancestor itself.
      obtain ⟨seen, x, -, hx, hreach, -⟩ := exists_stop_of_run (eq_some_iff_get_eq.mpr ⟨_, hr⟩)
      split_ifs at hx with _ hxa
      · cases hx
      · exact hxa ▸ reachable_iff_reaches.mp hreach

/-- A negative answer is right. -/
lemma not_reaches_of_isAncestor (h : isAncestor s a b = .ok false) : ¬ s.Reaches b a := by
  unfold isAncestor at h
  split_ifs at h with hab
  · cases h
  split at h
  · next seen hseen =>
    rw [← reachable_iff_reaches]
    refine not_reachable_of_run (fun seen => ?_) (eq_some_iff_get_eq.mpr ⟨_, hseen⟩)
    rw [if_pos rfl]
    split_ifs <;> simp
  · next r hr =>
    subst h
    obtain ⟨seen, x, -, hx, -⟩ := exists_stop_of_run (eq_some_iff_get_eq.mpr ⟨_, hr⟩)
    split_ifs at hx <;> cases hx

/-- The walk does not give up if no more commits can be reached than it is willing to visit. -/
lemma exists_isAncestor_eq_ok (h : {y | s.Reaches b y}.encard ≤ maxWalkCommits) :
    ∃ answer, isAncestor s a b = .ok answer := by
  unfold isAncestor
  split_ifs
  · exact ⟨true, rfl⟩
  split
  · exact ⟨false, rfl⟩
  · next r hr =>
    obtain ⟨seen, x, hmem, hx, hreach, hnodup, hseen⟩ :=
      exists_stop_of_run (eq_some_iff_get_eq.mpr ⟨_, hr⟩)
    split_ifs at hx with hmax
    · -- The walk has met more distinct commits than there are.
      exfalso
      have hsub : (↑(x :: seen).toFinset : Set ObjectId) ⊆ {y | s.Reaches b y} := by
        intro y hy
        rw [coe_toFinset, Set.mem_ofPred_eq, mem_cons] at hy
        rcases hy with rfl | hy
        · exact reachable_iff_reaches.mp hreach
        · exact reachable_iff_reaches.mp (hseen y hy)
      have hcard : ((x :: seen).toFinset.card : ℕ∞) ≤ maxWalkCommits := by
        rw [← Set.encard_coe_eq_coe_finsetCard]
        exact (Set.encard_le_encard hsub).trans h
      rw [toFinset_card_of_nodup (nodup_cons.mpr ⟨hmem, hnodup⟩), Nat.cast_le] at hcard
      exact absurd hcard (Nat.not_le.mpr hmax)
    · exact ⟨true, (some.inj hx).symm⟩

/-- On histories within the bound the policy's search decides reachability along the parent links of
readable commits, and so does that of the merge command. -/
theorem isAncestor_exact (h : {y | s.Reaches b y}.encard ≤ maxWalkCommits) :
    isAncestor s a b = .ok (Merge.isAncestor s a b) ∧
      (isAncestor s a b = .ok true ↔ s.Reaches b a) := by
  obtain ⟨answer, hanswer⟩ := exists_isAncestor_eq_ok (a := a) h
  rw [hanswer]
  rcases answer with _ | _
  · have hnot := not_reaches_of_isAncestor hanswer
    have hmerge : Merge.isAncestor s a b = false :=
      Bool.eq_false_iff.mpr fun htrue => hnot (Merge.reaches_of_isAncestor htrue)
    rw [hmerge]
    exact ⟨rfl, iff_of_false (by decide) hnot⟩
  · have hreach := reaches_of_isAncestor hanswer
    rw [Merge.isAncestor_eq_true.mpr hreach]
    exact ⟨rfl, iff_of_true rfl hreach⟩

/-- A commit and its parent. -/
def sampleChain : Store × ObjectId × ObjectId :=
  let root := Commit.writeSample ⟨[]⟩ (.fill 0) []
  let child := Commit.writeSample root.1 (.fill 0) [root.2]
  (child.1, root.2, child.2)

/-- A parent is an ancestor of its child. -/
theorem isAncestor_exact_chain :
    {y | sampleChain.1.Reaches sampleChain.2.2 y}.encard ≤ maxWalkCommits ∧
      isAncestor sampleChain.1 sampleChain.2.1 sampleChain.2.2 = .ok true := by
  have hsub : {y | sampleChain.1.Reaches sampleChain.2.2 y} ⊆
      ↑[sampleChain.2.2, sampleChain.2.1].toFinset := by
    intro y hy
    rw [coe_toFinset, Set.mem_ofPred_eq]
    refine Store.Reaches.mem_of_closed ?_ mem_cons_self hy
    decide +kernel
  have hbound : {y | sampleChain.1.Reaches sampleChain.2.2 y}.encard ≤ maxWalkCommits := by
    refine (Set.encard_le_encard hsub).trans ?_
    rw [Set.encard_coe_eq_coe_finsetCard, Nat.cast_le]
    exact (toFinset_card_le _).trans (by decide)
  refine ⟨hbound, (isAncestor_exact hbound).2.mpr (.single ?_)⟩
  decide +kernel

/-! ## New commits -/

/-- One iteration of the walk over the commits that are not new. -/
def excludedStep (s : Store) :
    List ObjectId → ObjectId → Except GytError (List ObjectId × List ObjectId) :=
  searchStep s.parents fun excluded id =>
    if maxWalkCommits < (id :: excluded).length then some (walkExceeded "excluded-commit") else none

def excludedCommits (s : Store) : Option ObjectId → Result (List ObjectId)
  | none => .ok []
  | some old =>
    (run (.stack _) (excludedStep s) (s.walkFuel 1) [old] []).get
      (Store.walk_isSome visitsOnce_searchStep [old] rfl)

/-- Whether a commit is reached from the old value of a reference. -/
def ReachedFrom (s : Store) (old : Option ObjectId) (id : ObjectId) : Prop :=
  ∃ o, old = some o ∧ s.Reaches o id

lemma mem_excludedCommits (h : excludedCommits s old = .ok ids) :
    y ∈ ids ↔ ReachedFrom s old y := by
  cases old with
  | none =>
    cases h
    simp [ReachedFrom]
  | some o =>
    have hrun := mem_seen_iff_reachable visitsOnce_searchStep rfl
      (eq_some_iff_get_eq.mpr ⟨_, h⟩) y
    simpa [ReachedFrom, reachable_iff_reaches] using hrun

/-- The state of the walk over the new commits. -/
structure NewWalk where
  out : List ObjectId
  seen : List ObjectId

/-- One iteration of the walk over the new commits.  The flag of an item says whether it was reached
along a parent link. -/
def newStep (s : Store) (excluded : List ObjectId) (w : NewWalk) (item : ObjectId × Bool) :
    Except GytError (NewWalk × List (ObjectId × Bool)) :=
  if item.1 ∈ excluded then .ok (w, [])
  else if item.1 ∈ w.seen then .ok (w, [])
  else if maxWalkCommits < (item.1 :: w.seen).length then .error (walkExceeded "new-commit")
  else
    match Commit.read s item.1 with
    | .error e =>
      if item.2 then
        .error (.repo ("commit graph references missing or unreadable ancestor " ::
          .str item.1.toHex :: ": " :: e.display))
      else .ok ({ w with seen := item.1 :: w.seen }, [])
    | .ok c => .ok (⟨w.out ++ [item.1], item.1 :: w.seen⟩, c.parents.map (·, true))

/-- What one iteration of the walk over the new commits does. -/
lemma newStep_eq_ok {excluded : List ObjectId} {w w' : NewWalk} {item : ObjectId × Bool}
    {next : List (ObjectId × Bool)} (h : newStep s excluded w item = .ok (w', next)) :
    ((item.1 ∈ excluded ∨ item.1 ∈ w.seen) ∧ w' = w ∧ next = []) ∨
    (item.1 ∉ excluded ∧ item.1 ∉ w.seen ∧ w'.seen = item.1 :: w.seen ∧
      ((¬ s.Readable item.1 ∧ item.2 = false ∧ w'.out = w.out ∧ next = []) ∨
        (s.Readable item.1 ∧ w'.out = w.out ++ [item.1] ∧
          next = (s.parents item.1).map (·, true)))) := by
  by_cases hexcl : item.1 ∈ excluded
  · rw [newStep, if_pos hexcl] at h
    cases h
    exact .inl ⟨.inl hexcl, rfl, rfl⟩
  by_cases hseen : item.1 ∈ w.seen
  · rw [newStep, if_neg hexcl, if_pos hseen] at h
    cases h
    exact .inl ⟨.inr hseen, rfl, rfl⟩
  rw [newStep, if_neg hexcl, if_neg hseen] at h
  refine .inr ⟨hexcl, hseen, ?_⟩
  split at h
  · cases h
  split at h
  · next e he =>
    have hread : ¬ s.Readable item.1 := fun ⟨c, hc⟩ => by cases he.symm.trans hc
    split at h
    · cases h
    · next hflag =>
      cases h
      exact ⟨rfl, .inl ⟨hread, by simpa using hflag, rfl, rfl⟩⟩
  · next c hc =>
    cases h
    exact ⟨rfl, .inr ⟨⟨c, hc⟩, rfl, by rw [parents_of_read hc]⟩⟩

lemma visitsOnce_newStep (s : Store) (excluded : List ObjectId) :
    VisitsOnce Prod.fst NewWalk.seen (· ∈ excluded) s.parents (newStep s excluded) := by
  intro w item w' next h
  rcases newStep_eq_ok h with hskip | ⟨hexcl, hseen, hcons, hcases⟩
  · exact .inl hskip
  · refine .inr ⟨hexcl, hseen, hcons, ?_⟩
    rcases hcases with ⟨hread, -, -, rfl⟩ | ⟨-, -, rfl⟩
    · have hparents : s.parents item.1 = [] :=
        not_not.mp fun hne => hread (readable_of_parents_ne_nil hne)
      rw [hparents, map_nil]
    · rw [List.map_map]
      exact map_id _

/-- The commits reached from `new` and not from the old value. -/
def commitsNewSince (s : Store) (old : Option ObjectId) (new : ObjectId) :
    Result (List ObjectId) := do
  let excluded ← excludedCommits s old
  let w ← (run (.stack _) (newStep s excluded) (s.walkFuel 1) [(new, false)] ⟨[], []⟩).get
    (Store.walk_isSome (visitsOnce_newStep s excluded) [(new, false)] rfl)
  return w.out

/-- What the walk over the new commits knows about its two lists: exactly the readable commits are
listed, and only the commit it started from may be unreadable. -/
structure NewWalkInv (s : Store) (new : ObjectId) (work : List (ObjectId × Bool)) (w : NewWalk) :
    Prop where
  mem_out : ∀ id, id ∈ w.out ↔ id ∈ w.seen ∧ s.Readable id
  readable : ∀ id ∈ w.seen, s.Readable id ∨ id = new
  seed : ∀ item ∈ work, item.2 = true ∨ item.1 = new

/-- One item of the walk keeps the invariant. -/
theorem NewWalkInv.step {D : PushDiscipline (ObjectId × Bool)} {excluded : List ObjectId}
    {item : ObjectId × Bool} {work next : List (ObjectId × Bool)} {w w' : NewWalk}
    (hinv : NewWalkInv s new (item :: work) w)
    (h : newStep s excluded w item = .ok (w', next)) :
    NewWalkInv s new (D.push work next) w' := by
  have hrest : ∀ item ∈ work, item.2 = true ∨ item.1 = new :=
    fun item hitem => hinv.seed item (mem_cons_of_mem _ hitem)
  rcases newStep_eq_ok h with ⟨-, rfl, rfl⟩ | ⟨-, -, hseen,
    ⟨hread, hflag, hout, rfl⟩ | ⟨hread, hout, rfl⟩⟩
  · exact ⟨hinv.mem_out, hinv.readable, by simpa using hrest⟩
  · have hnew : item.1 = new :=
      (hinv.seed item mem_cons_self).resolve_left (by simp [hflag])
    refine ⟨fun id => ?_, fun id hid => ?_, by simpa using hrest⟩
    · rw [hout, hseen, mem_cons, hinv.mem_out]
      grind
    · rw [hseen, mem_cons] at hid
      rcases hid with rfl | hid
      · exact .inr hnew
      · exact hinv.readable id hid
  · refine ⟨fun id => ?_, fun id hid => ?_, fun item' hitem' => ?_⟩
    · rw [hout, hseen, mem_append, mem_singleton, mem_cons, hinv.mem_out]
      grind
    · rw [hseen, mem_cons] at hid
      rcases hid with rfl | hid
      · exact .inl hread
      · exact hinv.readable id hid
    · rw [D.mem_push] at hitem'
      rcases hitem' with hitem' | hitem'
      · obtain ⟨p, -, rfl⟩ := mem_map.mp hitem'
        exact .inl rfl
      · exact hrest item' hitem'

/-- The listed commits are the readable ones among those that are reached from `new` without
passing through a commit reached from the old value, and all of these but `new` are readable. -/
lemma commitsNewSince_spec (h : commitsNewSince s old new = .ok ids) :
    (∀ id, id ∈ ids ↔ Reachable (ReachedFrom s old) s.parents [new] id ∧ s.Readable id) ∧
      ∀ id, Reachable (ReachedFrom s old) s.parents [new] id → s.Readable id ∨ id = new := by
  rw [commitsNewSince, bind_eq_ok] at h
  obtain ⟨excluded, hexcl, h⟩ := h
  rw [bind_eq_ok] at h
  obtain ⟨w, hw, h⟩ := h
  cases h
  have hrun := eq_some_iff_get_eq.mpr ⟨_, hw⟩
  have hexcluded : (· ∈ excluded) = ReachedFrom s old :=
    funext fun id => propext (mem_excludedCommits hexcl)
  have hseen := mem_seen_iff_reachable (visitsOnce_newStep s excluded) rfl hrun
  have hinv : NewWalkInv s new [] w :=
    run_invariant (NewWalkInv s new) (fun _ _ _ _ _ hinv hx => hinv.step hx)
      ⟨by simp, by simp, by simp⟩ hrun
  rw [hexcluded] at hseen
  refine ⟨fun id => ?_, fun id hid => hinv.readable id ((hseen id).mpr hid)⟩
  rw [hinv.mem_out, hseen]
  rfl

end Gyt
