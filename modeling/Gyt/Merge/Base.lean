import Gyt.Foundation.BreadthFirst
import Gyt.Foundation.DepthFirst
import Gyt.Graph

/-!
# Merge bases and the commits to replay

The unbounded walks over the commit graph of `cmd/merge.rs` and `cmd/rebase.rs`: whether a commit is
an ancestor of another one, a common ancestor of two commits, and the commits between two commits.
-/

namespace Gyt.Merge

open PopLoop List Option Store

variable {s : Store} {a b y : ObjectId}

/-! ## Sets of ancestors -/

/-- One iteration of a walk that passes over excluded commits; the commits that were seen, the last
one first. -/
def visitStep (s : Store) (excluded seen : List ObjectId) (id : ObjectId) :
    Except PEmpty (List ObjectId × List ObjectId) :=
  if id ∈ excluded then .ok (seen, [])
  else if id ∈ seen then .ok (seen, [])
  else .ok (id :: seen, s.parents id)

lemma visitsOnce_visitStep (s : Store) (excluded : List ObjectId) :
    VisitsOnce id id (· ∈ excluded) s.parents (visitStep s excluded) := by
  intro seen x seen' next hx
  simp only [visitStep] at hx
  split_ifs at hx with hexcl hseen
  · cases hx
    exact .inl ⟨.inl hexcl, rfl, rfl⟩
  · cases hx
    exact .inl ⟨.inr hseen, rfl, rfl⟩
  · cases hx
    exact .inr ⟨hexcl, hseen, rfl, map_id _⟩

/-- The commits that a walk from a commit sees, the last one first. -/
def visited (s : Store) (excluded : List ObjectId) (id : ObjectId) : List ObjectId :=
  match (run (.stack _) (visitStep s excluded) (s.walkFuel 1) [id] []).get
      (Store.walk_isSome (visitsOnce_visitStep s excluded) [id] rfl) with
  | .ok seen => seen

lemma run_visited (s : Store) (excluded : List ObjectId) (id : ObjectId) :
    run (.stack _) (visitStep.{0} s excluded) (s.walkFuel 1) [id] [] =
      some (.ok (visited s excluded id)) := by
  unfold visited
  split
  next seen hseen =>
  exact eq_some_iff_get_eq.mpr ⟨_, hseen⟩

lemma mem_visited {excluded : List ObjectId} {id : ObjectId} :
    y ∈ visited s excluded id ↔ Reachable (· ∈ excluded) s.parents [id] y :=
  mem_seen_iff_reachable (visitsOnce_visitStep s excluded) rfl (run_visited s excluded id) y

lemma nodup_visited (s : Store) (excluded : List ObjectId) (id : ObjectId) :
    (visited s excluded id).Nodup :=
  nodup_seen (visitsOnce_visitStep s excluded) rfl (run_visited s excluded id)

/-- The walk is a depth-first search. -/
lemma dfs_visited (s : Store) (excluded : List ObjectId) (id : ObjectId) :
    Dfs (· ∈ excluded) s.parents [id] [] (visited s excluded id) := by
  obtain ⟨s', hdfs, n', -, hrest⟩ :=
    exists_dfs_of_run (visitsOnce_visitStep s excluded) [id] [] (run_visited s excluded id)
  rw [run_nil] at hrest
  cases hrest
  exact hdfs

/-- A commit and all its ancestors. -/
def ancestorsInclusive (s : Store) (id : ObjectId) : List ObjectId := visited s [] id

/-- The walk finds what is reached along parent links. -/
lemma mem_ancestorsInclusive : y ∈ ancestorsInclusive s a ↔ s.Reaches a y := by
  rw [ancestorsInclusive, mem_visited, ← reachable_iff_reaches]
  simp only [not_mem_nil]

/-! ## Ancestors -/

/-- One iteration of `isAncestor`, which leaves the loop at the ancestor. -/
def isAncestorStep (s : Store) (ancestor : ObjectId) :
    List ObjectId → ObjectId → Except Unit (List ObjectId × List ObjectId) :=
  searchStep s.parents fun _ id => if id = ancestor then some () else none

/-- Whether the first commit is an ancestor of the second one, or the same. -/
def isAncestor (s : Store) (ancestor fromId : ObjectId) : Bool :=
  if ancestor = fromId then true
  else
    match (run (.stack _) (isAncestorStep s ancestor) (s.walkFuel 1) [fromId] []).get
        (Store.walk_isSome visitsOnce_searchStep [fromId] rfl) with
    | .ok _ => false
    | .error _ => true

/-- A positive answer is right. -/
lemma reaches_of_isAncestor (h : isAncestor s a b = true) : s.Reaches b a := by
  unfold isAncestor at h
  split_ifs at h with hab
  · exact hab ▸ .refl
  · split at h
    · cases h
    · next r hr =>
      -- The walk is left only at the ancestor itself.
      obtain ⟨seen, x, -, hx, hreach, -⟩ := exists_stop_of_run (eq_some_iff_get_eq.mpr ⟨_, hr⟩)
      obtain ⟨rfl, -⟩ := ite_none_right_eq_some.mp hx
      exact reachable_iff_reaches.mp hreach

/-- A negative answer is right. -/
lemma not_reaches_of_isAncestor (h : isAncestor s a b = false) : ¬ s.Reaches b a := by
  unfold isAncestor at h
  split_ifs at h with hab
  split at h
  · next seen hseen =>
    rw [← reachable_iff_reaches]
    exact not_reachable_of_run (fun seen => by simp) (eq_some_iff_get_eq.mpr ⟨_, hseen⟩)
  · cases h

/-- The search decides reachability along parent links. -/
lemma isAncestor_eq_true : isAncestor s a b = true ↔ s.Reaches b a := by
  refine ⟨reaches_of_isAncestor, fun hreach => ?_⟩
  by_contra h
  exact not_reaches_of_isAncestor (Bool.eq_false_iff.mpr h) hreach

/-! ## Merge bases -/

/-- One iteration of `mergeBase`, which leaves the loop at the first common ancestor. -/
def mergeBaseStep (s : Store) (aAnc : List ObjectId) :
    List ObjectId → ObjectId → Except ObjectId (List ObjectId × List ObjectId) :=
  findStep s.parents fun id => id ∈ aAnc

/-- The first common ancestor of two commits that a breadth-first walk from the second one
finds. -/
def mergeBase (s : Store) (a b : ObjectId) : Option ObjectId :=
  let aAnc := ancestorsInclusive s a
  match (run (.queue _) (mergeBaseStep s aAnc) (s.walkFuel 1) [b] []).get
      (Store.walk_isSome visitsOnce_searchStep [b] rfl) with
  | .ok _ => none
  | .error id => some id

/-- A merge base is a common ancestor. -/
lemma reaches_of_mergeBase (h : mergeBase s a b = some y) : s.Reaches a y ∧ s.Reaches b y := by
  unfold mergeBase at h
  dsimp only at h
  split at h
  · cases h
  · next m hm =>
    cases h
    -- The walk is left only at an ancestor of the first commit.
    obtain ⟨seen, x, -, hx, hreach, -⟩ := exists_stop_of_run (eq_some_iff_get_eq.mpr ⟨_, hm⟩)
    obtain ⟨hanc, hxy⟩ := ite_none_right_eq_some.mp hx
    obtain rfl := some.inj hxy
    exact ⟨mem_ancestorsInclusive.mp (of_decide_eq_true hanc),
      reachable_iff_reaches.mp hreach⟩

/-- A commit that is an ancestor of two commits, or one of them. -/
def CommonAncestor (s : Store) (a b y : ObjectId) : Prop := s.Reaches a y ∧ s.Reaches b y

/-- A common ancestor of which no other one is a descendant. -/
def BestBase (s : Store) (a b m : ObjectId) : Prop :=
  CommonAncestor s a b m ∧ ∀ y, CommonAncestor s a b y → s.Reaches y m → y = m

/-- The ancestor of `a` that comes first in the generations of `b`: `b`, its parents, their parents
and so on, in the order in which the commits name their parents. -/
def Nearest (s : Store) (a b m : ObjectId) : Prop :=
  ∃ k before after, (∀ j < k, ∀ x ∈ generation s.parents b j, ¬ s.Reaches a x) ∧
    generation s.parents b k = before ++ m :: after ∧ s.Reaches a m ∧ ∀ x ∈ before, ¬ s.Reaches a x

/-- The search ends at the nearest common ancestor. -/
lemma mergeBase_eq_some : mergeBase s a b = some y ↔ Nearest s a b y := by
  have hanc : ∀ x, decide (x ∈ ancestorsInclusive s a) = true ↔ s.Reaches a x := fun x =>
    decide_eq_true_iff.trans mem_ancestorsInclusive
  have hnot : ∀ x, decide (x ∈ ancestorsInclusive s a) = false ↔ ¬ s.Reaches a x := fun x =>
    decide_eq_false_iff_not.trans (not_congr mem_ancestorsInclusive)
  have hnearest : ∀ r, run (.queue _) (mergeBaseStep s (ancestorsInclusive s a)) (s.walkFuel 1) [b]
      [] = some r → (r = .error y ↔ Nearest s a b y) := by
    intro r hrun
    rw [run_find_iff hrun]
    simp only [find?_eq_some_iff_append, hanc, hnot, Bool.not_eq_true']
    constructor
    · rintro ⟨k, hbefore, hm, before, after, hsplit, hfirst⟩
      exact ⟨k, before, after, hbefore, hsplit, hm, hfirst⟩
    · rintro ⟨k, before, after, hbefore, hsplit, hm, hfirst⟩
      exact ⟨k, hbefore, hm, before, after, hsplit, hfirst⟩
  unfold mergeBase
  dsimp only
  split
  · next seen hseen =>
    rw [← hnearest _ (eq_some_iff_get_eq.mpr ⟨_, hseen⟩)]
    exact iff_of_false (by simp) (by simp)
  · next m hm =>
    rw [← hnearest _ (eq_some_iff_get_eq.mpr ⟨_, hm⟩), some.injEq, Except.error.injEq]

/-- If there is a common ancestor, one is found. -/
lemma not_commonAncestor_of_mergeBase (h : mergeBase s a b = none) (y : ObjectId) :
    ¬ CommonAncestor s a b y := by
  rintro ⟨ha, hb⟩
  unfold mergeBase at h
  dsimp only at h
  split at h
  · next seen hseen =>
    refine not_reachable_of_run (fun seen => ?_) (eq_some_iff_get_eq.mpr ⟨_, hseen⟩)
      (reachable_iff_reaches.mpr hb)
    simp [mem_ancestorsInclusive.mpr ha]
  · cases h

/-- No common ancestor is found exactly if there is none. -/
theorem mergeBase_eq_none : mergeBase s a b = none ↔ ∀ y, ¬ CommonAncestor s a b y := by
  refine ⟨not_commonAncestor_of_mergeBase, fun hnone => ?_⟩
  refine eq_none_iff_forall_ne_some.mpr fun y hy => ?_
  exact hnone y (reaches_of_mergeBase hy)

def MergeBaseRight (s : Store) (a b : ObjectId) : Prop :=
  (∀ m, mergeBase s a b = some m → BestBase s a b m) ∧
    (mergeBase s a b = none → ∀ y, ¬ CommonAncestor s a b y)

/-- A merge base is right if and only if no other common ancestor descends from the nearest one. -/
theorem mergeBaseRight_iff : MergeBaseRight s a b ↔
    ∀ m, Nearest s a b m → ∀ y, CommonAncestor s a b y → s.Reaches y m → y = m := by
  constructor
  · intro hright m hm
    exact (hright.1 m (mergeBase_eq_some.mpr hm)).2
  · intro hnearest
    refine ⟨fun m hm => ⟨reaches_of_mergeBase hm, hnearest m (mergeBase_eq_some.mp hm)⟩, ?_⟩
    exact not_commonAncestor_of_mergeBase

/-! ## Commits between -/

/-- The readable commits that are reached from `tip` and not from `base`, in the reverse of the
order in which the walk finds them. -/
def commitsBetween (s : Store) (base tip : ObjectId) : List ObjectId :=
  (visited s (ancestorsInclusive s base) tip).filter (s.Readable ·)

variable {base tip : ObjectId} {ids : List ObjectId}

/-- A commit that is reached from `tip` and not from `base`. -/
def Between (s : Store) (base tip x : ObjectId) : Prop := s.Reaches tip x ∧ ¬ s.Reaches base x

/-- The walk passes through commits that are not reached from `base`. -/
lemma reachable_iff_reaches_of_not : Reachable (· ∈ ancestorsInclusive s base) s.parents ids y ↔
    (∃ r ∈ ids, s.Reaches r y) ∧ ¬ s.Reaches base y := by
  constructor
  · rintro ⟨r, hr, hne, hpath⟩
    refine ⟨⟨r, hr, Relation.ReflTransGen.mono (fun _ _ hstep => hstep.1) _ _ hpath⟩, ?_⟩
    rw [← mem_ancestorsInclusive]
    rcases hpath.cases_tail with rfl | ⟨x, -, hx⟩
    · exact hne
    · exact hx.2
  · rintro ⟨⟨r, hr, hreach⟩, hnot⟩
    -- An ancestor of `base` on the way would lead to the end.
    have havoid : ∀ x, s.Reaches x y → x ∉ ancestorsInclusive s base := fun x hx hmem =>
      hnot ((mem_ancestorsInclusive.mp hmem).trans hx)
    refine ⟨r, hr, havoid r hreach, ?_⟩
    clear hr
    induction hreach using Relation.ReflTransGen.head_induction_on with
    | refl => exact .refl
    | head hstep hrest ih => exact .head ⟨hstep, havoid _ hrest⟩ ih

lemma link_iff_reaches (hy : ¬ s.Reaches base y) :
    Relation.ReflTransGen (Link (· ∈ ancestorsInclusive s base) s.parents) a y ↔ s.Reaches a y := by
  constructor
  · exact fun h => Relation.ReflTransGen.mono (fun _ _ hstep => hstep.1) _ _ h
  · intro h
    obtain ⟨r, hr, -, hpath⟩ := reachable_iff_reaches_of_not.mpr ⟨⟨a, mem_singleton_self a, h⟩, hy⟩
    rw [← mem_singleton.mp hr]
    exact hpath

/-- What the list of the commits to replay has to be: the commits between the two, each of them
once, and after all its parents. -/
structure ReplayOrder (s : Store) (base tip : ObjectId) (ids : List ObjectId) : Prop where
  mem_iff : ∀ x, x ∈ ids ↔ Between s base tip x ∧ s.Readable x
  nodup : ids.Nodup
  parents_first : ∀ c ∈ ids, ∀ p ∈ ids, p ∈ s.parents c → ids.idxOf p < ids.idxOf c

/-- Whenever a commit `x` names the parents `l` after others, no commit that is reached from `x` by
the others only has a parent which is also reached from `l`. -/
def JoinsAtTip (s : Store) (base tip : ObjectId) : Prop :=
  ∀ x, Between s base tip x → ∀ l, l <:+ s.parents x →
    ∀ c, s.Reaches x c → c ≠ x → (∀ q ∈ l, ¬ s.Reaches q c) →
      ∀ p ∈ s.parents c, Between s base tip p → s.Readable p → ∀ q ∈ l, ¬ s.Reaches q p

lemma noLateJoin_iff :
    NoLateJoin (· ∈ ancestorsInclusive s base) s.parents s.Readable tip ↔
      JoinsAtTip s base tip := by
  have htip : ∀ x, Reachable (· ∈ ancestorsInclusive s base) s.parents [tip] x ↔
      Between s base tip x := fun x => by
    rw [reachable_iff_reaches_of_not]
    simp [Between]
  simp only [NoLateJoin, htip, JoinsAtTip]
  refine forall_congr' fun x => imp_congr_right fun hx => forall_congr' fun l =>
    imp_congr_right fun hl => forall_congr' fun c => ?_
  constructor
  · intro h hpath hcx hnot p hp hbetween hread q hq hqp
    have hc : ¬ s.Reaches base c := fun hc => hbetween.2 (hc.tail hp)
    refine h ((link_iff_reaches hc).mpr hpath) hcx ?_ p hp hread
      (reachable_iff_reaches_of_not.mpr ⟨⟨q, hq, hqp⟩, hbetween.2⟩)
    rw [reachable_iff_reaches_of_not]
    exact fun hreach => hreach.1.elim fun q hq => hnot q hq.1 hq.2
  · intro h hpath hcx hnot p hp hread hreach
    obtain ⟨⟨q, hq, hqp⟩, hbase⟩ := reachable_iff_reaches_of_not.mp hreach
    have hc : ¬ s.Reaches base c := fun hc => hbase (hc.tail hp)
    have hxc := (link_iff_reaches hc).mp hpath
    refine h hxc hcx (fun q hq hqc => ?_) p hp ⟨(hx.1.trans hxc).tail hp, hbase⟩ hread q hq hqp
    exact hnot (reachable_iff_reaches_of_not.mpr ⟨⟨q, hq, hqc⟩, hc⟩)

/-- In a history without cycles, the commits to replay are in order if and only if no commit of an
earlier parent joins the history of a later one. -/
theorem replayOrder_iff (hacyclic : ∀ x, ∀ p ∈ s.parents x, ¬ s.Reaches p x) :
    ReplayOrder s base tip (commitsBetween s base tip) ↔ JoinsAtTip s base tip := by
  have hleaf : ∀ x, ¬ s.Readable x → s.parents x = [] := fun x hx =>
    not_not.mp fun hne => hx (Store.readable_of_parents_ne_nil hne)
  have hpairwise : (commitsBetween s base tip).Pairwise (fun c p => ¬ p ∈ s.parents c) ↔
      (visited s (ancestorsInclusive s base) tip).Pairwise
        fun c p => ¬ (p ∈ s.parents c ∧ s.Readable p) := by
    rw [commitsBetween, pairwise_filter]
    refine Pairwise.iff fun c p => ?_
    have hread : p ∈ s.parents c → s.Readable c := fun hp =>
      Store.readable_of_parents_ne_nil (ne_nil_of_mem hp)
    simp only [decide_eq_true_eq]
    tauto
  have hirrefl : ∀ x, x ∉ s.parents x := fun x hx => hacyclic x x hx .refl
  have hnodup : (commitsBetween s base tip).Nodup := (nodup_visited s _ tip).filter _
  have hlinks : ∀ u v, Link (· ∈ ancestorsInclusive s base) s.parents u v →
      ¬ Relation.ReflTransGen (Link (· ∈ ancestorsInclusive s base) s.parents) v u := by
    intro u v huv hvu
    exact hacyclic u v huv.1 (Relation.ReflTransGen.mono (fun _ _ hstep => hstep.1) _ _ hvu)
  rw [← noLateJoin_iff, ← pairwise_dfs_iff hlinks hleaf (dfs_visited s _ tip), ← hpairwise,
    pairwise_not_iff_idxOf hnodup hirrefl]
  refine ⟨fun h => h.parents_first, fun h => ⟨fun x => ?_, hnodup, h⟩⟩
  rw [commitsBetween, mem_filter, mem_visited, reachable_iff_reaches_of_not]
  simp [Between]

/-- Histories without merges are replayed in order. -/
lemma joinsAtTip_of_linear (hlinear : ∀ x ∈ s.ids, ∀ p ∈ s.parents x, ∀ q ∈ s.parents x, q = p) :
    JoinsAtTip s base tip := by
  intro x _ l hl c hpath hcx hnot p _ _ _ q hq
  have hqx : q ∈ s.parents x := hl.subset hq
  have hx : x ∈ s.ids := mem_ids_of_parents_ne_nil (ne_nil_of_mem hqx)
  obtain rfl | ⟨y, hy, hyc⟩ := hpath.cases_head
  · exact absurd rfl hcx
  · exact absurd (hlinear x hx y hy q hqx ▸ hyc) (hnot q hq)

/-! ## Two small histories -/

section Sample

/-- A history, given by the numbers of the parents of each commit. -/
def sampleHistory (parents : List (List ℕ)) : Store × List ObjectId :=
  parents.foldl (fun (s, ids) numbers =>
    let c :=
      Commit.write sampleHash s ⟨.fill 0, numbers.filterMap (ids[·]?), [['o']], ['o'], [], [],
      none, Text.ofNat ids.length⟩
    (c.1, ids ++ [c.2])) (⟨[]⟩, [])

/-- A commit of a history. -/
def sampleId (parents : List (List ℕ)) (n : ℕ) : ObjectId :=
  (sampleHistory parents).2.getD n (.fill 0)

lemma acyclic_sample (parents : List (List ℕ)) (h : let (s, ids) := sampleHistory parents
      ∀ x ∈ s.ids, ∀ p ∈ s.parents x, ids.idxOf p < ids.idxOf x) (x : ObjectId) :
    ∀ p ∈ (sampleHistory parents).1.parents x, ¬ (sampleHistory parents).1.Reaches p x :=
  not_reaches_of_rank _ h x

/-- A root with two children 1 and 3; 2 and 4 are children of 1, and 5 merges 4 into 3. -/
def sampleForks : List (List ℕ) := [[], [0], [1], [0], [1], [3, 4]]

/-- The merge base of 2 and 5 is the root, although both descend from its child 1. -/
theorem mergeBase_not_best :
    let s := (sampleHistory sampleForks).1
    let id := sampleId sampleForks
    mergeBase s (id 2) (id 5) = some (id 0) ∧ CommonAncestor s (id 2) (id 5) (id 1) ∧
      s.Reaches (id 1) (id 0) ∧ id 1 ≠ id 0 := by
  refine ⟨by decide +kernel, ⟨.single (by decide +kernel),
    .trans (.single (b := sampleId sampleForks 4) (by decide +kernel))
      (.single (by decide +kernel))⟩, .single (by decide +kernel), by decide +kernel⟩

/-- A chain of two commits 0 and 1, two children 2 and 3 of the second one, and 4 that merges 3 into
2. -/
def sampleDiamond : List (List ℕ) := [[], [0], [1], [1], [2, 3]]

/-- The commit 2 comes before its parent 1. -/
theorem replay_before_parent :
    let s := (sampleHistory sampleDiamond).1
    let id := sampleId sampleDiamond
    (∀ x, ∀ p ∈ s.parents x, ¬ s.Reaches p x) ∧
      commitsBetween s (id 0) (id 4) = [id 2, id 1, id 3, id 4] ∧ id 1 ∈ s.parents (id 2) :=
  ⟨acyclic_sample sampleDiamond (by decide +kernel), by decide +kernel, by decide +kernel⟩

/-- A chain of three commits. -/
def sampleLine : List (List ℕ) := [[], [0], [1]]

/-- A chain is replayed in order. -/
theorem replayOrder_line :
    let s := (sampleHistory sampleLine).1
    let id := sampleId sampleLine
    ReplayOrder s (id 0) (id 2) (commitsBetween s (id 0) (id 2)) :=
  (replayOrder_iff (acyclic_sample sampleLine (by decide +kernel))).mpr
    (joinsAtTip_of_linear (by decide +kernel))

end Sample

end Gyt.Merge
