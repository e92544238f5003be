import Gyt.Merge.Trees

/-!
# Paths of merged trees

A flat map of files is that of a tree only if no file is at the place of a directory, that is, if no
path is in front of another one (`PrefixFree`).  Flattening a tree gives such a map
(`prefixFree_flattenTree`).

`merge_trees` looks at each path by itself.  An iteration records one outcome of a three-way merge
(`exists_outcome_mergePath`), from which what the whole merge does at every path is derived
(`mergeTrees_threeWay`).

A path that one side has and the other one has not is
merged if and only if the base has it not either, so the merged map has a file at the place of a
directory exactly if each side has added one of two such paths (`prefixFree_mergeTrees_iff`).
-/

namespace Gyt

open List Std.TreeMap

/-- No path of a map of files is a directory of another one. -/
def PrefixFree (files : FileMap) : Prop := ∀ p ∈ files, ∀ q ∈ files, p <+: q → p = q

instance (files : FileMap) : Decidable (PrefixFree files) :=
  decidable_of_iff (∀ p ∈ files.keys, ∀ q ∈ files.keys, p <+: q → p = q) <| by
    simp only [PrefixFree, Std.TreeMap.mem_keys]

section Flatten

variable {s : Store} {id : ObjectId} {p q : RelPath}

lemma entry_eq_of_name {entries : List TreeEntry} (hread : Tree.read s id = .ok entries)
    {e e' : TreeEntry} (he : e ∈ entries) (he' : e' ∈ entries) {name : Str}
    (hname : Utf8.decode e.name = some name) (hname' : Utf8.decode e'.name = some name) :
    e = e' := by
  obtain ⟨payload, -, hdecode⟩ := Tree.read_eq_ok.mp hread
  have hnodup : (entries.map TreeEntry.name).Nodup := by
    refine pairwise_map.mpr ((Tree.wellFormed_of_decode hdecode).ascending.imp ?_)
    intro e e' hlt heq
    rw [heq] at hlt
    exact List.lt_irrefl _ hlt
  rw [Utf8.decode_eq_some] at hname hname'
  exact inj_on_of_nodup_map hnodup he he' (hname.trans hname'.symm)

/-- No file of a tree is a directory of another one. -/
lemma InTree.eq_of_isPrefix (hp : InTree s id p) (hq : InTree s id q) (hpre : p <+: q) : p = q := by
  induction hp generalizing q with
  | file hread he hmode hname =>
    cases hq with
    | file hread' he' hmode' hname' =>
      rw [cons_prefix_cons] at hpre
      rw [hpre.1]
    | dir hread' he' hmode' hname' hpath' =>
      cases hread.symm.trans hread'
      obtain ⟨rfl, -⟩ := cons_prefix_cons.mp hpre
      cases entry_eq_of_name hread he he' hname hname'
      exact absurd hmode' hmode
  | dir hread he hmode hname hpath ih =>
    cases hq with
    | file hread' he' hmode' hname' =>
      cases hread.symm.trans hread'
      obtain ⟨rfl, -⟩ := cons_prefix_cons.mp hpre
      cases entry_eq_of_name hread he he' hname hname'
      exact absurd hmode hmode'
    | dir hread' he' hmode' hname' hpath' =>
      cases hread.symm.trans hread'
      obtain ⟨rfl, hrest⟩ := cons_prefix_cons.mp hpre
      cases entry_eq_of_name hread he he' hname hname'
      rw [ih hpath' hrest]

/-- Flattening a tree gives a map in which no file is at the place of a directory. -/
theorem prefixFree_flattenTree {files : FileMap} (h : flattenTree s id = some (.ok files)) :
    PrefixFree files := by
  intro p hp q hq hpre
  exact ((mem_flattenTree_iff h).mp hp).eq_of_isPrefix ((mem_flattenTree_iff h).mp hq) hpre

end Flatten

namespace Merge3

variable {σ : Type} {b o t : Option FileEntry} {path q : RelPath} {tm : TreeMerge}

/-! ## Outcomes -/

/-- What becomes of a path: it is left out, taken with an entry, or reported as a conflict. -/
inductive Outcome where
  | dropped
  | taken (e : FileEntry)
  | clashed (c : TreeConflict)

namespace Outcome

/-- The entry of the merged map. -/
def file? : Outcome → Option FileEntry
  | taken e => some e
  | _ => none

def conflict? : Outcome → Option TreeConflict
  | clashed c => some c
  | _ => none

/-- A side is followed, also where it has no file. -/
def ofSide : Option FileEntry → Outcome
  | none => dropped
  | some e => taken e

@[simp]
lemma file?_ofSide (e : Option FileEntry) : (ofSide e).file? = e := by
  cases e <;> rfl

lemma ofSide_eq_dropped {e : Option FileEntry} : ofSide e = dropped ↔ e = none := by
  cases e <;> simp [ofSide]

lemma ofSide_eq_taken {e : Option FileEntry} {e' : FileEntry} :
    ofSide e = taken e' ↔ e = some e' := by
  cases e <;> simp [ofSide]

lemma ofSide_ne_clashed (e : Option FileEntry) (c : TreeConflict) : ofSide e ≠ clashed c := by
  cases e <;> simp [ofSide]

end Outcome

/-- The outcome of a path becomes part of a merge. -/
def TreeMerge.record (tm : TreeMerge) (path : RelPath) : Outcome → TreeMerge
  | .dropped => tm
  | .taken e => tm.insert path e
  | .clashed c => tm.push c

/-- Only one side has the path, and it has added it. -/
def AddedOnce (b o t : Option FileEntry) : Prop := b = none ∧ o.isSome ≠ t.isSome

/-- An outcome of a three-way merge: where one side is as the base, or as the other side, the other
side is followed. -/
structure ThreeWay (path : RelPath) (b o t : Option FileEntry) (r : Outcome) : Prop where
  ours_unchanged : o = b → r = .ofSide t
  theirs_unchanged : t = b → r = .ofSide o
  same : o = t → r = .ofSide o
  conflict_path : ∀ c, r = .clashed c → c.path = path
  dropped : r = .dropped → o = none ∧ (t = none ∨ t = b) ∨ t = none ∧ (o = none ∨ o = b)
  taken : ∀ e, r = .taken e → o.isSome ∧ t.isSome ∨ AddedOnce b o t

lemma threeWay_theirs (path : RelPath) (h : o = b ∨ o = t) : ThreeWay path b o t (.ofSide t) where
  ours_unchanged _ := rfl
  theirs_unchanged htb := by
    rcases h with rfl | rfl
    · rw [htb]
    · rfl
  same hot := by rw [hot]
  conflict_path c hc := absurd hc (Outcome.ofSide_ne_clashed t c)
  dropped hr := by
    have ht := Outcome.ofSide_eq_dropped.mp hr
    exact .inr ⟨ht, h.symm.imp (fun hot => hot.trans ht) id⟩
  taken e hr := by
    obtain rfl := Outcome.ofSide_eq_taken.mp hr
    rcases h with rfl | rfl
    · rcases o with - | o
      · exact .inr ⟨rfl, nofun⟩
      · exact .inl ⟨rfl, rfl⟩
    · exact .inl ⟨rfl, rfl⟩

lemma threeWay_ours (path : RelPath) (h : t = b ∨ t = o) : ThreeWay path b o t (.ofSide o) := by
  obtain ⟨hours, htheirs, -, hpath, hdropped, htaken⟩ := threeWay_theirs path h
  refine ⟨htheirs, hours, fun _ => rfl, hpath, fun hr => (hdropped hr).symm, fun e hr => ?_⟩
  exact (htaken e hr).imp And.symm fun hadded => ⟨hadded.1, hadded.2.symm⟩

/-- Both sides differ from the base and from each other. -/
lemma threeWay_of_ne {r : Outcome} (hob : o ≠ b) (htb : t ≠ b) (hot : o ≠ t)
    (hpath : ∀ c, r = .clashed c → c.path = path) (hdropped : r ≠ .dropped)
    (htaken : ∀ e, r = .taken e → o.isSome ∧ t.isSome) : ThreeWay path b o t r :=
  ⟨fun h => absurd h hob, fun h => absurd h htb, fun h => absurd h hot, hpath,
    fun h => absurd h hdropped, fun e he => .inl (htaken e he)⟩

lemma threeWay_clashed {c : TreeConflict} (hob : o ≠ b) (htb : t ≠ b) (hot : o ≠ t)
    (hpath : c.path = path) : ThreeWay path b o t (.clashed c) :=
  threeWay_of_ne hob htb hot (fun _ h => Outcome.clashed.inj h ▸ hpath) nofun nofun

variable {resolveContent : Resolver (StateM σ)} {st : σ}

lemma exists_outcome_mergeChanged {b o t : FileEntry} (hot : o ≠ t) (hbo : b ≠ o) (hbt : b ≠ t) :
    ∃ r, ThreeWay path (some b) (some o) (some t) r ∧
      ((mergeChanged resolveContent path b o t tm).run st).1 = tm.record path r := by
  have hob : some o ≠ some b := fun h => hbo (Option.some.inj h).symm
  have htb : some t ≠ some b := fun h => hbt (Option.some.inj h).symm
  have hot : some o ≠ some t := fun h => hot (Option.some.inj h)
  unfold mergeChanged
  by_cases hmode : o.1 ≠ t.1 ∧ o.1 ≠ b.1 ∧ t.1 ≠ b.1
  · rw [if_pos hmode]
    exact ⟨.clashed _, threeWay_clashed hob htb hot rfl, rfl⟩
  · rw [if_neg hmode, StateT.run_bind]
    obtain ⟨result, st'⟩ := (resolveContent path o t (some b)).run st
    cases result with
    | resolved hash =>
      exact ⟨.taken _, threeWay_of_ne hob htb hot nofun nofun fun _ _ => ⟨rfl, rfl⟩, rfl⟩
    | conflict oursHash theirsHash => exact ⟨.clashed _, threeWay_clashed hob htb hot rfl, rfl⟩

/-- An iteration of `mergeTrees` records an outcome of a three-way merge. -/
theorem exists_outcome_mergePath (resolveContent : Resolver (StateM σ)) (path : RelPath)
    (tm : TreeMerge) (b o t : Option FileEntry) (st : σ) : ∃ r, ThreeWay path b o t r ∧
      ((mergePath resolveContent path tm b o t).run st).1 = tm.record path r := by
  unfold mergePath
  split
  · exact ⟨_, threeWay_ours path (.inl rfl), rfl⟩
  · next b o t =>
    split_ifs with hot hbo hbt
    · exact ⟨_, threeWay_ours path (.inr (congrArg some hot.symm)), rfl⟩
    · exact ⟨_, threeWay_theirs path (.inl (congrArg some hbo.symm)), rfl⟩
    · exact ⟨_, threeWay_ours path (.inl (congrArg some hbt.symm)), rfl⟩
    · exact exists_outcome_mergeChanged hot hbo hbt
  · next o t =>
    split_ifs with hot
    · exact ⟨_, threeWay_ours path (.inr (congrArg some hot.symm)), rfl⟩
    · exact ⟨.clashed _, threeWay_clashed nofun nofun (fun h => hot (Option.some.inj h)) rfl, rfl⟩
  · next b o =>
    split_ifs with hbo
    · exact ⟨_, threeWay_theirs path (.inl (congrArg some hbo.symm)), rfl⟩
    · exact ⟨.clashed _,
        threeWay_clashed (fun h => hbo (Option.some.inj h).symm) nofun nofun rfl, rfl⟩
  · next b t =>
    split_ifs with hbt
    · exact ⟨_, threeWay_ours path (.inl (congrArg some hbt.symm)), rfl⟩
    · exact ⟨.clashed _,
        threeWay_clashed nofun (fun h => hbt (Option.some.inj h).symm) nofun rfl, rfl⟩
  · exact ⟨_, threeWay_ours path (.inl rfl), rfl⟩
  · exact ⟨_, threeWay_theirs path (.inl rfl), rfl⟩
  · exact ⟨_, threeWay_ours path (.inr rfl), rfl⟩

/-! ## Merged paths -/

lemma ThreeWay.exists_taken {r : Outcome} (h : ThreeWay path b o t r) (hadded : AddedOnce b o t) :
    ∃ e, r = .taken e := by
  obtain ⟨rfl, hside⟩ := hadded
  rcases o with - | o <;> rcases t with - | t
  · exact absurd rfl hside
  · exact ⟨t, h.ours_unchanged rfl⟩
  · exact ⟨o, h.theirs_unchanged rfl⟩
  · exact absurd rfl hside

variable {base ours theirs : FileMap}

/-- A path that the merged map has: both sides have it, or one of them has added it. -/
def MayMerge (base ours theirs : FileMap) (q : RelPath) : Prop :=
  q ∈ ours ∧ q ∈ theirs ∨ AddedOnce base[q]? ours[q]? theirs[q]?

lemma mem_allPaths {q : RelPath} :
    q ∈ allPaths base ours theirs ↔ q ∈ base ∨ q ∈ ours ∨ q ∈ theirs := by
  have hfold : ∀ (paths : List RelPath) (set : Std.TreeSet RelPath),
      q ∈ paths.foldl (·.insert ·) set ↔ q ∈ set ∨ q ∈ paths := by
    intro paths
    induction paths with
    | nil => simp
    | cons path paths ih =>
      intro set
      rw [foldl_cons, ih, Std.TreeSet.mem_insert, Std.LawfulEqCmp.compare_eq_iff_eq, mem_cons]
      tauto
  rw [allPaths, Std.TreeSet.mem_toList, hfold]
  simp

lemma getElem?_eq_none_iff {files : FileMap} : files[q]? = none ↔ q ∉ files := by
  rw [mem_iff_isSome_getElem?, Bool.not_eq_true, Option.isSome_eq_false_iff,
    Option.isNone_iff_eq_none]

lemma nodup_allPaths : (allPaths base ours theirs).Nodup := by
  refine Std.TreeSet.distinct_toList.imp fun {p q} hne heq => hne ?_
  rw [heq, Std.LawfulEqCmp.compare_eq_iff_eq]

/-! ## The merge at a path -/

structure TreeMerge.At (tm : TreeMerge) (q : RelPath) (r : Outcome) : Prop where
  merged : tm.merged[q]? = r.file?
  conflicts : tm.conflicts.filter (·.path = q) = r.conflict?.toList

/-- Recording the outcome of another path. -/
lemma TreeMerge.At.record_of_ne {r r' : Outcome} (h : tm.At q r) (hne : path ≠ q)
    (hpath : ∀ c, r' = .clashed c → c.path = path) : (tm.record path r').At q r := by
  cases r' with
  | dropped => exact h
  | taken e =>
    refine ⟨?_, h.conflicts⟩
    rw [TreeMerge.record, TreeMerge.insert, Std.TreeMap.getElem?_insert,
      if_neg (by rwa [Std.LawfulEqCmp.compare_eq_iff_eq]), h.merged]
  | clashed c =>
    refine ⟨h.merged, ?_⟩
    have hc : c.path ≠ q := hpath c rfl ▸ hne
    simp [TreeMerge.record, TreeMerge.push, h.conflicts, hc]

/-- Recording the outcome of a path that has none. -/
lemma TreeMerge.At.record {r : Outcome} (h : tm.At q .dropped)
    (hpath : ∀ c, r = .clashed c → c.path = q) : (tm.record q r).At q r := by
  cases r with
  | dropped => exact h
  | taken e =>
    refine ⟨?_, h.conflicts⟩
    rw [TreeMerge.record, TreeMerge.insert, getElem?_insert_self]
    rfl
  | clashed c =>
    refine ⟨h.merged, ?_⟩
    have hc : c.path = q := hpath c rfl
    simp [TreeMerge.record, TreeMerge.push, h.conflicts, hc, Outcome.conflict?]

section Loop

variable (base ours theirs : FileMap) (resolveContent : Resolver (StateM σ)) {paths : List RelPath}

/-- The loop of `mergeTrees` over some paths. -/
def mergePaths (paths : List RelPath) (tm : TreeMerge) (st : σ) : TreeMerge :=
  ((paths.foldlM (fun tm path =>
    mergePath resolveContent path tm base[path]? ours[path]? theirs[path]?) tm).run st).1

/-- The iterations for other paths leave an outcome as it is. -/
lemma at_mergePaths_of_not_mem {r : Outcome} (hq : q ∉ paths) (h : tm.At q r) (st : σ) :
    (mergePaths base ours theirs resolveContent paths tm st).At q r := by
  induction paths generalizing tm st with
  | nil => exact h
  | cons path paths ih =>
    rw [mem_cons, not_or] at hq
    obtain ⟨r', hr', hrecord⟩ := exists_outcome_mergePath resolveContent path tm base[path]?
      ours[path]? theirs[path]? st
    rw [mergePaths, foldlM_cons, StateT.run_bind]
    refine ih hq.2 ?_ _
    rw [hrecord]
    exact h.record_of_ne (Ne.symm hq.1) hr'.conflict_path

/-- The iterations for some paths record an outcome of a three-way merge for each of them. -/
lemma exists_at_mergePaths (hnodup : paths.Nodup) (hq : q ∈ paths) (h : tm.At q .dropped) (st : σ) :
    ∃ r, ThreeWay q base[q]? ours[q]? theirs[q]? r ∧
      (mergePaths base ours theirs resolveContent paths tm st).At q r := by
  induction paths generalizing tm st with
  | nil => exact absurd hq not_mem_nil
  | cons path paths ih =>
    obtain ⟨hnot, hnodup⟩ := nodup_cons.mp hnodup
    obtain ⟨r, hr, hrecord⟩ := exists_outcome_mergePath resolveContent path tm base[path]?
      ours[path]? theirs[path]? st
    rw [mergePaths, foldlM_cons, StateT.run_bind]
    rcases mem_cons.mp hq with rfl | hrest
    · refine ⟨r, hr, at_mergePaths_of_not_mem base ours theirs resolveContent hnot ?_ _⟩
      rw [hrecord]
      exact h.record hr.conflict_path
    · refine ih hnodup hrest ?_ _
      rw [hrecord]
      exact h.record_of_ne (fun heq => hnot (heq ▸ hrest)) hr.conflict_path

/-- Every path has an outcome of a three-way merge. -/
lemma exists_at_mergeTrees (st : σ) (q : RelPath) :
    ∃ r, ThreeWay q base[q]? ours[q]? theirs[q]? r ∧
      ((mergeTrees base ours theirs resolveContent).run st).1.At q r := by
  have hempty : (⟨∅, []⟩ : TreeMerge).At q .dropped := ⟨getElem?_emptyc, rfl⟩
  by_cases hq : q ∈ allPaths base ours theirs
  · exact exists_at_mergePaths base ours theirs resolveContent nodup_allPaths hq hempty st
  · have hat := at_mergePaths_of_not_mem base ours theirs resolveContent hq hempty st
    rw [mem_allPaths, not_or, not_or] at hq
    refine ⟨.dropped, ?_, hat⟩
    rw [getElem?_eq_none_iff.mpr hq.1, getElem?_eq_none_iff.mpr hq.2.1,
      getElem?_eq_none_iff.mpr hq.2.2]
    exact threeWay_ours q (.inl rfl)

end Loop

def TreeMerge.conflictPaths (tm : TreeMerge) : List RelPath := tm.conflicts.map (·.path)

namespace TreeMerge.At

variable {r : Outcome}

lemma mem_merged_iff (h : tm.At q r) : q ∈ tm.merged ↔ ∃ e, r = .taken e := by
  rw [mem_iff_isSome_getElem?, h.merged]
  cases r <;> simp [Outcome.file?]

lemma mem_conflictPaths_iff (h : tm.At q r) : q ∈ tm.conflictPaths ↔ ∃ c, r = .clashed c := by
  have hmem : q ∈ tm.conflictPaths ↔ tm.conflicts.filter (·.path = q) ≠ [] := by
    rw [conflictPaths, mem_map, ne_eq, filter_eq_nil_iff]
    simp
  rw [hmem, h.conflicts]
  cases r <;> simp [Outcome.conflict?]

lemma count_conflictPaths_le_one (h : tm.At q r) : tm.conflictPaths.count q ≤ 1 := by
  rw [conflictPaths, count, countP_map, countP_eq_length_filter]
  have heq : tm.conflicts.filter ((· == q) ∘ (·.path)) = r.conflict?.toList := by
    rw [← h.conflicts]
    exact filter_congr fun c _ => beq_eq_decide c.path q
  rw [heq]
  cases r <;> simp [Outcome.conflict?]

end TreeMerge.At

/-- A three-way merge of every path. -/
structure ThreeWayMerge (base ours theirs : FileMap) (tm : TreeMerge) : Prop where
  paths : ∀ q, q ∈ tm.merged ∨ q ∈ tm.conflictPaths → q ∈ base ∨ q ∈ ours ∨ q ∈ theirs
  disjoint : ∀ q ∈ tm.merged, q ∉ tm.conflictPaths
  nodup : tm.conflictPaths.Nodup
  dropped : ∀ q, q ∈ base ∨ q ∈ ours ∨ q ∈ theirs → q ∉ tm.merged → q ∉ tm.conflictPaths →
    q ∈ base ∧ (q ∉ ours ∧ (q ∉ theirs ∨ theirs[q]? = base[q]?) ∨
      q ∉ theirs ∧ (q ∉ ours ∨ ours[q]? = base[q]?))
  ours_unchanged : ∀ q, ours[q]? = base[q]? → q ∉ tm.conflictPaths ∧ tm.merged[q]? = theirs[q]?
  theirs_unchanged : ∀ q, theirs[q]? = base[q]? → q ∉ tm.conflictPaths ∧ tm.merged[q]? = ours[q]?
  same : ∀ q, ours[q]? = theirs[q]? → q ∉ tm.conflictPaths ∧ tm.merged[q]? = ours[q]?

lemma threeWayMerge_mergeTrees (base ours theirs : FileMap) (resolveContent : Resolver (StateM σ))
    (st : σ) :
    ThreeWayMerge base ours theirs ((mergeTrees base ours theirs resolveContent).run st).1 := by
  have hat := exists_at_mergeTrees base ours theirs resolveContent st
  generalize ((mergeTrees base ours theirs resolveContent).run st).1 = tm at hat ⊢
  -- A path that follows a side has its entry and no conflict.
  have hfollow : ∀ q e r, tm.At q r → r = .ofSide e → q ∉ tm.conflictPaths ∧ tm.merged[q]? = e := by
    rintro q e r hr rfl
    refine ⟨fun hmem => ?_, by rw [hr.merged, Outcome.file?_ofSide]⟩
    obtain ⟨c, hc⟩ := hr.mem_conflictPaths_iff.mp hmem
    exact Outcome.ofSide_ne_clashed e c hc
  refine ⟨fun q hq => ?_, fun q hq hq' => ?_, ?_, fun q hq hmerged hconflict => ?_, fun q heq => ?_,
    fun q heq => ?_, fun q heq => ?_⟩
  · obtain ⟨r, hthree, hr⟩ := hat q
    by_contra hnot
    rw [not_or, not_or] at hnot
    obtain ⟨hconflict, hmerged⟩ := hfollow q _ r hr (hthree.same (by
      rw [getElem?_eq_none_iff.mpr hnot.2.1, getElem?_eq_none_iff.mpr hnot.2.2]))
    refine hq.elim (fun hmem => ?_) hconflict
    rw [getElem?_eq_none_iff.mpr hnot.2.1] at hmerged
    exact getElem?_eq_none_iff.mp hmerged hmem
  · obtain ⟨r, -, hr⟩ := hat q
    obtain ⟨e, rfl⟩ := hr.mem_merged_iff.mp hq
    exact nomatch hr.mem_conflictPaths_iff.mp hq'
  · rw [nodup_iff_count_le_one]
    intro q
    obtain ⟨r, -, hr⟩ := hat q
    exact hr.count_conflictPaths_le_one
  · obtain ⟨r, hthree, hr⟩ := hat q
    have hdropped : r = .dropped := by
      cases r with
      | dropped => rfl
      | taken e => exact absurd (hr.mem_merged_iff.mpr ⟨e, rfl⟩) hmerged
      | clashed c => exact absurd (hr.mem_conflictPaths_iff.mpr ⟨c, rfl⟩) hconflict
    have hsides := hthree.dropped hdropped
    simp only [getElem?_eq_none_iff] at hsides
    refine ⟨?_, hsides⟩
    by_contra hbase
    rw [getElem?_eq_none_iff.mpr hbase, getElem?_eq_none_iff, getElem?_eq_none_iff] at hsides
    tauto
  · obtain ⟨r, hthree, hr⟩ := hat q
    exact hfollow q _ r hr (hthree.ours_unchanged heq)
  · obtain ⟨r, hthree, hr⟩ := hat q
    exact hfollow q _ r hr (hthree.theirs_unchanged heq)
  · obtain ⟨r, hthree, hr⟩ := hat q
    exact hfollow q _ r hr (hthree.same heq)

/-! ## Calls of the callback -/

/-- The arguments of a call of the callback: the entries of a path that is on all three sides, any
two of them different. -/
def CalledOn (base ours theirs : FileMap) (path : RelPath) (o t : FileEntry)
    (b : Option FileEntry) : Prop :=
  b.isSome ∧ base[path]? = b ∧ ours[path]? = some o ∧ theirs[path]? = some t ∧
    o ≠ t ∧ b ≠ some o ∧ b ≠ some t

instance (base ours theirs : FileMap) (path : RelPath) (o t : FileEntry) (b : Option FileEntry) :
    Decidable (CalledOn base ours theirs path o t b) :=
  inferInstanceAs (Decidable (_ ∧ _))

variable {m : Type → Type} [Monad m]

/-- A callback that does something else for any other arguments. -/
def guarded (base ours theirs : FileMap) (resolveContent other : Resolver m) : Resolver m :=
  fun path o t b =>
    if CalledOn base ours theirs path o t b then resolveContent path o t b else other path o t b

lemma mergePath_guarded (base ours theirs : FileMap) (resolveContent other : Resolver m)
    (path : RelPath) (tm : TreeMerge) :
    mergePath (guarded base ours theirs resolveContent other) path tm base[path]? ours[path]?
      theirs[path]? = mergePath resolveContent path tm base[path]? ours[path]? theirs[path]? := by
  rcases hb : base[path]? with - | b <;> rcases ho : ours[path]? with - | o <;>
    rcases ht : theirs[path]? with - | t <;> try rfl
  -- The callback is called in one branch only.
  simp only [mergePath]
  split_ifs with hot hbo hbt
  iterate 3 rfl
  have hcalled : CalledOn base ours theirs path o t (some b) :=
    ⟨rfl, hb, ho, ht, hot, fun h => hbo (Option.some.inj h), fun h => hbt (Option.some.inj h)⟩
  simp only [mergeChanged, guarded, if_pos hcalled]

/-- Merging trees merges every path by itself as a three-way merge, whatever the callback does, and
the callback is called only for paths that all three sides have, any two of them different. -/
theorem mergeTrees_threeWay (base ours theirs : FileMap) :
    (∀ (σ : Type) (resolveContent : Resolver (StateM σ)) (st : σ),
      ThreeWayMerge base ours theirs ((mergeTrees base ours theirs resolveContent).run st).1) ∧
    ∀ (m : Type → Type) [Monad m] (resolveContent other : Resolver m),
      mergeTrees base ours theirs (guarded base ours theirs resolveContent other) =
        mergeTrees base ours theirs resolveContent := by
  refine ⟨fun σ => threeWayMerge_mergeTrees base ours theirs, fun m _ resolveContent other => ?_⟩
  unfold mergeTrees
  congr 1
  funext tm path
  exact mergePath_guarded base ours theirs resolveContent other path tm

/-! ## Files and directories of the same name -/

/-- A file and a directory of the same name, one added by each side. -/
structure Clash (base ours theirs : FileMap) (p q : RelPath) : Prop where
  ours_added : p ∈ ours ∧ p ∉ base ∧ p ∉ theirs
  theirs_added : q ∈ theirs ∧ q ∉ base ∧ q ∉ ours
  nested : p <+: q ∨ q <+: p

lemma addedOnce_iff {q : RelPath} : AddedOnce base[q]? ours[q]? theirs[q]? ↔
    q ∉ base ∧ (q ∈ ours ∧ q ∉ theirs ∨ q ∈ theirs ∧ q ∉ ours) := by
  rw [AddedOnce, mem_iff_isSome_getElem?, mem_iff_isSome_getElem?, mem_iff_isSome_getElem?]
  cases base[q]? <;> cases ours[q]? <;> cases theirs[q]? <;> simp

/-- The paths of the merged map: those that one side has added, and some that both sides have. -/
lemma merged_mergeTrees (base ours theirs : FileMap) (resolveContent : Resolver (StateM σ))
    (st : σ) :
    let merged := ((mergeTrees base ours theirs resolveContent).run st).1.merged
    (∀ q ∈ merged, MayMerge base ours theirs q) ∧
      ∀ q, AddedOnce base[q]? ours[q]? theirs[q]? → q ∈ merged := by
  have hat := exists_at_mergeTrees base ours theirs resolveContent st
  refine ⟨fun q hq => ?_, fun q hadded => ?_⟩
  · obtain ⟨r, hthree, hr⟩ := hat q
    obtain ⟨e, he⟩ := hr.mem_merged_iff.mp hq
    refine (hthree.taken e he).imp_left fun hboth => ?_
    rwa [mem_iff_isSome_getElem?, mem_iff_isSome_getElem?]
  · obtain ⟨r, hthree, hr⟩ := hat q
    exact hr.mem_merged_iff.mpr (hthree.exists_taken hadded)

/-- A path that may be merged is of one of the sides. -/
lemma MayMerge.mem_or_mem {q : RelPath} (h : MayMerge base ours theirs q) :
    q ∈ ours ∨ q ∈ theirs := by
  rcases h with ⟨hours, -⟩ | hadded
  · exact .inl hours
  · exact (addedOnce_iff.mp hadded).2.imp And.left And.left

/-- Nested paths of which ours has only one and theirs only the other are not merged both, unless
they clash. -/
lemma clash_of_mayMerge {p q : RelPath} (hp : MayMerge base ours theirs p)
    (hq : MayMerge base ours theirs q) (hptheirs : p ∉ theirs) (hqours : q ∉ ours)
    (hnested : p <+: q ∨ q <+: p) : Clash base ours theirs p q := by
  have hpbase := (addedOnce_iff.mp (hp.resolve_left fun h => hptheirs h.2)).1
  have hqbase := (addedOnce_iff.mp (hq.resolve_left fun h => hqours h.1)).1
  exact ⟨⟨hp.mem_or_mem.resolve_right hptheirs, hpbase, hptheirs⟩,
    ⟨hq.mem_or_mem.resolve_left hqours, hqbase, hqours⟩, hnested⟩

/-- The merged map of two sides in which no file is at the place of a directory is of the same kind,
whatever the callback does, if and only if the sides have not added a file and a directory of the
same name. -/
theorem prefixFree_mergeTrees_iff {base ours theirs : FileMap} (ho : PrefixFree ours)
    (ht : PrefixFree theirs) (resolveContent : Resolver (StateM σ)) (st : σ) :
    PrefixFree ((mergeTrees base ours theirs resolveContent).run st).1.merged ↔
      ∀ p q, ¬ Clash base ours theirs p q := by
  obtain ⟨honly, hadded⟩ := merged_mergeTrees base ours theirs resolveContent st
  constructor
  · intro hfree p q hclash
    obtain ⟨⟨hp, hpbase, hptheirs⟩, ⟨hq, hqbase, hqours⟩, hnested⟩ := hclash
    have hpmem := hadded p (addedOnce_iff.mpr ⟨hpbase, .inl ⟨hp, hptheirs⟩⟩)
    have hqmem := hadded q (addedOnce_iff.mpr ⟨hqbase, .inr ⟨hq, hqours⟩⟩)
    rcases hnested with hpre | hpre
    · exact hptheirs (hfree p hpmem q hqmem hpre ▸ hq)
    · exact hptheirs (hfree q hqmem p hpmem hpre ▸ hq)
  · intro hclash p hp q hq hpre
    have hpmay := honly p hp
    have hqmay := honly q hq
    by_contra hne
    -- Nested paths of one side are the same, so that each side has only one of the two.
    have hours : ¬ (p ∈ ours ∧ q ∈ ours) := fun h => hne (ho p h.1 q h.2 hpre)
    have htheirs : ¬ (p ∈ theirs ∧ q ∈ theirs) := fun h => hne (ht p h.1 q h.2 hpre)
    rcases hpmay.mem_or_mem with hpours | hptheirs
    · have hqours : q ∉ ours := fun h => hours ⟨hpours, h⟩
      have hptheirs : p ∉ theirs := fun h => htheirs ⟨h, hqmay.mem_or_mem.resolve_left hqours⟩
      exact hclash p q (clash_of_mayMerge hpmay hqmay hptheirs hqours (.inl hpre))
    · have hqtheirs : q ∉ theirs := fun h => htheirs ⟨hptheirs, h⟩
      have hpours : p ∉ ours := fun h => hours ⟨h, hqmay.mem_or_mem.resolve_right hqtheirs⟩
      exact hclash q p (clash_of_mayMerge hqmay hpmay hqtheirs hpours (.inr hpre))

def oneFile (path : RelPath) : FileMap := (∅ : FileMap).insert path (modeFile, ObjectId.fill 0)

/-- A callback that resolves nothing. -/
def unresolved : Resolver (StateM Unit) := fun _ o t _ => pure (.conflict o.2 t.2)

/-- Ours adds the file `a/b`, and theirs adds the file `a/c`. -/
theorem prefixFree_mergeTrees_siblings : PrefixFree ((mergeTrees ∅ (oneFile ["a", "b"])
    (oneFile ["a", "c"]) unresolved).run ()).1.merged := by
  refine (prefixFree_mergeTrees_iff (by decide +kernel) (by decide +kernel) unresolved ()).mpr ?_
  rintro p q ⟨⟨hp, -⟩, ⟨hq, -⟩, hnested⟩
  simp only [oneFile, Std.TreeMap.mem_insert, Std.LawfulEqCmp.compare_eq_iff_eq,
    Std.TreeMap.not_mem_emptyc, or_false] at hp hq
  subst hp hq
  revert hnested
  decide

/-- Ours adds the file `a`, and theirs adds the file `a/b`: the merged map has both, and there is no
conflict. -/
theorem file_and_directory_merged :
    PrefixFree ∅ ∧ PrefixFree (oneFile ["a"]) ∧ PrefixFree (oneFile ["a", "b"]) ∧
    ¬ PrefixFree ((mergeTrees ∅ (oneFile ["a"]) (oneFile ["a", "b"])
      unresolved).run ()).1.merged ∧
    ((mergeTrees ∅ (oneFile ["a"]) (oneFile ["a", "b"])
      unresolved).run ()).1.conflicts = [] := by decide +kernel

end Merge3

end Gyt
