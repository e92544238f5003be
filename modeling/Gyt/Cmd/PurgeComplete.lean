import Gyt.Cmd.PurgeRefs

/-!
# When a purge is complete

The rewriting loop takes the new parents of a commit from what it has visited before, and keeps the
old parent otherwise.  `complete_iff` says what this means: a purge is complete exactly if every
parent was visited before its children or led to none of the paths anyway, and if the references to
other objects than commits, annotated tags above all, led to none of the paths.
-/

namespace Gyt.Purge

open List Store Command Text

variable {W : Type} {os : PathOs W} {hashBytes : Hash} {targets : List AbsPath}
  {paths : List RelPath} {s t : Store} {id new x : ObjectId} {commits : Commits}
  {repo repo' : Repo W} {seen seen' : Seen}

/-! ## The new history -/

lemma SeenOk.nodup_keys (h : SeenOk t paths commits seen) : (keys seen).Nodup := by
  induction h with
  | nil => exact nodup_nil
  | tree _ hfresh _ _ _ ih => exact nodup_cons.mpr ⟨lookup_eq_none_iff.mp hfresh, ih⟩
  | commit _ hfresh _ _ _ _ ih => exact nodup_cons.mpr ⟨lookup_eq_none_iff.mp hfresh, ih⟩

/-- What comes before an identifier in a list without repetitions is what comes after its place. -/
lemma precedes_iff {later earlier : List ObjectId} {p : ObjectId}
    (h : (later ++ id :: earlier).Nodup) :
    Precedes (later ++ id :: earlier) p id ↔ p ∈ earlier := by
  constructor
  · rintro ⟨later', earlier', heq, hp⟩
    obtain ⟨-, hcons, hdisjoint⟩ := nodup_append.mp h
    have hlater : id ∉ later := fun hmem => hdisjoint id hmem id mem_cons_self rfl
    obtain ⟨-, -, rfl⟩ :=
      (append_cons_inj_of_notMem hlater (nodup_cons.mp hcons).1).mp heq
    exact hp
  · exact fun hp => ⟨later, earlier, rfl, hp⟩

lemma clean_of_treeRead (h : ∃ entries, Tree.read s id = .ok entries) : Clean s paths id := by
  obtain ⟨entries, hread⟩ := h
  obtain ⟨payload, hget, -⟩ := Tree.read_eq_ok.mp hread
  exact clean_of_isTree hget

section History

variable (hcommits : ∀ id c, commits.lookup id = some c → Commit.read s id = .ok c)

include hcommits

/-- If every parent was visited before or led to none of the paths, the new commits lead to none of
the paths. -/
lemma SeenOk.clean {order : List ObjectId} (h : SeenOk t paths commits seen)
    (hkept : Kept s t x) (horder : order.Nodup) (hlast : ∃ later, order = later ++ keys seen)
    (hfirst : ∀ c, s.Reaches x c → ∀ p ∈ s.parents c, Precedes order p c ∨ Clean s paths p)
    (hreach : s.Reaches x id) (hlookup : seen.lookup id = some new) : Clean t paths new := by
  induction h generalizing id new with
  | nil => cases hlookup
  | @tree id' new' seen _ _ _ hread _ ih =>
    obtain ⟨later, hlater⟩ := hlast
    rw [lookup_cons] at hlookup
    split at hlookup
    · cases hlookup
      exact clean_of_treeRead hread
    · exact ih ⟨later ++ [id'], by simp [hlater]⟩ hreach hlookup
  | @commit id' new' seen c nc _ _ hc hnew hparents hclean ih =>
    obtain ⟨later, hlater⟩ := hlast
    have ih' : ∀ {id new}, s.Reaches x id → seen.lookup id = some new → Clean t paths new :=
      fun hreach hlookup => ih ⟨later ++ [id'], by simp [hlater]⟩ hreach hlookup
    rw [lookup_cons] at hlookup
    split at hlookup
    · next heq =>
      cases hlookup
      obtain rfl := beq_iff_eq.mp heq
      have hlinks := links_of_commitRead hnew
      refine clean_iff.mpr ⟨fun nc' hnc' => ?_, fun y hy => ?_⟩
      · cases hnew.symm.trans hnc'
        exact hclean.not_holdsTarget
      · rw [hlinks, hparents, mem_map] at hy
        obtain ⟨p, hp, rfl⟩ := hy
        have hold : s.parents id = c.parents := parents_of_read (hcommits id c hc)
        have hp' : p ∈ s.parents id := hold ▸ hp
        have hreach' : s.Reaches x p := hreach.tail hp'
        cases hseen : seen.lookup p with
        | some n => exact ih' hreach' hseen
        | none =>
          rw [hlater, keys_cons] at horder
          have hnot : ¬ Precedes order p id := by
            rw [hlater, keys_cons, precedes_iff horder]
            exact lookup_eq_none_iff.mp hseen
          have hclean' := (hfirst id hreach p hp').resolve_left hnot
          exact (clean_iff_of_kept (hkept.leads (Reaches.leads hreach'))).mpr hclean'
    · exact ih' hreach hlookup

/-- If the new commit of a commit leads to none of the paths, each parent either led to none of them
before, or it was visited before and has a new commit that leads to none of them. -/
lemma SeenOk.clean_parent {c p : ObjectId} {earlier : Seen}
    (h : SeenOk t paths commits ((c, new) :: earlier)) (hclean : Clean t paths new)
    (hp : p ∈ s.parents c) (hkept : Kept s t c) : Clean s paths p ∨
      ∃ l₁ n l₂, earlier = l₁ ++ (p, n) :: l₂ ∧ Clean t paths n := by
  -- The commit has parents, so it is not one of the root trees.
  obtain ⟨oc, hoc⟩ := readable_of_parents_ne_nil (ne_nil_of_mem hp)
  cases h with
  | tree _ _ hread =>
    have hread' : Commit.read t c = .ok oc := by
      rw [Commit.read, Store.read, hkept.get?_eq]
      exact hoc
    exact absurd hread (not_treeRead_of_commitRead hread')
  | @commit _ _ _ oc' nc _ _ hc hnew hparents _ =>
    cases hoc.symm.trans (hcommits c oc' hc)
    have hlink : ((earlier.lookup p).getD p) ∈ t.links new := by
      rw [links_of_commitRead hnew, hparents]
      rw [parents_of_read hoc] at hp
      exact mem_map_of_mem (f := fun p => (earlier.lookup p).getD p) hp
    have hclean' := hclean.leads (.single hlink)
    cases hlookup : earlier.lookup p with
    | none =>
      rw [hlookup] at hclean'
      have hkept' := hkept.leads (.single (mem_links_of_mem_parents hp))
      exact .inl ((clean_iff_of_kept hkept').mp hclean')
    | some n =>
      rw [hlookup] at hclean'
      obtain ⟨l₁, l₂, hsplit, -⟩ := lookup_eq_some_iff.mp hlookup
      exact .inr ⟨l₁, n, l₂, hsplit, hclean'⟩

/-- If the new commit of `x` leads to none of the paths, every commit that `x` reaches either led to
none of them before, or it has a new commit that leads to none of them. -/
lemma SeenOk.clean_of_reaches {c : ObjectId} (h : SeenOk t paths commits seen)
    (hkept : Kept s t x) (hlookup : seen.lookup x = some new) (hclean : Clean t paths new)
    (hreach : s.Reaches x c) : Clean s paths c ∨
      ∃ later new earlier, seen = later ++ (c, new) :: earlier ∧ Clean t paths new := by
  induction hreach with
  | refl =>
    obtain ⟨later, earlier, hsplit, -⟩ := lookup_eq_some_iff.mp hlookup
    exact .inr ⟨later, new, earlier, hsplit, hclean⟩
  | @tail c p hreach hp ih =>
    rcases ih with hold | ⟨later, n, earlier, rfl, hn⟩
    · exact .inl (hold.leads (.single (mem_links_of_mem_parents hp)))
    · have hkept' := hkept.leads (Reaches.leads hreach)
      rcases h.of_append.clean_parent hcommits hn hp hkept' with
        hold | ⟨l₁, n', l₂, rfl, hn'⟩
      · exact .inl hold
      · exact .inr ⟨later ++ (c, n) :: l₁, n', l₂, by simp, hn'⟩

/-- If the new commit of `x` leads to none of the paths, every parent was visited before or led to
none of the paths. -/
lemma SeenOk.precedes_or_clean {c p : ObjectId} (h : SeenOk t paths commits seen)
    (hkept : Kept s t x) (hlookup : seen.lookup x = some new) (hclean : Clean t paths new)
    (hreach : s.Reaches x c) (hp : p ∈ s.parents c) :
    Precedes (keys seen) p c ∨ Clean s paths p := by
  rcases h.clean_of_reaches hcommits hkept hlookup hclean hreach with
    hold | ⟨later, n, earlier, rfl, hn⟩
  · exact .inr (hold.leads (.single (mem_links_of_mem_parents hp)))
  · have hkept' := hkept.leads (Reaches.leads hreach)
    rcases h.of_append.clean_parent hcommits hn hp hkept' with
      hold | ⟨l₁, n', l₂, rfl, -⟩
    · exact .inr hold
    · refine .inl ⟨keys later, keys (l₁ ++ (p, n') :: l₂), ?_, ?_⟩
      · simp [keys]
      · simp [keys]

end History

/-! ## The purged repository -/

/-- The commits and root trees in the order in which a purge visits them, the last one first. -/
def purgeOrder (iter : List ObjectId → List ObjectId) (repo : Repo W) : List ObjectId :=
  match headRefs repo.files with
  | .ok refs =>
    let commits := collect repo.objects (refs.map (·.2))
    visitOrder commits (iter (commits.map (·.1)))
  | .error _ => []

/-- Whether every parent in a history comes before its children or leads to none of the paths. -/
def ParentsFirst (s : Store) (paths : List RelPath) (order : List ObjectId) (x : ObjectId) : Prop :=
  ∀ c, s.Reaches x c → ∀ p ∈ s.parents c, Precedes order p c ∨ Clean s paths p

/-- What is no commit and has a new identifier is a root tree. -/
lemma SeenOk.treeRead_of_not_readable (h : SeenOk t paths commits seen)
    (hcommits : ∀ id c, commits.lookup id = some c → Commit.read s id = .ok c)
    (hlookup : seen.lookup x = some new) (hx : ¬ s.Readable x) :
    (∃ entries, Tree.read t x = .ok entries) ∧ ∃ entries, Tree.read t new = .ok entries := by
  obtain ⟨later, earlier, rfl, -⟩ := lookup_eq_some_iff.mp hlookup
  cases h.of_append with
  | tree _ _ hid hnew => exact ⟨hid, hnew⟩
  | @commit _ _ _ c _ _ _ hc => exact absurd ⟨c, hcommits x c hc⟩ hx

section Walked

variable {iter : List ObjectId → List ObjectId} {idx : Index} {bytes : Bytes}
  {refs : RefList} {mid : Repo W}
  (h : Purged os hashBytes targets iter repo repo' idx bytes refs commits mid seen)

include h

lemma Purged.commitRead {c : Commit} (hlookup : commits.lookup id = some c) :
    Commit.read repo.objects id = .ok c := by
  rw [h.commits_eq] at hlookup
  exact commitRead_of_lookup_collect hlookup

section

variable (htargets : targets = paths.map (os.cwd ++ ·)) (hpaths : [] ∉ paths)

include htargets hpaths

/-- What the rewriting loop has done, seen from the objects at the end. -/
lemma Purged.seenOk
    (hfree : repo'.objects.CollisionFree) (hzero : repo'.objects.get? .zero = none) :
    SeenOk repo'.objects paths commits seen := by
  obtain ⟨last, hmoves, -, hobjects⟩ := h.moves
  have hmid : repo'.objects = mid.objects := hobjects.trans (objects_of_updateRefs hmoves).symm
  have hlater : Later repo'.objects mid := ⟨hfree, hzero, hmid ▸ prefix_refl _⟩
  have hext := extends_of_grows h.grows
  exact seenOk_of_rewriteLoop htargets hpaths
    (fun id c hc => hext.commitRead (h.commitRead hc)) .nil h.walk hlater

/-- The order of the visits. -/
lemma Purged.visitRun : PopLoop.run (.stack _) (visitStep commits) (walkBudget commits)
      (iter (commits.map (·.1))).reverse [] = some (.ok (keys seen)) :=
  visitRun_of_rewriteLoop htargets hpaths h.walk

end

variable (hvisit : PopLoop.run (.stack _) (visitStep commits) (walkBudget commits)
  (iter (commits.map (·.1))).reverse [] = some (.ok (keys seen)))

include hvisit

lemma Purged.purgeOrder_eq : purgeOrder iter repo = keys seen := by
  simp only [purgeOrder, h.refs_eq, ← h.commits_eq, visitOrder, hvisit]

/-- The commits that references refer to have a new identifier. -/
lemma Purged.exists_lookup (hiter : ∀ l, (iter l).Perm l)
    (hzero : repo.objects.get? .zero = none) {name : Str} (hmem : (name, x) ∈ refs)
    (hx : repo.objects.Readable x) : ∃ new, seen.lookup x = some new := by
  obtain ⟨c, hc⟩ := hx
  have hnull : isNull x = false := by
    rw [← Bool.not_eq_true, isNull_iff]
    rintro rfl
    obtain ⟨payload, hget, -⟩ := commitRead_eq_ok.mp hc
    cases hzero.symm.trans hget
  have hcollect : (x, c) ∈ commits := by
    rw [h.commits_eq]
    exact mem_collect_of_mem_tips (mem_map_of_mem (f := Prod.snd) hmem) hnull hc
  have hkey : x ∈ commits.map (·.1) := mem_map_of_mem (f := Prod.fst) hcollect
  have hstack : x ∈ (iter (commits.map (·.1))).reverse :=
    mem_reverse.mpr ((hiter _).mem_iff.mpr hkey)
  have hlookup : (commits.lookup x).isSome := by
    rw [Option.isSome_iff_ne_none, Ne, List.lookup_eq_none_iff]
    exact fun hall => by simpa using hall _ hcollect
  exact Option.isSome_iff_exists.mp (lookup_isSome_iff.mpr (mem_of_visitRun hvisit hstack hlookup))

end Walked

section Complete

variable {iter : List ObjectId → List ObjectId} {args : List Str} {first second : Result Str}

/-- A purge is complete exactly if every parent was visited before its children or led to none of
the paths anyway, and everything else that a reference refers to led to none of them. -/
theorem complete_iff (hcwd : os.canonicalCwd repo.workdir = some os.cwd)
    (hapart : ∀ p ∈ targetPaths os repo.workdir args, Apart p [gytName])
    (hiter : ∀ l, (iter l).Perm l) (hfree : repo'.objects.CollisionFree)
    (hzero : repo'.objects.get? .zero = none)
    (hfresh : ∀ id, InScope repo.files id → ∀ y, repo.objects.Needs id y →
      repo.objects.get? y = none → repo'.objects.get? y = none)
    (hrun : (run os hashBytes args iter first second).run repo = some (.ok .purged, repo')) :
    Complete repo' (targetPaths os repo.workdir args) ↔
      (∀ name x, Scoped repo.files name → refValue repo.files name = some x →
        ParentsFirst repo.objects (targetPaths os repo.workdir args) (purgeOrder iter repo) x) ∧
      ∀ x, InScope repo.files x → ¬ repo.objects.Readable x →
        Clean repo.objects (targetPaths os repo.workdir args) x := by
  obtain ⟨idx, bytes, refs, commits, mid, seen, h⟩ := purged_of_run hcwd hapart hrun
  have hpaths : [] ∉ targetPaths os repo.workdir args :=
    fun hnil => (hapart [] hnil).1 nil_prefix
  have hseen := h.seenOk rfl hpaths hfree hzero
  have hvisit := h.visitRun rfl hpaths
  have hext := Store.extends_of_grows h.grows
  have hzero' : repo.objects.get? .zero = none := by
    cases hget : repo.objects.get? .zero with
    | none => rfl
    | some o => cases hzero.symm.trans (hext _ o hget)
  have hkept : ∀ {x}, InScope repo.files x → Kept repo.objects repo'.objects x := by
    intro x hx y hy
    cases hget : repo.objects.get? y with
    | none => exact hfresh x hx y hy hget
    | some o => exact hext y o hget
  -- What is no commit keeps its identifier, or it is a tree before and after.
  have hother : ∀ {x}, InScope repo.files x → ¬ repo.objects.Readable x →
      (Clean repo'.objects (targetPaths os repo.workdir args) (moved seen x) ↔
        Clean repo.objects (targetPaths os repo.workdir args) x) := by
    intro x hx hread
    cases hlookup : seen.lookup x with
    | none =>
      rw [moved, hlookup]
      exact clean_iff_of_kept (hkept hx)
    | some new =>
      obtain ⟨hold, hnew⟩ := hseen.treeRead_of_not_readable (fun _ _ => h.commitRead) hlookup hread
      rw [treeRead_eq_of_kept (hkept hx)] at hold
      rw [moved, hlookup]
      exact ⟨fun _ => clean_of_treeRead hold, fun _ => clean_of_treeRead hnew⟩
  have horder := h.purgeOrder_eq hvisit
  constructor
  · intro hcomplete
    constructor
    · intro name x hname hvalue c hreach p hp
      -- Only a commit reaches a parent.
      have hx : repo.objects.Readable x := by
        rcases hreach.eq_or_readable with rfl | hx
        · exact Store.readable_of_parents_ne_nil (ne_nil_of_mem hp)
        · exact hx
      obtain ⟨new, hnew⟩ := h.exists_lookup hvisit hiter hzero'
        (mem_headRefs_of_scoped h.refs_eq hname hvalue) hx
      have hclean := hcomplete _ (h.inScope_iff.mpr (.inl ⟨name, x, hname, hvalue, rfl⟩))
      rw [moved, hnew] at hclean
      rw [horder]
      exact hseen.precedes_or_clean (fun _ _ => h.commitRead) (hkept (.ref hname hvalue)) hnew
        hclean hreach hp
    · intro x hx hread
      refine (hother hx hread).mp ?_
      cases hlookup : seen.lookup x with
      | some new =>
        obtain ⟨-, hnew⟩ := hseen.treeRead_of_not_readable (fun _ _ => h.commitRead) hlookup hread
        rw [moved, hlookup]
        exact clean_of_treeRead hnew
      | none =>
        cases hx with
        | ref hname hvalue =>
          exact hcomplete _ (h.inScope_iff.mpr (.inl ⟨_, x, hname, hvalue, rfl⟩))
        | detached hhead =>
          rw [moved, hlookup]
          exact hcomplete _ (h.inScope_iff.mpr (.inr ⟨hhead, hlookup⟩))
  · rintro ⟨hfirst, hrest⟩ id hid
    rcases h.inScope_iff.mp hid with ⟨name, x, hname, hvalue, rfl⟩ | ⟨hhead, hnone⟩
    · by_cases hx : repo.objects.Readable x
      · obtain ⟨new, hnew⟩ := h.exists_lookup hvisit hiter hzero'
          (mem_headRefs_of_scoped h.refs_eq hname hvalue) hx
        have hparents := hfirst name x hname hvalue
        rw [horder] at hparents
        rw [moved, hnew]
        exact hseen.clean (fun _ _ => h.commitRead) (hkept (.ref hname hvalue)) hseen.nodup_keys
          ⟨[], rfl⟩ hparents .refl hnew
      · exact (hother (.ref hname hvalue) hx).mpr (hrest x (.ref hname hvalue) hx)
    · have hx : ¬ repo.objects.Readable id := by
        intro hx
        obtain ⟨new, hnew⟩ := h.exists_lookup hvisit hiter hzero'
          (mem_headRefs_of_detached h.refs_eq hhead) hx
        cases hnone.symm.trans hnew
      have hclean := (hother (.detached hhead) hx).mpr (hrest id (.detached hhead) hx)
      rw [moved, hnone] at hclean
      exact hclean

end Complete

/-! ## Two orders of the same history -/

/-- A working tree in which every path exists. -/
def sampleOs : PathOs Unit where
  cwd := [['w']]
  canonicalCwd _ := some [['w']]
  pathExists _ _ := true
  canonicalize p _ := .ok (['w'] :: split '/' p)
  isDir _ _ := false
  removeDirAll _ repo := (.ok (), repo)
  removeFile _ repo := (.ok (), repo)
  removeDirAll_apart _ _ _ := ⟨rfl, rfl⟩
  removeFile_apart _ _ _ := ⟨rfl, rfl⟩

/-- Two commits with the file `s`, as the objects, the parent and the tip. -/
def sampleObjects : Store × ObjectId × ObjectId :=
  let tree := writeSampleFile ⟨[]⟩ [115] [120]
  let parent := Commit.writeSample tree.1 tree.2 []
  let tip := Commit.writeSample parent.1 tree.2 [parent.2]
  (tip.1, parent.2, tip.2)

/-- The branch of the history. -/
def sampleMain : Str := "refs/heads/main"

/-- The repository with the two commits. -/
def sampleRepo : Repo Unit where
  objects := sampleObjects.1
  files := ⟨[(headPath, Utf8.encode (headRefPrefix ++ sampleMain)),
    (sampleMain, refContent sampleObjects.2.2)], []⟩
  workdir := ()

/-- Purging the file. -/
def samplePurge (iter : List ObjectId → List ObjectId) : Cmd Unit Outcome :=
  run sampleOs sampleHash [['s']] iter (.ok "DESTROY") (.ok "DESTROY")

/-- The repository after the purge. -/
def samplePurged (iter : List ObjectId → List ObjectId) : Repo Unit :=
  (samplePurge iter).after sampleRepo

lemma eq_of_inScope_sampleRepo (h : InScope sampleRepo.files x) : x = sampleObjects.2.2 := by
  cases h with
  | @ref name hname hvalue =>
    have hfile : name ∈ sampleRepo.files.files.map (·.1) := by
      obtain ⟨content, hcontent⟩ := Option.isSome_iff_exists.mp (get?_isSome_of_refValue hvalue)
      exact mem_map_of_mem (f := Prod.fst) (RefFiles.mem_files_of_get? hcontent)
    have hall : ∀ name ∈ sampleRepo.files.files.map (·.1),
        ∀ y ∈ refValue sampleRepo.files name, y = sampleObjects.2.2 := by decide +kernel
    exact hall name hfile x hvalue
  | detached hhead =>
    have hsymbolic : readHead sampleRepo.files = .ok (.symbolic sampleMain) := by decide +kernel
    cases hsymbolic.symm.trans hhead

lemma needs_sampleRepo {y : ObjectId} (hx : InScope sampleRepo.files x)
    (h : sampleRepo.objects.Needs x y) : y ∈ sampleRepo.objects.ids := by
  have hclosed : sampleRepo.objects.Closed := by decide +kernel
  have hmem : x ∈ sampleRepo.objects.ids := by
    rw [eq_of_inScope_sampleRepo hx]
    decide +kernel
  exact h.mem hclosed hmem

/-- With the parent visited first, the purge is complete. -/
theorem complete_iff_parent_first :
    Complete (samplePurged reverse) [[['s']]] := by
  have hrun : (samplePurge reverse).run sampleRepo = some (.ok .purged, samplePurged reverse) :=
    run_eq_after (by decide +kernel)
  have hfree : (samplePurged reverse).objects.CollisionFree := by
    unfold Store.CollisionFree
    decide +kernel
  refine (complete_iff rfl (by unfold Apart; decide) reverse_perm hfree (by decide +kernel)
    (fun x hx y hy hnone => ?_) hrun).mpr ⟨fun name x hname hvalue c hreach p hp => .inl ?_,
      fun x hx hread => ?_⟩
  · have hsome := Store.mem_ids_iff.mp (needs_sampleRepo hx hy)
    rw [hnone] at hsome
    cases hsome
  · have hc : c ∈ sampleRepo.objects.ids := Store.mem_ids_of_parents_ne_nil (ne_nil_of_mem hp)
    have hone : ∀ c ∈ sampleRepo.objects.ids, ∀ p ∈ sampleRepo.objects.parents c,
        c = sampleObjects.2.2 ∧ p = sampleObjects.2.1 := by decide +kernel
    obtain ⟨rfl, rfl⟩ := hone c hc p hp
    exact ⟨[], (purgeOrder reverse sampleRepo).tail, by decide +kernel, by decide +kernel⟩
  · rw [eq_of_inScope_sampleRepo hx] at hread
    exact absurd (by decide +kernel) hread

/-- With the child visited first, the new child keeps the old parent, which has the file. -/
theorem child_first_keeps_secret :
    (samplePurge fun l => l).run sampleRepo = some (.ok .purged, samplePurged fun l => l) ∧
      ¬ Complete (samplePurged fun l => l) [[['s']]] := by
  refine ⟨run_eq_after (by decide +kernel), fun hcomplete => ?_⟩
  obtain ⟨tip, htip, hlink⟩ : ∃ tip ∈ refValue (samplePurged fun l => l).files sampleMain,
      sampleObjects.2.1 ∈ (samplePurged fun l => l).objects.links tip := by decide +kernel
  have hclean := hcomplete tip (.ref (.inl ⟨refsHeads, by decide, by decide⟩) htip)
  obtain ⟨c, hc, files, hfiles, hmem⟩ :
      ∃ c ∈ (Commit.read (samplePurged fun l => l).objects sampleObjects.2.1).toOption,
      ∃ files ∈ (flattenTree (samplePurged fun l => l).objects c.tree).bind Except.toOption,
        [['s']] ∈ files := by decide +kernel
  obtain ⟨r, hflatten, hr⟩ := Option.bind_eq_some_iff.mp hfiles
  rw [toOption_eq_some.mp hr] at hflatten
  exact hclean _ (.single hlink) c (toOption_eq_some.mp hc)
    ((holdsTarget_iff_flattenTree hflatten).mpr ⟨_, hmem, _, mem_singleton.mpr rfl, prefix_refl _⟩)

end Gyt.Purge
