import Gyt.Cmd.PurgeWalk

/-!
# The references of a purge

Which references a purge collects and what it makes of them.  `purged_of_run` takes a successful
purge apart: the index is written, the history is rewritten, and the references that were collected
before move to the new commits.
-/

namespace Gyt.Purge

open List RefFiles Command Text

variable {W : Type} {os : PathOs W} {hashBytes : Hash} {targets : List AbsPath}
  {fs : RefFiles} {name : Str} {id x : ObjectId} {refs : RefList}
  {repo repo' : Repo W} {seen : Seen} {iter : List ObjectId → List ObjectId}

/-! ## Collecting references -/

lemma mem_headTip : (name, x) ∈ headTip fs ↔
    (readHead fs = .ok (.symbolic name) ∧ refValue fs name = some x) ∨
      (readHead fs = .ok (.detached x) ∧ name = headPath) := by
  unfold headTip
  split
  · next sym hhead =>
    simp only [mem_map, Option.mem_toList, Prod.mk.injEq, hhead, Except.ok.injEq,
      Head.symbolic.injEq, reduceCtorEq, false_and, or_false]
    constructor
    · rintro ⟨y, hy, rfl, rfl⟩
      exact ⟨rfl, hy⟩
    · rintro ⟨rfl, hy⟩
      exact ⟨x, hy, rfl, rfl⟩
  · next y hhead =>
    simp only [mem_singleton, Prod.mk.injEq, hhead, Except.ok.injEq, reduceCtorEq,
      false_and, false_or, Head.detached.injEq]
    constructor
    · rintro ⟨rfl, rfl⟩
      exact ⟨rfl, rfl⟩
    · rintro ⟨rfl, rfl⟩
      exact ⟨rfl, rfl⟩
  · next e hhead => simp [hhead]

/-- The directories that a purge takes references from. -/
def refDirs : List Str := [refsHeads, refsTags, refsRemotes, "refs/issues".toList,
  "refs/prs".toList, "refs/incidents".toList]

lemma ne_headPath_of_isBelow {dir : Str} (hdir : dir ∈ refDirs)
    (h : isBelow name dir = true) : name ≠ headPath := by
  rintro rfl
  revert h
  revert dir
  decide

section

variable (h : headRefs fs = .ok refs)

include h

/-- A reference that a purge collects has the value that it is collected with; a detached `HEAD` is
collected under the name of its file. -/
lemma cases_of_mem_headRefs (hmem : (name, x) ∈ refs) :
    (readHead fs = .ok (.detached x) ∧ name = headPath) ∨
      (refValue fs name = some x ∧ name ≠ headPath) := by
  simp only [headRefs, bind_eq_ok] at h
  obtain ⟨heads, hheads, tags, htags, remotes, hremotes, h⟩ := h
  cases h
  have hlisted : ∀ dir ∈ refDirs, ∀ out, listRefs fs dir = .ok out → (name, x) ∈ out →
      refValue fs name = some x ∧ name ≠ headPath := by
    intro dir hdir out hout hmem
    obtain ⟨hbelow, hvalue⟩ := (mem_listRefs hout).mp hmem
    exact ⟨hvalue, ne_headPath_of_isBelow hdir hbelow⟩
  simp only [mem_append, or_assoc] at hmem
  rcases hmem with hmem | hmem | hmem | hmem | hmem | hmem
  · rcases mem_headTip.mp hmem with ⟨hhead, hvalue⟩ | hdetached
    · refine .inr ⟨hvalue, ?_⟩
      rintro rfl
      rw [refValue_headPath_of_symbolic hhead] at hvalue
      cases hvalue
    · exact .inl hdetached
  · exact .inr (hlisted _ (by simp [refDirs]) _ hheads hmem)
  · exact .inr (hlisted _ (by simp [refDirs]) _ htags hmem)
  · exact .inr (hlisted _ (by simp [refDirs]) _ hremotes hmem)
  · obtain ⟨y, hy, heq⟩ := mem_map.mp hmem
    cases heq
    exact .inr ⟨Option.mem_toList.mp hy, by decide⟩
  · obtain ⟨dir, hdir, hmem⟩ := mem_flatMap.mp hmem
    cases hlist : listRefs fs dir with
    | error e =>
      rw [hlist] at hmem
      cases hmem
    | ok out =>
      rw [hlist] at hmem
      have hdir' : dir ∈ refDirs := by
        simp only [refDirs, mem_cons]
        exact .inr (.inr (.inr (by simpa using hdir)))
      exact .inr (hlisted dir hdir' out hlist hmem)

/-- A name is collected with one value only. -/
lemma eq_of_mem_headRefs {y : ObjectId} (hx : (name, x) ∈ refs)
    (hy : (name, y) ∈ refs) : y = x := by
  rcases cases_of_mem_headRefs h hx with ⟨hhead, hname⟩ | ⟨hvalue, hname⟩ <;>
    rcases cases_of_mem_headRefs h hy with ⟨hhead', hname'⟩ | ⟨hvalue', hname'⟩
  · cases hhead.symm.trans hhead'
    rfl
  · exact absurd hname hname'
  · exact absurd hname' hname
  · cases hvalue.symm.trans hvalue'
    rfl

/-- A purge collects all references that it is about. -/
lemma mem_headRefs_of_scoped (hname : Scoped fs name)
    (hvalue : refValue fs name = some x) : (name, x) ∈ refs := by
  simp only [headRefs, bind_eq_ok] at h
  obtain ⟨heads, hheads, tags, htags, remotes, hremotes, h⟩ := h
  cases h
  simp only [mem_append]
  rcases hname with ⟨dir, hdir, hbelow⟩ | rfl | hhead
  · simp only [mem_cons, not_mem_nil, or_false] at hdir
    rcases hdir with rfl | rfl | rfl
    · exact .inl (.inl (.inl (.inl (.inr ((mem_listRefs hheads).mpr ⟨hbelow, hvalue⟩)))))
    · exact .inl (.inl (.inl (.inr ((mem_listRefs htags).mpr ⟨hbelow, hvalue⟩))))
    · exact .inl (.inl (.inr ((mem_listRefs hremotes).mpr ⟨hbelow, hvalue⟩)))
  · exact .inl (.inr (mem_map.mpr ⟨x, Option.mem_toList.mpr hvalue, rfl⟩))
  · exact .inl (.inl (.inl (.inl (.inl (mem_headTip.mpr (.inl ⟨hhead, hvalue⟩))))))

lemma mem_headRefs_of_detached
    (hhead : readHead fs = .ok (.detached x)) : (headPath, x) ∈ refs := by
  simp only [headRefs, bind_eq_ok] at h
  obtain ⟨heads, -, tags, -, remotes, -, h⟩ := h
  cases h
  simp only [mem_append]
  exact .inl (.inl (.inl (.inl (.inl (mem_headTip.mpr (.inr ⟨hhead, rfl⟩))))))

end

/-! ## The index is no reference -/

section Index

variable {idx : Index} {bytes : Bytes}

/-- Writing the index changes no value of a reference. -/
lemma refValue_set_index (hread : Index.read fs indexPath = .ok idx)
    (hbytes : ∃ rest, bytes = Index.magic ++ rest) (name : Str) :
    refValue (fs.set indexPath bytes) name = refValue fs name := by
  obtain ⟨rest, rfl⟩ := hbytes
  by_cases hname : name = indexPath
  · rw [hname, Index.refValue_of_read hread, Index.refValue_of_magic get?_set_self]
  · exact refValue_set_of_ne hname

lemma readHead_set_index {head : Head} :
    readHead (fs.set indexPath bytes) = .ok head ↔ readHead fs = .ok head := by
  have hget : (fs.set indexPath bytes).get? headPath = fs.get? headPath :=
    get?_set_of_ne (by decide)
  exact ⟨readHead_congr hget.symm, readHead_congr hget⟩

/-- Writing the index does not change what a purge collects. -/
lemma headRefs_set_index (hread : Index.read fs indexPath = .ok idx)
    (hbytes : ∃ rest, bytes = Index.magic ++ rest) :
    headRefs (fs.set indexPath bytes) = headRefs fs := by
  have hlist : ∀ dir ∈ refDirs, listRefs (fs.set indexPath bytes) dir = listRefs fs dir := by
    intro dir hdir
    have hdirs : ∀ dir ∈ refDirs, isBelow indexPath dir = false ∧ indexPath ≠ dir := by decide
    obtain ⟨hbelow, hne⟩ := hdirs dir hdir
    exact listRefs_set hbelow hne
  have htip : headTip (fs.set indexPath bytes) = headTip fs := by
    have hvalue := refValue_set_index hread hbytes
    cases hhead : readHead fs with
    | ok head =>
      cases head <;> simp only [headTip, readHead_set_index.mpr hhead, hhead, hvalue]
    | error e =>
      cases hhead' : readHead (fs.set indexPath bytes) with
      | ok head =>
        rw [readHead_set_index.mp hhead'] at hhead
        cases hhead
      | error e' => simp only [headTip, hhead, hhead']
  simp only [headRefs, hlist refsHeads (by simp [refDirs]), hlist refsTags (by simp [refDirs]),
    hlist refsRemotes (by simp [refDirs]), htip, refValue_set_index hread hbytes,
    flatMap_cons, flatMap_nil, hlist "refs/issues".toList (by simp [refDirs]),
    hlist "refs/prs".toList (by simp [refDirs]),
    hlist "refs/incidents".toList (by simp [refDirs])]

end Index

/-! ## Moving references -/

/-- What a reference to an object refers to after the move. -/
def moved (seen : Seen) (id : ObjectId) : ObjectId := (seen.lookup id).getD id

lemma updateRef_cases {y : ObjectId} (h : (updateRef seen (name, y)).run repo =
      some (.ok (), repo')) :
    (seen.lookup y = none ∧ repo' = repo) ∨ ∃ new, seen.lookup y = some new ∧
      repo' = { repo with files := repo.files.set name (refContent new) } := by
  unfold updateRef at h
  split at h
  · next new hnew => exact .inr ⟨new, hnew, (writeRef_eq_ok h).2⟩
  · next hnone =>
    cases h
    exact .inl ⟨hnone, rfl⟩

/-- The file of a name that is collected with one value only, after the moves. -/
lemma get?_of_updateRefs (hone : ∀ y, (name, y) ∈ refs → y = x)
    (h : (refs.forM (updateRef seen)).run repo = some (.ok (), repo')) :
    repo'.files.get? name = (if (name, x) ∈ refs then (seen.lookup x).map refContent else none).or
      (repo.files.get? name) := by
  induction refs generalizing repo with
  | nil =>
    cases h
    rfl
  | cons ref refs ih =>
    obtain ⟨name', y⟩ := ref
    obtain ⟨⟨⟩, repo₁, h₁, h₂⟩ := seq_eq_ok.mp h
    rw [ih (fun z hz => hone z (mem_cons_of_mem _ hz)) h₂]
    by_cases hname : name' = name
    · subst hname
      obtain rfl := hone y mem_cons_self
      rcases updateRef_cases h₁ with ⟨hnone, rfl⟩ | ⟨new, hnew, rfl⟩
      · simp [hnone]
      · simp only [hnew, Option.map_some, get?_set_self, mem_cons_self, if_true, Option.some_or]
        split <;> rfl
    · have hget : repo₁.files.get? name = repo.files.get? name := by
        rcases updateRef_cases h₁ with ⟨-, rfl⟩ | ⟨new, -, rfl⟩
        · rfl
        · exact get?_set_of_ne (Ne.symm hname)
      have hmem : (name, x) ∈ (name', y) :: refs ↔ (name, x) ∈ refs := by
        rw [mem_cons, Prod.mk.injEq]
        exact ⟨fun hor => hor.resolve_left fun hand => hname hand.1.symm, .inr⟩
      simp only [hget, hmem]

lemma get?_of_updateRefs_of_notMem (hnot : ∀ y, (name, y) ∉ refs)
    (h : (refs.forM (updateRef seen)).run repo = some (.ok (), repo')) :
    repo'.files.get? name = repo.files.get? name := by
  rw [get?_of_updateRefs (x := .zero) (fun z hz => absurd hz (hnot z)) h, if_neg (hnot _),
    Option.none_or]

lemma objects_of_updateRefs (h : (refs.forM (updateRef seen)).run repo = some (.ok (), repo')) :
    repo.objects = repo'.objects := by
  have hwithin : Within (Order.Preimage Repo.objects (· = ·))
      (refs.forM (updateRef seen) : Cmd W Unit) := by
    refine within_forM fun ref => ?_
    unfold updateRef
    split
    · exact within_writeRef (fun _ => within_write fun _ _ => rfl) _
    · exact within_pure _
  exact hwithin _ _ _ h

section Moves

variable (hrefs : headRefs repo.files = .ok refs)
  (h : (refs.forM (updateRef seen)).run repo = some (.ok (), repo'))

include hrefs h

/-- The references that a purge is about move. -/
lemma refValue_of_updateRefs (hname : Scoped repo.files name) :
    refValue repo'.files name = (refValue repo.files name).map (moved seen) := by
  cases hvalue : refValue repo.files name with
  | some y =>
    have hmem := mem_headRefs_of_scoped hrefs hname hvalue
    have hget := get?_of_updateRefs (fun z hz => eq_of_mem_headRefs hrefs hmem hz) h
    rw [if_pos hmem] at hget
    cases hnew : seen.lookup y with
    | none =>
      rw [hnew, Option.map_none, Option.none_or] at hget
      rw [refValue_congr hget, hvalue, Option.map_some, moved, hnew]
      rfl
    | some new =>
      rw [hnew, Option.map_some, Option.some_or] at hget
      have hset : repo'.files.get? name = (repo.files.set name (refContent new)).get? name := by
        rw [hget, get?_set_self]
      rw [refValue_congr hset, refValue_set_self (validateRefName_of_refValue hvalue),
        Option.map_some, moved, hnew]
      rfl
  | none =>
    -- A name without a value is not collected, unless it is that of a detached `HEAD`.
    have hnot : ∀ y, (name, y) ∉ refs := by
      intro y hy
      rcases cases_of_mem_headRefs hrefs hy with ⟨hhead, rfl⟩ | ⟨hvalue', -⟩
      · rcases hname with ⟨dir, hdir, hbelow⟩ | hstash | hhead'
        · have hdir' : dir ∈ refDirs := by
            simp only [mem_cons, not_mem_nil, or_false] at hdir
            rcases hdir with rfl | rfl | rfl <;> simp [refDirs]
          exact ne_headPath_of_isBelow hdir' hbelow rfl
        · exact absurd hstash (by decide)
        · cases hhead.symm.trans hhead'
      · cases hvalue.symm.trans hvalue'
    rw [refValue_congr (get?_of_updateRefs_of_notMem hnot h), hvalue]
    rfl

/-- The file `HEAD` stays as it is, unless it is detached at an object with a new identifier. -/
lemma get?_headPath_of_updateRefs
    (hhead : ∀ y, readHead repo.files = .ok (.detached y) → seen.lookup y = none) :
    repo'.files.get? headPath = repo.files.get? headPath := by
  by_cases hmem : ∃ y, (headPath, y) ∈ refs
  · obtain ⟨y, hy⟩ := hmem
    have hdetached : readHead repo.files = .ok (.detached y) := by
      rcases cases_of_mem_headRefs hrefs hy with ⟨hdetached, -⟩ | ⟨-, hne⟩
      · exact hdetached
      · exact absurd rfl hne
    have hget := get?_of_updateRefs (fun z hz => eq_of_mem_headRefs hrefs hy hz) h
    rw [if_pos hy, hhead y hdetached, Option.map_none, Option.none_or] at hget
    exact hget
  · exact get?_of_updateRefs_of_notMem (fun y hy => hmem ⟨y, hy⟩) h

/-- A detached `HEAD` that is written cannot be read afterwards: the file of a reference is no
`HEAD`. -/
lemma readHead_of_updateRefs_moved {new : ObjectId}
    (hhead : readHead repo.files = .ok (.detached x)) (hnew : seen.lookup x = some new) :
    readHead repo'.files = .error (.refs ["malformed HEAD: ", .debug new.toHex]) := by
  have hmem := mem_headRefs_of_detached hrefs hhead
  have hget := get?_of_updateRefs (fun z hz => eq_of_mem_headRefs hrefs hmem hz) h
  rw [if_pos hmem, hnew, Option.map_some, Option.some_or] at hget
  exact readHead_of_refContent hget

/-- If `HEAD` can be read afterwards, it was not written. -/
lemma lookup_eq_none_of_updateRefs {head : Head} (hhead : readHead repo'.files = .ok head) :
    ∀ y, readHead repo.files = .ok (.detached y) → seen.lookup y = none := by
  intro y hy
  cases hnew : seen.lookup y with
  | none => rfl
  | some new =>
    rw [readHead_of_updateRefs_moved hrefs h hy hnew] at hhead
    cases hhead

/-- What can be read from `HEAD` afterwards. -/
lemma readHead_of_updateRefs {head : Head} : readHead repo'.files = .ok head ↔
    readHead repo.files = .ok head ∧ ∀ y, head = .detached y → seen.lookup y = none := by
  constructor
  · intro hhead
    have hkept := lookup_eq_none_of_updateRefs hrefs h hhead
    have hhead' := readHead_congr (get?_headPath_of_updateRefs hrefs h hkept).symm hhead
    exact ⟨hhead', fun y hy => hkept y (hy ▸ hhead')⟩
  · rintro ⟨hhead, hnone⟩
    refine readHead_congr (get?_headPath_of_updateRefs hrefs h fun y hy => ?_) hhead
    cases hhead.symm.trans hy
    exact hnone y rfl

end Moves

/-! ## Collecting commits -/

section Collect

variable {s : Store} {tips : List ObjectId}

lemma run_collected (s : Store) (tips : List ObjectId) :
    PopLoop.run (.stack _) (collectStep s) ((tips.filter (!isNull ·)).reverse.length +
      PopLoop.linksLeft (followed s) s.ids []) (tips.filter (!isNull ·)).reverse ⟨[], []⟩ =
        some (.ok (collected s tips)) := by
  unfold collected
  dsimp only
  split
  next st hst => rw [← hst, Option.some_get]

/-- What one iteration does: it visits an object, and collects it if it is a commit. -/
lemma collectStep_cases {st st' : Collected} {next : List ObjectId}
    (h : collectStep s st id = .ok (st', next)) :
    st' = st ∨ (st'.visited = id :: st.visited ∧
      ((∃ c, Commit.read s id = .ok c ∧ st'.commits = (id, c) :: st.commits) ∨
        ((∀ c, Commit.read s id ≠ .ok c) ∧ st'.commits = st.commits))) := by
  have hnot : ∀ o, s.get? id = o → (∀ payload, o = some ⟨.commit, payload⟩ →
      ∀ c, Commit.decode payload ≠ .ok c) → ∀ c, Commit.read s id ≠ .ok c := by
    rintro o hget hdec c hc
    obtain ⟨payload, hget', hdec'⟩ := Store.commitRead_eq_ok.mp hc
    exact hdec payload (hget.symm.trans hget') c hdec'
  unfold collectStep at h
  split_ifs at h with hseen
  · cases h
    exact .inl rfl
  · refine .inr ?_
    split at h
    · next payload hget =>
      split at h
      · next c hdec =>
        cases h
        exact ⟨rfl, .inl ⟨c, Store.commitRead_eq_ok.mpr ⟨payload, hget, hdec⟩, rfl⟩⟩
      · next e hdec =>
        cases h
        refine ⟨rfl, .inr ⟨hnot _ hget ?_, rfl⟩⟩
        rintro payload' heq c hc
        cases heq
        rw [hdec] at hc
        cases hc
    · next payload hget =>
      cases h
      exact ⟨rfl, .inr ⟨hnot _ hget (fun payload' heq => nomatch heq), rfl⟩⟩
    · next hcommit htag =>
      cases h
      exact ⟨rfl, .inr ⟨hnot _ rfl fun payload' heq => absurd heq (hcommit payload'), rfl⟩⟩

/-- Exactly the commits among the visited objects are collected. -/
lemma mem_collect_iff {c : Commit} : (id, c) ∈ collect s tips ↔
    id ∈ (collected s tips).visited ∧ Commit.read s id = .ok c := by
  have hrun := run_collected s tips
  refine PopLoop.run_invariant
    (fun _ st => ∀ id c, (id, c) ∈ st.commits ↔ id ∈ st.visited ∧ Commit.read s id = .ok c)
    ?_ ?_ hrun id c
  · intro x work st st' next hinv hx id c
    rcases collectStep_cases hx with rfl | ⟨hvisited, ⟨c', hc', hcommits⟩ | ⟨hno, hcommits⟩⟩
    · exact hinv id c
    · rw [hvisited, hcommits, mem_cons, mem_cons, hinv id c, or_and_right, Prod.mk.injEq]
      refine or_congr_left (and_congr_right fun hid => ?_)
      rw [hid, hc', Except.ok.injEq, eq_comm]
    · rw [hvisited, hcommits, mem_cons, hinv id c, or_and_right]
      refine ⟨.inr, fun hor => hor.resolve_left ?_⟩
      rintro ⟨rfl, hc⟩
      exact hno c hc
  · intro id c
    simp

lemma commitRead_of_lookup_collect {c : Commit} (h : (collect s tips).lookup id = some c) :
    Commit.read s id = .ok c := by
  obtain ⟨l₁, l₂, heq, -⟩ := lookup_eq_some_iff.mp h
  exact (mem_collect_iff.mp (heq ▸ mem_append_right _ mem_cons_self)).2

/-- The commits that the references refer to are collected. -/
lemma mem_collect_of_mem_tips {c : Commit} (hx : x ∈ tips) (hnull : isNull x = false)
    (hc : Commit.read s x = .ok c) : (x, c) ∈ collect s tips := by
  refine mem_collect_iff.mpr ⟨?_, hc⟩
  have hseen := PopLoop.mem_seen_iff_reachable (visitsOnce_collectStep s) rfl
    (run_collected s tips) x
  refine hseen.mpr ⟨x, ?_, not_false, .refl⟩
  simp [hx, hnull]

end Collect

/-! ## A successful purge -/

/-- The paths that the arguments stand for, relative to the working tree. -/
def targetPaths (os : PathOs W) (w : W) (args : List Str) : List RelPath :=
  args.filterMap fun arg => (os.canonicalize arg w).toOption.bind (stripPrefix os.cwd)

/-- What a successful purge has done. -/
structure Purged (os : PathOs W) (hashBytes : Hash) (targets : List AbsPath)
    (iter : List ObjectId → List ObjectId) (repo repo' : Repo W) (idx : Index) (bytes : Bytes)
    (refs : RefList) (commits : Commits) (mid : Repo W)
    (seen : Seen) : Prop where
  read_eq : Index.read repo.files indexPath = .ok idx
  bytes_eq : Index.toBytes ⟨idx.entries.filter
    (·.path ∉ targets.map fun p => (stripPrefix os.cwd p).getD p)⟩ = .ok bytes
  unstaged : (unstage os targets).run repo =
    some (.ok (), { repo with files := repo.files.set indexPath bytes })
  refs_eq : headRefs repo.files = .ok refs
  commits_eq : commits = collect repo.objects (refs.map (·.2))
  walk : (rewriteLoop os hashBytes targets commits (walkBudget commits)
    (iter (commits.map (·.1))).reverse).run
      ({ repo with files := repo.files.set indexPath bytes }, []) = some (.ok true, mid, seen)
  moves : ∃ last, (refs.forM (updateRef seen)).run mid = some (.ok (), last) ∧
    repo'.files = last.files ∧ repo'.objects = last.objects

lemma parseArgs_eq_ok {args paths paths' : List Str}
    (h : parseArgs args paths = .ok (some paths')) : paths' = paths ++ args := by
  induction args generalizing paths with
  | nil =>
    cases h
    simp
  | cons arg args ih =>
    unfold parseArgs at h
    split_ifs at h
    · cases h
    · rw [ih h, append_assoc, singleton_append]

/-- In a working tree whose path is canonical, the targets are the paths that the arguments stand
for. -/
lemma mapM_resolveTarget {w : W} {args : List Str} (hcwd : os.canonicalCwd w = some os.cwd)
    (h : args.mapM (resolveTarget os w) = .ok targets) :
    targets = (targetPaths os w args).map (os.cwd ++ ·) := by
  induction args generalizing targets with
  | nil =>
    cases h
    rfl
  | cons arg args ih =>
    rw [mapM_cons] at h
    obtain ⟨canon, harg, h⟩ := bind_eq_ok.mp h
    obtain ⟨rest, hrest, h⟩ := bind_eq_ok.mp h
    cases h
    simp only [resolveTarget, bind_eq_ok, ensure_eq_ok, hcwd, Option.getD_some] at harg
    obtain ⟨_, -, canon', hcanon, _, ⟨p, rfl⟩, heq⟩ := harg
    cases heq
    have hpath : (os.canonicalize arg w).toOption.bind (stripPrefix os.cwd) = some p := by
      cases hreal : os.canonicalize arg w with
      | error e =>
        rw [hreal] at hcanon
        cases hcanon
      | ok canon =>
        rw [hreal] at hcanon
        cases hcanon
        exact stripPrefix_eq_some_iff.mpr rfl
    have hcons : targetPaths os w (arg :: args) = p :: targetPaths os w args :=
      filterMap_cons_some hpath
    rw [hcons, map_cons, ih hrest]

/-- Removing targets away from the repository directory leaves the repository alone. -/
lemma frame_of_removeTargets (hapart : ∀ p ∈ targets, Apart p (os.cwd ++ [gytName]))
    (h : (targets.forM (removeTarget os)).run repo = some (.ok (), repo')) :
    repo'.files = repo.files ∧ repo'.objects = repo.objects := by
  have hwithin : Within (Order.Preimage (fun repo : Repo W => (repo.files, repo.objects)) (· = ·))
      (targets.forM (removeTarget os)) := by
    refine within_forM_of_mem fun p hp => (within_gets _).bind fun dir => ?_
    split
    · refine within_act fun repo => ?_
      obtain ⟨hfiles, hobjects⟩ := os.removeDirAll_apart p repo (hapart p hp)
      exact Prod.ext hfiles.symm hobjects.symm
    · refine within_act fun repo => ?_
      obtain ⟨hfiles, hobjects⟩ := os.removeFile_apart p repo (hapart p hp)
      exact Prod.ext hfiles.symm hobjects.symm
  obtain ⟨hfiles, hobjects⟩ := Prod.mk.inj (hwithin _ _ _ h)
  exact ⟨hfiles.symm, hobjects.symm⟩

lemma purged_of_purge {outcome : Outcome} (hapart : ∀ p ∈ targets, Apart p (os.cwd ++ [gytName]))
    (h : (purge os hashBytes targets iter).run repo = some (.ok outcome, repo')) :
    ∃ idx bytes refs commits mid seen,
      Purged os hashBytes targets iter repo repo' idx bytes refs commits mid seen := by
  obtain ⟨⟨⟩, repo₁, hunstage, h₁⟩ := seq_eq_ok.mp h
  obtain ⟨⟨⟩, repo₂, hrewrite, h₂⟩ := seq_eq_ok.mp h₁
  obtain ⟨⟨⟩, repo₃, hremove, h₃⟩ := seq_eq_ok.mp h₂
  cases h₃
  obtain ⟨hfiles, hobjects⟩ := frame_of_removeTargets hapart hremove
  -- The index is written first.
  obtain ⟨idx, hread, h₄⟩ := readFiles_bind_eq_ok.mp hunstage
  obtain ⟨bytes, hbytes, hwrite⟩ := lift_bind_eq_ok.mp h₄
  obtain rfl := atomicWrite_eq_ok hwrite
  -- The references are collected from the files with the new index.
  obtain ⟨refs, hrefs, h₅⟩ := readFiles_bind_eq_ok.mp hrewrite
  rw [headRefs_set_index hread (Index.exists_of_toBytes hbytes)] at hrefs
  obtain ⟨commits, _, hgets, h₆⟩ := seq_eq_ok.mp h₅
  obtain ⟨hcommits, rfl⟩ := gets_eq_ok.mp hgets
  obtain ⟨⟨complete, seen⟩, mid, hwalk, hmoves⟩ := seq_eq_ok.mp h₆
  cases complete with
  | false => cases hmoves
  | true =>
    exact ⟨idx, bytes, refs, commits, mid, seen, hread, hbytes, hunstage, hrefs, hcommits,
      withLocal_eq_ok.mp hwalk, repo₂, hmoves, hfiles, hobjects⟩

/-- Taking a successful purge apart. -/
theorem purged_of_run {args : List Str} {first second : Result Str}
    (hcwd : os.canonicalCwd repo.workdir = some os.cwd)
    (hapart : ∀ p ∈ targetPaths os repo.workdir args, Apart p [gytName])
    (h : (run os hashBytes args iter first second).run repo = some (.ok .purged, repo')) :
    ∃ idx bytes refs commits mid seen,
      Purged os hashBytes ((targetPaths os repo.workdir args).map (os.cwd ++ ·)) iter repo repo'
        idx bytes refs commits mid seen := by
  obtain ⟨parsed, hparse, h₁⟩ := lift_bind_eq_ok.mp h
  split at h₁
  · cases h₁
  · cases h₁
  · next p paths =>
    obtain rfl : args = p :: paths := by simpa using (parseArgs_eq_ok hparse).symm
    rw [run_gets_bind] at h₁
    obtain ⟨targets, htargets, h₃⟩ := lift_bind_eq_ok.mp h₁
    obtain rfl := mapM_resolveTarget hcwd htargets
    obtain ⟨yes, -, h₄⟩ := lift_bind_eq_ok.mp h₃
    split_ifs at h₄
    · obtain ⟨yes', _, hyes', h₅⟩ := seq_eq_ok.mp h₄
      obtain ⟨-, rfl⟩ := lift_eq_ok.mp hyes'
      split_ifs at h₅
      · refine purged_of_purge (fun t ht => ?_) h₅
        obtain ⟨q, hq, rfl⟩ := mem_map.mp ht
        obtain ⟨hfrom, hto⟩ := hapart q hq
        exact ⟨fun hpre => hfrom ((prefix_append_right_inj _).mp hpre),
          fun hpre => hto ((prefix_append_right_inj _).mp hpre)⟩
      · cases h₅
    · cases h₄

section Purged

variable {idx : Index} {bytes : Bytes} {commits : Commits} {mid : Repo W}
  (h : Purged os hashBytes targets iter repo repo' idx bytes refs commits mid seen)

include h

lemma Purged.grows : repo.objects.entries <+: repo'.objects.entries := by
  obtain ⟨last, hmoves, -, hobjects⟩ := h.moves
  have hgrows := within_rewriteLoop _ _ _ _ _ _ h.walk
  rw [hobjects, ← objects_of_updateRefs hmoves]
  exact hgrows.objects

/-- The references are collected in the state in which they are moved. -/
lemma Purged.headRefs_mid :
    mid.files = repo.files.set indexPath bytes ∧ headRefs mid.files = .ok refs := by
  have hgrows := within_rewriteLoop _ _ _ _ _ _ h.walk
  have hfiles : mid.files = repo.files.set indexPath bytes := hgrows.files
  refine ⟨hfiles, ?_⟩
  rw [hfiles, headRefs_set_index h.read_eq (Index.exists_of_toBytes h.bytes_eq), h.refs_eq]

lemma Purged.refValue_eq (hname : Scoped repo.files name) :
    refValue repo'.files name = (refValue repo.files name).map (moved seen) := by
  obtain ⟨last, hmoves, hfiles, -⟩ := h.moves
  obtain ⟨hmid, hrefs⟩ := h.headRefs_mid
  have hname' : Scoped mid.files name := by
    simpa only [Scoped, hmid, readHead_set_index] using hname
  rw [hfiles, refValue_of_updateRefs hrefs hmoves hname', hmid,
    refValue_set_index h.read_eq (Index.exists_of_toBytes h.bytes_eq)]

lemma Purged.readHead_iff {head : Head} : readHead repo'.files = .ok head ↔
      readHead repo.files = .ok head ∧ ∀ y, head = .detached y → seen.lookup y = none := by
  obtain ⟨last, hmoves, hfiles, -⟩ := h.moves
  obtain ⟨hmid, hrefs⟩ := h.headRefs_mid
  rw [hfiles, readHead_of_updateRefs hrefs hmoves, hmid, readHead_set_index]

/-- What the purge is about afterwards. -/
lemma Purged.inScope_iff : InScope repo'.files id ↔
      (∃ name x, Scoped repo.files name ∧ refValue repo.files name = some x ∧ id = moved seen x) ∨
        (readHead repo.files = .ok (.detached id) ∧ seen.lookup id = none) := by
  have hscoped : ∀ name, Scoped repo'.files name ↔ Scoped repo.files name := by
    intro name
    simp [Scoped, h.readHead_iff]
  constructor
  · rintro (⟨hname, hvalue⟩ | hhead)
    · have hname' := (hscoped _).mp hname
      rw [h.refValue_eq hname'] at hvalue
      obtain ⟨x, hx, rfl⟩ := Option.map_eq_some_iff.mp hvalue
      exact .inl ⟨_, x, hname', hx, rfl⟩
    · obtain ⟨hhead', hnone⟩ := h.readHead_iff.mp hhead
      exact .inr ⟨hhead', hnone id rfl⟩
  · rintro (⟨name, x, hname, hvalue, rfl⟩ | ⟨hhead, hnone⟩)
    · refine .ref ((hscoped name).mpr hname) ?_
      rw [h.refValue_eq hname, hvalue]
      rfl
    · refine .detached (h.readHead_iff.mpr ⟨hhead, ?_⟩)
      rintro y heq
      cases heq
      exact hnone

end Purged

end Gyt.Purge
