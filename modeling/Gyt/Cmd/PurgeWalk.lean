import Gyt.Cmd.PurgeSpec

/-!
# The rewriting loop

What the rewriting loop of a purge writes: for every commit that it visits a commit whose tree has
none of the paths, and whose parents are the new ones as far as they were visited before.
-/

namespace Gyt.Purge

open List Utf8 Command

variable {W : Type} {os : PathOs W} {hashBytes : Hash} {targets : List AbsPath}
  {paths : List RelPath} {t : Store} {id new : ObjectId} {subpath : RelPath} {depth : ℕ}
  {repo repo' : Repo W} {seen seen' : Seen}

/-! ## What rewriting changes -/

/-- Objects are added, and the files stay. -/
structure Grows (repo repo' : Repo W) : Prop where
  files : repo'.files = repo.files
  objects : repo.objects.entries <+: repo'.objects.entries

@[refl] lemma Grows.refl (repo : Repo W) : Grows repo repo := ⟨rfl, prefix_refl _⟩

@[trans] lemma Grows.trans {repo'' : Repo W} (h : Grows repo repo') (h' : Grows repo' repo'') :
    Grows repo repo'' :=
  ⟨h'.files.trans h.files, h.objects.trans h'.objects⟩

instance : Std.Refl (Grows (W := W)) := ⟨Grows.refl⟩

instance : IsTrans (Repo W) Grows := ⟨fun _ _ _ => Grows.trans⟩

lemma within_writeObjects_grows {α : Type} {f : Store → Store × α}
    (h : ∀ s : Store, s.entries <+: (f s).1.entries) : Within Grows (writeObjects f : Cmd W α) :=
  within_act fun repo => ⟨rfl, h repo.objects⟩

lemma within_rewriteEntry {rewrite : ObjectId → RelPath → WalkCmd W ObjectId}
    (h : ∀ id subpath, Within (OnFst Grows) (rewrite id subpath)) (subpath : RelPath)
    (e : TreeEntry) : Within (OnFst Grows) (rewriteEntry rewrite subpath e) := by
  unfold rewriteEntry
  split
  · exact (h _ _).bind fun _ => within_pure _
  · exact within_pure _

lemma within_rewriteTreeEntries (depth : ℕ) (id : ObjectId) (subpath : RelPath) :
    Within (OnFst Grows) (rewriteTreeEntries os hashBytes targets depth id subpath) := by
  induction depth generalizing id subpath with
  | zero => exact within_await _
  | succ depth ih =>
    unfold rewriteTreeEntries
    split
    · exact within_pure _
    · refine (within_gets _).bind fun known => ?_
      split
      · exact within_pure _
      · refine (within_readObjects _).outer.bind fun entries => ?_
        refine (within_mapM fun e => within_rewriteEntry ih subpath e).bind fun newEntries => ?_
        refine (within_writeObjects_grows fun s => prefix_append _ _).outer.bind fun new => ?_
        exact (within_act fun p => Grows.refl p.1).bind fun _ => within_pure _

lemma within_rewriteStep (commits : Commits) (id : ObjectId) :
    Within (OnFst Grows) (rewriteStep os hashBytes targets commits id) := by
  refine (within_gets _).bind fun known => ?_
  split
  · refine ((within_gets _).bind fun depth => within_rewriteTreeEntries depth _ []).bind
      fun tree => ?_
    refine (within_gets _).bind fun new => ?_
    refine (within_writeObjects_grows fun s => prefix_append _ _).outer.bind fun newId => ?_
    exact within_act fun p => Grows.refl p.1
  · exact within_pure _

lemma within_rewriteLoop (commits : Commits) (budget : ℕ)
    (stack : List ObjectId) :
    Within (OnFst Grows) (rewriteLoop os hashBytes targets commits budget stack) := by
  induction budget generalizing stack with
  | zero => cases stack <;> exact within_pure _
  | succ budget ih =>
    cases stack with
    | nil => exact within_pure _
    | cons id stack => exact (within_rewriteStep commits id).bind fun parents => ih _

/-! ## Rewriting a tree -/

/-- Whether a tree at a path has none of the targets. -/
def NoTarget (s : Store) (paths : List RelPath) (id : ObjectId) (subpath : RelPath) : Prop :=
  ∀ path, InTree s id path → ∀ p ∈ paths, ¬ p <+: subpath ++ path

lemma NoTarget.not_holdsTarget (h : NoTarget t paths id []) : ¬ HoldsTarget t paths id := by
  rintro ⟨path, hpath, p, hp, hpre⟩
  exact h path hpath p hp hpre

/-- What is no tree has no files. -/
lemma noTarget_of_forall_ne (h : ∀ payload, t.get? id ≠ some ⟨.tree, payload⟩) :
    NoTarget t paths id subpath := by
  intro path hpath
  cases hpath with
  | file hread | dir hread =>
    obtain ⟨payload, hget, -⟩ := Tree.read_eq_ok.mp hread
    exact absurd hget (h payload)

/-- A store that has the objects of a repository and possibly more: nothing collides in it, and
nothing has the all-zero identifier. -/
structure Later (t : Store) (repo : Repo W) : Prop where
  free : t.CollisionFree
  zero : t.get? .zero = none
  grows : repo.objects.entries <+: t.entries

lemma Later.of_grows (h : Later t repo') (hgrows : Grows repo repo') : Later t repo :=
  ⟨h.free, h.zero, hgrows.objects.trans h.grows⟩

lemma isNull_iff : isNull id = true ↔ id = .zero := by
  constructor
  · intro h
    refine ObjectId.ext (eq_replicate_iff.mpr ⟨id.length_bytes, fun b hb => ?_⟩)
    simpa using all_eq_true.mp h b hb
  · rintro rfl
    decide

lemma outer_readObjects_eq_ok {α : Type} {f : Store → Result α} {a : α} :
    (outer (readObjects f) : WalkCmd W α).run (repo, seen) = some (.ok a, repo', seen') ↔
      f repo.objects = .ok a ∧ repo' = repo ∧ seen' = seen := by
  simp only [outer, Option.map_eq_some_iff, Prod.exists, Prod.mk.injEq]
  constructor
  · rintro ⟨r, repo₁, hread, rfl, rfl, rfl⟩
    obtain ⟨hf, rfl⟩ := readObjects_eq_ok.mp hread
    exact ⟨hf, rfl, rfl⟩
  · rintro ⟨hf, rfl, rfl⟩
    exact ⟨.ok a, repo', readObjects_eq_ok.mpr ⟨hf, rfl⟩, rfl, rfl, rfl⟩

/-- What becomes of an entry. -/
structure RewrittenEntry (t : Store) (paths : List RelPath) (subpath : RelPath) (e e' : TreeEntry) :
    Prop where
  mode : e'.mode = e.mode
  name : e'.name = e.name
  dir : e.mode = modeDir → NoTarget t paths e'.hash (subpath ++ [Utf8.decodeLossy e.name])

lemma wellFormed_of_rewrittenEntries {entries entries' : List TreeEntry}
    (h : Forall₂ (RewrittenEntry t paths subpath) entries entries')
    (hwf : Tree.WellFormed entries) : Tree.WellFormed entries' := by
  have hnames : entries'.map (·.name) = entries.map (·.name) := by
    induction h with
    | nil => rfl
    | cons he _ ih =>
      rw [map_cons, map_cons, he.name, ih ⟨fun e' he' => hwf.valid e' (by simp [he']),
        (pairwise_cons.mp hwf.ascending).2, ?_⟩]
      have hle := hwf.length_le
      rw [length_cons] at hle
      omega
  refine ⟨fun e' he' => ?_, ?_, ?_⟩
  · obtain ⟨e, he, hrel⟩ := Text.exists_mem_of_forall₂ h.flip he'
    exact ⟨hrel.mode ▸ (hwf.valid e he).mode, hrel.name ▸ (hwf.valid e he).name⟩
  · have hasc := pairwise_map.mpr hwf.ascending
    rw [← hnames] at hasc
    exact pairwise_map.mp hasc
  · rw [← h.length_eq]
    exact hwf.length_le

/-- What rewriting a subtree has to do. -/
def RewritesSubtrees (rewrite : ObjectId → RelPath → WalkCmd W ObjectId) (paths : List RelPath) :
    Prop :=
  ∀ id subpath, subpath ≠ [] → ∀ repo seen new repo' seen',
    (rewrite id subpath).run (repo, seen) = some (.ok new, repo', seen') →
      seen' = seen ∧ ∀ t, Later t repo' → (∀ p ∈ paths, ¬ p <+: subpath) →
        NoTarget t paths new subpath

section Tree

variable (htargets : targets = paths.map (os.cwd ++ ·))

include htargets

lemma notMem_of_kept {e : TreeEntry} (h : kept os targets subpath e = true) :
    subpath ++ [decodeLossy e.name] ∉ paths := by
  intro hmem
  have hnot : os.cwd ++ subpath ++ [decodeLossy e.name] ∉ targets := by simpa [kept] using h
  rw [htargets, append_assoc] at hnot
  exact hnot (mem_map_of_mem (f := (os.cwd ++ ·)) hmem)

/-- A kept entry is not below a target. -/
lemma not_isPrefix_of_kept {e : TreeEntry} (h : kept os targets subpath e = true)
    (hsub : ∀ p ∈ paths, ¬ p <+: subpath) :
    ∀ p ∈ paths, ¬ p <+: subpath ++ [decodeLossy e.name] := by
  intro p hp hpre
  rcases prefix_concat_iff.mp hpre with rfl | hpre
  · exact notMem_of_kept htargets h hp
  · exact hsub p hp hpre

/-- A tree of rewritten entries has none of the targets. -/
lemma noTarget_of_rewrittenEntries {entries entries' : List TreeEntry}
    (hread : Tree.read t new = .ok entries')
    (h : Forall₂ (RewrittenEntry t paths subpath) entries entries')
    (hkept : ∀ e ∈ entries, kept os targets subpath e = true)
    (hsub : ∀ p ∈ paths, ¬ p <+: subpath) : NoTarget t paths new subpath := by
  intro path hpath
  obtain ⟨e', he', name, hname, hfrom⟩ := (inTree_iff hread).mp hpath
  obtain ⟨e, he, hrel⟩ := Text.exists_mem_of_forall₂ h.flip he'
  have hlossy : decodeLossy e.name = name := by
    rw [← hrel.name]
    exact decodeLossy_of_decode hname
  split_ifs at hfrom with hmode
  · obtain ⟨rest, rfl, hrest⟩ := hfrom
    have hdir := hrel.dir (hrel.mode ▸ hmode) rest hrest
    rw [hlossy, append_assoc] at hdir
    exact hdir
  · rw [hfrom, ← hlossy]
    exact not_isPrefix_of_kept htargets (hkept e he) hsub

/-- Rewriting the entries of a tree that stay. -/
lemma rewrittenEntries_of_mapM {rewrite : ObjectId → RelPath → WalkCmd W ObjectId}
    (hrewrite : RewritesSubtrees rewrite paths)
    (hgrows : ∀ id subpath, Within (OnFst Grows) (rewrite id subpath))
    {entries entries' : List TreeEntry}
    (hkept : ∀ e ∈ entries, kept os targets subpath e = true)
    (h : (entries.mapM (rewriteEntry rewrite subpath)).run (repo, seen) =
      some (.ok entries', repo', seen')) :
    seen' = seen ∧ ∀ t, Later t repo' → (∀ p ∈ paths, ¬ p <+: subpath) →
      Forall₂ (RewrittenEntry t paths subpath) entries entries' := by
  induction entries generalizing repo seen entries' with
  | nil =>
    cases h
    exact ⟨rfl, fun _ _ _ => .nil⟩
  | cons e entries ih =>
    rw [mapM_cons] at h
    obtain ⟨e', ⟨repo₁, seen₁⟩, he, h₁⟩ := seq_eq_ok.mp h
    obtain ⟨rest, ⟨repo₂, seen₂⟩, hrest, hend⟩ := seq_eq_ok.mp h₁
    cases hend
    obtain ⟨rfl, hforall⟩ := ih (fun e he => hkept e (mem_cons_of_mem _ he)) hrest
    have hgrows₁ : Grows repo₁ repo' := within_mapM
      (fun e => within_rewriteEntry hgrows subpath e) _ _ _ hrest
    unfold rewriteEntry at he
    split_ifs at he with hmode
    · obtain ⟨hash, ⟨repo₃, seen₃⟩, hhash, hend⟩ := seq_eq_ok.mp he
      cases hend
      obtain ⟨rfl, hclean⟩ := hrewrite e.hash _ (by simp) _ _ _ _ _ hhash
      refine ⟨rfl, fun t ht hsub => .cons ⟨rfl, rfl, fun _ => ?_⟩ (hforall t ht hsub)⟩
      exact hclean t (ht.of_grows hgrows₁)
        (not_isPrefix_of_kept htargets (hkept e mem_cons_self) hsub)
    · cases he
      exact ⟨rfl, fun t ht hsub =>
        .cons ⟨rfl, rfl, fun hdir => absurd hdir hmode⟩ (hforall t ht hsub)⟩

/-- What rewriting a tree does that is neither null nor known: it writes a tree without the
targets. -/
lemma rewritesTree_of_uncached (hdepth : RewritesSubtrees
      (rewriteTreeEntries os hashBytes targets depth) paths) (hnull : isNull id = false)
    (hcached : (if subpath = [] then seen.lookup id else none) = none)
    (h : (rewriteTreeEntries os hashBytes targets (depth + 1) id subpath).run (repo, seen) =
      some (.ok new, repo', seen')) :
    (∃ entries, Tree.read repo.objects id = .ok entries) ∧
      seen' = (if subpath = [] then (id, new) :: seen else seen) ∧
      ∀ t, Later t repo' → (∀ p ∈ paths, ¬ p <+: subpath) →
        (∃ entries, Tree.read t new = .ok entries) ∧ NoTarget t paths new subpath := by
  unfold rewriteTreeEntries at h
  rw [if_neg (by simp [hnull])] at h
  rw [cached, run_gets_bind] at h
  simp only [hcached] at h
  obtain ⟨entries, ⟨repo₁, seen₁⟩, hout, h₂⟩ := seq_eq_ok.mp h
  obtain ⟨hread, rfl, rfl⟩ := outer_readObjects_eq_ok.mp hout
  obtain ⟨newEntries, ⟨repo₂, seen₂⟩, hmapM, h₃⟩ := seq_eq_ok.mp h₂
  obtain ⟨id', ⟨repo₃, seen₃⟩, hwrite, h₄⟩ := seq_eq_ok.mp h₃
  obtain ⟨_, ⟨repo₄, seen₄⟩, hremember, hend⟩ := seq_eq_ok.mp h₄
  cases hend
  cases hremember
  cases hwrite
  have hkept : ∀ e ∈ entries.filter (kept os targets subpath),
      kept os targets subpath e = true := fun e he => (mem_filter.mp he).2
  obtain ⟨rfl, hforall⟩ := rewrittenEntries_of_mapM htargets hdepth
    (within_rewriteTreeEntries depth) hkept hmapM
  refine ⟨⟨entries, hread⟩, rfl, fun t ht hsub => ?_⟩
  -- The new tree is in canonical form, so it reads back.
  obtain ⟨payload, -, hdec⟩ := Tree.read_eq_ok.mp hread
  have hwf := (Tree.wellFormed_of_decode hdec).filter (kept os targets subpath)
  have hwritten : Grows repo₂ { repo₂ with
      objects := (Tree.write hashBytes repo₂.objects newEntries).1 } :=
    ⟨rfl, prefix_append _ _⟩
  have hforall' := hforall t (ht.of_grows hwritten) hsub
  have hnew := Tree.read_of_write (wellFormed_of_rewrittenEntries hforall' hwf) ht.free
    ht.grows.subset
  exact ⟨⟨newEntries, hnew⟩, noTarget_of_rewrittenEntries htargets hnew hforall' hkept hsub⟩

/-- Subtrees are rewritten to any depth. -/
lemma rewritesSubtrees (depth : ℕ) :
    RewritesSubtrees (rewriteTreeEntries os hashBytes targets depth) paths := by
  induction depth with
  | zero =>
    intro id subpath _ repo seen new repo' seen' h
    cases h
  | succ depth ih =>
    intro id subpath hne repo seen new repo' seen' h
    cases hnull : isNull id with
    | true =>
      unfold rewriteTreeEntries at h
      rw [if_pos hnull] at h
      cases h
      refine ⟨rfl, fun t ht _ => noTarget_of_forall_ne fun payload hget => ?_⟩
      rw [isNull_iff.mp hnull, ht.zero] at hget
      cases hget
    | false =>
      obtain ⟨-, hseen, hclean⟩ := rewritesTree_of_uncached htargets ih hnull (if_neg hne) h
      exact ⟨hseen.trans (if_neg hne), fun t ht hsub => (hclean t ht hsub).2⟩

end Tree

/-! ## Rewriting a commit -/

/-- What rewriting the root tree of a commit does. -/
inductive RewritesRoot (paths : List RelPath) (id : ObjectId) (repo : Repo W) (seen : Seen) :
    ObjectId → Repo W → Seen → Prop
  | null (hnull : id = .zero) : RewritesRoot paths id repo seen id repo seen
  | known {new : ObjectId} (hknown : seen.lookup id = some new) :
      RewritesRoot paths id repo seen new repo seen
  | fresh {new : ObjectId} {repo' : Repo W} (hne : id ≠ .zero) (hnew : seen.lookup id = none)
      (hgrows : Grows repo repo') (hread : ∃ entries, Tree.read repo.objects id = .ok entries)
      (hclean : ∀ t, Later t repo' →
        (∃ entries, Tree.read t new = .ok entries) ∧ NoTarget t paths new []) :
      RewritesRoot paths id repo seen new repo' ((id, new) :: seen)

lemma rewritesRoot_of_rewriteTree (htargets : targets = paths.map (os.cwd ++ ·))
    (hpaths : [] ∉ paths)
    (h : (rewriteTree os hashBytes targets id).run (repo, seen) = some (.ok new, repo', seen')) :
    RewritesRoot paths id repo seen new repo' seen' := by
  rw [rewriteTree, run_gets_bind] at h
  cases hnull : isNull id with
  | true =>
    unfold rewriteTreeEntries at h
    rw [if_pos hnull] at h
    cases h
    exact .null (isNull_iff.mp hnull)
  | false =>
    cases hknown : seen.lookup id with
    | some known =>
      unfold rewriteTreeEntries at h
      rw [if_neg (by simp [hnull])] at h
      rw [cached, run_gets_bind] at h
      simp only [if_true, hknown] at h
      cases h
      exact .known hknown
    | none =>
      have hne : id ≠ .zero := by
        rintro rfl
        revert hnull
        decide
      have hroot : ∀ p ∈ paths, ¬ p <+: [] := by
        intro p hp hpre
        rw [prefix_nil.mp hpre] at hp
        exact hpaths hp
      have hgrows := within_rewriteTreeEntries _ _ _ _ _ _ h
      obtain ⟨hread, rfl, hclean⟩ := rewritesTree_of_uncached htargets
        (rewritesSubtrees htargets _) hnull ((if_pos rfl).trans hknown) h
      exact .fresh hne hknown hgrows hread fun t ht => hclean t ht hroot

/-- What rewriting a commit does: it rewrites its root tree and writes one commit. -/
structure RewritesCommit (hashBytes : Hash) (paths : List RelPath) (id : ObjectId)
    (c : Commit) (repo : Repo W) (seen : Seen) (next : List ObjectId) (repo' : Repo W)
    (seen' : Seen) : Prop where
  next : next = c.parents.filter fun p => (seen'.lookup p).isNone
  commit : ∃ tree mid seen₁, RewritesRoot paths c.tree repo seen tree mid seen₁ ∧
    repo'.objects = (Commit.write hashBytes mid.objects (rewritten seen₁ c tree)).1 ∧
    seen' = (id, (Commit.write hashBytes mid.objects (rewritten seen₁ c tree)).2) :: seen₁

/-- What one iteration of the rewriting loop does. -/
lemma rewriteStep_cases {commits : Commits} {next : List ObjectId}
    (htargets : targets = paths.map (os.cwd ++ ·)) (hpaths : [] ∉ paths)
    (h : (rewriteStep os hashBytes targets commits id).run (repo, seen) =
      some (.ok next, repo', seen')) :
    (((seen.lookup id).isSome ∨ commits.lookup id = none) ∧ repo' = repo ∧ seen' = seen ∧
        next = []) ∨
      (seen.lookup id = none ∧ ∃ c, commits.lookup id = some c ∧
        RewritesCommit hashBytes paths id c repo seen next repo' seen') := by
  rw [rewriteStep, run_gets_bind] at h
  dsimp only at h
  split at h
  · next c hnone hc =>
    obtain ⟨tree, ⟨mid, seen₁⟩, htree, h₂⟩ := seq_eq_ok.mp h
    rw [run_gets_bind] at h₂
    obtain ⟨newId, ⟨repo₁, seen₂⟩, hwrite, hpush⟩ := seq_eq_ok.mp h₂
    cases hwrite
    cases hpush
    exact .inr ⟨hnone, c, hc, rfl, tree, mid, seen₁,
      rewritesRoot_of_rewriteTree htargets hpaths htree, rfl, rfl⟩
  · next hskip =>
    cases h
    refine .inl ⟨?_, rfl, rfl, rfl⟩
    cases hk : seen.lookup id with
    | some new => exact .inl rfl
    | none =>
      refine .inr ?_
      cases hc : commits.lookup id with
      | none => rfl
      | some c => exact absurd hc (hskip c hk)

/-- What the map of new identifiers says: root trees have trees without the targets, and commits
have commits with such trees whose parents are the new ones as far as these came before. -/
inductive SeenOk (t : Store) (paths : List RelPath) (commits : Commits) :
    Seen → Prop
  | nil : SeenOk t paths commits []
  | tree {id new : ObjectId} {seen : Seen} (h : SeenOk t paths commits seen)
      (hfresh : seen.lookup id = none) (hid : ∃ entries, Tree.read t id = .ok entries)
      (hnew : ∃ entries, Tree.read t new = .ok entries) (hclean : NoTarget t paths new []) :
      SeenOk t paths commits ((id, new) :: seen)
  | commit {id new : ObjectId} {seen : Seen} {c nc : Commit} (h : SeenOk t paths commits seen)
      (hfresh : seen.lookup id = none) (hc : commits.lookup id = some c)
      (hnew : Commit.read t new = .ok nc)
      (hparents : nc.parents = c.parents.map fun p => (seen.lookup p).getD p)
      (hclean : NoTarget t paths nc.tree []) : SeenOk t paths commits ((id, new) :: seen)

/-- An object has one kind. -/
lemma not_treeRead_of_commitRead {c : Commit} (hc : Commit.read t id = .ok c) :
    ¬ ∃ entries, Tree.read t id = .ok entries := by
  rintro ⟨entries, hread⟩
  obtain ⟨payload, hget, -⟩ := Store.commitRead_eq_ok.mp hc
  obtain ⟨payload', hget', -⟩ := Tree.read_eq_ok.mp hread
  cases hget.symm.trans hget'

lemma noTarget_of_commitRead {c : Commit} (hc : Commit.read t id = .ok c) :
    NoTarget t paths id subpath := by
  refine noTarget_of_forall_ne fun payload hget => ?_
  obtain ⟨payload', hget', -⟩ := Store.commitRead_eq_ok.mp hc
  cases hget.symm.trans hget'

section Seen

variable {commits : Commits}

lemma SeenOk.of_append {later : Seen} (h : SeenOk t paths commits (later ++ seen)) :
    SeenOk t paths commits seen := by
  induction later with
  | nil => exact h
  | cons e later ih =>
    cases h with
    | tree h => exact ih h
    | commit h => exact ih h

lemma SeenOk.noTarget (h : SeenOk t paths commits seen) (hlookup : seen.lookup id = some new) :
    NoTarget t paths new [] := by
  obtain ⟨later, earlier, rfl, -⟩ := lookup_eq_some_iff.mp hlookup
  cases h.of_append with
  | tree _ _ _ _ hclean => exact hclean
  | commit _ _ _ hnew => exact noTarget_of_commitRead hnew

/-- The parts of a commit that are not rewritten do not need its signature. -/
lemma rewritten_wellFormed {c : Commit} (h : c.WellFormed) (seen : Seen) (tree : ObjectId) :
    (rewritten seen c tree).WellFormed := by
  obtain ⟨hauthors, hnewline, hcr⟩ := Commit.wellFormed_iff.mp h
  have hlines : c.fieldLines = (rewritten seen c tree).fieldLines ++
      c.signature.toList.map (Commit.Section.signature.label ++ ·) := by
    simp [Commit.fieldLines, rewritten]
  rw [hlines] at hnewline hcr
  refine Commit.wellFormed_iff.mpr ⟨hauthors, fun l hl => hnewline l (mem_append_left _ hl),
    fun l hl => hcr l ?_⟩
  by_cases hsig : c.signature.toList.map (Commit.Section.signature.label ++ ·) = []
  · rwa [hsig, append_nil]
  · rw [dropLast_append_of_ne_nil hsig]
    exact mem_append_left _ (dropLast_subset _ hl)

/-- Rewriting a root tree keeps the map in order. -/
lemma RewritesRoot.seenOk {tree : ObjectId} {mid : Repo W} {seen₁ : Seen}
    (h : RewritesRoot paths id repo seen tree mid seen₁) (hseen : SeenOk t paths commits seen)
    (ht : Later t mid) : SeenOk t paths commits seen₁ ∧ NoTarget t paths tree [] := by
  cases h with
  | null hnull =>
    refine ⟨hseen, noTarget_of_forall_ne fun payload hget => ?_⟩
    rw [hnull, ht.zero] at hget
    cases hget
  | known hknown => exact ⟨hseen, hseen.noTarget hknown⟩
  | fresh hne hnew hgrows hread hclean =>
    obtain ⟨entries, hread⟩ := hread
    obtain ⟨payload, hget, hdec⟩ := Tree.read_eq_ok.mp hread
    have hext := Store.extends_of_grows (hgrows.objects.trans ht.grows)
    have hread' := Tree.read_eq_ok.mpr ⟨payload, hext _ _ hget, hdec⟩
    obtain ⟨hnewRead, htarget⟩ := hclean t ht
    exact ⟨.tree hseen hnew ⟨entries, hread'⟩ hnewRead htarget, htarget⟩

/-- Rewriting a commit keeps the map in order. -/
lemma RewritesCommit.seenOk {c : Commit} {next : List ObjectId}
    (h : RewritesCommit hashBytes paths id c repo seen next repo' seen')
    (hseen : SeenOk t paths commits seen) (hnone : seen.lookup id = none)
    (hlookup : commits.lookup id = some c) (hread : Commit.read t id = .ok c)
    (ht : Later t repo') : SeenOk t paths commits seen' := by
  obtain ⟨tree, mid, seen₁, hroot, hobjects, rfl⟩ := h.commit
  have htmid : Later t mid := by
    refine ⟨ht.free, ht.zero, ?_⟩
    refine IsPrefix.trans ?_ (hobjects ▸ ht.grows)
    exact prefix_append _ _
  obtain ⟨hseen₁, htree⟩ := hroot.seenOk hseen htmid
  obtain ⟨payload, -, hdec⟩ := Store.commitRead_eq_ok.mp hread
  have hwf := rewritten_wellFormed (Commit.wellFormed_of_decode hdec).2 seen₁ tree
  refine .commit hseen₁ ?_ hlookup
    (Store.commitRead_of_write hwf ht.free (hobjects ▸ ht.grows.subset)) rfl htree
  -- The commit is not its own tree.
  cases hroot with
  | null | known => exact hnone
  | fresh _ _ hgrows hold _ =>
    have hne : id ≠ c.tree := by
      intro heq
      obtain ⟨entries, hold⟩ := hold
      obtain ⟨payload', hget, hdec'⟩ := Tree.read_eq_ok.mp hold
      have hext := Store.extends_of_grows (hgrows.objects.trans htmid.grows)
      exact not_treeRead_of_commitRead hread
        ⟨entries, heq ▸ Tree.read_eq_ok.mpr ⟨payload', hext _ _ hget, hdec'⟩⟩
    rw [lookup_cons, beq_eq_false_iff_ne.mpr hne]
    exact hnone

/-! ## The loop -/

/-- The identifiers with a new one. -/
def keys (seen : Seen) : List ObjectId := seen.map (·.1)

@[simp] lemma keys_cons : keys ((id, new) :: seen) = id :: keys seen := rfl

lemma lookup_eq_none_iff : seen.lookup id = none ↔ id ∉ keys seen := by
  rw [List.lookup_eq_none_iff, keys, List.mem_map]
  constructor
  · rintro h ⟨e, he, rfl⟩
    simpa using h e he
  · intro h e he
    rw [bne_iff_ne]
    exact fun heq => h ⟨e, he, heq.symm⟩

lemma lookup_isSome_iff : (seen.lookup id).isSome ↔ id ∈ keys seen := by
  rw [← not_iff_not, Bool.not_eq_true, Option.isSome_eq_false_iff, Option.isNone_iff_eq_none,
    lookup_eq_none_iff]

lemma RewritesRoot.keys_eq {tree : ObjectId} {mid : Repo W} {seen₁ : Seen}
    (h : RewritesRoot paths id repo seen tree mid seen₁) :
    keys seen₁ = treeKeys id (keys seen) := by
  cases h with
  | null hnull =>
    rw [treeKeys, if_pos (.inl (isNull_iff.mpr hnull))]
  | known hknown =>
    have hmem : id ∈ keys seen := lookup_isSome_iff.mp (by rw [hknown]; rfl)
    rw [treeKeys, if_pos (.inr hmem)]
  | fresh hne hnew =>
    have hnot : ¬ (isNull id = true ∨ id ∈ keys seen) := by
      rintro (hnull | hmem)
      · exact hne (isNull_iff.mp hnull)
      · exact lookup_eq_none_iff.mp hnew hmem
    rw [treeKeys, if_neg hnot]
    rfl

section

variable (htargets : targets = paths.map (os.cwd ++ ·)) (hpaths : [] ∉ paths)

include htargets hpaths

/-- The rewriting loop visits what `visitStep` says. -/
lemma visitStep_of_rewriteStep {next : List ObjectId}
    (h : (rewriteStep os hashBytes targets commits id).run (repo, seen) =
      some (.ok next, repo', seen')) :
    visitStep commits (keys seen) id = .ok (keys seen', next) := by
  rcases rewriteStep_cases htargets hpaths h with
    ⟨hskip, rfl, rfl, rfl⟩ | ⟨hnone, c, hc, hcommit⟩
  · unfold visitStep
    rcases hskip with hknown | hnone
    · rw [if_pos (lookup_isSome_iff.mp hknown)]
    · rw [hnone]
      split_ifs <;> rfl
  · obtain ⟨tree, mid, seen₁, hroot, -, rfl⟩ := hcommit.commit
    rw [visitStep, if_neg (lookup_eq_none_iff.mp hnone), hc, hcommit.next, keys_cons, hroot.keys_eq]
    refine congrArg (fun l => Except.ok (_, l)) (filter_congr fun p _ => ?_)
    rw [Bool.eq_iff_iff, decide_eq_true_iff, Option.isNone_iff_eq_none, lookup_eq_none_iff,
      keys_cons, hroot.keys_eq]

/-- A rewriting loop that completes visits what `visitStep` says. -/
lemma visitRun_of_rewriteLoop {budget : ℕ} {stack : List ObjectId}
    (h : (rewriteLoop os hashBytes targets commits budget stack).run (repo, seen) =
      some (.ok true, repo', seen')) :
    PopLoop.run (.stack _) (visitStep commits) budget stack (keys seen) =
      some (.ok (keys seen')) := by
  induction budget generalizing stack repo seen with
  | zero =>
    cases stack with
    | nil =>
      cases h
      rfl
    | cons id stack => cases h
  | succ budget ih =>
    cases stack with
    | nil =>
      cases h
      rfl
    | cons id stack =>
      obtain ⟨next, ⟨repo₁, seen₁⟩, hstep, hloop⟩ := seq_eq_ok.mp h
      rw [PopLoop.run_cons, visitStep_of_rewriteStep htargets hpaths hstep]
      exact ih hloop

/-- A rewriting loop that completes leaves the map in order. -/
lemma seenOk_of_rewriteLoop {budget : ℕ} {stack : List ObjectId}
    (hcommits : ∀ id c, commits.lookup id = some c → Commit.read t id = .ok c)
    (hseen : SeenOk t paths commits seen)
    (h : (rewriteLoop os hashBytes targets commits budget stack).run (repo, seen) =
      some (.ok true, repo', seen')) (ht : Later t repo') : SeenOk t paths commits seen' := by
  induction budget generalizing stack repo seen with
  | zero =>
    cases stack with
    | nil =>
      cases h
      exact hseen
    | cons id stack => cases h
  | succ budget ih =>
    cases stack with
    | nil =>
      cases h
      exact hseen
    | cons id stack =>
      obtain ⟨next, ⟨repo₁, seen₁⟩, hstep, hloop⟩ := seq_eq_ok.mp h
      have hgrows : Grows repo₁ repo' := within_rewriteLoop _ _ _ _ _ _ hloop
      refine ih ?_ hloop
      rcases rewriteStep_cases htargets hpaths hstep with
        ⟨-, rfl, rfl, rfl⟩ | ⟨hnone, c, hc, hcommit⟩
      · exact hseen
      · exact hcommit.seenOk hseen hnone hc (hcommits id c hc) (ht.of_grows hgrows)

end

lemma mem_of_visitRun {budget : ℕ} {stack start keys : List ObjectId}
    (h : PopLoop.run (.stack _) (visitStep commits) budget stack start = some (.ok keys))
    (hid : id ∈ stack) (hc : (commits.lookup id).isSome) : id ∈ keys := by
  have hinv := PopLoop.run_invariant (fun work keys => id ∈ work ∨ id ∈ keys) ?_ (.inl hid) h
  · simpa using hinv
  · intro x work keys keys' next hx hstep
    unfold visitStep at hstep
    split_ifs at hstep with hmem
    · cases hstep
      rcases hx with hx | hx
      · rcases mem_cons.mp hx with rfl | hx
        · exact .inr hmem
        · exact .inl (by simpa using hx)
      · exact .inr hx
    · split at hstep
      · next hnone =>
        cases hstep
        rcases hx with hx | hx
        · rcases mem_cons.mp hx with rfl | hx
          · rw [hnone] at hc
            cases hc
          · exact .inl (by simpa using hx)
        · exact .inr hx
      · cases hstep
        rcases hx with hx | hx
        · rcases mem_cons.mp hx with rfl | hx
          · exact .inr mem_cons_self
          · exact .inl (by simp [hx])
        · refine .inr (mem_cons_of_mem _ ?_)
          unfold treeKeys
          split_ifs
          · exact hx
          · exact mem_cons_of_mem _ hx

end Seen

end Gyt.Purge
