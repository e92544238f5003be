import Gyt.Cmd.Rebase

/-!
# Replaying commits

What the replay loops of `rebase` and `rebase --continue` do to a repository: they write one commit
for every commit that they replay, with the same authors and message, on top of one another.

`Replays` says what replaying one commit does.  For a list of commits, `ReplayRun.replayedOnto` says
that the new commits are on top of where the run started, and `ReplayRun.reaches` that nothing else
is below them.
-/

namespace Gyt.Rebase

open List Store Command Merge3

/-! ## The replayed commit -/

def Env.Signs (env : Env) : Prop := ∃ cfg, env.config = .ok cfg ∧ cfg.signRequired = true

/-- What makes replayed commits readable: the identity of the committer is one line, and where
commits are signed, no text in front of the signature ends in a carriage return. -/
structure Env.Fits (env : Env) (pc : Commit) : Prop where
  identity : '\n' ∉ env.identity
  noCr : env.Signs → ∀ l ∈ pc.aiAssists ++ pc.reviewers, l.getLast? ≠ some '\r'

/-- The commit that takes the place of `pc` on top of `cursor`. -/
structure IsReplay (env : Env) (n : ℕ) (pc : Commit) (cursor : ObjectId) (nc : Commit) : Prop where
  parents : nc.parents = [cursor]
  authors : nc.authors = pc.authors
  committer : nc.committer = env.stamped n
  aiAssists : nc.aiAssists = pc.aiAssists
  reviewers : nc.reviewers = pc.reviewers
  signature : nc.signature = none ∨
    env.Signs ∧ ∃ sig, nc.signature = some (Signing.base64Encode sig)
  message : nc.message = pc.message

variable {W : Type} {hashBytes : Hash} {os : Os W} {fuel : ℕ} {env : Env}
  {n : ℕ} {pc nc : Commit} {tree cursor new c : ObjectId} {repo repo' : Repo W}

lemma isReplay_of_maybeSignCommit
    (h : Signing.maybeSignCommit env.config env.sign
      (replayed pc tree cursor (env.stamped n)) false =
      .ok nc) : IsReplay env n pc cursor nc := by
  obtain ⟨cfg, hcfg, h⟩ := bind_eq_ok.mp h
  split_ifs at h with hsign
  · cases h
    exact ⟨rfl, rfl, rfl, rfl, rfl, .inl rfl, rfl⟩
  · obtain ⟨sig, -, h⟩ := bind_eq_ok.mp h
    cases h
    have hrequired : cfg.signRequired = true := by simpa [replayed] using hsign
    exact ⟨rfl, rfl, rfl, rfl, rfl, .inr ⟨⟨cfg, hcfg, hrequired⟩, sig, rfl⟩, rfl⟩

/-- The committer line is one line that ends in a digit. -/
lemma stamped_clean (h : '\n' ∉ env.identity) (n : ℕ) :
    '\n' ∉ env.stamped n ∧ (env.stamped n).getLast? = some '0' := by
  constructor
  · intro hmem
    rcases mem_append.mp hmem with hmem | hmem
    · rcases mem_append.mp hmem with hmem | hmem
      · exact h hmem
      · rcases mem_cons.mp hmem with heq | hmem
        · cases heq
        · have hdigit := Nat.isDigit_of_mem_toDigits (by decide) (by decide) hmem
          revert hdigit
          decide
    · revert hmem
      decide
  · rw [Env.stamped, getLast?_append_of_ne_nil _ (by decide)]
    rfl

/-- The texts between the committer and the signature of a commit. -/
def textLines (c : Commit) : List Str :=
  c.aiAssists.map (Commit.Section.ai.label ++ ·) ++
    c.reviewers.map (Commit.Section.reviewer.label ++ ·)

lemma fieldLines_eq (c : Commit) :
    c.fieldLines = c.authors.map (Commit.Section.author.label ++ ·) ++
      ([Commit.Section.committer.label ++ c.committer] ++
        (textLines c ++ c.signature.toList.map (Commit.Section.signature.label ++ ·))) := rfl

section

variable (h : IsReplay env n pc cursor nc) (hpc : pc.WellFormed) (hfits : env.Fits pc)

include h hpc hfits

/-- The last text of a commit may end in a carriage return, unless commits are signed. -/
lemma IsReplay.getLast?_ne_of_mem_dropLast {l : Str} (hl : l ∈ textLines pc)
    (hdrop : l ∈ (textLines pc ++
      nc.signature.toList.map (Commit.Section.signature.label ++ ·)).dropLast) :
    l.getLast? ≠ some '\r' := by
  obtain ⟨-, hnewline, hcr⟩ := Commit.wellFormed_iff.mp hpc
  rw [fieldLines_eq] at hnewline hcr
  rcases h.signature with hnone | ⟨hsigns, -⟩
  · -- The text is not the last line of the original commit either.
    refine hcr l ?_
    rw [hnone, Option.toList_none, map_nil, append_nil] at hdrop
    rw [dropLast_append_of_ne_nil (by simp), singleton_append,
      dropLast_cons_of_ne_nil (by simp [ne_nil_of_mem hl])]
    refine mem_append_right _ (mem_cons_of_mem _ ?_)
    by_cases hsig : pc.signature.toList.map (Commit.Section.signature.label ++ ·) = []
    · rwa [hsig, append_nil]
    · rw [dropLast_append_of_ne_nil hsig]
      exact mem_append_left _ hl
  · have htext : ∀ (s : Commit.Section) (text : Str), text ∈ pc.aiAssists ++ pc.reviewers →
        s.label ++ text ∈ textLines pc → (s.label ++ text).getLast? ≠ some '\r' := by
      intro s text hmem hline
      refine (Commit.label_append_clean ?_ (hfits.noCr hsigns text hmem)).2
      intro hnl
      exact hnewline _ (mem_append_right _ (mem_append_right _
        (mem_append_left _ hline))) (mem_append_right _ hnl)
    rcases mem_append.mp hl with hmem | hmem
    · obtain ⟨text, htext', rfl⟩ := mem_map.mp hmem
      exact htext _ text (mem_append_left _ htext') hl
    · obtain ⟨text, htext', rfl⟩ := mem_map.mp hmem
      exact htext _ text (mem_append_right _ htext') hl

/-- A replayed commit can be read. -/
lemma IsReplay.wellFormed : nc.WellFormed := by
  obtain ⟨hauthors, hnewline, hcr⟩ := Commit.wellFormed_iff.mp hpc
  rw [fieldLines_eq] at hnewline hcr
  have htexts : textLines nc = textLines pc := by
    rw [textLines, textLines, h.aiAssists, h.reviewers]
  have hcommitter : '\n' ∉ Commit.Section.committer.label ++ env.stamped n ∧
      (Commit.Section.committer.label ++ env.stamped n).getLast? ≠ some '\r' := by
    obtain ⟨hline, hlast⟩ := stamped_clean hfits.identity n
    exact Commit.label_append_clean hline (by rw [hlast]; decide)
  have hsig : ∀ l ∈ nc.signature.toList.map (Commit.Section.signature.label ++ ·),
      '\n' ∉ l ∧ l.getLast? ≠ some '\r' := by
    intro l hl
    obtain ⟨text, htext, rfl⟩ := mem_map.mp hl
    rcases h.signature with hnone | ⟨-, sig, hsome⟩
    · rw [hnone] at htext
      cases htext
    · rw [hsome, Option.toList_some, mem_singleton] at htext
      subst htext
      exact Commit.label_append_clean (fun hmem => (Signing.ne_of_mem_base64Encode hmem).1 rfl)
        (fun hlast => (Signing.ne_of_mem_base64Encode (mem_of_getLast? hlast)).2 rfl)
  refine Commit.wellFormed_iff.mpr ⟨h.authors ▸ hauthors, fun l hl => ?_, fun l hl => ?_⟩
  · rw [fieldLines_eq, h.authors, h.committer, htexts] at hl
    rcases mem_append.mp hl with hl | hl
    · exact hnewline l (mem_append_left _ hl)
    rcases mem_append.mp hl with hl | hl
    · rw [mem_singleton.mp hl]
      exact hcommitter.1
    rcases mem_append.mp hl with hl | hl
    · exact hnewline l (mem_append_right _ (mem_append_right _ (mem_append_left _ hl)))
    · exact (hsig l hl).1
  · rw [fieldLines_eq, h.authors, h.committer, htexts] at hl
    rw [dropLast_append_of_ne_nil (by simp)] at hl hcr
    rcases mem_append.mp hl with hl | hl
    · exact hcr l (mem_append_left _ hl)
    by_cases hcom : l = Commit.Section.committer.label ++ env.stamped n
    · rw [hcom]
      exact hcommitter.2
    by_cases hrest : textLines pc ++
        nc.signature.toList.map (Commit.Section.signature.label ++ ·) = []
    · rw [hrest, append_nil, dropLast_singleton] at hl
      cases hl
    rw [dropLast_append_of_ne_nil hrest] at hl
    rcases mem_append.mp hl with hl | hl
    · exact absurd (mem_singleton.mp hl) hcom
    rcases mem_append.mp (dropLast_subset _ hl) with hl' | hl'
    · exact h.getLast?_ne_of_mem_dropLast hpc hfits hl' hl
    · exact (hsig l hl').2

end

/-! ## Replaying one commit -/

/-- Everything but the index and the commits stays as it is. -/
abbrev KeepsRefs (repo repo' : Repo W) : Prop := Keeps [indexPath] repo repo'

lemma within_resolveContent (path : RelPath) (ours theirs : FileEntry) (base : Option FileEntry) :
    Within (OnFst KeepsRefs) (resolveContent hashBytes fuel path ours theirs base :
        Command (Repo W × ConflictBlobs) GytError ContentResult) := by
  have hblob : ∀ id, Within KeepsRefs (blobOrDefault id : Cmd W Bytes) := fun id => within_gets _
  have hbase : ∀ b, Within KeepsRefs (baseBlob b : Cmd W Bytes) := by
    rintro (_ | b)
    · exact within_pure _
    · exact hblob b.2
  refine (hblob _).outer.bind fun ob => (hblob _).outer.bind fun tb =>
    (hbase _).outer.bind fun bb => (within_await _).outer.bind fun merged => ?_
  split
  · have hwrite : Within KeepsRefs (writeObjects (Blob.write hashBytes ·
        (renderWithMarkers merged "ours" "theirs")) : Cmd W ObjectId) :=
      within_writeObjects fun s => sameCommits_writeBytes hashBytes s (by decide) _
    exact hwrite.outer.bind fun hash => within_pure _
  · exact within_act fun p => Std.Refl.refl p.1

lemma within_baseTree (pc : Commit) :
    Within KeepsRefs (baseTree hashBytes pc : Cmd W ObjectId) := by
  unfold baseTree
  split
  · exact within_readObjects _
  · exact within_writeObjects fun s => sameCommits_writeBytes hashBytes s (by decide) _

/-- Merging a commit into the files of another one leaves the references and commits alone. -/
lemma within_mergeReplay (cursor c : ObjectId) :
    Within KeepsRefs (mergeReplay hashBytes fuel cursor c :
      Cmd W (Commit × TreeMerge × ConflictBlobs)) :=
  (within_readObjects _).bind fun pc => (within_baseTree pc).bind fun _ =>
    (within_readObjects _).bind fun _ => (within_walkObjects _).bind fun _ =>
      (within_walkObjects _).bind fun _ => (within_walkObjects _).bind fun _ =>
        (Within.withLocal (within_mergeTrees within_resolveContent _ _ _)).bind fun _ =>
          within_pure _

/-- The merged commit is the one that is replayed. -/
lemma commitRead_of_mergeReplay {tm : TreeMerge} {blobs : ConflictBlobs}
    (h : (mergeReplay hashBytes fuel cursor c).run repo = some (.ok (pc, tm, blobs), repo')) :
    Commit.read repo.objects c = .ok pc := by
  obtain ⟨pc', hpc, h⟩ := readObjects_bind_eq_ok.mp h
  obtain ⟨_, _, -, h⟩ := seq_eq_ok.mp h
  obtain ⟨_, _, -, h⟩ := seq_eq_ok.mp h
  obtain ⟨_, _, -, h⟩ := seq_eq_ok.mp h
  obtain ⟨_, _, -, h⟩ := seq_eq_ok.mp h
  obtain ⟨_, _, -, h⟩ := seq_eq_ok.mp h
  obtain ⟨_, _, -, h⟩ := seq_eq_ok.mp h
  cases h
  exact hpc

/-- What replaying a commit does: beside objects that are no commits it writes one commit, and it
leaves the references alone. -/
structure Replays (hashBytes : Hash) (env : Env) (n : ℕ) (cursor c : ObjectId)
    (repo : Repo W) (new : ObjectId) (repo' : Repo W) : Prop where
  get?_eq : ∀ path ≠ indexPath, repo'.files.get? path = repo.files.get? path
  commit : ∃ pc mid nc, Commit.read repo.objects c = .ok pc ∧ repo.objects.SameCommits mid ∧
    IsReplay env n pc cursor nc ∧ repo'.objects = (Commit.write hashBytes mid nc).1 ∧
    new = (Commit.write hashBytes mid nc).2

/-- Writing the replayed commit after changes to other objects and the index. -/
lemma replays_of_commitReplayed {repo₁ : Repo W} (hpc : Commit.read repo.objects c = .ok pc)
    (hkeeps : KeepsRefs repo repo₁)
    (h : (commitReplayed hashBytes env n pc tree cursor).run repo₁ = some (.ok new, repo')) :
    Replays hashBytes env n cursor c repo new repo' := by
  obtain ⟨nc, hsign, hwrite⟩ := lift_bind_eq_ok.mp h
  obtain ⟨hnew, rfl⟩ := Prod.mk.inj (Option.some.inj hwrite)
  refine ⟨fun path hpath => hkeeps.get?_eq path (by simpa using hpath),
    pc, _, nc, hpc, hkeeps.commits, isReplay_of_maybeSignCommit hsign, rfl, ?_⟩
  exact (Except.ok.inj hnew).symm

lemma replays_of_replayClean {merged : FileMap} {repo₁ : Repo W}
    (hpc : Commit.read repo.objects c = .ok pc) (hkeeps : KeepsRefs repo repo₁)
    (h : (replayClean hashBytes os env n pc cursor merged).run repo₁ = some (.ok new, repo')) :
    Replays hashBytes env n cursor c repo new repo' := by
  obtain ⟨_, repo₂, happly, h⟩ := seq_eq_ok.mp h
  obtain ⟨_, repo₃, hindex, h⟩ := seq_eq_ok.mp h
  obtain ⟨tree, repo₄, htree, h⟩ := seq_eq_ok.mp h
  have hkeeps₂ : KeepsRefs repo₁ repo₂ := within_applyFilesToWorkdir os merged _ _ _ happly
  have hkeeps₃ : KeepsRefs repo₂ repo₃ := within_writeIndexFromMap (by simp) merged _ _ _ hindex
  have hkeeps₄ : KeepsRefs repo₃ repo₄ := within_writeTreeFromMap hashBytes merged _ _ _ htree
  exact replays_of_commitReplayed hpc (((hkeeps.trans hkeeps₂).trans hkeeps₃).trans hkeeps₄) h

section Replays

variable {t : Store}

/-- Whether a commit can be replayed to a readable one. -/
def Fits (env : Env) (s : Store) (c : ObjectId) : Prop :=
  ∃ pc, Commit.read s c = .ok pc ∧ env.Fits pc

lemma Fits.extends {s : Store} (h : Fits env s c) (hext : s.Extends t) : Fits env t c := by
  obtain ⟨pc, hpc, hfits⟩ := h
  exact ⟨pc, hext.commitRead hpc, hfits⟩

section

variable (h : Replays hashBytes env n cursor c repo new repo')

include h

lemma Replays.grows : repo.objects.entries <+: repo'.objects.entries := by
  obtain ⟨pc, mid, nc, -, hmid, -, hobjects, -⟩ := h.commit
  rw [hobjects]
  exact hmid.grows.trans (prefix_append _ _)

/-- The new commit is there to be read, and it has the old one's authors and message. -/
lemma Replays.exists_commit (hfits : Fits env repo.objects c) (ht : t.CollisionFree)
    (hsub : repo'.objects.entries ⊆ t.entries) :
    ∃ pc nc, Commit.read repo.objects c = .ok pc ∧ IsReplay env n pc cursor nc ∧
      Commit.read t new = .ok nc := by
  obtain ⟨pc, mid, nc, hpc, -, hnc, hobjects, hnew⟩ := h.commit
  obtain ⟨pc', hpc', hfits⟩ := hfits
  cases hpc.symm.trans hpc'
  obtain ⟨payload, -, hdec⟩ := commitRead_eq_ok.mp hpc
  have hwf := hnc.wellFormed (Commit.wellFormed_of_decode hdec).2 hfits
  refine ⟨pc, nc, hpc, hnc, ?_⟩
  rw [hnew]
  exact commitRead_of_write hwf ht (hobjects ▸ hsub)

/-- From the new commit nothing is reached but itself and what is reached from `cursor`. -/
theorem Replays.reaches
    (hfits : Fits env repo.objects c) (hfree : repo'.objects.CollisionFree) {y : ObjectId}
    (hy : repo'.objects.Reaches new y) : y = new ∨ repo.objects.Reaches cursor y := by
  obtain ⟨pc, mid, nc, hpc, hmid, hnc, hobjects, hnew⟩ := h.commit
  obtain ⟨pc', hpc', hfits⟩ := hfits
  cases hpc.symm.trans hpc'
  obtain ⟨payload, -, hdec⟩ := commitRead_eq_ok.mp hpc
  have hwf := hnc.wellFormed (Commit.wellFormed_of_decode hdec).2 hfits
  rw [hobjects] at hfree hy
  rw [hnew] at hy ⊢
  rcases reaches_write hwf hfree hy with heq | ⟨p, hp, hreach⟩
  · exact .inl heq
  · rw [hnc.parents, mem_singleton] at hp
    rw [hmid.reaches_eq, hp] at hreach
    exact .inr hreach

end

end Replays

/-! ## Replaying a list of commits -/

/-- Replaying commits one after the other. -/
inductive ReplayRun (hashBytes : Hash) (env : Env) :
    ℕ → ObjectId → List ObjectId → Repo W → ObjectId → Repo W → Prop
  | nil {n : ℕ} {cursor : ObjectId} {repo : Repo W} :
      ReplayRun hashBytes env n cursor [] repo cursor repo
  | cons {n : ℕ} {cursor c new tip : ObjectId} {cs : List ObjectId} {repo repo₁ repo' : Repo W}
      (hstep : Replays hashBytes env n cursor c repo new repo₁)
      (hrun : ReplayRun hashBytes env (n + 1) new cs repo₁ tip repo') :
      ReplayRun hashBytes env n cursor (c :: cs) repo tip repo'

/-- The commits from `u` to `tip` are one after the other, in order, commits with the authors and
messages of the given ones. -/
def ReplayedOnto (s : Store) : ObjectId → List ObjectId → ObjectId → Prop
  | u, [], tip => tip = u
  | u, c :: cs, tip => ∃ r rc pc, Commit.read s r = .ok rc ∧ Commit.read s c = .ok pc ∧
      rc.parents = [u] ∧ rc.authors = pc.authors ∧ rc.message = pc.message ∧
      ReplayedOnto s r cs tip

lemma reaches_of_replayedOnto {s : Store} {u tip : ObjectId} {cs : List ObjectId}
    (h : ReplayedOnto s u cs tip) : s.Reaches tip u := by
  induction cs generalizing u with
  | nil =>
    rw [show tip = u from h]
    exact .refl
  | cons c cs ih =>
    obtain ⟨r, rc, pc, hr, -, hparents, -, -, hrest⟩ := h
    refine (ih hrest).tail ?_
    rw [parents_of_read hr, hparents]
    exact mem_singleton.mpr rfl

section Run

variable {t : Store} {cs : List ObjectId} {tip : ObjectId}

section

variable (h : ReplayRun hashBytes env n cursor cs repo tip repo')

include h

lemma ReplayRun.get?_eq : ∀ path ≠ indexPath, repo'.files.get? path = repo.files.get? path := by
  induction h with
  | nil => exact fun _ _ => rfl
  | cons hstep _ ih => exact fun path hpath => (ih path hpath).trans (hstep.get?_eq path hpath)

lemma ReplayRun.grows : repo.objects.entries <+: repo'.objects.entries := by
  induction h with
  | nil => exact prefix_refl _
  | cons hstep _ ih => exact hstep.grows.trans ih

/-- After a run the replayed commits are on top of where it started. -/
theorem ReplayRun.replayedOnto (hfits : ∀ c ∈ cs, Fits env repo.objects c) (ht : t.CollisionFree)
    (hpre : repo'.objects.entries <+: t.entries) : ReplayedOnto t cursor cs tip := by
  induction h with
  | nil => exact rfl
  | cons hstep hrun ih =>
    obtain ⟨pc, nc, hpc, hnc, hnew⟩ := hstep.exists_commit (hfits _ mem_cons_self) ht
      (hrun.grows.trans hpre).subset
    have hext := extends_of_grows ((hstep.grows.trans hrun.grows).trans hpre)
    refine ⟨_, nc, pc, hnew, hext.commitRead hpc, hnc.parents, hnc.authors, hnc.message, ih ?_ hpre⟩
    exact fun c hc => (hfits c (mem_cons_of_mem _ hc)).extends (extends_of_grows hstep.grows)

/-- From the end of a run nothing is reached but what is reached from its start, and commits above
the start with the committer line of the run. -/
theorem ReplayRun.reaches
    (hfits : ∀ c ∈ cs, Fits env repo.objects c) (hfree : repo'.objects.CollisionFree)
    {y : ObjectId} (hy : repo'.objects.Reaches tip y) : repo.objects.Reaches cursor y ∨
      repo'.objects.Reaches y cursor ∧
        ∃ k rc, Commit.read repo'.objects y = .ok rc ∧ rc.committer = env.stamped k := by
  induction h with
  | nil => exact .inl hy
  | @cons n cursor c new tip cs repo repo₁ repo' hstep hrun ih =>
    have hfits₁ : ∀ c ∈ cs, Fits env repo₁.objects c := fun c hc =>
      (hfits c (mem_cons_of_mem _ hc)).extends (extends_of_grows hstep.grows)
    obtain ⟨pc, nc, -, hnc, hnew⟩ := hstep.exists_commit (hfits c mem_cons_self) hfree
      hrun.grows.subset
    have hcursor : repo'.objects.Reaches new cursor := by
      refine .single ?_
      rw [parents_of_read hnew, hnc.parents]
      exact mem_singleton.mpr rfl
    rcases ih hfits₁ hfree hy with hreach | ⟨habove, hstamp⟩
    · rcases hstep.reaches (hfits c mem_cons_self)
        (hfree.of_subset hrun.grows.subset) hreach with rfl | hreach
      · exact .inr ⟨hcursor, n, nc, hnew, hnc.committer⟩
      · exact .inl hreach
    · exact .inr ⟨habove.trans hcursor, hstamp⟩

end

end Run

end Gyt.Rebase
