import Gyt.Cmd.RebaseRuns

/-!
# Where a rebase lands

The first stop at a conflict leaves the branch at its original tip, while the commits that were
replayed before it are on top of the upstream commit; `rebase --continue` goes on from the branch.
So the commits that it writes have the original tip below them, and `landsOn_iff` says that the
branch lands on the upstream commit exactly if no conflict stopped the rebase.
-/

namespace Gyt.Rebase

open List RefFiles Command Merge

variable {W : Type} {hashBytes : Hash} {os : Os W} {fuel : ℕ} {env : Env}
  {n : ℕ} {c current target : ObjectId} {start repo repo' : Repo W} {headRef : Str}

/-- What a rebase of a branch from `current` onto `target` is for: the branch ends in replayed
commits on top of `target`, one for each commit between the merge base and `current`, and `current`
is not below it. -/
def LandsOn (start : Repo W) (headRef : Str) (current target : ObjectId) (repo : Repo W) : Prop :=
  ∃ base tip, mergeBase start.objects current target = some base ∧
    refValue repo.files headRef = some tip ∧
    ReplayedOnto repo.objects target (commitsBetween start.objects base current) tip ∧
    repo.objects.Reaches tip target ∧ ¬ repo.objects.Reaches tip current

/-- What is asked of the environment of a command: the commits that it writes can be read, and it
does not write the original tip again.  It could do so only if the tip is above the upstream commit,
or if not all of the history of the tip is there. -/
structure Suits (s : Store) (current target : ObjectId) (env : Env) : Prop where
  identity : '\n' ∉ env.identity
  noCr : env.Signs → ∀ base, mergeBase s current target = some base →
    ∀ c ∈ commitsBetween s base current, ∀ pc, Commit.read s c = .ok pc →
      ∀ l ∈ pc.aiAssists ++ pc.reviewers, l.getLast? ≠ some '\r'
  stamp : (s.Reaches current target ∨ ∃ x, s.Reaches current x ∧ ¬ s.Readable x) →
    ∀ oc, Commit.read s current = .ok oc → ∀ n, oc.committer ≠ env.stamped n

lemma Suits.fits {s : Store} {base : ObjectId} (h : Suits s current target env)
    (hbase : mergeBase s current target = some base) (hc : c ∈ commitsBetween s base current) :
    Fits env s c := by
  obtain ⟨pc, hpc⟩ : s.Readable c := by simpa using (mem_filter.mp hc).2
  exact ⟨pc, hpc, h.identity, fun hsigns => h.noCr hsigns base hbase c hc pc hpc⟩

/-- What holds of a repository whose rebase has stopped: the original tip is below the branch. -/
structure StoppedAt (start : Repo W) (headRef : Str) (current target : ObjectId) (repo : Repo W) :
    Prop where
  head : readHead repo.files = .ok (.symbolic headRef)
  grows : start.objects.entries <+: repo.objects.entries
  branch : ∃ b, refValue repo.files headRef = some b ∧
    (repo.objects.CollisionFree → repo.objects.Reaches b current)
  todo : ∃ base first rest, mergeBase start.objects current target = some base ∧
    repo.files.get? rebaseTodo = some (todoContent (first :: rest)) ∧
    ∀ c ∈ first :: rest, c ∈ commitsBetween start.objects base current

/-! ## Without a stop -/

/-- A replay run on top of the upstream commit does not have the original tip below it. -/
lemma not_reaches_of_replayRun {base tip : ObjectId} (henv : Suits start.objects current target env)
    (hbase : mergeBase start.objects current target = some base)
    (hanc : ¬ start.objects.Reaches target current) (hkeeps : KeepsRefs start repo)
    (hrun : ReplayRun hashBytes env 0 target (commitsBetween start.objects base current) repo tip
      repo') (hfree : repo'.objects.CollisionFree) : ¬ repo'.objects.Reaches tip current := by
  intro hreach
  have hfits : ∀ c ∈ commitsBetween start.objects base current, Fits env repo.objects c :=
    fun c hc => (henv.fits hbase hc).extends hkeeps.commits.extends
  rcases hrun.reaches hfits hfree hreach with hreach | ⟨habove, k, rc, hread, hstamp⟩
  · rw [hkeeps.commits.reaches_eq] at hreach
    exact hanc hreach
  · -- The original tip is a commit, for otherwise the merge base would be the tip itself.
    obtain ⟨hcurrent, htarget⟩ := reaches_of_mergeBase hbase
    obtain ⟨oc, hoc⟩ := hcurrent.eq_or_readable.resolve_left fun heq => hanc (heq ▸ htarget)
    have hext := Store.extends_of_grows (hkeeps.commits.grows.trans hrun.grows)
    cases hread.symm.trans (hext.commitRead hoc)
    refine henv.stamp ?_ rc hoc k hstamp
    by_contra hcomplete
    push Not at hcomplete
    exact hcomplete.1 (hext.reaches_of_readable hcomplete.2 habove)

/-- A rebase that is not stopped lands on the upstream commit, unless the branch is below it.  One
that is stopped leaves the branch at its original tip. -/
lemma rebase_spec {ffOnly : Bool} {rev : Str} {outcome : Outcome} (hown : headRef ∉ stateFiles)
    (hhead : readHead start.files = .ok (.symbolic headRef))
    (hcurrent : refValue start.files headRef = some current)
    (henv : Suits start.objects current target env)
    (h : (rebase hashBytes os fuel env ffOnly rev target).run start = some (.ok outcome, repo)) :
    match outcome with
    | .finished => start.objects.entries <+: repo.objects.entries ∧
        (¬ start.objects.Reaches target current → repo.objects.CollisionFree →
          LandsOn start headRef current target repo)
    | .stopped _ => StoppedAt start headRef current target repo := by
  have hindex : headRef ≠ indexPath := fun heq => hown (by simp [heq, stateFiles])
  rcases rebase_cases hindex hhead hcurrent h with
    ⟨hreach, rfl, hsame⟩ | ⟨base, hbase, ⟨hempty, h⟩ | h⟩
  · exact ⟨hsame.grows, fun hanc => absurd hreach hanc⟩
  · obtain ⟨rfl, hvalue, hsame⟩ := takeUpstream_eq_ok hindex h
    refine ⟨hsame.grows, fun hanc _ => ⟨base, target, hbase, hvalue, ?_, .refl, ?_⟩⟩
    · rw [hempty]
      exact rfl
    · rw [hsame.reaches_eq]
      exact hanc
  obtain ⟨repo₁, loopEnd, repo₂, hkeeps, hends, hfinish⟩ := replayOnto_eq_ok h
  cases loopEnd with
  | done tip =>
    obtain ⟨rfl, hname, rfl⟩ := finishLoop_eq_ok hfinish
    have hreplay : ReplayRun hashBytes env 0 target _ repo₁ tip repo₂ := hends
    refine ⟨hkeeps.commits.grows.trans hreplay.grows, fun hanc hfree => ?_⟩
    have honto := hreplay.replayedOnto
      (fun c hc => (henv.fits hbase hc).extends hkeeps.commits.extends) hfree (prefix_refl _)
    have hnot := not_reaches_of_replayRun henv hbase hanc hkeeps hreplay hfree
    exact ⟨base, tip, hbase, refValue_set_self hname, honto, reaches_of_replayedOnto honto, hnot⟩
  | stopped c =>
    obtain ⟨rfl, rfl⟩ := finishLoop_eq_ok hfinish
    obtain ⟨done, rest, tip, repo₃, _, hcs, hrun, hsaved, rfl⟩ := hends
    have hget : ∀ path ∉ stateFiles, repo.files.get? path = start.files.get? path := by
      intro path hpath
      have hne : path ≠ indexPath := fun heq => hpath (by simp [heq, stateFiles])
      rw [hsaved.keeps.get?_eq path hpath, hrun.get?_eq path hne,
        hkeeps.get?_eq path (by simpa using hne)]
    refine ⟨readHead_congr (hget _ (by decide)) hhead,
      (hkeeps.commits.grows.trans hrun.grows).trans hsaved.keeps.commits.grows,
      ⟨current, ?_, fun _ => .refl⟩, base, c, rest, hbase, hsaved.todo, fun c' hc' => ?_⟩
    · rw [refValue_congr (hget _ hown)]
      exact hcurrent
    · rw [hcs]
      exact mem_append_right _ hc'

/-! ## With stops -/

/-- Staging a resolution does not touch the state of the rebase. -/
lemma StoppedAt.keepsRefs (h : StoppedAt start headRef current target repo)
    (hindex : headRef ≠ indexPath) (hkeeps : KeepsRefs repo repo') :
    StoppedAt start headRef current target repo' := by
  obtain ⟨b, hvalue, hreach⟩ := h.branch
  obtain ⟨base, first, rest, hbase, htodo, hmem⟩ := h.todo
  refine ⟨readHead_congr (hkeeps.get?_eq _ (by decide)) h.head,
    h.grows.trans hkeeps.commits.grows, ⟨b, ?_, fun hfree => ?_⟩,
    base, first, rest, hbase, ?_, hmem⟩
  · rw [refValue_congr (hkeeps.get?_eq _ (by simpa using hindex))]
    exact hvalue
  · exact hkeeps.commits.extends.reaches (hreach (hfree.of_subset hkeeps.commits.grows.subset))
  · rw [hkeeps.get?_eq _ (by decide)]
    exact htodo

/-- What `rebase --continue` has replayed is on top of the branch, and so of the original tip. -/
lemma reaches_of_replayRun {b tip : ObjectId} {cs : List ObjectId}
    (hbranch : repo.objects.CollisionFree → repo.objects.Reaches b current)
    (hrun : ReplayRun hashBytes env n b cs repo tip repo')
    (hfits : ∀ c ∈ cs, Fits env repo.objects c) (hfree : repo'.objects.CollisionFree) :
    repo'.objects.Reaches tip current := by
  have honto := hrun.replayedOnto hfits hfree (prefix_refl _)
  have hreach := hbranch (hfree.of_subset hrun.grows.subset)
  exact (reaches_of_replayedOnto honto).trans ((Store.extends_of_grows hrun.grows).reaches hreach)

/-- After `rebase --continue` the original tip is below the branch. -/
lemma StoppedAt.resume {outcome : Outcome} (h : StoppedAt start headRef current target repo)
    (hown : headRef ∉ headPath :: stateFiles) (henv : Suits start.objects current target env)
    (hrun : (resume hashBytes os fuel env).run repo = some (.ok outcome, repo')) :
    match outcome with
    | .finished => repo'.objects.CollisionFree →
        ∃ b, refValue repo'.files headRef = some b ∧ repo'.objects.Reaches b current
    | .stopped _ => StoppedAt start headRef current target repo' := by
  obtain ⟨b, hvalue, hreach⟩ := h.branch
  obtain ⟨base, first, rest, hbase, htodo, hmem⟩ := h.todo
  have hfits : ∀ c ∈ first :: rest, Fits env repo.objects c := fun c hc =>
    (henv.fits hbase (hmem c hc)).extends (Store.extends_of_grows h.grows)
  obtain ⟨prevHead, onto, loopEnd, repo₁, hends, hfinish⟩ := resume_eq_ok h.head hvalue htodo hrun
  obtain ⟨_, repo₂, hmove, hend⟩ := seq_eq_ok.mp hfinish
  cases loopEnd with
  | done tip =>
    obtain ⟨rfl, hname, rfl⟩ := finishLoop_eq_ok hmove
    obtain ⟨_, repo₃, hclear, hend⟩ := seq_eq_ok.mp hend
    cases hend
    obtain ⟨hget, hobjects⟩ := clearState_eq_ok hclear
    intro hfree
    rw [hobjects] at hfree ⊢
    have hreplay : ReplayRun hashBytes env 0 b _ repo tip repo₁ := hends
    have hbelow := reaches_of_replayRun hreach hreplay hfits hfree
    refine ⟨tip, ?_, hbelow⟩
    rw [refValue_congr (hget headRef (not_mem_of_not_mem_cons hown))]
    exact refValue_set_self hname
  | stopped c =>
    obtain ⟨rfl, rfl⟩ := finishLoop_eq_ok hmove
    cases hend
    obtain ⟨done, left, tip, repo₃, repo₄, hcs, hreplay, hsaved, hname, rfl⟩ := hends
    have hne : ∀ path ∈ headPath :: stateFiles, path ≠ headRef := fun path hpath heq =>
      hown (heq ▸ hpath)
    have hgrows := hsaved.keeps.commits.grows
    have hhead : headPath ∉ stateFiles := by decide
    refine ⟨readHead_congr ?_ h.head, (h.grows.trans hreplay.grows).trans hgrows,
      ⟨tip, refValue_set_self hname, fun hfree => ?_⟩, base, c, left, hbase, ?_, fun c' hc' => ?_⟩
    · show get? (set _ _ _) _ = _
      rw [get?_set_of_ne (hne _ (by simp)), hsaved.keeps.get?_eq _ hhead,
        hreplay.get?_eq _ (by decide)]
    · exact (Store.extends_of_grows hgrows).reaches (reaches_of_replayRun hreach hreplay
        (fun c hc => hfits c (hcs ▸ mem_append_left _ hc)) (hfree.of_subset hgrows.subset))
    · show get? (set _ _ _) _ = _
      rw [get?_set_of_ne (hne _ (by simp [stateFiles])), hsaved.todo]
    · exact hmem c' (hcs ▸ mem_append_right _ hc')

/-- At every stop the original tip is below the branch. -/
lemma stoppedAt_of_stopped (hown : headRef ∉ headPath :: stateFiles)
    (hhead : readHead start.files = .ok (.symbolic headRef))
    (hcurrent : refValue start.files headRef = some current)
    (h : Stopped hashBytes os (Suits start.objects current target) target start n repo) :
    StoppedAt start headRef current target repo := by
  have hindex : headRef ≠ indexPath := fun heq => hown (by simp [heq, stateFiles])
  induction h with
  | first henv h => exact rebase_spec (not_mem_of_not_mem_cons hown) hhead hcurrent henv h
  | again henv _ hstage h ih => exact (ih.keepsRefs hindex hstage).resume hown henv h

lemma Stopped.pos {ok : Env → Prop} (h : Stopped hashBytes os ok target start n repo) :
    0 < n := by
  cases h with
  | first => exact Nat.one_pos
  | again => exact Nat.succ_pos _

/-- A finished rebase has landed on the upstream commit exactly if no conflict stopped it and the
upstream commit was not above the branch already. -/
theorem landsOn_iff (hhead : readHead start.files = .ok (.symbolic headRef))
    (hown : headRef ∉ headPath :: stateFiles)
    (hcurrent : refValue start.files headRef = some current)
    (hfree : repo.objects.CollisionFree)
    (hrun : Finished hashBytes os (Suits start.objects current target) target start n repo) :
    LandsOn start headRef current target repo ↔
      n = 0 ∧ ¬ start.objects.Reaches target current := by
  cases hrun with
  | direct henv h =>
    obtain ⟨hgrows, hlands⟩ :=
      rebase_spec (not_mem_of_not_mem_cons hown) hhead hcurrent henv h
    refine ⟨fun hland => ⟨rfl, fun hanc => ?_⟩, fun hcond => hlands hcond.2 hfree⟩
    -- A branch that the upstream commit was above is below everything on top of that commit.
    obtain ⟨base, tip, -, -, -, htip, hnot⟩ := hland
    exact hnot (htip.trans ((Store.extends_of_grows hgrows).reaches hanc))
  | resumed henv hstop hstage h =>
    have hindex : headRef ≠ indexPath := fun heq => hown (by simp [heq, stateFiles])
    have hat := (stoppedAt_of_stopped hown hhead hcurrent hstop).keepsRefs hindex hstage
    refine ⟨fun hland => ?_, fun hcond => absurd hcond.1 hstop.pos.ne'⟩
    obtain ⟨base, tip, -, hvalue, -, -, hnot⟩ := hland
    obtain ⟨b, hb, hreach⟩ := hat.resume hown henv h hfree
    cases hb.symm.trans hvalue
    exact absurd hreach hnot

/-! ## A branch with one commit -/

/-- Two commits on top of an empty one, as the objects, the upstream commit and the tip of the
branch: upstream adds the file `a`, and the branch adds a file with the given name. -/
def sampleObjects (name : Bytes) : Store × ObjectId × ObjectId :=
  let empty := Tree.write sampleHash ⟨[]⟩ []
  let base := Commit.writeSample empty.1 empty.2 []
  let upstreamTree := writeSampleFile base.1 [97] [120]
  let upstream := Commit.writeSample upstreamTree.1 upstreamTree.2 [base.2]
  let tipTree := writeSampleFile upstream.1 name [121]
  let tip := Commit.writeSample tipTree.1 tipTree.2 [base.2]
  (tip.1, upstream.2, tip.2)

/-- The branch of the runs below. -/
def sampleMain : Str := "refs/heads/main"

/-- The repository with the branch. -/
def sampleRepo (name : Bytes) : Repo Unit where
  objects := (sampleObjects name).1
  files := ⟨[(headPath, Utf8.encode (headRefPrefix ++ sampleMain)),
    (sampleMain, refContent (sampleObjects name).2.2)], []⟩
  workdir := ()

/-- The repository after the command `rebase`. -/
def sampleRebased (name : Bytes) : Repo Unit :=
  (rebase sampleHash idleOs 10 sampleEnv false [] (sampleObjects name).2.1).after
    (sampleRepo name)

/-- Staging the upstream file. -/
def sampleStage : Cmd Unit Unit :=
  writeIndexFromMap ((∅ : FileMap).insert [['a']] (modeFile, (Blob.write sampleHash ⟨[]⟩ [120]).2))

/-- The repository after the command `rebase --continue`, where the branch adds the same file as
upstream and the upstream file was staged. -/
def sampleResumed : Repo Unit :=
  (resume sampleHash idleOs 10 sampleEnv).after (sampleStage.after (sampleRebased [97]))

lemma suits_sample (name : Bytes)
    (h : (Commit.read (sampleObjects name).1 (sampleObjects name).2.2).toOption.map (·.committer) =
      some ['o']) :
    Suits (sampleRepo name).objects (sampleObjects name).2.2
      (sampleObjects name).2.1 sampleEnv where
  identity := by decide
  noCr := by
    rintro ⟨cfg, hcfg, hsign⟩
    cases hcfg
    cases hsign
  stamp _ oc hoc n := by
    rw [show Commit.read (sampleObjects name).1 (sampleObjects name).2.2 = .ok oc from hoc] at h
    have hcommitter : oc.committer = ['o'] := Option.some.inj h
    rw [hcommitter]
    show ['o'] ≠ sampleEnv.stamped 0
    decide

/-- A branch that adds another file lands on the upstream commit. -/
theorem landsOn_iff_clean :
    LandsOn (sampleRepo [98]) sampleMain (sampleObjects [98]).2.2 (sampleObjects [98]).2.1
      (sampleRebased [98]) := by
  have hread : refValue (sampleRepo [98]).files sampleMain = some (sampleObjects [98]).2.2 := by
    decide +kernel
  have hanc : (sampleObjects [98]).2.2 ∉
      ancestorsInclusive (sampleObjects [98]).1 (sampleObjects [98]).2.1 := by decide +kernel
  refine (landsOn_iff (by decide +kernel) (by decide) hread ?_
    (.direct (suits_sample [98] (by decide +kernel)) (run_eq_after (by decide +kernel)))).mpr
    ⟨rfl, fun hreach => hanc (mem_ancestorsInclusive.mpr hreach)⟩
  unfold Store.CollisionFree
  decide +kernel

/-- A branch that adds the same file with another content is stopped.  When the rebase finishes, the
branch has the original tip below it and the upstream commit not. -/
theorem stopped_rebase_misses_upstream :
    Finished sampleHash idleOs
        (Suits (sampleRepo [97]).objects (sampleObjects [97]).2.2 (sampleObjects [97]).2.1)
        (sampleObjects [97]).2.1 (sampleRepo [97]) 1 sampleResumed ∧
      (∃ tip, refValue sampleResumed.files sampleMain = some tip ∧
        sampleResumed.objects.Reaches tip (sampleObjects [97]).2.2 ∧
        ¬ sampleResumed.objects.Reaches tip (sampleObjects [97]).2.1) ∧
      ¬ LandsOn (sampleRepo [97]) sampleMain (sampleObjects [97]).2.2 (sampleObjects [97]).2.1
        sampleResumed := by
  have hsuits := suits_sample [97] (by decide +kernel)
  have hstop : (rebase sampleHash idleOs 10 sampleEnv false [] (sampleObjects [97]).2.1).run
      (sampleRepo [97]) = some (.ok (.stopped (sampleObjects [97]).2.2), sampleRebased [97]) :=
    run_eq_after (by decide +kernel)
  have hstage : KeepsRefs (sampleRebased [97]) (sampleStage.after (sampleRebased [97])) :=
    within_writeIndexFromMap (by simp) _ _ (.ok ()) _ (run_eq_after (by decide +kernel))
  have hresume : (resume sampleHash idleOs 10 sampleEnv).run
      (sampleStage.after (sampleRebased [97])) = some (.ok .finished, sampleResumed) :=
    run_eq_after (by decide +kernel)
  obtain ⟨tip, htip, hcurrent, htarget⟩ : ∃ tip ∈ refValue sampleResumed.files sampleMain,
      (sampleObjects [97]).2.2 ∈ ancestorsInclusive sampleResumed.objects tip ∧
      (sampleObjects [97]).2.1 ∉ ancestorsInclusive sampleResumed.objects tip := by decide +kernel
  refine ⟨.resumed hsuits (.first hsuits hstop) hstage hresume,
    ⟨tip, htip, mem_ancestorsInclusive.mp hcurrent,
      fun hreach => htarget (mem_ancestorsInclusive.mpr hreach)⟩, ?_⟩
  rintro ⟨base, tip', -, htip', -, hreach, -⟩
  cases htip.symm.trans htip'
  exact htarget (mem_ancestorsInclusive.mpr hreach)

end Gyt.Rebase
