import Gyt.Cmd.CommitReads
import Gyt.Cmd.Merge
import Gyt.Cmd.StageReads
import Gyt.Cmd.WorkTree

/-!
# After a merge with conflicts

A three-way merge that finds conflicts writes `MERGE_HEAD` and stops, for the user to resolve them
and to commit.  The command `commit` does not look at `MERGE_HEAD`: its parents are the commit that
`HEAD` denotes and nothing else.  Of the commands `add`, `rm` and `commit` only `rm` removes files
of the repository directory, and only those that it is told to remove (`isSome_of_rm`).  So the
commit of the resolution is no merge, and `MERGE_HEAD` stays unless the user removes it by its own
path (`merge_not_concluded`).
-/

namespace Gyt.Merge

open Command Text Merge3

/-! ## The stop -/

section Stop

variable {W : Type} (hashBytes : Hash) (os : Os W) (fuel : ℕ) (ours theirs : ObjectId)
  (message : Str)

def InProgress (repo : Repo W) : Prop := (repo.files.get? mergeHead).isSome

/-- The three-way merge finds conflicts, and leaves them. -/
def StopsWithConflicts (repo repo' : Repo W) : Prop :=
  ∃ baseFiles oursFiles theirsFiles tm rendered repo₁ repo₂,
    (mergeInputs ours theirs).run repo = some (.ok (baseFiles, oursFiles, theirsFiles), repo₁) ∧
    (withLocal [] (mergeTrees baseFiles oursFiles theirsFiles
      (resolveContent hashBytes fuel))).run repo₁ = some (.ok (tm, rendered), repo₂) ∧
    tm.conflicts ≠ [] ∧ (leaveConflicts os theirs message tm rendered).run repo₂ =
      some (.ok (), repo')

variable {hashBytes os fuel ours theirs message} {repo repo' : Repo W}

lemma noFileLost_safeWorkdirWrite (path : RelPath) (bytes : Bytes) :
    Within NoFileLost (safeWorkdirWrite os path bytes) :=
  (within_safeWorkdirPath os path).bind fun _ => (noFileLost_system _).bind fun _ =>
    (within_unlinkSymlink os noFileLost_system path).bind fun _ => noFileLost_system _

/-- The commit that is being merged is recorded. -/
lemma StopsWithConflicts.inProgress
    (h : StopsWithConflicts hashBytes os fuel ours theirs message repo repo') :
    InProgress repo' := by
  obtain ⟨-, -, -, tm, rendered, -, repo₂, -, -, -, hleave⟩ := h
  unfold leaveConflicts at hleave
  obtain ⟨_, repo₃, -, h₁⟩ := seq_eq_ok.mp hleave
  obtain ⟨_, repo₄, -, h₂⟩ := seq_eq_ok.mp h₁
  obtain ⟨_, repo₅, hwrite, h₃⟩ := seq_eq_ok.mp h₂
  have hrest : NoFileLost repo₅ repo' := by
    refine Within.bind ?_ (fun _ => Within.bind ?_ fun _ => noFileLost_atomicWrite _ _) _ _ _ h₃
    · exact within_forM fun file => noFileLost_safeWorkdirWrite _ _
    · refine within_forM fun c => ?_
      unfold writeTreeConflict
      split
      · exact within_pure _
      · exact (within_gets _).bind fun bytes => noFileLost_safeWorkdirWrite _ _
  refine hrest mergeHead ?_
  rw [atomicWrite_eq_ok hwrite]
  exact congrArg Option.isSome RefFiles.get?_set_self

end Stop

/-! ## What the user does -/

/-- A command after the stop. -/
inductive UserCall where
  | stage (call : StageCall)
  | commit (secs : ℕ) (args : List Str)
  deriving DecidableEq, Repr

/-- A command, and the working tree at the time when it is given. -/
structure UserEvent (W : Type) where
  workdir : W
  call : UserCall

section User

variable {W : Type} (hashBytes : Hash) (os : WorkOs W) (env : Config.Environment)
  (sign : Bytes → Result Bytes)

/-- Executing a command; the result is the new commit, if there is one. -/
def UserCall.run : UserCall → Cmd W (Option ObjectId)
  | .stage call => do
    let _ ← call.run hashBytes os
    return none
  | .commit secs args => do
    match ← CommitCmd.run hashBytes env secs sign args with
    | .usage => return none
    | .committed id => return some id

/-- Executing a command, whether it succeeds or fails.  Before it, anything may have happened to the
working tree. -/
def userStep (repo : Repo W) (ev : UserEvent W) : Option (Repo W) :=
  ((ev.call.run hashBytes os env sign).run { repo with workdir := ev.workdir }).map (·.2)

variable {hashBytes os env sign}

lemma noFileLost_walkRecurse (ignored : Str → Bool → Bool) (depth : ℕ) (dir : OsPath) :
    Within NoFileLost (walkRecurse os ignored depth dir) := by
  induction depth generalizing dir with
  | zero => exact within_await _
  | succ depth ih =>
    refine (within_readWork _).bind fun names => Within.bind ?_ fun _ => within_pure _
    refine within_mapM fun ent => (within_lift _).bind fun name => ?_
    split
    · exact within_pure _
    · refine (within_readWork _).bind fun fileType => ?_
      dsimp only
      split
      · exact within_pure _
      · refine (within_readWork _).bind fun md => ?_
        split
        · exact (ih _).bind fun _ => within_pure _
        · exact within_pure _

lemma noFileLost_walk (ignored : Str → Bool → Bool) (depth : ℕ) :
    Within NoFileLost (walk os ignored depth) :=
  (noFileLost_walkRecurse ignored depth []).bind fun _ => within_pure _

lemma noFileLost_stageOne (idx : Staged) (ent : WorkdirEntry) :
    Within NoFileLost (Add.stageOne hashBytes os idx ent) := by
  unfold Add.stageOne
  split
  · exact within_pure _
  · refine (within_readWork _).bind fun md => Within.bind ?_ fun _ => within_pure _
    unfold Add.writeContent
    split
    · exact (within_readWork _).bind fun _ => noFileLost_of_sameFiles (sameFiles_writeObjects _)
    · exact (within_readWork _).bind fun _ => noFileLost_of_sameFiles (sameFiles_writeObjects _)

lemma noFileLost_wanted (ignored : Str → Bool → Bool) (rel : Str) :
    Within NoFileLost (Add.wanted os ignored rel) := by
  unfold Add.wanted
  split
  · refine (within_gets _).bind fun decision => ?_
    split
    · exact within_pure _
    · exact (noFileLost_system _).attempt.bind fun _ => (within_readWork _).bind fun _ =>
        within_pure _
    · exact within_pure _
    · exact within_pure _
  · exact within_pure _

lemma noFileLost_selectArg (depth : ℕ) (ignored : Str → Bool → Bool) (arg : Str) :
    Within NoFileLost (Add.selectArg os depth ignored arg) := by
  unfold Add.selectArg
  split
  · exact noFileLost_walk ignored depth
  · refine Within.bind ?_ fun rel => (within_readWork _).bind fun md => ?_
    · exact (within_gets _).bind fun _ => (within_lift _).bind fun _ =>
        (within_readWork _).bind fun _ => within_lift _
    · split
      · exact (noFileLost_walk ignored depth).bind fun _ => within_pure _
      · refine (noFileLost_wanted ignored _).bind fun add => ?_
        split
        · exact within_pure _
        · exact within_pure _

lemma noFileLost_stage (depth : ℕ) (ignored : Str → Bool → Bool) (opts : Add.Options)
    (idx : Staged) : Within NoFileLost (Add.stage hashBytes os depth ignored opts idx) := by
  unfold Add.stage
  split
  · exact (noFileLost_walk ignored depth).bind fun _ => Within.bind
      (within_foldlM noFileLost_stageOne idx) fun _ => (within_gets _).bind fun _ => within_pure _
  · refine (within_lift _).bind fun _ => within_foldlM (fun idx arg => ?_) idx
    exact (noFileLost_selectArg depth ignored arg).bind fun _ =>
      within_foldlM noFileLost_stageOne idx

lemma noFileLost_read : Within NoFileLost (Staged.read : Cmd W Staged) :=
  (within_readFiles _).bind fun _ => within_pure _

lemma noFileLost_write (idx : Staged) : Within NoFileLost (Staged.write idx : Cmd W Unit) :=
  (within_lift _).bind fun _ => noFileLost_atomicWrite _ _

lemma noFileLost_add (depth : ℕ) (args : List Str) :
    Within NoFileLost (Add.run hashBytes os depth args) := by
  refine (within_lift _).bind fun opts => ?_
  rcases opts with _ | opts
  · exact within_pure _
  · refine Within.bind ?_ fun ignored => noFileLost_read.bind fun idx => Within.bind ?_ fun idx =>
      (noFileLost_write idx).bind fun _ => within_pure _
    · exact within_readWork _
    · exact noFileLost_stage depth ignored opts idx

/-- Nothing is removed before the index was written. -/
lemma noFileLost_prepare (opts : Rm.Options) : Within NoFileLost (Rm.prepare os opts) :=
  (within_lift _).bind fun _ => noFileLost_read.bind fun _ =>
    (within_foldlM (Rm.within_planArg opts.force) _).bind fun _ =>
      (noFileLost_write _).bind fun _ => within_pure _

/-- A file that `rm` does not report as removed is still there. -/
lemma isSome_of_rm {repo repo' : Repo W} {args : List Str} {r : Result StageOutcome} {path : Str}
    (h : (Rm.run os args).run repo = some (r, repo'))
    (hkept : ∀ entries removed, r = .ok (.wrote entries removed) → path ∉ removed)
    (hpath : (repo.files.get? path).isSome) : (repo'.files.get? path).isSome := by
  unfold Rm.run at h
  split_ifs at h
  · cases h
    exact hpath
  rcases hparse : Rm.parseArgs args ⟨false, []⟩ with e | _ | opts
  · rw [hparse] at h
    cases h
    exact hpath
  · rw [hparse] at h
    cases h
    exact hpath
  rw [hparse, run_lift_ok_bind] at h
  rcases hprepare : (Rm.prepare os opts).run repo with _ | ⟨e | plan, repo₁⟩
  · rw [run_bind, Command.bind] at h
    dsimp only at h
    rw [hprepare] at h
    cases h
  · rw [run_bind_of_error hprepare] at h
    cases h
    exact noFileLost_prepare opts _ _ _ hprepare path hpath
  · obtain ⟨names, repo₂, hunlinks, hfiles, -⟩ := run_unlinks os plan.unlinks repo₁
    rw [run_bind_of_ok hprepare, run_bind_of_ok hunlinks] at h
    cases h
    rw [hfiles, RefFiles.get?_foldl_remove (hkept _ _ rfl)]
    exact noFileLost_prepare opts _ _ _ hprepare path hpath

lemma noFileLost_commit (secs : ℕ) (args : List Str) :
    Within NoFileLost (CommitCmd.run hashBytes env secs sign args : Cmd W CommitCmd.Outcome) := by
  refine (within_lift _).bind fun parsed => ?_
  rcases parsed with _ | opts
  · exact within_pure _
  · refine (within_readFiles _).bind fun cfg => (within_lift _).bind fun identity =>
      (within_readFiles _).bind fun index => Within.bind ?_ fun _ => Within.bind ?_ fun tree =>
        (within_readFiles _).bind fun head => (within_readFiles _).bind fun parent =>
          Within.bind ?_ fun pm => (within_lift _).bind fun _ => (within_lift _).bind fun c =>
            Within.bind ?_ fun id => Within.bind ?_ fun _ => within_pure _
    · exact noFileLost_of_sameFiles (CommitCmd.sameFiles_checkChanged opts index)
    · exact noFileLost_of_sameFiles (CommitCmd.sameFiles_buildTree opts index)
    · unfold CommitCmd.parentsAndMessage
      split
      · exact (within_lift _).bind fun prevId => (within_readObjects _).bind fun prev =>
          within_pure _
      · exact (within_lift _).bind fun _ => within_pure _
    · exact noFileLost_of_sameFiles (sameFiles_writeObjects _)
    · cases head with
      | symbolic name => exact within_writeRef (noFileLost_atomicWrite name) id
      | detached old => exact noFileLost_writeHead (.detached id)

/-- Whether a command of the user is not an `rm` of `MERGE_HEAD` itself. -/
def SparesMerge (os : WorkOs W) (repo : Repo W) (ev : UserEvent W) : Prop :=
  ∀ args entries removed repo', ev.call = .stage (.rm args) →
    (Rm.run os args).run { repo with workdir := ev.workdir } =
      some (.ok (.wrote entries removed), repo') → mergeHead ∉ removed

/-- A merge in progress stays so. -/
lemma inProgress_userStep {repo repo' : Repo W} {ev : UserEvent W}
    (hprogress : InProgress repo) (hspares : SparesMerge os repo ev)
    (h : userStep hashBytes os env sign repo ev = some repo') : InProgress repo' := by
  obtain ⟨w, call⟩ := ev
  obtain ⟨⟨r, repo''⟩, hrun, rfl⟩ := Option.map_eq_some_iff.mp h
  have hprogress : (({ repo with workdir := w } : Repo W).files.get? mergeHead).isSome := hprogress
  rcases call with (⟨depth, args⟩ | args) | ⟨secs, args⟩
  · have hcall :
        Within NoFileLost (UserCall.run hashBytes os env sign (.stage (.add depth args))) :=
      (noFileLost_add depth args).bind fun _ => within_pure _
    exact hcall _ _ _ hrun mergeHead hprogress
  · obtain ⟨r₀, hrm, -⟩ := exists_of_bind_pure hrun
    refine isSome_of_rm hrm (fun entries removed hr => ?_) hprogress
    subst hr
    exact hspares args entries removed _ rfl hrm
  · have hcall : Within NoFileLost (UserCall.run hashBytes os env sign (.commit secs args)) := by
      refine (noFileLost_commit secs args).bind fun outcome => ?_
      rcases outcome with _ | id
      · exact within_pure _
      · exact within_pure _
    exact hcall _ _ _ hrun mergeHead hprogress

/-! ## The commit -/

/-- Whether a merge has been recorded by a commit: the commit joins the two sides, and the merge is
no longer in progress. -/
structure Concluded (ours theirs : ObjectId) (c : Commit) (fs : RefFiles) : Prop where
  parents : c.parents = [ours, theirs]
  mergeHead : fs.get? mergeHead = none

variable {mergeOs : Os W} {fuel secs : ℕ} {ours theirs id : ObjectId} {message : Str}
  {repo repo₁ repo₂ repo₃ : Repo W} {events : List (UserEvent W)} {w : W} {args : List Str}

/-- No commit concludes a merge that stopped with conflicts: `MERGE_HEAD` stays whatever else than
removing it the user does, and the new commit has only the commit that `HEAD` denotes as its parent,
if it does not replace that one. -/
theorem merge_not_concluded
    (hstop : StopsWithConflicts hashBytes mergeOs fuel ours theirs message repo repo₁)
    (hevents : Machine.run (userStep hashBytes os env sign) repo₁ events = some repo₂)
    (hspares : Machine.Always (userStep hashBytes os env sign) (SparesMerge os) repo₁ events)
    (hcommit : (CommitCmd.run hashBytes env secs sign args).run { repo₂ with workdir := w } =
      some (.ok (.committed id), repo₃)) :
    ∃ c, (id, ⟨.commit, c.encode⟩) ∈ repo₃.objects.entries ∧
      ¬ Concluded ours theirs c repo₃.files ∧ InProgress repo₃ ∧
      ∃ opts head parent, CommitCmd.parseArgs args .init = .ok (some opts) ∧
        readHead repo₂.files = .ok head ∧ resolve repo₂.files head = .ok parent ∧
        (opts.amend = false → c.parents = parent.toList ∧ c.parents ≠ [ours, theirs]) := by
  have hkept : InProgress repo₃ := by
    have hkept₂ : InProgress repo₂ :=
      Machine.run_invariant (fun _ _ _ h hspare hstep => inProgress_userStep h hspare hstep) hspares
        hevents hstop.inProgress
    exact noFileLost_commit secs args _ _ _ hcommit mergeHead hkept₂
  unfold CommitCmd.run at hcommit
  obtain ⟨parsed, hparse, hrun⟩ := lift_bind_eq_ok.mp hcommit
  rcases parsed with _ | opts
  · cases hrun
  · obtain ⟨cfg, identity, head, parent, tree, parents, text, sig, -, -, hhead, hparent, hparents,
      hmem⟩ := CommitCmd.commit_eq_ok hrun
    refine ⟨_, hmem, ?_, hkept, opts, head, parent, hparse, hhead, hparent, ?_⟩
    · intro hconcluded
      rw [InProgress, hconcluded.mergeHead] at hkept
      cases hkept
    · intro hamend
      have heq := hparents hamend
      refine ⟨heq, ?_⟩
      show parents ≠ [ours, theirs]
      rw [heq]
      rcases parent with _ | p
      · simp
      · simp

end User

/-! ## A merge of one file -/

/-- The file that both sides have changed. -/
def sampleFile : Str := ['f']

/-- What staging sees of a file tree in which nothing but one file can be. -/
def sampleTreeOs : WorkOs (FileTree Str) :=
  { metadataOs fun path t =>
      match t.node path.toText with
      | some n => .ok ⟨n.fileType, 0o644, 0, some 0, 0⟩
      | none => .error .notFound with
    readDir := fun dir t =>
      if dir = [] then
        .ok (if (t.node [sampleFile]).isSome then [.ok (Utf8.encode sampleFile)] else [])
      else .error .notADirectory
    read := fun path t =>
      match t.node path.toText with
      | some (.file content _) => .ok content
      | _ => .error .notFound
    removeFile := fun path t => (t.removeFile path.toText).getD t
    argExists := fun arg t => (t.node [arg]).isSome
    canonicalize := fun arg _ => .ok (some [Utf8.encode arg])
    argPath := fun arg => some [Utf8.encode arg] }

/-- A commit with one file, on top of given ones. -/
def sampleCommit (s : Store) (content : Bytes) (parents : List ObjectId) : Store × ObjectId :=
  let tree := writeSampleFile s (Utf8.encode sampleFile) content
  Commit.writeSample tree.1 tree.2 parents

/-- A commit and two commits on top of it that change its file differently. -/
def sampleObjects : Store × ObjectId × ObjectId :=
  let base := sampleCommit ⟨[]⟩ [97] []
  let ours := sampleCommit base.1 [98] [base.2]
  let theirs := sampleCommit ours.1 [99] [base.2]
  (theirs.1, ours.2, theirs.2)

def sampleBranch : Str := "refs/heads/main"

/-- A clean repository at the second commit. -/
def sampleRepo : TreeRepo where
  objects := sampleObjects.1
  files := ⟨[(headPath, headContent (.symbolic sampleBranch)),
    (sampleBranch, refContent sampleObjects.2.1),
    (indexPath, (indexFromMap ((∅ : FileMap).insert [sampleFile]
      (modeFile, (Blob.write sampleHash ⟨[]⟩ [98]).2))).toBytes.toOption.getD [])], []⟩
  workdir := (FileTree.empty.write [sampleFile] [98]).getD .empty

/-- The working tree with the conflict resolved. -/
def sampleResolved : FileTree Str := (FileTree.empty.write [sampleFile] [100]).getD .empty

/-- Staging the resolution. -/
def sampleStage : UserEvent (FileTree Str) := ⟨sampleResolved, .stage (.add 2 [sampleFile])⟩

def sampleStep : TreeRepo → UserEvent (FileTree Str) → Option TreeRepo :=
  userStep sampleHash sampleTreeOs (CommitCmd.sampleEnv ['u']) fun _ => .ok []

/-- The merge of the third commit stops. -/
def SampleStops : TreeRepo → Prop :=
  StopsWithConflicts sampleHash (treeOs sampleMount) 20 sampleObjects.2.1 sampleObjects.2.2 ['m']
    sampleRepo

def sampleConclude : Cmd (FileTree Str) CommitCmd.Outcome :=
  CommitCmd.run sampleHash (CommitCmd.sampleEnv ['u']) 0 (fun _ => .ok [])
    (["-m", "m"].map (·.toList))

def newId : CommitCmd.Outcome → Option ObjectId
  | .committed id => some id
  | .usage => none

/-- How a command on the small repository ends, if it succeeds. -/
def ended {α : Type} (x : Cmd (FileTree Str) α) (repo : TreeRepo) : Option (α × TreeRepo) :=
  match x.run repo with
  | some (.ok a, repo') => some (a, repo')
  | _ => none

lemma ended_eq_some {α : Type} {x : Cmd (FileTree Str) α} {repo repo' : TreeRepo} {a : α} :
    ended x repo = some (a, repo') ↔ x.run repo = some (.ok a, repo') := by
  unfold ended
  split <;> simp_all

/-- The run: the merge stops, the resolution is staged, and then committed. -/
lemma sample_run : ∃ repo₁ repo₂ repo₃ id c,
      SampleStops repo₁ ∧ sampleStep repo₁ sampleStage = some repo₂ ∧
      sampleConclude.run repo₂ = some (.ok (.committed id), repo₃) ∧
      Commit.read repo₃.objects id = .ok c ∧ c.parents = [sampleObjects.2.1] ∧
      InProgress repo₃ := by
  have hrun : (ended (mergeInputs sampleObjects.2.1 sampleObjects.2.2) sampleRepo).any fun p₁ =>
      (ended (withLocal [] (mergeTrees p₁.1.1 p₁.1.2.1 p₁.1.2.2
        (resolveContent sampleHash 20))) p₁.2).any fun p₂ => decide (p₂.1.1.conflicts ≠ []) &&
      (ended (leaveConflicts (treeOs sampleMount) sampleObjects.2.2 ['m'] p₂.1.1 p₂.1.2)
        p₂.2).any fun p₃ =>
      (sampleStep p₃.2 sampleStage).any fun repo₂ =>
      (ended sampleConclude repo₂).any fun p₄ => (newId p₄.1).any fun id =>
      (Commit.read p₄.2.objects id).toOption.any fun c =>
        decide (c.parents = [sampleObjects.2.1]) && (p₄.2.files.get? mergeHead).isSome := by
    decide +kernel
  simp only [Option.any_eq_true, Bool.and_eq_true, decide_eq_true_eq, Prod.exists,
    ended_eq_some] at hrun
  obtain ⟨baseFiles, oursFiles, theirsFiles, repo, hinputs, tm, rendered, repo', hmerge, hne, _,
    repo₁, hleave, repo₂, hstage, outcome, repo₃, hcommit, id, hid, c, hc, hparents,
    hprogress⟩ := hrun
  refine ⟨repo₁, repo₂, repo₃, id, c, ⟨_, _, _, _, _, _, _, hinputs, hmerge, hne, hleave⟩, hstage,
    ?_, toOption_eq_some.mp hc, hparents, hprogress⟩
  rcases outcome with _ | id'
  · cases hid
  · cases hid
    exact hcommit

/-- The commit of a resolution has one parent, and the merge is still in progress. -/
theorem resolution_is_no_merge :
    ∃ repo₁ repo₂ repo₃ id c,
      SampleStops repo₁ ∧ sampleStep repo₁ sampleStage = some repo₂ ∧
      sampleConclude.run repo₂ = some (.ok (.committed id), repo₃) ∧
      Commit.read repo₃.objects id = .ok c ∧ c.parents = [sampleObjects.2.1] ∧
      ¬ Concluded sampleObjects.2.1 sampleObjects.2.2 c repo₃.files := by
  obtain ⟨repo₁, repo₂, repo₃, id, c, hstop, hstage, hcommit, hread, hparents, -⟩ := sample_run
  refine ⟨repo₁, repo₂, repo₃, id, c, hstop, hstage, hcommit, hread, hparents, ?_⟩
  intro hconcluded
  cases hparents.symm.trans hconcluded.parents

/-- The same for whatever commit the run makes. -/
theorem merge_not_concluded_sample :
    ∃ repo₁ repo₂ repo₃ id,
      SampleStops repo₁ ∧ sampleConclude.run repo₂ = some (.ok (.committed id), repo₃) ∧
      ∃ c, (id, ⟨.commit, c.encode⟩) ∈ repo₃.objects.entries ∧
        ¬ Concluded sampleObjects.2.1 sampleObjects.2.2 c repo₃.files := by
  obtain ⟨repo₁, repo₂, repo₃, id, -, hstop, hstage, hcommit, -⟩ := sample_run
  have hevents : Machine.run sampleStep repo₁ [sampleStage] = some repo₂ := by
    rw [Machine.run, hstage]
    rfl
  have hspares : Machine.Always sampleStep (SparesMerge sampleTreeOs) repo₁ [sampleStage] :=
    ⟨fun _ _ _ _ hcall => (by cases hcall), fun _ _ => trivial⟩
  obtain ⟨c, hmem, hnot, -⟩ :=
    merge_not_concluded (w := repo₂.workdir) hstop hevents hspares hcommit
  exact ⟨repo₁, repo₂, repo₃, id, hstop, hcommit, c, hmem, hnot⟩

end Gyt.Merge
