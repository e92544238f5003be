import Gyt.Cmd.RebaseReplay

/-!
# Runs of a rebase

A rebase is one command `rebase` and, after every conflict at which it stops, a resolution that the
user stages and one command `rebase --continue`.  This module says what one command does to the
branch and to the state files: `replayOnto_eq_ok` for the first one, `resume_eq_ok` for the others.
-/

namespace Gyt.Rebase

open List RefFiles Command Text Merge Merge3

variable {W : Type} {hashBytes : Hash} {os : Os W} {fuel : ℕ} {env : Env}
  {n : ℕ} {cursor c tip current target : ObjectId} {cs : List ObjectId} {repo repo' : Repo W}
  {headRef : Str}

/-! ## How the loops end -/

/-- The files that a stop writes. -/
def stateFiles : List Str := [indexPath, rebaseHead, rebaseOnto, rebaseTodo]

/-- The content of the file with the commits that are left. -/
def todoContent (todo : List ObjectId) : Bytes :=
  Utf8.encode (joinLines (todo.map ObjectId.toHex))

/-- The commits that are left are read back as they were written. -/
lemma readTodo_eq_ok {fs : RefFiles} {todo : List ObjectId}
    (h : fs.get? rebaseTodo = some (todoContent todo)) : readTodo fs = .ok todo := by
  have hhex : ∀ id : ObjectId, '\n' ∉ id.toHex ∧ id.toHex ≠ [] ∧ id.toHex.getLast? ≠ some '\r' := by
    intro id
    refine ⟨ObjectId.notMem_toHex (by decide), id.toHex_ne_nil, fun hlast => ?_⟩
    exact ObjectId.notMem_toHex (by decide) (mem_of_getLast? hlast)
  have hlines : lines (joinLines (todo.map ObjectId.toHex)) = todo.map ObjectId.toHex := by
    refine lines_joinLines_eq (fun l hl => ?_) fun l hl => ?_
    · obtain ⟨id, -, rfl⟩ := mem_map.mp hl
      exact ⟨(hhex id).1, (hhex id).2.1⟩
    · obtain ⟨id, -, rfl⟩ := mem_map.mp (dropLast_subset _ hl)
      exact (hhex id).2.2
  have htrim : ∀ id : ObjectId, trim id.toHex = id.toHex := fun id =>
    trim_eq_self fun _ hc => isWhitespace_of_mem_toHex hc
  have htext : readToString fs rebaseTodo = .ok (joinLines (todo.map ObjectId.toHex)) := by
    simp [readToString, readAll, h, todoContent, okOr]
  have hfilter : (todo.map ObjectId.toHex).filter (trim · ≠ []) = todo.map ObjectId.toHex := by
    refine filter_eq_self.mpr fun l hl => ?_
    obtain ⟨id, -, rfl⟩ := mem_map.mp hl
    simp [htrim id, (hhex id).2.1]
  have hmapM : ∀ ids : List ObjectId,
      (ids.map ObjectId.toHex).mapM (fun l => ObjectId.fromHex (trim l)) = .ok ids := by
    intro ids
    induction ids with
    | nil => rfl
    | cons id ids ih =>
      rw [map_cons, mapM_cons, htrim, ObjectId.fromHex_toHex, ih]
      rfl
  rw [readTodo, htext]
  show (mapM _ (filter _ (lines _))) = _
  rw [hlines, hfilter, hmapM]

/-- What a stop leaves behind. -/
structure Saved (head onto : ObjectId) (todo : List ObjectId) (repo repo' : Repo W) : Prop where
  keeps : Keeps stateFiles repo repo'
  head : repo'.files.get? rebaseHead = some (refContent head)
  onto : repo'.files.get? rebaseOnto = some (refContent onto)
  todo : repo'.files.get? rebaseTodo = some (todoContent todo)

lemma saved_of_saveState {head onto : ObjectId} {todo : List ObjectId} {u : Unit}
    (h : (saveState head onto todo).run repo = some (.ok u, repo')) :
    Saved head onto todo repo repo' := by
  have hwithin : Within (Keeps stateFiles) (saveState head onto todo : Cmd W Unit) :=
    (within_atomicWrite (by simp [stateFiles]) _).bind fun _ =>
      (within_atomicWrite (by simp [stateFiles]) _).bind fun _ =>
        within_atomicWrite (by simp [stateFiles]) _
  have hkeeps := hwithin _ _ _ h
  obtain ⟨_, repo₁, hhead, h⟩ := seq_eq_ok.mp h
  obtain ⟨_, repo₂, honto, htodo⟩ := seq_eq_ok.mp h
  rw [atomicWrite_eq_ok htodo, atomicWrite_eq_ok honto, atomicWrite_eq_ok hhead] at hkeeps ⊢
  refine ⟨hkeeps, ?_, ?_, get?_set_self⟩
  · show get? (set _ _ _) _ = _
    rw [get?_set_of_ne (by decide), get?_set_of_ne (by decide), get?_set_self]
  · show get? (set _ _ _) _ = _
    rw [get?_set_of_ne (by decide), get?_set_self]

/-- Leaving a conflict in the working tree changes nothing that a stop has written. -/
lemma within_leaveConflict (tm : TreeMerge) (blobs : ConflictBlobs) :
    Within KeepsRefs (leaveConflict os tm blobs) :=
  (within_applyFilesToWorkdir os _).bind fun _ =>
    (within_writeIndexFromMap (by simp) _).bind fun _ =>
      within_forM fun file => (within_safeWorkdirPath os file.1).bind fun _ =>
        (within_system _).bind fun _ => within_system _

lemma Saved.trans_keepsRefs {head onto : ObjectId} {todo : List ObjectId} {repo'' : Repo W}
    (h : Saved head onto todo repo repo') (h' : KeepsRefs repo' repo'') :
    Saved head onto todo repo repo'' := by
  have hne : ∀ path ∈ [rebaseHead, rebaseOnto, rebaseTodo], path ∉ [indexPath] := by decide
  refine ⟨h.keeps.trans (h'.mono (by simp [stateFiles])), ?_, ?_, ?_⟩
  · rw [h'.get?_eq _ (hne _ (by simp)), h.head]
  · rw [h'.get?_eq _ (hne _ (by simp)), h.onto]
  · rw [h'.get?_eq _ (hne _ (by simp)), h.todo]

lemma KeepsRefs.trans_saved {head onto : ObjectId} {todo : List ObjectId} {repo'' : Repo W}
    (h : KeepsRefs repo repo') (h' : Saved head onto todo repo' repo'') :
    Saved head onto todo repo repo'' :=
  ⟨(h.mono (by simp [stateFiles])).trans h'.keeps, h'.head, h'.onto, h'.todo⟩

/-- How a loop ends: it has replayed all commits, or those before a conflict.  At a conflict it
leaves the others to do, and then does to the repository what `moves` says. -/
def Ends (hashBytes : Hash) (env : Env) (head onto : ObjectId)
    (moves : ObjectId → Repo W → Repo W → Prop) (n : ℕ) (cursor : ObjectId) (cs : List ObjectId)
    (repo repo' : Repo W) : LoopEnd → Prop
  | .done tip => ReplayRun hashBytes env n cursor cs repo tip repo'
  | .stopped c => ∃ done rest cursor' repo₁ repo₂, cs = done ++ c :: rest ∧
      ReplayRun hashBytes env n cursor done repo cursor' repo₁ ∧
      Saved head onto (c :: rest) repo₁ repo₂ ∧ moves cursor' repo₂ repo'

lemma Ends.cons {head onto new : ObjectId} {moves : ObjectId → Repo W → Repo W → Prop}
    {repo'' : Repo W} {e : LoopEnd} (hstep : Replays hashBytes env n cursor c repo new repo')
    (h : Ends hashBytes env head onto moves (n + 1) new cs repo' repo'' e) :
    Ends hashBytes env head onto moves n cursor (c :: cs) repo repo'' e := by
  cases e with
  | done tip => exact ReplayRun.cons hstep h
  | stopped c' =>
    obtain ⟨done, rest, cursor', repo₁, repo₂, rfl, hrun, hrest⟩ := h
    exact ⟨c :: done, rest, cursor', repo₁, repo₂, rfl, .cons hstep hrun, hrest⟩

/-- The loop of `rebase` leaves the branch where it was. -/
lemma ends_of_replayLoop {e : LoopEnd}
    (h : (replayLoop hashBytes os fuel env current target n cursor cs).run repo =
      some (.ok e, repo')) :
    Ends hashBytes env current target (fun _ repo₂ repo' => repo' = repo₂) n cursor cs repo repo'
      e := by
  induction cs generalizing n cursor repo with
  | nil =>
    cases h
    exact ReplayRun.nil
  | cons c cs ih =>
    obtain ⟨⟨pc, tm, blobs⟩, repo₁, hmerge, h⟩ := seq_eq_ok.mp h
    dsimp only at h
    have hpc := commitRead_of_mergeReplay hmerge
    have hkeeps := within_mergeReplay cursor c _ _ _ hmerge
    split_ifs at h
    · obtain ⟨new, repo₂, hclean, h⟩ := seq_eq_ok.mp h
      exact (ih h).cons (replays_of_replayClean hpc hkeeps hclean)
    · obtain ⟨_, repo₂, hsave, h⟩ := seq_eq_ok.mp h
      obtain ⟨_, repo₃, hleave, h⟩ := seq_eq_ok.mp h
      cases h
      have hsaved := saved_of_saveState hsave
      exact ⟨[], cs, cursor, repo, repo', rfl, .nil, KeepsRefs.trans_saved hkeeps
        (hsaved.trans_keepsRefs (within_leaveConflict _ _ _ _ _ hleave)), rfl⟩

/-- What replaying one commit in `rebase --continue` does. -/
lemma replayOne_eq_ok {outcome : ReplayOutcome}
    (h : (replayOne hashBytes os fuel env n cursor c).run repo = some (.ok outcome, repo')) :
    match outcome with
    | .clean new => Replays hashBytes env n cursor c repo new repo'
    | .conflict => KeepsRefs repo repo' := by
  obtain ⟨⟨pc, tm, blobs⟩, repo₁, hmerge, h⟩ := seq_eq_ok.mp h
  have hkeeps := within_mergeReplay cursor c _ _ _ hmerge
  dsimp only at h
  split_ifs at h
  · obtain ⟨new, repo₂, hclean, h⟩ := seq_eq_ok.mp h
    cases h
    exact replays_of_replayClean (commitRead_of_mergeReplay hmerge) hkeeps hclean
  · obtain ⟨_, repo₂, hleave, h⟩ := seq_eq_ok.mp h
    cases h
    exact hkeeps.trans (within_leaveConflict tm blobs _ _ _ hleave)

/-- The branch is moved to a commit. -/
def MovesTo (headRef : Str) (tip : ObjectId) (repo repo' : Repo W) : Prop :=
  validateRefName headRef = .ok () ∧
    repo' = { repo with files := repo.files.set headRef (refContent tip) }

/-- The loop of `rebase --continue` moves the branch to the last commit that it wrote when it is
stopped. -/
lemma ends_of_continueLoop {prevHead onto : ObjectId} {e : LoopEnd}
    (h : (continueLoop hashBytes os fuel env headRef prevHead onto n cursor cs).run repo =
      some (.ok e, repo')) :
    Ends hashBytes env prevHead onto (MovesTo headRef) n cursor cs repo repo' e := by
  induction cs generalizing n cursor repo with
  | nil =>
    cases h
    exact ReplayRun.nil
  | cons c cs ih =>
    obtain ⟨outcome, repo₁, hone, h⟩ := seq_eq_ok.mp h
    cases outcome with
    | clean id => exact (ih h).cons (replayOne_eq_ok hone)
    | conflict =>
      obtain ⟨_, repo₂, hsave, h⟩ := seq_eq_ok.mp h
      obtain ⟨_, repo₃, hwrite, h⟩ := seq_eq_ok.mp h
      cases h
      exact ⟨[], cs, cursor, repo, repo₂, rfl, .nil, KeepsRefs.trans_saved
        (replayOne_eq_ok hone) (saved_of_saveState hsave), writeRef_eq_ok hwrite⟩

/-! ## Runs -/

/-- A rebase of a repository onto `target` that has stopped at conflicts; every command is run in an
environment that meets the condition `ok`.  After a stop the user can do anything to the working
tree and the index, and add objects that are no commits. -/
inductive Stopped (hashBytes : Hash) (os : Os W) (ok : Env → Prop) (target : ObjectId)
    (start : Repo W) : ℕ → Repo W → Prop
  | first {fuel : ℕ} {env : Env} {ffOnly : Bool} {rev : Str} {c : ObjectId} {repo : Repo W}
      (henv : ok env)
      (h : (rebase hashBytes os fuel env ffOnly rev target).run start =
        some (.ok (.stopped c), repo)) : Stopped hashBytes os ok target start 1 repo
  | again {n fuel : ℕ} {env : Env} {c : ObjectId} {repo repo₁ repo₂ : Repo W} (henv : ok env)
      (hstop : Stopped hashBytes os ok target start n repo) (hstage : KeepsRefs repo repo₁)
      (h : (resume hashBytes os fuel env).run repo₁ = some (.ok (.stopped c), repo₂)) :
      Stopped hashBytes os ok target start (n + 1) repo₂

/-- A rebase of a repository onto `target` that has finished after a number of stops. -/
inductive Finished (hashBytes : Hash) (os : Os W) (ok : Env → Prop) (target : ObjectId)
    (start : Repo W) : ℕ → Repo W → Prop
  | direct {fuel : ℕ} {env : Env} {ffOnly : Bool} {rev : Str} {repo : Repo W} (henv : ok env)
      (h : (rebase hashBytes os fuel env ffOnly rev target).run start =
        some (.ok .finished, repo)) : Finished hashBytes os ok target start 0 repo
  | resumed {n fuel : ℕ} {env : Env} {repo repo₁ repo₂ : Repo W} (henv : ok env)
      (hstop : Stopped hashBytes os ok target start n repo) (hstage : KeepsRefs repo repo₁)
      (h : (resume hashBytes os fuel env).run repo₁ = some (.ok .finished, repo₂)) :
      Finished hashBytes os ok target start n repo₂

/-! ## One command -/

/-- Taking the upstream commit moves the branch to it and writes no commits. -/
lemma takeUpstream_eq_ok {outcome : Outcome} (hindex : headRef ≠ indexPath)
    (h : (takeUpstream os headRef target).run repo = some (.ok outcome, repo')) :
    outcome = .finished ∧ refValue repo'.files headRef = some target ∧
      repo.objects.SameCommits repo'.objects := by
  obtain ⟨_, _, hmove, hend⟩ := seq_eq_ok.mp h
  cases hend
  obtain ⟨_, repo₁, hwrite, h₁⟩ := seq_eq_ok.mp hmove
  obtain ⟨hname, rfl⟩ := writeRef_eq_ok hwrite
  obtain ⟨c, -, h₂⟩ := readObjects_bind_eq_ok.mp h₁
  have hkeeps : KeepsRefs _ repo' := within_materializeTree os (by simp) c.tree _ _ _ h₂
  refine ⟨rfl, ?_, hkeeps.commits⟩
  rw [refValue_congr (hkeeps.get?_eq headRef (by simpa using hindex))]
  exact refValue_set_self hname

/-- What `rebase` does to a branch: nothing new if the branch is below the upstream commit, and else
it replays the commits between a merge base and the tip of the branch. -/
lemma rebase_cases {ffOnly : Bool} {rev : Str} {outcome : Outcome} (hindex : headRef ≠ indexPath)
    (hhead : readHead repo.files = .ok (.symbolic headRef))
    (hcurrent : refValue repo.files headRef = some current)
    (h : (rebase hashBytes os fuel env ffOnly rev target).run repo = some (.ok outcome, repo')) :
    (repo.objects.Reaches target current ∧ outcome = .finished ∧
        repo.objects.SameCommits repo'.objects) ∨
      ∃ base, mergeBase repo.objects current target = some base ∧
        (commitsBetween repo.objects base current = [] ∧
            (takeUpstream os headRef target).run repo = some (.ok outcome, repo') ∨
          (replayOnto hashBytes os fuel env headRef current target
            (commitsBetween repo.objects base current)).run repo = some (.ok outcome, repo')) := by
  obtain ⟨obj, -, h₁⟩ := readObjects_bind_eq_ok.mp h
  obtain ⟨_, -, h₂⟩ := lift_bind_eq_ok.mp h₁
  obtain ⟨name, hname, h₃⟩ := readFiles_bind_eq_ok.mp h₂
  obtain ⟨tip?, htip, h₄⟩ := readFiles_bind_eq_ok.mp h₃
  obtain rfl : headRef = name := by
    rw [symbolicHead, hhead] at hname
    exact Except.ok.inj hname
  obtain rfl : some current = tip? := by
    rw [resolve_of_refValue hcurrent] at htip
    exact Except.ok.inj htip
  simp only [rebaseBranch, run_gets_bind] at h₄
  split_ifs at h₄ with heq hanc
  · cases h₄
    exact .inl ⟨heq ▸ .refl, rfl, .refl _⟩
  · obtain ⟨hfin, -, hsame⟩ := takeUpstream_eq_ok hindex h₄
    exact .inl ⟨Merge.reaches_of_isAncestor hanc, hfin, hsame⟩
  · cases h₄
  · obtain ⟨base, _, hbase, h₆⟩ := seq_eq_ok.mp h₄
    obtain ⟨hbase, rfl⟩ := lift_eq_ok.mp hbase
    refine .inr ⟨base, okOr_eq_ok.mp hbase, ?_⟩
    split_ifs at h₆ with hempty
    · exact .inl ⟨hempty, h₆⟩
    · exact .inr h₆

lemma finishLoop_eq_ok {loopEnd : LoopEnd} {outcome : Outcome}
    (h : (finishLoop headRef loopEnd).run repo = some (.ok outcome, repo')) :
    match loopEnd with
    | .done tip => outcome = .finished ∧ MovesTo headRef tip repo repo'
    | .stopped c => outcome = .stopped c ∧ repo' = repo := by
  cases loopEnd with
  | done tip =>
    obtain ⟨_, repo₁, hwrite, hend⟩ := seq_eq_ok.mp h
    cases hend
    exact ⟨rfl, writeRef_eq_ok hwrite⟩
  | stopped c =>
    cases h
    exact ⟨rfl, rfl⟩

/-- A replay starts at the upstream commit. -/
theorem replayOnto_eq_ok {outcome : Outcome}
    (h : (replayOnto hashBytes os fuel env headRef current target cs).run repo =
      some (.ok outcome, repo')) :
    ∃ repo₁ loopEnd repo₂, KeepsRefs repo repo₁ ∧
      Ends hashBytes env current target (fun _ repo₂ repo' => repo' = repo₂) 0 target cs repo₁ repo₂
        loopEnd ∧
      (finishLoop headRef loopEnd).run repo₂ = some (.ok outcome, repo') := by
  obtain ⟨c, -, h₁⟩ := readObjects_bind_eq_ok.mp h
  obtain ⟨_, repo₁, hmaterialize, h₂⟩ := seq_eq_ok.mp h₁
  obtain ⟨loopEnd, repo₂, hloop, hfinish⟩ := seq_eq_ok.mp h₂
  exact ⟨repo₁, loopEnd, repo₂, within_materializeTree os (by simp) c.tree _ _ _ hmaterialize,
    ends_of_replayLoop hloop, hfinish⟩

section Resume

variable {b first : ObjectId} {rest : List ObjectId}

/-- What `rebase --continue` does: it commits the index on top of the branch in place of the first
commit that is left, and goes on with the others. -/
theorem resume_eq_ok {outcome : Outcome} (hhead : readHead repo.files = .ok (.symbolic headRef))
    (hbranch : refValue repo.files headRef = some b)
    (htodo : repo.files.get? rebaseTodo = some (todoContent (first :: rest)))
    (h : (resume hashBytes os fuel env).run repo = some (.ok outcome, repo')) :
    ∃ prevHead onto loopEnd repo₁,
      Ends hashBytes env prevHead onto (MovesTo headRef) 0 b (first :: rest) repo repo₁ loopEnd ∧
      (finishContinue headRef loopEnd).run repo₁ = some (.ok outcome, repo') := by
  obtain ⟨_, -, h₁⟩ := readFiles_bind_eq_ok.mp h
  obtain ⟨prevHead, -, h₂⟩ := readFiles_bind_eq_ok.mp h₁
  obtain ⟨onto, -, h₃⟩ := readFiles_bind_eq_ok.mp h₂
  obtain ⟨todo, hread, h₄⟩ := readFiles_bind_eq_ok.mp h₃
  obtain rfl : first :: rest = todo := by
    rw [readTodo_eq_ok htodo] at hread
    exact Except.ok.inj hread
  obtain ⟨name, hname, h₅⟩ := readFiles_bind_eq_ok.mp h₄
  obtain rfl : headRef = name := by
    rw [symbolicHead, hhead] at hname
    exact Except.ok.inj hname
  obtain ⟨cursor, hcursor, h₆⟩ := readFiles_bind_eq_ok.mp h₅
  obtain rfl : b = cursor := by
    rw [mapErr_eq_ok, refValue_eq_some.mp hbranch] at hcursor
    exact Except.ok.inj hcursor
  obtain ⟨new, repo₁, hresolution, h₇⟩ := seq_eq_ok.mp h₆
  obtain ⟨loopEnd, repo₂, hloop, hfinish⟩ := seq_eq_ok.mp h₇
  refine ⟨prevHead, onto, loopEnd, repo₂, (ends_of_continueLoop hloop).cons ?_, hfinish⟩
  obtain ⟨pc, hpc, h₈⟩ := readObjects_bind_eq_ok.mp hresolution
  obtain ⟨idx, -, h₉⟩ := readFiles_bind_eq_ok.mp h₈
  obtain ⟨tree, repo₃, htree, hcommit⟩ := seq_eq_ok.mp h₉
  have hkeeps : KeepsRefs _ repo₃ :=
    within_writeObjects (fun s => sameCommits_buildTreeFromIndex hashBytes s idx) _ _ _ htree
  exact replays_of_commitReplayed hpc hkeeps hcommit

/-- Removing the state files leaves the others alone. -/
lemma clearState_eq_ok {u : Unit} (h : (clearState : Cmd W Unit).run repo = some (.ok u, repo')) :
    (∀ path ∉ stateFiles, repo'.files.get? path = repo.files.get? path) ∧
      repo'.objects = repo.objects := by
  cases h
  refine ⟨fun path hpath => ?_, rfl⟩
  simp only [stateFiles, mem_cons, not_or] at hpath
  obtain ⟨-, hhead, honto, htodo, -⟩ := hpath
  show get? (remove (remove (remove _ _) _) _) _ = _
  rw [get?_remove_of_ne htodo, get?_remove_of_ne honto, get?_remove_of_ne hhead]

end Resume

end Gyt.Rebase
