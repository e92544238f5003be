import Gyt.Foundation.Machine
import Gyt.Cmd.Pr

/-!
# Interleavings of commands on pull requests

Several processes run `gyt pr` on one repository.  Most subcommands read and store the pull request
under one lock.  `merge` and `ci-run` look at the pull request first, work without the lock, and
read it again when they record their outcome: what they have checked may no longer hold then.

Successive versions of a pull request extend one another, and it becomes merged from the open state
only, as long as a merge is recorded while the pull request is still open (`pr_history`).
-/

namespace Gyt.PrRuns

open Command Text Toml List RefFiles Pr

variable {W : Type}

/-- What a process is about to do without holding the lock. -/
inductive Running where
  /-- `merge` has found the pull request open and merges into the target. -/
  | merging (n : ℕ) (target : Str)
  /-- `merge` has merged and is about to record it. -/
  | merged (n : ℕ) (tip : ObjectId)
  /-- `ci-run` runs its scripts. -/
  | ciRun (n : ℕ)
  deriving DecidableEq, Repr

/-- The repository, the wall clock, and the processes that are inside of `merge` or `ci-run`. -/
structure State (W : Type) where
  repo : Repo W
  now : ℤ
  running : List (ℕ × Running)

/-- What can happen; `p` is a process and `me` its identity. -/
inductive Event (W : Type) where
  | tick (now : ℤ)
  | edit (e : Edit) (me : Str) (n : ℕ)
  | mergeStart (p n : ℕ)
  /-- A step of switching and merging: it stores objects, and leaves the references to pull requests
  as they are. -/
  | branches (p : ℕ) (objects : List (ObjectKind × Bytes)) (files : RefFiles) (workdir : W)
  /-- Reading the tip of the target after the merge. -/
  | mergeTip (p : ℕ)
  | mergeEnd (p : ℕ) (me : Str)
  | ciStart (p n : ℕ)
  | ciEnd (p : ℕ) (me result : Str)
  /-- The command of a process fails. -/
  | stop (p : ℕ)

/-- Whether two file systems have the same references to pull requests. -/
def samePrRefs (fs fs' : RefFiles) : Bool :=
  (fs.files ++ fs'.files).all fun f =>
    !RefFiles.isBelow f.1 Pr.refsPrefix || fs'.get? f.1 == fs.get? f.1

/-- The processes without one of them. -/
def finish (p : ℕ) (running : List (ℕ × Running)) : List (ℕ × Running) :=
  running.filter (·.1 ≠ p)

def step (hashBytes : Hash) (t : DebugTables) (s : State W) :
    Event W → Option (State W)
  | .tick now => if s.now ≤ now then some { s with now } else none
  | .edit e me n => some { s with repo := (cmdEdit hashBytes t e me s.now n).after s.repo }
  | .mergeStart p n =>
    match (mergeCheck n).run s.repo with
    | some (.ok pr, _) =>
      some { s with running := (p, .merging n pr.targetRef) :: finish p s.running }
    | _ => some s
  | .branches p objects files workdir =>
    match s.running.lookup p with
    | some (.merging _ _) =>
      if samePrRefs s.repo.files files then
        some { s with repo := {
          objects := objects.foldl (fun st o => (st.writeBytes hashBytes o.1 o.2).1) s.repo.objects
          files, workdir } }
      else none
    | _ => none
  | .mergeTip p =>
    match s.running.lookup p with
    | some (.merging n target) =>
      match readRef s.repo.files target with
      | .ok tip => some { s with running := (p, .merged n tip) :: finish p s.running }
      | .error _ => some { s with running := finish p s.running }
    | _ => none
  | .mergeEnd p me =>
    match s.running.lookup p with
    | some (.merged n tip) =>
      some { s with
        repo := (update hashBytes t n (recordMerge me s.now tip)).after s.repo
        running := finish p s.running }
    | _ => none
  | .ciStart p n =>
    match (ciRunCheck n).run s.repo with
    | some (.ok _, _) => some { s with running := (p, .ciRun n) :: finish p s.running }
    | _ => some s
  | .ciEnd p me result =>
    match s.running.lookup p with
    | some (.ciRun n) =>
      some { s with
        repo := (update hashBytes t n (recordCiRun me s.now result)).after s.repo
        running := finish p s.running }
    | _ => none
  | .stop p => some { s with running := finish p s.running }

/-- The pull request with a number, if it can be read. -/
def prAt (n : ℕ) (s : State W) : Option Pr := (Pr.read s.repo.objects s.repo.files n).toOption

/-- What an event makes of a pull request, if it stores one. -/
def Records (s : State W) (pr pr' : Pr) : Event W → Prop
  | .edit e me n => pr.number = n ∧ e.apply me s.now pr = .ok pr'
  | .mergeEnd p me => ∃ tip, s.running.lookup p = some (.merged pr.number tip) ∧
      recordMerge me s.now tip pr = .ok pr'
  | .ciEnd p me result => s.running.lookup p = some (.ciRun pr.number) ∧
      recordCiRun me s.now result pr = .ok pr'
  | _ => False

/-- Whether the pull request of a process that is about to record a merge is still open. -/
def StillOpen (s : State W) : Running → Prop
  | .merged n _ => ∀ pr ∈ prAt n s, pr.state = .opened
  | _ => True

instance (s : State W) : (r : Running) → Decidable (StillOpen s r)
  | .merged n _ => inferInstanceAs (Decidable (∀ pr ∈ prAt n s, pr.state = .opened))
  | .merging _ _ | .ciRun _ => isTrue trivial

/-- The events after which the history of a pull request stays as it should be: the texts are plain,
and a merge is recorded only while the pull request is open. -/
def Allowed (t : DebugTables) (s : State W) : Event W → Prop
  | .edit e me _ => Plain t me ∧ e.Plain t
  | .mergeEnd p me => Plain t me ∧ ∀ r ∈ s.running.lookup p, StillOpen s r
  | .ciEnd _ me result => Plain t me ∧ Plain t result
  | _ => True

instance (t : DebugTables) (s : State W) : (a : Event W) → Decidable (Allowed t s a)
  | .edit _ _ _ => inferInstanceAs (Decidable (_ ∧ _))
  | .mergeEnd _ _ => inferInstanceAs (Decidable (_ ∧ _))
  | .ciEnd _ _ _ => inferInstanceAs (Decidable (_ ∧ _))
  | .tick _ | .mergeStart _ _ | .branches _ _ _ _ | .mergeTip _ | .ciStart _ _ | .stop _ =>
    isTrue trivial

/-- How a version of a pull request follows another one: it extends it, and it becomes merged from
the open state only. -/
def Follows (pr pr' : Pr) : Prop :=
  pr' = pr ∨ Pr.validateExtends pr pr' = .ok () ∧
    (pr'.state = .merged → pr.state ≠ .merged → pr.state = .opened)

/-- Whether a pull request that is merged stays so. -/
def StaysMerged (pr pr' : Pr) : Prop := pr.state = .merged → pr'.state = .merged

instance : Trans StaysMerged StaysMerged StaysMerged := ⟨fun h h' hmerged => h' (h hmerged)⟩

section Steps

variable {hashBytes : Hash} {t : DebugTables} {s s' : State W} {a : Event W} {n : ℕ}
  {pr pr' : Pr}

lemma prAt_eq_some : prAt n s = some pr ↔ Pr.read s.repo.objects s.repo.files n = .ok pr :=
  toOption_eq_some

lemma number_of_prAt (h : prAt n s = some pr) : pr.number = n := by
  obtain ⟨-, -, -, -, -, -, hn⟩ := readNumbered_eq_ok.mp (prAt_eq_some.mp h)
  exact hn

lemma isBelow_refName (n : ℕ) : isBelow (Pr.refName n) Pr.refsPrefix = true := by
  rw [isBelow, Pr.refName, numberedRef, isPrefixOf_iff_prefix]
  exact ⟨ofNat n, by simp⟩

lemma get?_of_samePrRefs {fs fs' : RefFiles} (h : samePrRefs fs fs' = true) (n : ℕ) :
    fs'.get? (Pr.refName n) = fs.get? (Pr.refName n) := by
  have hfile : ∀ c, (Pr.refName n, c) ∈ fs.files ++ fs'.files →
      fs'.get? (Pr.refName n) = fs.get? (Pr.refName n) := by
    intro c hc
    have hsame := all_eq_true.mp h _ hc
    rw [isBelow_refName] at hsame
    simpa using hsame
  cases hold : fs.get? (Pr.refName n) with
  | some c => rw [hfile c (mem_append_left _ (mem_files_of_get? hold)), hold]
  | none =>
    cases hnew : fs'.get? (Pr.refName n) with
    | none => rfl
    | some c =>
      rw [← hold, ← hnew]
      exact hfile c (mem_append_right _ (mem_files_of_get? hnew))

lemma extends_foldl_writeBytes (objects : List (ObjectKind × Bytes)) (st : Store) :
    st.Extends (objects.foldl (fun st o => (st.writeBytes hashBytes o.1 o.2).1) st) := by
  induction objects generalizing st with
  | nil => exact .refl _
  | cons o objects ih => exact (Store.extends_writeBytes _ _ _ _).trans (ih _)

/-- What a step can do: it leaves the references to pull requests as they are, or it stores the pull
request that an event makes of another one. -/
def StepsTo (hashBytes : Hash) (t : DebugTables) (s : State W) (a : Event W)
    (s' : State W) : Prop :=
  ((∀ n, refValue s'.repo.files (Pr.refName n) = refValue s.repo.files (Pr.refName n)) ∧
    s.repo.objects.Extends s'.repo.objects ∧ s.now ≤ s'.now) ∨
  ∃ pr pr', prAt pr.number s = some pr ∧ Records s pr pr' a ∧ pr'.validate = .ok () ∧
    validateRefName (Pr.refName pr'.number) = .ok () ∧ s'.now = s.now ∧
    s'.repo = stored hashBytes Pr.refsPrefix pr'.number (pr'.encode t) s.repo

lemma stepsTo_of_repo_eq (hrepo : s'.repo = s.repo) (hnow : s.now ≤ s'.now) :
    StepsTo hashBytes t s a s' :=
  .inl ⟨fun _ => by rw [hrepo], by rw [hrepo], hnow⟩

/-- A step that updates a pull request. -/
lemma stepsTo_update {change : Pr → Result Pr}
    (hrecords : ∀ pr pr', pr.number = n → change pr = .ok pr' → Records s pr pr' a)
    (hrepo : s'.repo = (update hashBytes t n change).after s.repo) (hnow : s'.now = s.now) :
    StepsTo hashBytes t s a s' := by
  rcases update_cases hashBytes t n change s.repo with
    ⟨hfiles, hobjects⟩ | ⟨pr, pr', hread, hchange, hvalid, hname, hstored⟩
  · exact .inl ⟨fun _ => by rw [hrepo, hfiles], hrepo ▸ hobjects, hnow.ge⟩
  · have hat : prAt n s = some pr := prAt_eq_some.mpr hread
    have hnumber := number_of_prAt hat
    exact .inr ⟨pr, pr', hnumber.symm ▸ hat, hrecords pr pr' hnumber hchange, hvalid, hname, hnow,
      hrepo.trans hstored⟩

lemma stepsTo_of_step (h : step hashBytes t s a = some s') : StepsTo hashBytes t s a s' := by
  cases a with
  | tick now =>
    rw [step] at h
    split_ifs at h with hnow
    cases h
    exact stepsTo_of_repo_eq rfl hnow
  | edit e me n =>
    cases h
    cases hargs : e.checkArgs with
    | error err =>
      have hrepo : (cmdEdit hashBytes t e me s.now n).after s.repo = s.repo := by
        rw [cmdEdit, hargs]
        rfl
      exact stepsTo_of_repo_eq hrepo le_rfl
    | ok u =>
      have hrepo : (cmdEdit hashBytes t e me s.now n).after s.repo =
          (update hashBytes t n (e.apply me s.now)).after s.repo := by
        rw [cmdEdit, hargs]
        rfl
      exact stepsTo_update (fun _ _ hn hchange => ⟨hn, hchange⟩) hrepo rfl
  | mergeStart p n =>
    rw [step] at h
    split at h <;> cases h <;> exact stepsTo_of_repo_eq rfl le_rfl
  | branches p objects files workdir =>
    rw [step] at h
    split at h
    · split_ifs at h with hsame
      cases h
      exact .inl ⟨fun n => refValue_congr (get?_of_samePrRefs hsame n),
        extends_foldl_writeBytes objects _, le_rfl⟩
    · cases h
  | mergeTip p =>
    rw [step] at h
    split at h
    · split at h <;> cases h <;> exact stepsTo_of_repo_eq rfl le_rfl
    · cases h
  | mergeEnd p me =>
    rw [step] at h
    split at h
    · next n tip hrunning =>
      cases h
      exact stepsTo_update (fun _ _ hn hchange => ⟨tip, hn ▸ hrunning, hchange⟩) rfl rfl
    · cases h
  | ciStart p n =>
    rw [step] at h
    split at h <;> cases h <;> exact stepsTo_of_repo_eq rfl le_rfl
  | ciEnd p me result =>
    rw [step] at h
    split at h
    · next n hrunning =>
      cases h
      exact stepsTo_update (fun _ _ hn hchange => ⟨hn ▸ hrunning, hchange⟩) rfl rfl
    · cases h
  | stop p =>
    cases h
    exact stepsTo_of_repo_eq rfl le_rfl

/-- What an event stores is a change of the version before it. -/
lemma appends_of_records (h : Records s pr pr' a) : Appends s.now pr pr' := by
  cases a with
  | edit e me n => exact (Edit.appends_of_apply h.2).1
  | mergeEnd p me =>
    obtain ⟨tip, -, hchange⟩ := h
    exact recordMerge_appends hchange
  | ciEnd p me result => exact (recordCiRun_appends h.2).1
  | _ => exact h.elim

/-- What an allowed event stores becomes merged from the open state only. -/
lemma opened_of_records (h : Records s pr pr' a) (hallowed : Allowed t s a)
    (hat : prAt pr.number s = some pr) (hmerged : pr'.state = .merged) (hne : pr.state ≠ .merged) :
    pr.state = .opened := by
  cases a with
  | edit e me n => exact absurd ((Edit.appends_of_apply h.2).2 hmerged) hne
  | mergeEnd p me =>
    obtain ⟨tip, hrunning, -⟩ := h
    exact hallowed.2 _ hrunning pr hat
  | ciEnd p me result => exact absurd ((recordCiRun_appends h.2).2 ▸ hmerged) hne
  | _ => exact h.elim

lemma good_of_records (h : Records s pr pr' a) (hallowed : Allowed t s a)
    (hgood : Good t s.now pr) : Good t s.now pr' := by
  cases a with
  | edit e me n => exact hgood.edit hallowed.1 hallowed.2 h.2
  | mergeEnd p me =>
    obtain ⟨tip, -, hchange⟩ := h
    exact hgood.recordMerge hallowed.1 hchange
  | ciEnd p me result => exact hgood.recordCiRun hallowed.1 hallowed.2 h.2
  | _ => exact h.elim

/-- An allowed event leads from a pull request that was written here to one that follows it. -/
lemma follows_of_step (h : step hashBytes t s a = some s') (hallowed : Allowed t s a)
    (hfree : s'.repo.objects.CollisionFree) (hat : prAt n s = some pr) (hgood : Good t s.now pr) :
    ∃ pr', prAt n s' = some pr' ∧ Good t s'.now pr' ∧ Follows pr pr' := by
  rcases stepsTo_of_step h with
    ⟨hrefs, hobjects, hnow⟩ | ⟨old, new, hold, hrecords, hvalid, hname, hnow, hrepo⟩
  · refine ⟨pr, ?_, ?_, .inl rfl⟩
    · exact prAt_eq_some.mpr (readNumbered_of_extends (prAt_eq_some.mp hat) hobjects (hrefs n))
    · exact { hgood with past := fun e he => (hgood.past e he).trans hnow }
  · have happends := appends_of_records hrecords
    by_cases hn : n = old.number
    · subst hn
      obtain rfl : pr = old := Option.some.inj (hat.symm.trans hold)
      have hgood' := good_of_records hrecords hallowed hgood
      refine ⟨new, prAt_eq_some.mpr ?_, hnow ▸ hgood', .inr ⟨happends.validateExtends hgood,
        opened_of_records hrecords hallowed hat⟩⟩
      rw [hrepo] at hfree ⊢
      rw [happends.number] at hname hfree ⊢
      exact readNumbered_stored hname ((Pr.decode_encode_eq_ok hvalid hgood'.number
        hgood'.mentions).mpr hgood'.plain) happends.number hfree
    · refine ⟨pr, prAt_eq_some.mpr ?_, hnow ▸ hgood, .inl rfl⟩
      rw [hrepo]
      exact readNumbered_stored_of_ne (happends.number ▸ hn) (prAt_eq_some.mp hat)

/-- A version that follows a merged one is merged. -/
lemma Follows.staysMerged (h : Follows pr pr') : StaysMerged pr pr' := by
  intro hmerged
  rcases h with rfl | ⟨hextends, -⟩
  · exact hmerged
  · obtain ⟨-, -, -, -, -, -, -, hstate⟩ := Pr.validateExtends_eq_ok.mp hextends
    exact Pr.state_eq_merged_of_checkState hmerged hstate

/-- The versions of a pull request in a run all of whose events are allowed: each one extends the
one before it and becomes merged from the open state only, and once merged it stays merged. -/
theorem pr_history {as : List (Event W)} (hat : prAt n s = some pr) (hgood : Good t s.now pr)
    (hallowed : Machine.Always (step hashBytes t) (Allowed t) s as)
    (hfree : ∀ s' ∈ Machine.trace (step hashBytes t) s as, s'.repo.objects.CollisionFree) :
    ∃ versions : List Pr,
      (Machine.trace (step hashBytes t) s as).map (prAt n) = versions.map some ∧
      versions.IsChain Follows ∧ versions.Pairwise StaysMerged := by
  have hstep : ∀ (s : State W) a s', (∃ pr, prAt n s = some pr ∧ Good t s.now pr) →
      Allowed t s a → step hashBytes t s a = some s' → s'.repo.objects.CollisionFree →
      (∃ pr', prAt n s' = some pr' ∧ Good t s'.now pr') ∧
        Follows ((prAt n s).getD pr) ((prAt n s').getD pr) := by
    rintro s a s' ⟨pr₁, hat₁, hgood₁⟩ hallowed₁ hs hfree₁
    obtain ⟨pr₂, hat₂, hgood₂, hfollows⟩ := follows_of_step hs hallowed₁ hfree₁ hat₁ hgood₁
    exact ⟨⟨pr₂, hat₂, hgood₂⟩, by rwa [hat₁, hat₂]⟩
  obtain ⟨hall, hchain⟩ := Machine.trace_isChain hstep hallowed hfree ⟨pr, hat, hgood⟩
  have hchain' : ((Machine.trace (step hashBytes t) s as).map fun s =>
      (prAt n s).getD pr).IsChain Follows := isChain_map _ |>.mpr hchain
  refine ⟨_, ?_, hchain', ?_⟩
  · rw [map_map]
    refine map_congr_left fun s' hs' => ?_
    obtain ⟨pr', hat', -⟩ := hall s' hs'
    rw [Function.comp, hat', Option.getD_some]
  · exact isChain_iff_pairwise.mp (hchain'.imp fun _ _ h => h.staysMerged)

end Steps

/-! ### Sample runs -/

/-- An open pull request. -/
def samplePr : Pr :=
  ⟨1, "Add feature", .opened, "refs/heads/topic", "refs/heads/main",
    "a <a@b>", 1700000000, [], [], [],
    [{ emptyEvent .opened "a <a@b>" 1700000000 with body := "ready" }]⟩

/-- A repository with an open pull request and its target branch. -/
def sampleState : State Unit where
  repo := (writeLocked sampleHash Document.sampleTables samplePr).after
    ⟨⟨[]⟩, ⟨[("refs/heads/main", refContent (sampleHash []))], []⟩, ()⟩
  now := 1700000000
  running := []

/-- While a process is merging, another one may close the pull request, which then becomes merged
from the closed state. -/
theorem closed_pr_becomes_merged :
    ((Machine.trace (step sampleHash Document.sampleTables) sampleState
      [.mergeStart 1 1, .edit (.close []) "b <b@b>" 1, .mergeTip 1,
        .mergeEnd 1 "a <a@b>"]).map fun s => (prAt 1 s).map (·.state)) =
      [some .opened, some .opened, some .closed, some .closed, some .merged] := by decide +kernel

lemma samplePr_good : Good Document.sampleTables 1700000000 samplePr where
  number := by decide
  mentions := nofun
  plain := {
    title := by decide +kernel
    sourceRef := by decide +kernel
    targetRef := by decide +kernel
    author := by decide +kernel
    labels := nofun
    assignees := nofun
    events := by
      show ∀ e ∈ [_], Pr.PlainEvent Document.sampleTables e
      rw [forall_mem_singleton]
      exact ⟨by decide +kernel, by decide +kernel, nofun, nofun, plain_nil, plain_nil⟩ }
  monotonic := rfl
  past := by decide

/-- A comment is written while the merge runs. -/
theorem pr_history_merge :
    ∃ versions : List Pr,
      (Machine.trace (step sampleHash Document.sampleTables) sampleState
        [.mergeStart 1 1, .edit (.comment "see #2") "b <b@b>" 1, .tick 1700000001,
          .mergeTip 1, .mergeEnd 1 "a <a@b>"]).map (prAt 1) = versions.map some ∧
      versions.IsChain Follows ∧ versions.Pairwise StaysMerged :=
  pr_history (by decide +kernel) samplePr_good (by decide +kernel)
    (by unfold Store.CollisionFree; decide +kernel)

end Gyt.PrRuns
