import Gyt.Cmd.FetchMetadata
import Gyt.Cmd.NewDocument
import Gyt.Cmd.Pull
import Gyt.ConfigWrite

/-!
# Numbers of new documents

Runs of the commands that make documents and of those that copy them from a server (`clone`, `fetch`
and `pull`).  A new document replaces no other one as long as the counter of its kind is above all
numbers in use.  The commands that copy references do not raise the counters: after a clone the next
issue gets number 1, whatever issues the server has.

`fresh_of_covered` says that numbers stay fresh in a run in which servers advertise only numbers
below the counters.
-/

namespace Gyt

open Command Text Toml List Option MetaKind

variable {W : Type}

/-! ## Cloning -/

section Clone

variable (t : DebugTables) (os : Os W) (env : Config.Environment) (connect : Str → Result Remote)

/-- The branch that `HEAD` names after a clone. -/
def pickHead (serverRefs : List RefEntry) : Option Str :=
  if serverRefs.any (·.name = "refs/heads/main") then some "refs/heads/main"
  else (serverRefs.find? fun r => "refs/heads/".toList.isPrefixOf r.name).map (·.name)

/-- Copying an advertised reference; one that cannot be written is skipped. -/
def cloneRef (r : RefEntry) : Cmd W Unit :=
  if isUserVisibleRef r.name then do
    let _ ← attempt (writeRef r.name r.id)
    return ()
  else return ()

/-- The command `clone` in the repository that `init` made. -/
def cloneIntoInner (url : Str) (insecure : Bool) : Cmd W Unit := do
  let cfg ← readFiles (Config.load env)
  atomicWrite Config.configPath
    ({ cfg with remotes := cfg.remotes.insert "origin" url }.write t)
  let client ← lift (openClient connect url insecure)
  let serverRefs ← lift (fetchInfoRefs client)
  let _ ← act fun repo =>
    ((client.walkAndFetch serverRefs repo.objects).1,
      { repo with objects := (client.walkAndFetch serverRefs repo.objects).2 })
  serverRefs.forM cloneRef
  match pickHead serverRefs with
  | none => return ()
  | some name => do
    writeHead (.symbolic name)
    let tip ← gets fun repo => readRef repo.files name
    match tip with
    | .ok commitId => Merge.materializeCommit os commitId
    | .error _ => return ()

end Clone

/-! ## Runs -/

/-- The commands that make documents or copy them from a server, with what the server answers. -/
inductive MetaCmd where
  | clone (connect : Str → Result Remote) (url : Str) (insecure : Bool)
  | fetch (connect : Str → Result Remote) (remote : Str) (refspec : Option Str)
      (insecure prune : Bool)
  | pull (connect : Str → Result Remote) (remote : Str) (insecure : Bool)
  | issueNew (kind : IssueKind) (title body : Option Str) (now : ℤ)
  | prNew (title body source target : Option Str) (now : ℤ)
  | incidentNew (args : IncidentArgs) (now : ℤ)

/-- What commands take from their surroundings. -/
structure MetaEnv (W : Type) where
  hashBytes : Hash
  tables : DebugTables
  os : Os W
  config : Config.Environment
  merge : Rebase.Env
  /-- A bound for the recursion of merges. -/
  fuel : ℕ

namespace MetaCmd

/-- Running a command; the result is the kind and the number of the document that it made. -/
def run (env : MetaEnv W) : MetaCmd → Cmd W (Option (MetaKind × ℕ))
  | .clone connect url insecure => do
    cloneIntoInner env.tables env.os env.config connect url insecure
    return none
  | .fetch connect remote refspec insecure prune => do
    let _ ← fetchWithRefspecInner env.config connect remote refspec insecure prune
    return none
  | .pull connect remote insecure => do
    Pull.runIn env.hashBytes env.os env.fuel env.merge env.config connect remote insecure
    return none
  | .issueNew kind title body now => do
    let n ← Gyt.issueNew env.hashBytes env.tables env.config kind title body now
    return some (.issue, n)
  | .prNew title body source target now => do
    let n ← Gyt.prNew env.hashBytes env.tables env.config title body source target now
    return some (.pr, n)
  | .incidentNew args now => do
    let n ← Gyt.incidentNew env.hashBytes env.tables env.config args now
    return some (.incident, n)

/-- The references that the server of a command advertises, as far as the command looks at them. -/
def advertised (env : Config.Environment) (fs : RefFiles) : MetaCmd → Result (List RefEntry)
  | .clone connect url insecure => do
    let client ← openClient connect url insecure
    fetchInfoRefs client
  | .fetch connect remote refspec insecure _ => do
    let (_, refs) ← advertisedRefs env connect remote insecure fs
    return selectedRefs refspec refs
  | .pull connect remote insecure => do
    let (_, refs) ← advertisedRefs env connect remote insecure fs
    return refs
  | _ => .ok []

/-- The documents that the server of a command advertises have numbers below the counters. -/
def Covered (env : Config.Environment) (fs : RefFiles) (cmd : MetaCmd) : Prop :=
  ∀ refs, cmd.advertised env fs = .ok refs → ∀ r ∈ refs, ∀ (k : MetaKind) (n c : ℕ),
    r.name = k.refName n → k.counter fs = some c → n < c

end MetaCmd

/-- A document was made under a number at which there was none, and the other documents stay. -/
structure MakesFresh (repo repo' : Repo W) (k : MetaKind) (n : ℕ) : Prop where
  fresh : repo.files.get? (k.refName n) = none
  made : (repo'.files.get? (k.refName n)).isSome
  others : ∀ (k' : MetaKind) (m : ℕ), (repo.files.get? (k'.refName m)).isSome →
    repo'.files.get? (k'.refName m) = repo.files.get? (k'.refName m)

/-- In a run of commands from some repository on, every new document gets a fresh number. -/
def FreshRun (env : MetaEnv W) : Repo W → List MetaCmd → Prop
  | _, [] => True
  | repo, cmd :: cmds => ∀ r repo', (cmd.run env).run repo = some (r, repo') →
    (∀ k n, r = .ok (some (k, n)) → MakesFresh repo repo' k n) ∧ FreshRun env repo' cmds

/-- In a run of commands from some repository on, the servers advertise only numbers below the
counters. -/
def CoveredRun (env : MetaEnv W) : Repo W → List MetaCmd → Prop
  | _, [] => True
  | repo, cmd :: cmds => cmd.Covered env.config repo.files ∧
    ∀ r repo', (cmd.run env).run repo = some (r, repo') → CoveredRun env repo' cmds

/-! ## The references that commands set -/

/-- The counters stay, and documents are set under the given names only. -/
structure SetsOnly (names : Str → Prop) (repo repo' : Repo W) : Prop where
  counter : ∀ k : MetaKind, repo'.files.get? k.counterPath = repo.files.get? k.counterPath
  document : ∀ (k : MetaKind) (n : ℕ),
    repo'.files.get? (k.refName n) = repo.files.get? (k.refName n) ∨ names (k.refName n)

section SetsOnly

variable {names : Str → Prop} {repo repo' : Repo W} {α : Type}

instance : Std.Refl (SetsOnly (W := W) names) := ⟨fun _ => ⟨fun _ => rfl, fun _ _ => .inl rfl⟩⟩

instance : IsTrans (Repo W) (SetsOnly names) where
  trans _ _ _ h h' := by
    refine ⟨fun k => (h'.counter k).trans (h.counter k), fun k n => ?_⟩
    rcases h'.document k n with hsame' | hname
    · rw [hsame']
      exact h.document k n
    · exact .inr hname

/-- A path that is neither that of a counter nor that of a document, unless it has one of the names.
-/
structure Unnumbered (names : Str → Prop) (path : Str) : Prop where
  counter : ∀ k : MetaKind, k.counterPath ≠ path
  document : ∀ (k : MetaKind) (n : ℕ), k.refName n = path → names path

lemma take_counterPath (k : MetaKind) :
    k.counterPath.take 6 = "meta/i" ∨ k.counterPath.take 6 = "meta/p" := by
  cases k with
  | issue => exact .inl rfl
  | pr => exact .inr rfl
  | incident => exact .inl rfl

lemma take_refName (k : MetaKind) (n : ℕ) :
    (k.refName n).take 6 = "refs/i" ∨ (k.refName n).take 6 = "refs/p" := by
  cases k with
  | issue => exact .inl rfl
  | pr => exact .inr rfl
  | incident => exact .inl rfl

/-- What starts neither like a counter nor like a document is none. -/
lemma unnumbered_of_take {path : Str} (start : Str) (h : path.take 6 = start)
    (hstart : start ∉ ["meta/i".toList, "meta/p".toList, "refs/i".toList, "refs/p".toList]) :
    Unnumbered names path where
  counter k hk := by
    have htake := take_counterPath k
    rw [hk, h] at htake
    rcases htake with rfl | rfl <;> exact hstart (by decide)
  document k n hk := by
    have htake := take_refName k n
    rw [hk, h] at htake
    rcases htake with rfl | rfl <;> exact absurd (by decide) hstart

lemma setsOnly_of_files (h : ∀ path, ¬ Unnumbered names path →
    repo'.files.get? path = repo.files.get? path) : SetsOnly names repo repo' where
  counter k := h _ fun hk => hk.counter k rfl
  document k n := by
    by_cases hname : names (k.refName n)
    · exact .inr hname
    · exact .inl (h _ fun hk => hname (hk.document k n rfl))

lemma setsOnly_of_keeps {paths : List Str} (hpaths : ∀ path ∈ paths, Unnumbered names path)
    (h : Keeps paths repo repo') : SetsOnly names repo repo' :=
  setsOnly_of_files fun path hpath => h.get?_eq path fun hmem => hpath (hpaths path hmem)

lemma setsOnly_atomicWrite {path : Str} (hpath : Unnumbered names path) (content : Bytes) :
    Within (SetsOnly names) (atomicWrite path content : Cmd W Unit) :=
  (within_atomicWrite (mem_singleton.mpr rfl) content).mono fun _ _ h =>
    setsOnly_of_keeps (fun _ hmem => mem_singleton.mp hmem ▸ hpath) h

lemma setsOnly_writeRef {path : Str} (hpath : Unnumbered names path) (id : ObjectId) :
    Within (SetsOnly names) (writeRef path id : Cmd W Unit) :=
  within_writeRef (setsOnly_atomicWrite hpath) id

lemma unnumbered_indexPath : Unnumbered names indexPath :=
  unnumbered_of_take _ rfl (by decide)

lemma unnumbered_headPath : Unnumbered names headPath :=
  unnumbered_of_take _ rfl (by decide)

lemma setsOnly_materializeCommit (os : Os W) (id : ObjectId) :
    Within (SetsOnly names) (Merge.materializeCommit os id) := by
  have hkeeps : Within (Keeps [indexPath]) (Merge.materializeCommit os id) :=
    (within_readObjects _).bind fun c => within_materializeTree os (mem_singleton.mpr rfl) c.tree
  exact hkeeps.mono fun _ _ h =>
    setsOnly_of_keeps (fun _ hmem => mem_singleton.mp hmem ▸ unnumbered_indexPath) h

lemma setsOnly_deleteRef {path : Str} (hpath : Unnumbered names path) :
    Within (SetsOnly names) (deleteRef path : Cmd W Unit) := by
  refine within_deleteRef fun repo => setsOnly_of_files fun path' hpath' => ?_
  apply RefFiles.get?_remove_of_ne
  rintro rfl
  exact hpath' hpath

/-- What a command reads from the files is known to the rest of it, which starts in the same
repository. -/
lemma setsOnly_of_readFiles {f : RefFiles → Result α} {β : Type} {rest : α → Cmd W β}
    {r : Result β}
    (hrest : ∀ a, f repo.files = .ok a → (rest a).run repo = some (r, repo') →
      SetsOnly names repo repo')
    (h : (readFiles f >>= rest).run repo = some (r, repo')) : SetsOnly names repo repo' := by
  unfold readFiles at h
  cases hread : f repo.files with
  | error e =>
    have hfail : (gets (fun repo : Repo W => f repo.files) >>= fun r => lift r).run repo =
        some (.error e, repo) := by
      rw [run_gets_bind, hread]
      rfl
    rw [run_bind_of_error hfail] at h
    cases h
    exact Std.Refl.refl repo
  | ok a => exact hrest a hread (run_bind_of_ok (readFiles_eq_ok.mpr ⟨hread, rfl⟩) ▸ h)

end SetsOnly

section Commands

variable {names : Str → Prop} {repo repo' : Repo W} {remote : Str} {r : RefEntry}

lemma unnumbered_mappedRef {path : Str} (h : mappedRef remote r.name = some path)
    (hnames : names r.name) : Unnumbered names path where
  counter k hk := by
    have htake := take_counterPath k
    rw [hk] at htake
    rcases Pull.take_mappedRef h with heq | heq | heq <;> simp [heq] at htake
  document k n hk := by
    rw [← hk] at h ⊢
    rw [← mappedRef_eq_refName_iff.mp h]
    exact hnames

lemma setsOnly_mirrorRef (hnames : names r.name) (st : Mirrored) :
    Within (SetsOnly names) (mirrorRef remote st r : Cmd W Mirrored) :=
  within_mirrorRef (fun _ hpath => setsOnly_writeRef (unnumbered_mappedRef hpath hnames) r.id) st

lemma unnumbered_of_isBelow {path : Str} (h : RefFiles.isBelow path (remoteDir remote) = true) :
    Unnumbered names path := by
  obtain ⟨rest, rfl⟩ := isPrefixOf_iff_prefix.mp h
  exact unnumbered_of_take "refs/r" rfl (by decide)

lemma setsOnly_pruneRefs (refspec : Option Str) (advertisedLocal : List Str) :
    Within (SetsOnly names) (pruneRefs remote refspec advertisedLocal : Cmd W ℕ) :=
  within_pruneRefs (fun _ hbelow => setsOnly_deleteRef (unnumbered_of_isBelow hbelow)) _ _

variable {env : Config.Environment} {connect : Str → Result Remote} {insecure prune : Bool}
  {refspec : Option Str}

/-- A fetch sets the documents that are advertised. -/
lemma setsOnly_fetch {result : Result FetchSummary}
    (hnames : ∀ refs, (MetaCmd.fetch connect remote refspec insecure prune).advertised env
      repo.files = .ok refs → ∀ r ∈ refs, names r.name)
    (h : (fetchWithRefspecInner env connect remote refspec insecure prune).run repo =
      some (result, repo')) : SetsOnly names repo repo' := by
  refine setsOnly_of_readFiles (fun found hfound hrest => ?_) h
  obtain ⟨client, all⟩ := found
  have hselected : ∀ r ∈ selectedRefs refspec all, names r.name :=
    hnames _ (bind_eq_ok.mpr ⟨_, hfound, rfl⟩)
  refine (?_ : Within (SetsOnly names) _) repo result repo' hrest
  refine (within_lift _).bind fun _ => Within.bind (within_act fun repo => ?_) fun newObjects => ?_
  · exact ⟨fun _ => rfl, fun _ _ => .inl rfl⟩
  refine (within_foldlM_of_mem (fun st r hr => setsOnly_mirrorRef (hselected r hr) st) _).bind
    fun st => ?_
  dsimp only
  split_ifs
  · exact (setsOnly_pruneRefs refspec _).bind fun _ => within_pure _
  · exact (within_pure 0).bind fun _ => within_pure _

lemma setsOnly_cloneRef (hnames : names r.name) :
    Within (SetsOnly names) (cloneRef r : Cmd W Unit) := by
  unfold cloneRef
  split_ifs with hvisible
  · have hpath : Unnumbered names r.name := by
      refine ⟨fun k hk => ?_, fun _ _ _ => hnames⟩
      have hcounter : isUserVisibleRef k.counterPath = false := by cases k <;> decide
      rw [hk, hvisible] at hcounter
      cases hcounter
    exact (setsOnly_writeRef hpath r.id).attempt.bind fun _ => within_pure ()
  · exact within_pure ()

/-- A clone sets the documents that are advertised. -/
lemma setsOnly_clone {t : DebugTables} {os : Os W} {url : Str} (fs : RefFiles)
    (hnames : ∀ refs, (MetaCmd.clone connect url insecure).advertised env fs = .ok refs →
      ∀ r ∈ refs, names r.name) :
    Within (SetsOnly names) (cloneIntoInner t os env connect url insecure) := by
  refine (within_readFiles _).bind fun cfg => ?_
  refine (setsOnly_atomicWrite (unnumbered_of_take _ rfl (by decide)) _).bind fun _ => ?_
  refine within_lift_bind fun client hclient => within_lift_bind fun refs hrefs => ?_
  have hadvertised := hnames refs (bind_eq_ok.mpr ⟨client, hclient, hrefs⟩)
  refine Within.bind (within_act fun repo => ⟨fun _ => rfl, fun _ _ => .inl rfl⟩) fun _ => ?_
  refine (within_forM_of_mem fun r hr => setsOnly_cloneRef (hadvertised r hr)).bind fun _ => ?_
  split
  · exact within_pure ()
  · rename_i name _
    refine Within.bind ?_ fun _ => (within_gets _).bind fun tip => ?_
    · exact (within_lift _).bind fun _ => setsOnly_atomicWrite unnumbered_headPath _
    · split
      · exact setsOnly_materializeCommit os _
      · exact within_pure ()

/-- A branch is none of the documents. -/
lemma unnumbered_branch (branch : Str) : Unnumbered names ("refs/heads/" ++ branch) :=
  unnumbered_of_take "refs/h" rfl (by decide)

lemma setsOnly_ffFastForward (os : Os W) (branch : Str) (target : ObjectId) :
    Within (SetsOnly names)
      (Merge.ffFastForward os (.symbolic ("refs/heads/" ++ branch)) target) :=
  (setsOnly_writeRef (unnumbered_branch branch) target).bind fun _ =>
    setsOnly_materializeCommit os target

/-- The merge of a pull sets the current branch. -/
lemma setsOnly_mergeTracked {hashBytes : Hash} {os : Os W} {fuel : ℕ}
    {mergeEnv : Rebase.Env} :
    Within (SetsOnly names) (Pull.mergeTracked hashBytes os fuel mergeEnv remote) := by
  intro repo r repo' h
  refine setsOnly_of_readFiles (fun branch hbranch h₁ => ?_) h
  refine setsOnly_of_readFiles (fun tip htip h₂ => ?_) h₁
  have hhead := Pull.readHead_of_currentBranch hbranch
  unfold Merge.runInInner at h₂
  rw [run_bind_of_ok rfl, run_gets_bind] at h₂
  cases hrev : resolveRev repo.objects repo.files (remote ++ '/' :: branch) with
  | error e =>
    rw [hrev] at h₂
    cases h₂
    exact Std.Refl.refl repo
  | ok target =>
    rw [hrev, run_bind_of_ok rfl, run_bind_of_ok (readFiles_eq_ok.mpr ⟨hhead, rfl⟩)] at h₂
    refine setsOnly_of_readFiles (fun current _ h₃ => ?_) h₂
    cases current with
    | none => exact setsOnly_ffFastForward os branch target repo r repo' h₃
    | some current =>
      refine (?_ : Within (SetsOnly names) _) repo r repo' h₃
      refine (within_gets _).bind fun s => ?_
      split_ifs with hsame hbehind hahead hforward
      · exact within_pure ()
      · exact within_pure ()
      · exact setsOnly_ffFastForward os branch target
      · exact within_fail _
      · exact absurd rfl hforward

/-- A pull sets the documents that are advertised. -/
lemma setsOnly_pull {hashBytes : Hash} {os : Os W} {fuel : ℕ} {mergeEnv : Rebase.Env}
    {result : Result Unit}
    (hnames : ∀ refs, (MetaCmd.pull connect remote insecure).advertised env repo.files = .ok refs →
      ∀ r ∈ refs, names r.name)
    (h : (Pull.runIn hashBytes os fuel mergeEnv env connect remote insecure).run repo =
      some (result, repo')) : SetsOnly names repo repo' := by
  have hfetch :
      ∀ {r repo₁}, (fetchWithRefspecInner env connect remote none insecure false).run repo =
      some (r, repo₁) → SetsOnly names repo repo₁ := setsOnly_fetch hnames
  cases result with
  | ok u =>
    obtain ⟨summary, repo₁, hrun, hmerge⟩ := seq_eq_ok.mp h
    exact IsTrans.trans _ _ _ (hfetch hrun) (setsOnly_mergeTracked repo₁ _ repo' hmerge)
  | error e =>
    rcases seq_eq_error.mp h with hrun | ⟨summary, repo₁, hrun, hmerge⟩
    · exact hfetch hrun
    · exact IsTrans.trans _ _ _ (hfetch hrun) (setsOnly_mergeTracked repo₁ _ repo' hmerge)

end Commands

/-! ## Fresh numbers -/

/-- The counter of each kind is above the numbers in use. -/
def Numbered (repo : Repo W) : Prop :=
  ∀ (k : MetaKind) (c n : ℕ), k.counter repo.files = some c →
    (repo.files.get? (k.refName n)).isSome → n < c

section Fresh

variable {env : MetaEnv W} {repo repo' : Repo W} {k : MetaKind}

/-- A repository without documents. -/
lemma numbered_of_none (h : ∀ (k : MetaKind) n, repo.files.get? (k.refName n) = none) :
    Numbered repo := by
  intro k c n _ hsome
  rw [h] at hsome
  cases hsome

/-- Setting documents with numbers below the counters. -/
lemma Numbered.of_setsOnly {names : Str → Prop} (h : Numbered repo)
    (hsets : SetsOnly names repo repo') (hnames : ∀ (k : MetaKind) (n c : ℕ), names (k.refName n) →
      k.counter repo.files = some c → n < c) :
    Numbered repo' := by
  intro k c n hcounter hsome
  rw [counter_congr (hsets.counter k)] at hcounter
  rcases hsets.document k n with hsame | hname
  · rw [hsame] at hsome
    exact h k c n hcounter hsome
  · exact hnames k n c hname hcounter

variable {hashBytes : Hash} {document : ℕ → Result Unit × Bytes}

/-- A new document gets a fresh number, and the counters stay above the numbers in use. -/
lemma Numbered.storeNew {r : Result ℕ} (h : Numbered repo)
    (hrun : (storeNew hashBytes k document).run repo = some (r, repo')) :
    Numbered repo' ∧ ∀ n, r = .ok n → MakesFresh repo repo' k n := by
  rcases storeNew_files hrun with ⟨n, rfl, hbefore, hafter, hmade, hother⟩ |
    ⟨⟨e, rfl⟩, hother, hcounter⟩
  · have hdocument : ∀ (k' : MetaKind) m, (k', m) ≠ (k, n) →
        repo'.files.get? (k'.refName m) = repo.files.get? (k'.refName m) := by
      intro k' m hne
      apply hother _ (k.counterPath_ne_refName k' m).symm
      intro heq
      obtain ⟨rfl, rfl⟩ := refName_inj.mp heq
      exact hne rfl
    have hfresh : repo.files.get? (k.refName n) = none := by
      by_contra hsome
      exact lt_irrefl n (h k n n hbefore (isSome_iff_ne_none.mpr hsome))
    refine ⟨?_, ?_⟩
    · intro k' c m hc hsome
      by_cases hk : k' = k
      · subst hk
        obtain rfl : n + 1 = c := some.inj (hafter.symm.trans hc)
        by_cases hm : m = n
        · omega
        · rw [hdocument k' m (by simpa using hm)] at hsome
          exact (h k' n m hbefore hsome).trans (Nat.lt_succ_self n)
      · have hpath : k'.counterPath ≠ k.counterPath := fun heq => hk (counterPath_inj.mp heq)
        rw [counter_congr (hother _ hpath (k'.counterPath_ne_refName k n))] at hc
        rw [hdocument k' m (by simp [hk])] at hsome
        exact h k' c m hc hsome
    · rintro _ ⟨⟩
      refine ⟨hfresh, hmade, fun k' m hsome => hdocument k' m ?_⟩
      rintro heq
      cases heq
      rw [hfresh] at hsome
      cases hsome
  · refine ⟨?_, nofun⟩
    intro k' c m hc hsome
    rw [hother _ (k.counterPath_ne_refName k' m).symm] at hsome
    by_cases hk : k' = k
    · subst hk
      rcases hcounter with hsame | ⟨n, hbefore, hafter⟩
      · exact h k' c m (hsame ▸ hc) hsome
      · obtain rfl : n + 1 = c := some.inj (hafter.symm.trans hc)
        exact (h k' n m hbefore hsome).trans (Nat.lt_succ_self n)
    · have hpath : k'.counterPath ≠ k.counterPath := fun heq => hk (counterPath_inj.mp heq)
      rw [counter_congr (hother _ hpath)] at hc
      exact h k' c m hc hsome

/-- From a repository with counters above the numbers in use, a command that makes a document gives
it a fresh number. -/
def MakesOnlyFresh (k : MetaKind) (x : Cmd W ℕ) : Prop :=
  ∀ repo r repo', Numbered repo → x.run repo = some (r, repo') →
    Numbered repo' ∧ ∀ n, r = .ok n → MakesFresh repo repo' k n

lemma makesOnlyFresh_lift {α : Type} {a : Result α} {f : α → Cmd W ℕ}
    (h : ∀ a, MakesOnlyFresh k (f a)) : MakesOnlyFresh k (lift a >>= f) := by
  intro repo r repo' hnumbered hrun
  cases a with
  | error e =>
    cases hrun
    exact ⟨hnumbered, nofun⟩
  | ok a => exact h a repo r repo' hnumbered hrun

lemma makesOnlyFresh_readFiles {α : Type} {g : RefFiles → Result α} {f : α → Cmd W ℕ}
    (h : ∀ a, MakesOnlyFresh k (f a)) : MakesOnlyFresh k (readFiles g >>= f) := by
  intro repo r repo' hnumbered hrun
  exact makesOnlyFresh_lift (a := g repo.files) h repo r repo' hnumbered hrun

lemma makesOnlyFresh_storeNew : MakesOnlyFresh k (storeNew hashBytes k document : Cmd W ℕ) :=
  fun _ _ _ hnumbered hrun => hnumbered.storeNew hrun

variable {t : DebugTables} {config : Config.Environment}

lemma makesOnlyFresh_issueNew (kind : IssueKind) (title body : Option Str) (now : ℤ) :
    MakesOnlyFresh .issue (issueNew hashBytes t config kind title body now : Cmd W ℕ) :=
  makesOnlyFresh_lift fun _ => makesOnlyFresh_lift fun _ => makesOnlyFresh_readFiles fun _ =>
    makesOnlyFresh_storeNew

lemma makesOnlyFresh_prNew (title body source target : Option Str) (now : ℤ) :
    MakesOnlyFresh .pr (prNew hashBytes t config title body source target now : Cmd W ℕ) :=
  makesOnlyFresh_lift fun _ => makesOnlyFresh_lift fun _ => makesOnlyFresh_lift fun _ =>
    makesOnlyFresh_lift fun _ => makesOnlyFresh_lift fun _ => makesOnlyFresh_readFiles fun _ =>
      makesOnlyFresh_readFiles fun _ => makesOnlyFresh_readFiles fun _ => makesOnlyFresh_storeNew

lemma makesOnlyFresh_incidentNew (args : IncidentArgs) (now : ℤ) :
    MakesOnlyFresh .incident (incidentNew hashBytes t config args now : Cmd W ℕ) :=
  makesOnlyFresh_lift fun _ => makesOnlyFresh_lift fun _ => makesOnlyFresh_lift fun _ =>
    makesOnlyFresh_lift fun _ => makesOnlyFresh_lift fun _ => makesOnlyFresh_readFiles fun _ =>
      makesOnlyFresh_storeNew

/-- A document made by a command has a number that it reports. -/
lemma MakesOnlyFresh.map {x : Cmd W ℕ} (h : MakesOnlyFresh k x) (hnumbered : Numbered repo)
    {r : Result (Option (MetaKind × ℕ))}
    (hrun : (x >>= fun n => pure (some (k, n))).run repo = some (r, repo')) :
    Numbered repo' ∧ ∀ k' n, r = .ok (some (k', n)) → MakesFresh repo repo' k' n := by
  obtain ⟨r₀, hx, rfl⟩ := exists_of_bind_pure hrun
  obtain ⟨hnumbered', hfresh⟩ := h repo r₀ repo' hnumbered hx
  refine ⟨hnumbered', fun k' n hr => ?_⟩
  cases r₀ with
  | error e => cases hr
  | ok m =>
    cases hr
    exact hfresh _ rfl

/-- One command of a run. -/
theorem Numbered.run {cmd : MetaCmd} (h : Numbered repo)
    (hcovered : cmd.Covered env.config repo.files)
    {r : Result (Option (MetaKind × ℕ))} (hrun : (cmd.run env).run repo = some (r, repo')) :
    Numbered repo' ∧ ∀ k n, r = .ok (some (k, n)) → MakesFresh repo repo' k n := by
  -- a command that copies references reports no number
  have hcopy : ∀ {α : Type} {x : Cmd W α} {r : Result (Option (MetaKind × ℕ))},
      (∀ r₀, x.run repo = some (r₀, repo') →
        SetsOnly (fun name => ∃ refs, cmd.advertised env.config repo.files = .ok refs ∧
          ∃ r ∈ refs, r.name = name) repo repo') →
      (x >>= fun _ => pure none).run repo = some (r, repo') →
      Numbered repo' ∧ ∀ k n, r = .ok (some (k, n)) → MakesFresh repo repo' k n := by
    intro α x r hsets hcmd
    obtain ⟨r₀, hx, rfl⟩ := exists_of_bind_pure hcmd
    refine ⟨h.of_setsOnly (hsets r₀ hx) ?_, fun k n hr => ?_⟩
    · rintro k n c ⟨refs, hrefs, r, hr, hname⟩ hc
      exact hcovered refs hrefs r hr k n c hname hc
    · cases r₀ <;> cases hr
  cases cmd with
  | clone connect url insecure =>
    refine hcopy
      (fun r₀ hx => setsOnly_clone repo.files (fun refs hrefs r hr => ?_) repo r₀ repo' hx) hrun
    exact ⟨refs, hrefs, r, hr, rfl⟩
  | fetch connect remote refspec insecure prune =>
    refine hcopy (fun r₀ hx => setsOnly_fetch (fun refs hrefs r hr => ?_) hx) hrun
    exact ⟨refs, hrefs, r, hr, rfl⟩
  | pull connect remote insecure =>
    refine hcopy (fun r₀ hx => setsOnly_pull (fun refs hrefs r hr => ?_) hx) hrun
    exact ⟨refs, hrefs, r, hr, rfl⟩
  | issueNew kind title body now =>
    exact (makesOnlyFresh_issueNew kind title body now).map h hrun
  | prNew title body source target now =>
    exact (makesOnlyFresh_prNew title body source target now).map h hrun
  | incidentNew args now => exact (makesOnlyFresh_incidentNew args now).map h hrun

/-- In a run from a repository whose counters are above the numbers in use, such as one without
documents, every new document gets a fresh number if the servers advertise only numbers below the
counters. -/
theorem fresh_of_covered (env : MetaEnv W) (cmds : List MetaCmd) (repo : Repo W)
    (hstart : Numbered repo) (hcovered : CoveredRun env repo cmds) : FreshRun env repo cmds := by
  induction cmds generalizing repo with
  | nil => trivial
  | cons cmd cmds ih =>
    intro r repo' hrun
    obtain ⟨hnumbered, hfresh⟩ := hstart.run hcovered.1 hrun
    exact ⟨hfresh, ih repo' hnumbered (hcovered.2 r repo' hrun)⟩

end Fresh

/-! ## A server with an issue -/

/-- The surroundings of commands of a user. -/
def sampleMetaEnv : MetaEnv Unit where
  hashBytes := sampleHash
  tables := Document.sampleTables
  os := Rebase.idleOs
  config := ⟨none, some "a", some "a@b"⟩
  merge := ⟨.ok Config.default, fun _ => .error (.repo []), fun _ => 0⟩
  fuel := 0

/-- A repository that knows a server and has no references to documents. -/
def sampleBare : Repo Unit where
  objects := (sampleIssues (.fill 1)).objects
  files := ⟨[(Config.configPath, Utf8.encode "[remote.origin]\nurl = \"https://h/r\"\n")], []⟩
  workdir := ()

/-- A fetch from a server with an issue of the given number. -/
def fetchIssue (n : ℕ) : MetaCmd :=
  .fetch (wireClient sampleHash plainXz 2 fun _ => .ok
    { infoRefs := .ok (200, "OK", encodeInfoRefs [⟨MetaKind.issue.refName n, .fill 1⟩])
      objectsWant := fun _ _ => .error (.net []) })
    "origin" none false false

/-- The repository after a command. -/
def afterCmd (cmd : MetaCmd) (repo : Repo Unit) : Repo Unit := (cmd.run sampleMetaEnv).after repo

/-- The command that makes an issue. -/
def makeIssue : MetaCmd := .issueNew .issue (some "t") none 1700000000

lemma covered_makeIssue (fs : RefFiles) : makeIssue.Covered sampleMetaEnv.config fs := by
  rintro refs ⟨⟩ r hr
  exact absurd hr not_mem_nil

lemma run_fetchIssue : ((fetchIssue 1).run sampleMetaEnv).run sampleBare =
    some (.ok none, afterCmd (fetchIssue 1) sampleBare) :=
  run_eq_after (by decide +kernel)

/-- After a fetch of an issue, the first new issue gets its number and replaces it. -/
theorem fetched_issue_replaced :
    ∃ repo₁ repo₂, ((fetchIssue 1).run sampleMetaEnv).run sampleBare = some (.ok none, repo₁) ∧
      MetaKind.issue.read repo₁.objects repo₁.files 1 = .ok (.issue openedIssue) ∧
      (makeIssue.run sampleMetaEnv).run repo₁ = some (.ok (some (.issue, 1)), repo₂) ∧
      MetaKind.issue.read repo₂.objects repo₂.files 1 ≠ .ok (.issue openedIssue) ∧
      ¬ FreshRun sampleMetaEnv sampleBare [fetchIssue 1, makeIssue] := by
  have hmake : (makeIssue.run sampleMetaEnv).run (afterCmd (fetchIssue 1) sampleBare) =
      some (.ok (some (.issue, 1)), afterCmd makeIssue (afterCmd (fetchIssue 1) sampleBare)) :=
    run_eq_after (by decide +kernel)
  refine ⟨_, _, run_fetchIssue, by decide +kernel, hmake, by decide +kernel, ?_⟩
  intro hfresh
  have hnone := ((hfresh _ _ run_fetchIssue).2 _ _ hmake).1 .issue 1 rfl |>.fresh
  exact absurd hnone (by decide +kernel)

/-- If the first issue is made before the fetch, then the second one gets another number. -/
theorem fresh_of_covered_second :
    FreshRun sampleMetaEnv sampleBare [makeIssue, fetchIssue 1, makeIssue] := by
  have hmake : (makeIssue.run sampleMetaEnv).run sampleBare =
      some (.ok (some (.issue, 1)), afterCmd makeIssue sampleBare) :=
    run_eq_after (by decide +kernel)
  have hadvertised : (fetchIssue 1).advertised sampleMetaEnv.config
      (afterCmd makeIssue sampleBare).files = .ok [⟨MetaKind.issue.refName 1, .fill 1⟩] := by
    decide +kernel
  have hcounter : MetaKind.issue.counter (afterCmd makeIssue sampleBare).files = some 2 := by
    decide +kernel
  apply fresh_of_covered
  · apply numbered_of_none
    intro k n
    have hne : k.refName n ≠ Config.configPath := by
      intro heq
      rcases take_refName k n with htake | htake <;> rw [heq] at htake <;> cases htake
    show lookup (k.refName n) [(Config.configPath, _)] = none
    rw [lookup_cons, beq_false_of_ne hne, lookup_nil]
  · refine ⟨covered_makeIssue _, fun r repo₁ hrun => ?_⟩
    cases hmake.symm.trans hrun
    refine ⟨?_, fun r repo₂ _ => ⟨covered_makeIssue _, fun _ _ _ => trivial⟩⟩
    intro refs hrefs r hr k n c hname hc
    cases hadvertised.symm.trans hrefs
    obtain rfl := mem_singleton.mp hr
    obtain ⟨rfl, rfl⟩ : .issue = k ∧ 1 = n := MetaKind.refName_inj.mp hname
    rw [← some.inj (hcounter.symm.trans hc)]
    decide

end Gyt
