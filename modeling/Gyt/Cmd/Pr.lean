import Gyt.Cmd.Metadata

/-!
# Commands on pull requests

The subcommands of `gyt pr` that change a pull request, `cmd/pr.rs`.  Every change appends an event
with the current time (`Appends`), and the changed pull request extends the one that was read
(`Appends.validateExtends`).
-/

namespace Gyt.Pr

open Command Text Toml

/-! ## Changes of a pull request -/

/-- An event without texts. -/
def emptyEvent (kind : PrEventKind) (me : Str) (now : ℤ) : PrEvent :=
  ⟨kind, me, now, [], [], [], [], []⟩

/-- Adding and removing entries of a sorted list without repetitions. -/
def updateEntries (entries add remove : List Str) : List Str :=
  let added := add.foldl (fun out x => if x ∈ out then out else out ++ [x]) entries
  ((added.filter (· ∉ remove)).mergeSort).destutter (· ≠ ·)

/-- The commands that change a pull request under one lock. -/
inductive Edit where
  | comment (body : Str)
  | close (reason : Str)
  | reopen
  | label (add remove : List Str)
  | assign (add remove : List Str)
  deriving DecidableEq, Repr

/-- The check of the arguments before the repository is opened. -/
def Edit.checkArgs : Edit → Result Unit
  | .comment body =>
    ensure (trim body ≠ []) (.invalidArgument ["comment: body must not be blank"])
  | .label add remove =>
    ensure (¬(add = [] ∧ remove = [])) (.invalidArgument ["label: pass --add and/or --remove"])
  | .assign add remove =>
    ensure (¬(add = [] ∧ remove = []))
      (.invalidArgument ["assign: pass --add and/or --remove"])
  | _ => .ok ()

/-- What a command makes of the pull request that it has read. -/
def Edit.apply (me : Str) (now : ℤ) (pr : Pr) : Edit → Result Pr
  | .comment body =>
    .ok { pr with
      mentions := Issue.mergeMentions pr.mentions (Issue.extractMentions body) pr.number
      events := pr.events ++ [{ emptyEvent .comment me now with body }] }
  | .close reason => do
    ensure (pr.state ≠ .closed)
      (.invalidArgument ["pr #", .num pr.number, " already closed"])
    ensure (pr.state ≠ .merged)
      (.invalidArgument ["pr #", .num pr.number, " already merged; cannot close"])
    return { pr with
      state := .closed
      events := pr.events ++ [{ emptyEvent .close me now with reason }] }
  | .reopen => do
    ensure (pr.state ≠ .opened)
      (.invalidArgument ["pr #", .num pr.number, " already open"])
    ensure (pr.state ≠ .merged)
      (.invalidArgument ["pr #", .num pr.number, " is merged; cannot reopen"])
    return { pr with
      state := .opened
      events := pr.events ++ [emptyEvent .reopen me now] }
  | .label add remove =>
    .ok { pr with
      labels := updateEntries pr.labels add remove
      events := pr.events ++ [{ emptyEvent .label me now with add, remove }] }
  | .assign add remove =>
    .ok { pr with
      assignees := updateEntries pr.assignees add remove
      events := pr.events ++ [{ emptyEvent .assign me now with add, remove }] }

/-- Recording a merge with the commit it produced. -/
def recordMerge (me : Str) (now : ℤ) (tip : ObjectId) (pr : Pr) : Result Pr :=
  .ok { pr with
    state := .merged
    events := pr.events ++ [{ emptyEvent .merge me now with result := tip.toHex }] }

def recordCiRun (me : Str) (now : ℤ) (result : Str) (pr : Pr) : Result Pr :=
  .ok { pr with events := pr.events ++ [{ emptyEvent .ciRun me now with result }] }

def Edit.Plain (t : DebugTables) : Edit → Prop
  | .comment body => Toml.Plain t body
  | .close reason => Toml.Plain t reason
  | .reopen => True
  | .label add remove | .assign add remove =>
    (∀ s ∈ add, Toml.Plain t s) ∧ ∀ s ∈ remove, Toml.Plain t s

instance (t : DebugTables) : (e : Edit) → Decidable (e.Plain t)
  | .comment _ | .close _ => inferInstanceAs (Decidable (Toml.Plain _ _))
  | .reopen => isTrue trivial
  | .label _ _ | .assign _ _ => inferInstanceAs (Decidable (_ ∧ _))

/-- What every change of a pull request does: it appends an event with the current time, keeps what
identifies the pull request, and changes the state in an allowed way. -/
structure Appends (now : ℤ) (pr pr' : Pr) : Prop where
  number : pr'.number = pr.number
  createdTs : pr'.createdTs = pr.createdTs
  author : pr'.author = pr.author
  title : pr'.title = pr.title
  sourceRef : pr'.sourceRef = pr.sourceRef
  targetRef : pr'.targetRef = pr.targetRef
  event : ∃ e, pr'.events = pr.events ++ [e] ∧ e.ts = now
  state : checkState pr pr' = .ok ()

/-- What holds for a pull request that was written here: its numbers have 64 bits, its texts are
plain, and its events are in order and not later than the clock. -/
structure Good (t : DebugTables) (now : ℤ) (pr : Pr) : Prop where
  number : pr.number < 2 ^ 64
  mentions : ∀ n ∈ pr.mentions, n < 2 ^ 64
  plain : pr.PlainTexts t
  monotonic : checkMonotonic "pr" PrEvent.ts pr.events = .ok ()
  past : ∀ e ∈ pr.events, e.ts ≤ now

section Changes

variable {t : DebugTables} {me : Str} {now : ℤ} {pr pr' : Pr}

/-- An event that is not earlier than the others may be appended. -/
lemma checkMonotonic_concat {es : List PrEvent} {e : PrEvent}
    (hmono : checkMonotonic "pr" PrEvent.ts es = .ok ()) (hpast : ∀ e' ∈ es, e'.ts ≤ e.ts) :
    checkMonotonic "pr" PrEvent.ts (es ++ [e]) = .ok () := by
  induction es with
  | nil => rfl
  | cons a es ih =>
    obtain ⟨ha, hes⟩ := List.forall_mem_cons.mp hpast
    cases es with
    | nil =>
      rw [List.singleton_append, checkMonotonic, check_bind_eq_ok]
      exact ⟨ensure_eq_ok.mpr ha.not_gt, rfl⟩
    | cons b es =>
      rw [checkMonotonic, check_bind_eq_ok] at hmono
      rw [List.cons_append, List.cons_append, checkMonotonic, check_bind_eq_ok]
      exact ⟨hmono.1, ih hmono.2 hes⟩

/-- A change of a pull request that was written here extends it. -/
theorem Appends.validateExtends (h : Appends now pr pr') (hgood : Good t now pr) :
    validateExtends pr pr' = .ok () := by
  obtain ⟨e, hevents, hts⟩ := h.event
  have hmono : checkMonotonic "pr" PrEvent.ts pr'.events = .ok () := by
    rw [hevents]
    exact checkMonotonic_concat hgood.monotonic (hts ▸ hgood.past)
  exact validateExtends_eq_ok.mpr ⟨h.number, h.createdTs, h.author, h.title, h.sourceRef,
    h.targetRef, ⟨⟨[e], hevents.symm⟩, hmono⟩, h.state⟩

lemma mem_of_mem_updateEntries {entries add remove : List Str} {x : Str}
    (h : x ∈ updateEntries entries add remove) : x ∈ entries ∨ x ∈ add := by
  have hfold := List.mem_of_mem_filter
    (List.mem_mergeSort.mp ((List.destutter_sublist _ _).subset h))
  clear h
  induction add generalizing entries with
  | nil => exact .inl hfold
  | cons a add ih =>
    rw [List.foldl_cons] at hfold
    rcases ih hfold with hmem | hmem
    · split_ifs at hmem
      · exact .inl hmem
      · rcases List.mem_append.mp hmem with hmem | hmem
        · exact .inl hmem
        · exact .inr (List.mem_singleton.mp hmem ▸ List.mem_cons_self)
    · exact .inr (List.mem_cons_of_mem _ hmem)

lemma checkState_of_eq (h : pr'.state = pr.state) : checkState pr pr' = .ok () := by
  rw [checkState, h]
  cases pr.state <;> rfl

/-- An edit changes a pull request as every command does, and does not merge it. -/
lemma Edit.appends_of_apply {e : Edit} (h : e.apply me now pr = .ok pr') :
    Appends now pr pr' ∧ (pr'.state = .merged → pr.state = .merged) := by
  cases e with
  | comment body =>
    cases h
    exact ⟨⟨rfl, rfl, rfl, rfl, rfl, rfl, ⟨_, rfl, rfl⟩, checkState_of_eq rfl⟩, id⟩
  | close reason =>
    rw [apply, check_bind_eq_ok, check_bind_eq_ok, pure_eq_ok] at h
    obtain ⟨hclosed, hmerged, rfl⟩ := h
    refine ⟨⟨rfl, rfl, rfl, rfl, rfl, rfl, ⟨_, rfl, rfl⟩, ?_⟩, by rintro ⟨⟩⟩
    rw [ensure_eq_ok] at hclosed hmerged
    cases hstate : pr.state with
    | opened => rw [checkState, hstate]
    | closed => exact absurd hstate hclosed
    | merged => exact absurd hstate hmerged
  | reopen =>
    rw [apply, check_bind_eq_ok, check_bind_eq_ok, pure_eq_ok] at h
    obtain ⟨hopen, hmerged, rfl⟩ := h
    refine ⟨⟨rfl, rfl, rfl, rfl, rfl, rfl, ⟨_, rfl, rfl⟩, ?_⟩, by rintro ⟨⟩⟩
    rw [ensure_eq_ok] at hopen hmerged
    cases hstate : pr.state with
    | opened => exact absurd hstate hopen
    | closed => rw [checkState, hstate]
    | merged => exact absurd hstate hmerged
  | label add remove =>
    cases h
    exact ⟨⟨rfl, rfl, rfl, rfl, rfl, rfl, ⟨_, rfl, rfl⟩, checkState_of_eq rfl⟩, id⟩
  | assign add remove =>
    cases h
    exact ⟨⟨rfl, rfl, rfl, rfl, rfl, rfl, ⟨_, rfl, rfl⟩, checkState_of_eq rfl⟩, id⟩

lemma recordMerge_appends {tip : ObjectId} (h : recordMerge me now tip pr = .ok pr') :
    Appends now pr pr' := by
  cases h
  refine ⟨rfl, rfl, rfl, rfl, rfl, rfl, ⟨_, rfl, rfl⟩, ?_⟩
  cases hstate : pr.state <;> simp [checkState, hstate, emptyEvent]

lemma recordCiRun_appends {result : Str} (h : recordCiRun me now result pr = .ok pr') :
    Appends now pr pr' ∧ pr'.state = pr.state := by
  cases h
  exact ⟨⟨rfl, rfl, rfl, rfl, rfl, rfl, ⟨_, rfl, rfl⟩, checkState_of_eq rfl⟩, rfl⟩

/-- A change keeps what holds for pull requests that were written here if the event, the labels, the
assignees and the mentions that it adds do. -/
lemma Good.of_appends {e : PrEvent} (hgood : Good t now pr) (h : Appends now pr pr')
    (hevents : pr'.events = pr.events ++ [e]) (hts : e.ts = now) (he : PlainEvent t e)
    (hlabels : ∀ s ∈ pr'.labels, Plain t s) (hassignees : ∀ s ∈ pr'.assignees, Plain t s)
    (hmentions : ∀ n ∈ pr'.mentions, n < 2 ^ 64) : Good t now pr' where
  number := h.number ▸ hgood.number
  mentions := hmentions
  plain := {
    title := h.title ▸ hgood.plain.title
    sourceRef := h.sourceRef ▸ hgood.plain.sourceRef
    targetRef := h.targetRef ▸ hgood.plain.targetRef
    author := h.author ▸ hgood.plain.author
    labels := hlabels
    assignees := hassignees
    events := by
      rw [hevents, List.forall_mem_append, List.forall_mem_singleton]
      exact ⟨hgood.plain.events, he⟩ }
  monotonic := by
    rw [hevents]
    exact checkMonotonic_concat hgood.monotonic (hts ▸ hgood.past)
  past := by
    rw [hevents, List.forall_mem_append, List.forall_mem_singleton]
    exact ⟨hgood.past, hts.le⟩

lemma Good.updateEntries {entries add remove : List Str} (hentries : ∀ s ∈ entries, Plain t s)
    (hadd : ∀ s ∈ add, Plain t s) : ∀ s ∈ updateEntries entries add remove, Plain t s :=
  fun s hs => (mem_of_mem_updateEntries hs).elim (hentries s) (hadd s)

lemma Good.edit {e : Edit} (hgood : Good t now pr) (hme : Plain t me) (he : e.Plain t)
    (h : e.apply me now pr = .ok pr') : Good t now pr' := by
  have happends := (Edit.appends_of_apply h).1
  cases e with
  | comment body =>
    cases h
    refine hgood.of_appends happends rfl rfl ⟨hme, he, nofun, nofun, plain_nil, plain_nil⟩
      hgood.plain.labels hgood.plain.assignees fun n hn => ?_
    rcases Issue.mem_of_mem_mergeMentions hn with hn | hn
    · exact hgood.mentions n hn
    · exact Issue.lt_of_mem_extractMentions hn
  | close reason =>
    rw [Edit.apply, check_bind_eq_ok, check_bind_eq_ok, pure_eq_ok] at h
    obtain ⟨-, -, rfl⟩ := h
    exact hgood.of_appends happends rfl rfl ⟨hme, plain_nil, nofun, nofun, he, plain_nil⟩
      hgood.plain.labels hgood.plain.assignees hgood.mentions
  | reopen =>
    rw [Edit.apply, check_bind_eq_ok, check_bind_eq_ok, pure_eq_ok] at h
    obtain ⟨-, -, rfl⟩ := h
    exact hgood.of_appends happends rfl rfl ⟨hme, plain_nil, nofun, nofun, plain_nil, plain_nil⟩
      hgood.plain.labels hgood.plain.assignees hgood.mentions
  | label add remove =>
    cases h
    exact hgood.of_appends happends rfl rfl ⟨hme, plain_nil, he.1, he.2, plain_nil, plain_nil⟩
      (Good.updateEntries hgood.plain.labels he.1) hgood.plain.assignees hgood.mentions
  | assign add remove =>
    cases h
    exact hgood.of_appends happends rfl rfl ⟨hme, plain_nil, he.1, he.2, plain_nil, plain_nil⟩
      hgood.plain.labels (Good.updateEntries hgood.plain.assignees he.1) hgood.mentions

lemma plain_toHex (t : DebugTables) (id : ObjectId) : Plain t id.toHex := by
  have hpair : ∀ b : UInt8, (ObjectId.hexPair b).all
      (fun c => 0x20 ≤ c.toNat && c.toNat < 0x7f) = true := ObjectId.forall_byte (by decide +kernel)
  refine plain_of_ascii (List.all_eq_true.mpr fun c hc => ?_)
  obtain ⟨b, -, hc⟩ := List.mem_flatMap.mp hc
  exact List.all_eq_true.mp (hpair b) c hc

lemma Good.recordMerge {tip : ObjectId} (hgood : Good t now pr) (hme : Plain t me)
    (h : recordMerge me now tip pr = .ok pr') : Good t now pr' := by
  have happends := recordMerge_appends h
  cases h
  exact hgood.of_appends happends rfl rfl
    ⟨hme, plain_nil, nofun, nofun, plain_nil, plain_toHex t tip⟩ hgood.plain.labels
    hgood.plain.assignees hgood.mentions

lemma Good.recordCiRun {result : Str} (hgood : Good t now pr) (hme : Plain t me)
    (hresult : Plain t result) (h : recordCiRun me now result pr = .ok pr') : Good t now pr' := by
  have happends := (recordCiRun_appends h).1
  cases h
  exact hgood.of_appends happends rfl rfl ⟨hme, plain_nil, nofun, nofun, plain_nil, hresult⟩
    hgood.plain.labels hgood.plain.assignees hgood.mentions

end Changes

/-! ## Commands -/

section Commands

variable {W : Type} (hashBytes : Hash) (t : DebugTables)

/-- Reading a pull request. -/
def readCmd (n : ℕ) : Cmd W Pr := do
  let r ← gets fun repo => read repo.objects repo.files n
  lift r

/-- Reading a pull request, changing it and storing it again. -/
def update (n : ℕ) (change : Pr → Result Pr) : Cmd W Unit := do
  let pr ← readCmd n
  let pr ← lift (change pr)
  let _ ← writeLocked hashBytes t pr

/-- The commands `comment`, `close`, `reopen`, `label` and `assign`. -/
def cmdEdit (e : Edit) (me : Str) (now : ℤ) (n : ℕ) : Cmd W Unit := do
  lift e.checkArgs
  update hashBytes t n (e.apply me now)

/-- The check of `merge` before it switches to the target. -/
def mergeCheck (n : ℕ) : Cmd W Pr := do
  let pr ← readCmd n
  lift (ensure (pr.state = .opened) (.invalidArgument ["pr #", .num n, " is not open"]))
  return pr

/-- The check of `ci-run` before it runs the scripts. -/
def ciRunCheck (n : ℕ) : Cmd W Pr := do
  let pr ← readCmd n
  lift (ensure (pr.state ≠ .closed)
    (.invalidArgument ["pr #", .num n, " is closed; not running CI"]))
  return pr

variable {hashBytes t} {n : ℕ} {change : Pr → Result Pr} {repo repo' : Repo W}

lemma readCmd_eq_ok {pr : Pr} : (readCmd n : Cmd W Pr).run repo = some (.ok pr, repo') ↔
    read repo.objects repo.files n = .ok pr ∧ repo' = repo := by
  unfold readCmd
  rw [seq_eq_ok]
  simp [eq_comm]

/-- An update either stores a changed pull request, or leaves the references as they are. -/
lemma update_cases (hashBytes : Hash) (t : DebugTables) (n : ℕ)
    (change : Pr → Result Pr) (repo : Repo W) :
    (((update hashBytes t n change).after repo).files = repo.files ∧
      repo.objects.Extends ((update hashBytes t n change).after repo).objects) ∨
    ∃ pr pr', read repo.objects repo.files n = .ok pr ∧ change pr = .ok pr' ∧
      pr'.validate = .ok () ∧ validateRefName (refName pr'.number) = .ok () ∧
      (update hashBytes t n change).after repo =
        stored hashBytes refsPrefix pr'.number (pr'.encode t) repo := by
  cases hrun : (update hashBytes t n change).run repo with
  | none =>
    rw [after, hrun]
    exact .inl ⟨rfl, .refl _⟩
  | some p =>
    obtain ⟨r, repo'⟩ := p
    rw [after, hrun, Option.map_some, Option.getD_some]
    cases r with
    | ok u =>
      obtain ⟨pr, repo₁, hreadCmd, hrest⟩ := seq_eq_ok.mp hrun
      obtain ⟨hread, rfl⟩ := readCmd_eq_ok.mp hreadCmd
      obtain ⟨pr', hchange, hrest'⟩ := lift_bind_eq_ok.mp hrest
      obtain ⟨id, repo₃, hwrite, hpure⟩ := seq_eq_ok.mp hrest'
      cases hpure
      obtain ⟨hvalid, hname, hrepo⟩ := writeDocument_eq_ok hwrite
      exact .inr ⟨pr, pr', hread, hchange, hvalid, hname, hrepo⟩
    | error e =>
      refine .inl ?_
      rcases seq_eq_error.mp hrun with hread | ⟨pr, repo₁, hread, hrest⟩
      · rcases seq_eq_error.mp hread with hgets | ⟨r, repo₁, hgets, hlift⟩
        · cases hgets
        · cases hgets
          rw [(lift_eq_error.mp hlift).2]
          exact ⟨rfl, .refl _⟩
      obtain ⟨-, rfl⟩ := readCmd_eq_ok.mp hread
      rcases seq_eq_error.mp hrest with hchange | ⟨pr', repo₂, hchange, hrest'⟩
      · rw [(lift_eq_error.mp hchange).2]
        exact ⟨rfl, .refl _⟩
      obtain ⟨-, rfl⟩ := lift_eq_ok.mp hchange
      rcases seq_eq_error.mp hrest' with hwrite | ⟨id, repo₃, hwrite, hpure⟩
      · exact writeDocument_eq_error hwrite
      · cases hpure

end Commands

end Gyt.Pr
