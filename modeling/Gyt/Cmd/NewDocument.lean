import Gyt.Cmd.Metadata
import Gyt.ConfigFile

/-!
# New issues, pull requests and incidents

The commands `issue new`, `discussion new`, `pr new` and `incident new` (`cmd/issue.rs`, `cmd/pr.rs`
and `cmd/incident.rs`), from the point on where their arguments are parsed.  A new document gets its
number from a counter file, one for each kind, and is stored under that number; the reference of
that name is not looked at.
-/

namespace Gyt

open Command Text Toml RefFiles MetaKind

variable {W : Type}

/-! ## Numbers -/

namespace MetaKind

def counterName : MetaKind → String
  | .issue => "issues_next"
  | .pr => "prs_next"
  | .incident => "incidents_next"

/-- The directory of the counter files. -/
def counterDir : Str := "meta"

/-- The path of the counter file, `COUNTER_PATH`. -/
def counterPath (k : MetaKind) : Str := counterDir ++ '/' :: k.counterName.toList

/-- The directory of the references to documents. -/
def refsPrefix : MetaKind → Str
  | .issue => Issue.refsPrefix
  | .pr => Pr.refsPrefix
  | .incident => Incident.refsPrefix

/-- Reading the next number. -/
def readCounter (k : MetaKind) (fs : RefFiles) : Result ℕ :=
  if fs.exists k.counterPath then do
    let body ← fs.readAll k.counterPath
    let txt ← okOr (Utf8.decode body) (.refs [.lit k.counterName, " is not utf-8"])
    okOr (parseU64 (trim txt)) (.refs [.lit k.counterName, " is not a number"])
  else .ok 1

def counterContent (n : ℕ) : Bytes := Utf8.encode (Text.ofNat n ++ ['\n'])

end MetaKind

/-- Making the directory of the counter files, `create_dir_all`. -/
def createCounterDir : Cmd W Unit :=
  act fun repo =>
    if (repo.files.get? MetaKind.counterDir).isSome then (.error (.io .alreadyExists), repo)
    else if repo.files.isDir MetaKind.counterDir then (.ok (), repo)
    else
      (.ok (), { repo with
        files := { repo.files with dirs := MetaKind.counterDir :: repo.files.dirs } })

/-- Taking the next number, under the lock on the repository. -/
def nextNumberLocked (k : MetaKind) : Cmd W ℕ := do
  createCounterDir
  let next ← readFiles k.readCounter
  lift (ensure (next + 1 < 2 ^ 64)
    (.refs [.lit k.counterName, " counter overflow (u64::MAX)"]))
  atomicWrite k.counterPath (MetaKind.counterContent (next + 1))
  return next

/-! ## The commands -/

section New

variable (hashBytes : Hash) (t : DebugTables) (env : Config.Environment)

def readIdentity (fs : RefFiles) : Result Str := do
  let cfg ← Config.load env fs
  cfg.identity

/-- Taking a number and storing a document under it, with the check and the bytes of the document.
-/
def storeNew (k : MetaKind) (document : ℕ → Result Unit × Bytes) : Cmd W ℕ := do
  let number ← nextNumberLocked k
  let _ ← writeDocument hashBytes k.refsPrefix number (document number).1 (document number).2
  return number

/-- The issue or discussion that a command makes. -/
def newIssue (kind : IssueKind) (title body me : Str) (now : ℤ) (number : ℕ) : Issue where
  number := number
  kind := kind
  title := title
  state := .opened
  author := me
  createdTs := now
  labels := []
  assignees := []
  mentions := Issue.mergeMentions [] (Issue.extractMentions body) number
  events := [⟨.opened, me, now, body, [], [], []⟩]

/-- The commands `issue new` and `discussion new`. -/
def issueNew (kind : IssueKind) (title : Option Str) (body : Option Str) (now : ℤ) : Cmd W ℕ := do
  let title ← lift (okOr title (.invalidArgument [.str kind.asStr, " new: title required"]))
  lift (ensure (trim title ≠ [])
    (.invalidArgument [.str kind.asStr, " new: title must not be blank"]))
  let me ← readFiles (readIdentity env)
  storeNew hashBytes .issue fun number =>
    let iss := newIssue kind title (body.getD []) me now number
    (iss.validate, iss.encode t)

/-- The full name of a branch. -/
def normaliseBranch (name : Str) : Str :=
  if "refs/".toList.isPrefixOf name then name else "refs/heads/" ++ name

/-- The pull request that a command makes. -/
def newPr (title body source target me : Str) (now : ℤ) (number : ℕ) : Pr where
  number := number
  title := title
  state := .opened
  sourceRef := source
  targetRef := target
  author := me
  createdTs := now
  labels := []
  assignees := []
  mentions := Issue.mergeMentions [] (Issue.extractMentions body) number
  events := [⟨.opened, me, now, body, [], [], [], []⟩]

/-- The command `pr new`. -/
def prNew (title body source target : Option Str) (now : ℤ) : Cmd W ℕ := do
  let title ← lift (okOr title (.invalidArgument ["pr new: title required"]))
  lift (ensure (trim title ≠ []) (.invalidArgument ["pr new: title must not be blank"]))
  let source ← lift (okOr source (.invalidArgument ["pr new: --source required"]))
  let target ← lift (okOr target (.invalidArgument ["pr new: --target required"]))
  let sourceFull := normaliseBranch source
  let targetFull := normaliseBranch target
  lift (ensure (sourceFull ≠ targetFull)
    (.invalidArgument ["pr new: source and target must differ"]))
  let _ ← readFiles fun fs => mapErr
    (fun _ => .refs ["source ref ", .str sourceFull, " not found"]) (readRef fs sourceFull)
  let _ ← readFiles fun fs => mapErr
    (fun _ => .refs ["target ref ", .str targetFull, " not found"]) (readRef fs targetFull)
  let me ← readFiles (readIdentity env)
  storeNew hashBytes .pr fun number =>
    let pr := newPr title (body.getD []) sourceFull targetFull me now number
    (pr.validate, pr.encode t)

/-- The parsed arguments of `incident new`. -/
structure IncidentArgs where
  title : Option Str
  body : Option Str
  severity : Option Severity
  incidentType : Option Str
  labels : List Str
  assignees : List Str
  explicitFields : List (Str × Str)
  /-- Flags whose meaning depends on the type. -/
  deferredShortcuts : List (Str × Str)
  deriving DecidableEq, Repr

/-- The flags for the fields of the known types of incidents. -/
def typeShortcuts : List (String × List (String × String)) :=
  [("security", [("--cve", "cve"), ("--cwe", "cwe"), ("--vector", "vector"),
      ("--disclosure", "disclosure")]),
    ("outage", [("--services", "services"), ("--start-ts", "start_ts"),
      ("--customer-impact", "customer_impact")]),
    ("bug", [("--affected-version", "affected_version"), ("--regressed-in", "regressed_in"),
      ("--repro", "repro")]),
    ("data-loss", [("--scope", "scope"), ("--recovery-path", "recovery_path")]),
    ("performance", [("--metric", "metric"), ("--baseline", "baseline"),
      ("--degraded-value", "degraded_value")])]

/-- The field that a flag sets for a type of incidents. -/
def typeShortcut (incidentType flag : Str) : Option Str := do
  let table ← typeShortcuts.find? fun known => known.1.toList = incidentType
  let entry ← table.2.find? fun entry => entry.1.toList = flag
  return entry.2.toList

/-- The fields that the arguments set; later ones replace earlier ones. -/
def incidentFields (incidentType : Str) (args : IncidentArgs) : Result (List (Str × Str)) := do
  let fields ← args.deferredShortcuts.foldlM (fun fields (flag, value) => do
    let key ← okOr (typeShortcut incidentType flag) (.invalidArgument
      ["incident new: unknown flag ", .str flag, " for type ", .str incidentType,
        " (use --field KEY=VAL)"])
    return mapInsert key value fields) []
  args.explicitFields.foldlM (fun fields (key, value) => do
    ensure (key ≠ []) (.invalidArgument ["incident new: --field key must not be empty"])
    return mapInsert key value fields) fields

/-- The incident that a command makes. -/
def newIncident (args : IncidentArgs) (title : Str) (severity : Severity) (incidentType : Str)
    (fields : List (Str × Str)) (me : Str) (now : ℤ) (number : ℕ) : Incident where
  number := number
  title := title
  state := .detected
  severity := severity
  incidentType := incidentType
  author := me
  createdTs := now
  labels := sortDedup args.labels
  assignees := sortDedup args.assignees
  mentions := Issue.mergeMentions [] (Issue.extractMentions (args.body.getD [])) number
  fields := fields
  events := [⟨.opened, me, now, args.body.getD [], [], [], [], [], [], [], []⟩]

/-- The command `incident new`. -/
def incidentNew (args : IncidentArgs) (now : ℤ) : Cmd W ℕ := do
  let title ← lift (okOr args.title (.invalidArgument ["incident new: title required"]))
  lift (ensure (trim title ≠ []) (.invalidArgument ["incident new: title must not be blank"]))
  let severity ← lift (okOr args.severity
    (.invalidArgument ["incident new: --severity sev1|sev2|sev3|sev4 required"]))
  let incidentType ← lift (okOr args.incidentType
    (.invalidArgument ["incident new: --type required"]))
  let fields ← lift (incidentFields incidentType args)
  let me ← readFiles (readIdentity env)
  storeNew hashBytes .incident fun number =>
    let inc := newIncident args title severity incidentType fields me now number
    (inc.validate, inc.encode t)

end New

/-! ## What a new document does to the files -/

namespace MetaKind

variable {k k' : MetaKind} {n m : ℕ} {fs fs' : RefFiles}

lemma refName_eq (k : MetaKind) (n : ℕ) : k.refName n = numberedRef k.refsPrefix n := by
  cases k <;> rfl

lemma refName_inj : k.refName n = k'.refName m ↔ k = k' ∧ n = m := by
  constructor
  · intro h
    have hkind : k = k' := by
      have htake : ((k.refName n).take 7) = ((k'.refName m).take 7) := by rw [h]
      cases k <;> cases k' <;> first | rfl | cases htake
    subst hkind
    rw [refName_eq, refName_eq, numberedRef_inj] at h
    exact ⟨rfl, h⟩
  · rintro ⟨rfl, rfl⟩
    rfl

lemma counterPath_inj : k.counterPath = k'.counterPath ↔ k = k' := by
  cases k <;> cases k' <;> simp [counterPath, counterName]

lemma counterPath_ne_refName (k k' : MetaKind) (n : ℕ) : k.counterPath ≠ k'.refName n := by
  intro h
  have htake : k.counterPath.take 4 = (k'.refName n).take 4 := by rw [h]
  cases k <;> cases k' <;> cases htake

/-- The number that the counter file stands for. -/
def counter (k : MetaKind) (fs : RefFiles) : Option ℕ :=
  match fs.get? k.counterPath with
  | none => some 1
  | some body => (Utf8.decode body).bind fun txt => parseU64 (trim txt)

lemma counter_congr (h : fs'.get? k.counterPath = fs.get? k.counterPath) :
    k.counter fs' = k.counter fs := by
  rw [counter, counter, h]

lemma counter_of_readCounter (h : k.readCounter fs = .ok n) : k.counter fs = some n := by
  unfold readCounter at h
  split_ifs at h with hexists
  · obtain ⟨body, hread, h⟩ := bind_eq_ok.mp h
    obtain ⟨txt, htxt, h⟩ := bind_eq_ok.mp h
    unfold RefFiles.readAll at hread
    split at hread
    · rename_i bytes hget
      cases hread
      rw [counter, hget]
      dsimp only
      rw [okOr_eq_ok.mp htxt, Option.bind_some, okOr_eq_ok.mp h]
    · cases hread
  · have hnone : fs.get? k.counterPath = none := by
      rw [RefFiles.exists, Bool.or_eq_true, not_or] at hexists
      exact Option.not_isSome_iff_eq_none.mp hexists.1
    rw [counter, hnone, Except.ok.inj h]

lemma counter_of_content (hn : n < 2 ^ 64)
    (h : fs.get? k.counterPath = some (counterContent n)) : k.counter fs = some n := by
  rw [counter, h, counterContent]
  dsimp only
  rw [Utf8.decode_encode, Option.bind_some, trim_append_space (by decide), trim_ofNat, parseU64,
    parseUnsigned_ofNat (by omega)]

end MetaKind

section Stored

variable {hashBytes : Hash} {k : MetaKind} {document : ℕ → Result Unit × Bytes}
  {repo repo' : Repo W}

/-- The directory of the counter files has no content of its own. -/
lemma get?_createCounterDir {r : Result Unit}
    (h : (createCounterDir : Cmd W Unit).run repo = some (r, repo')) (path : Str) :
    repo'.files.get? path = repo.files.get? path := by
  unfold createCounterDir at h
  rw [run_act] at h
  split_ifs at h <;> cases h <;> rfl

/-- What taking a number does to the files. -/
lemma nextNumberLocked_files {r : Result ℕ}
    (h : (nextNumberLocked k : Cmd W ℕ).run repo = some (r, repo')) :
    (∃ n, r = .ok n ∧ k.counter repo.files = some n ∧ k.counter repo'.files = some (n + 1) ∧
        ∀ path ≠ k.counterPath, repo'.files.get? path = repo.files.get? path) ∨
      (∃ e, r = .error e) ∧ ∀ path, repo'.files.get? path = repo.files.get? path := by
  unfold nextNumberLocked at h
  cases r with
  | ok n =>
    obtain ⟨_, repo₁, hdir, h₁⟩ := seq_eq_ok.mp h
    obtain ⟨next, hnext, h₂⟩ := readFiles_bind_eq_ok.mp h₁
    obtain ⟨_, hlt, h₃⟩ := lift_bind_eq_ok.mp h₂
    obtain ⟨_, repo₄, hwrite, hpure⟩ := seq_eq_ok.mp h₃
    cases hpure
    rw [atomicWrite_eq_ok hwrite]
    refine .inl ⟨n, rfl, ?_, ?_, ?_⟩
    · rw [← counter_of_readCounter hnext]
      exact (counter_congr (get?_createCounterDir hdir _)).symm
    · exact counter_of_content (ensure_eq_ok.mp hlt) get?_set_self
    · intro path hpath
      exact (get?_set_of_ne hpath).trans (get?_createCounterDir hdir path)
  | error e =>
    refine .inr ⟨⟨e, rfl⟩, fun path => ?_⟩
    rcases seq_eq_error.mp h with hdir | ⟨_, repo₁, hdir, h₁⟩
    · exact get?_createCounterDir hdir path
    rw [← get?_createCounterDir hdir path]
    rcases seq_eq_error.mp h₁ with hread | ⟨next, repo₂, hread, h₂⟩
    · rw [readFiles_eq_error hread]
    obtain ⟨-, rfl⟩ := readFiles_eq_ok.mp hread
    rcases seq_eq_error.mp h₂ with hcheck | ⟨_, repo₃, hcheck, h₃⟩
    · rw [(lift_eq_error.mp hcheck).2]
    obtain ⟨-, rfl⟩ := lift_eq_ok.mp hcheck
    rcases seq_eq_error.mp h₃ with hwrite | ⟨_, repo₄, hwrite, hpure⟩
    · rw [atomicWrite_eq_error hwrite]
    · cases hpure

/-- What storing a new document does to the files: it takes the next number and sets the reference
of that number, or it fails and sets no reference. -/
lemma storeNew_files {r : Result ℕ}
    (h : (storeNew hashBytes k document).run repo = some (r, repo')) :
    (∃ n, r = .ok n ∧ k.counter repo.files = some n ∧ k.counter repo'.files = some (n + 1) ∧
        (repo'.files.get? (k.refName n)).isSome ∧
        ∀ path ≠ k.counterPath, path ≠ k.refName n → repo'.files.get? path = repo.files.get? path) ∨
      (∃ e, r = .error e) ∧ (∀ path ≠ k.counterPath, repo'.files.get? path = repo.files.get? path) ∧
        (k.counter repo'.files = k.counter repo.files ∨
          ∃ n, k.counter repo.files = some n ∧ k.counter repo'.files = some (n + 1)) := by
  unfold storeNew at h
  cases r with
  | ok n =>
    obtain ⟨number, repo₁, hnext, h₁⟩ := seq_eq_ok.mp h
    obtain ⟨id, repo₂, hwrite, hpure⟩ := seq_eq_ok.mp h₁
    cases hpure
    obtain ⟨-, -, rfl⟩ := writeDocument_eq_ok hwrite
    rcases nextNumberLocked_files hnext with ⟨n, hn, hbefore, hafter, hother⟩ | ⟨⟨e, he⟩, -⟩
    · cases hn
      refine .inl ⟨_, rfl, hbefore, ?_, ?_, ?_⟩
      · rw [← hafter]
        apply counter_congr
        apply get?_set_of_ne
        rw [← k.refName_eq]
        exact k.counterPath_ne_refName k _
      · rw [k.refName_eq]
        exact Option.isSome_of_eq_some get?_set_self
      · intro path hpath hname
        rw [k.refName_eq] at hname
        exact (get?_set_of_ne hname).trans (hother path hpath)
    · cases he
  | error e =>
    refine .inr ⟨⟨e, rfl⟩, ?_⟩
    rcases seq_eq_error.mp h with hnext | ⟨number, repo₁, hnext, h₁⟩
    · rcases nextNumberLocked_files hnext with ⟨n, hn, -⟩ | ⟨-, hsame⟩
      · cases hn
      · exact ⟨fun path _ => hsame path, .inl (counter_congr (hsame _))⟩
    rcases seq_eq_error.mp h₁ with hwrite | ⟨id, repo₂, hwrite, hpure⟩
    · rw [(writeDocument_eq_error hwrite).1]
      rcases nextNumberLocked_files hnext with ⟨n, hn, hbefore, hafter, hother⟩ | ⟨⟨e', he'⟩, -⟩
      · exact ⟨hother, .inr ⟨n, hbefore, hafter⟩⟩
      · cases he'
    · cases hpure

end Stored

end Gyt
