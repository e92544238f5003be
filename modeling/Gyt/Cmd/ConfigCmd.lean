import Gyt.ConfigWrite
import Gyt.Foundation.Machine
import Gyt.Metadata.RoundTrip

/-!
# The commands that write configuration files

`gyt config` and `gyt remote`, `cmd/config_cmd.rs` and `cmd/remote.rs`.  Both read one of the two
configuration files, change a setting, and write the file; neither looks at what the file can hold.
`exec_lossless_iff` says when the file can be read back, and `run_lossless` that nothing is ever
lost if all arguments are of the kind that the file can hold.
-/

namespace Gyt.Config

open Text

open Toml (DebugTables)
open Document (sampleTables)

/-! ## Keys -/

/-- The keys that `gyt config` knows. -/
inductive CmdKey where
  | userName
  | userEmail
  | remote (name : Str)
  | signRequired
  | createDefaultGytignore
  deriving DecidableEq, Repr

def cmdKey (key : Str) : Option CmdKey :=
  match split '.' key with
  | [s, k] =>
    if s = "user" ∧ k = "name" then some .userName
    else if s = "user" ∧ k = "email" then some .userEmail
    else if s = "remote" then some (.remote k)
    else if s = "commit" ∧ k = "sign_required" then some .signRequired
    else if s = "init" ∧ k = "create_default_gytignore" then
      some .createDefaultGytignore
    else none
  | [s, name, k] =>
    if s = "remote" ∧ k = "url" then some (.remote name) else none
  | _ => none

/-- Whether a value turns a flag on. -/
def isTrue (value : Option Str) : Bool := value.any fun v => toLower v = "true"

/-- Giving a key a value, or none. -/
def applyKey (cfg : Config) (key : Str) (value : Option Str) : Result Config :=
  match cmdKey key with
  | some .userName => .ok { cfg with userName := value }
  | some .userEmail => .ok { cfg with userEmail := value }
  | some (.remote name) =>
    match value with
    | some v => .ok { cfg with remotes := cfg.remotes.insert name v }
    | none => .ok { cfg with remotes := cfg.remotes.erase name }
  | some .signRequired => .ok { cfg with signRequired := isTrue value }
  | some .createDefaultGytignore => .ok { cfg with createDefaultGytignore := isTrue value }
  | none => .error (.invalidArgument ["config: unknown key ", .debug key,
      " (supported: user.name, user.email, remote.<name>[.url], commit.sign_required, ",
      "init.create_default_gytignore)"])

/-! ## Files -/

/-- What the commands see: the environment with the global file, whether there is a place for that
file, and the files of the repository. -/
structure Files where
  env : Environment
  hasGlobal : Bool
  repo : RefFiles

/-- A configuration that was written, to the global file or to the one of the repository. -/
structure Written where
  global : Bool
  cfg : Config
  deriving DecidableEq, Repr

namespace Files

variable (t : DebugTables) (fault : Option IoError) (files : Files)

/-- The configuration in the file of the repository. -/
def loadRepoOnly : Result Config :=
  if files.repo.exists configPath then do
    let bytes ← files.repo.readAll configPath
    parse bytes
  else .ok default

/-- The configuration in one of the files. -/
def readTarget (global : Bool) : Result Config :=
  if global then loadBase files.env else files.loadRepoOnly

/-- Writing a configuration; `fault` is the error if the operating system refuses. -/
def writeTarget (w : Written) : Result Files :=
  match fault with
  | some e => .error (.io e)
  | none =>
    if w.global then
      .ok { files with env := { files.env with globalFile := some (.ok (w.cfg.write t)) } }
    else
      match files.repo.write configPath (w.cfg.write t) with
      | some repo => .ok { files with repo }
      | none => .error (.io .isADirectory)

/-- Setting a key, or unsetting it. -/
def cmdSet (global : Bool) (key : Str) (value : Option Str) : Result (Files × Option Written) := do
  ensure (global → files.hasGlobal)
    (.repo ["global config: HOME / GYT_CONFIG_HOME not set"])
  let old ← files.readTarget global
  let cfg ← applyKey old key value
  let files' ← files.writeTarget t fault ⟨global, cfg⟩
  return (files', some ⟨global, cfg⟩)

/-- Whether the arguments ask for help. -/
def wantsHelp (args : List Str) : Bool := args.any fun a => a = "--help" ∨ a = "-h"

/-- The change that the arguments of `gyt config` ask for. -/
def configChange (args : List Str) : Option (Str × Option Str) :=
  match args.filter (· ≠ "--global".toList) with
  | [flag, key] => if flag = "--unset" then some (key, none) else none
  | [flag, key, value] => if flag = "--set" then some (key, some value) else none
  | _ => none

/-- The command `gyt config`. -/
def configRun (args : List Str) : Result (Files × Option Written) :=
  if args = [] ∨ wantsHelp args then .ok (files, none)
  else do
    let _ ← load files.env files.repo
    match configChange args with
    | some (key, value) => files.cmdSet t fault ("--global" ∈ args) key value
    | none => return (files, none)

/-- The command `gyt remote`. -/
def remoteRun (args : List Str) : Result (Files × Option Written) :=
  if wantsHelp args then .ok (files, none)
  else do
    let cfg ← load files.env files.repo
    match args with
    | [] => return (files, none)
    | sub :: rest =>
      if sub = "-v" then return (files, none)
      else if sub = "add" then
        match rest with
        | name :: url :: _ => do
          ensure ((cfg.remotes.get? name).isNone)
            (.invalidArgument ["remote '", .str name, "' already exists"])
          let repoCfg ← files.loadRepoOnly
          let repoCfg := { repoCfg with remotes := repoCfg.remotes.insert name url }
          let files' ← files.writeTarget t fault ⟨false, repoCfg⟩
          return (files', some ⟨false, repoCfg⟩)
        | _ => .error (.invalidArgument ["usage: gyt remote add <name> <url>"])
      else .error (.invalidArgument ["unknown remote subcommand: ", .str sub])

end Files

/-- A command with its arguments, and the error of the operating system if it refuses to write. -/
inductive ConfigCommand where
  | config (args : List Str) (fault : Option IoError)
  | remote (args : List Str) (fault : Option IoError)
  deriving DecidableEq, Repr

/-- What a command does to the files, and the configuration that it writes. -/
def exec (t : DebugTables) (files : Files) : ConfigCommand → Result (Files × Option Written)
  | .config args fault => files.configRun t fault args
  | .remote args fault => files.remoteRun t fault args

/-- A command of a run; one that fails leaves the files as they are. -/
def step (t : DebugTables) (files : Files) (c : ConfigCommand) : Option Files :=
  match exec t files c with
  | .ok (files', _) => some files'
  | .error _ => some files

/-! ## What is read back -/

/-- Whether the users, remotes and addresses of a configuration are of the kind that a file can
hold. -/
structure Faithful (t : DebugTables) (cfg : Config) : Prop extends QuotableValues t cfg where
  remote : ∀ e ∈ cfg.remotes.entries, SectionName e.1

instance (t : DebugTables) (cfg : Config) : Decidable (Faithful t cfg) :=
  decidable_of_iff (((∀ v ∈ cfg.userName, Quotable t v) ∧ (∀ v ∈ cfg.userEmail, Quotable t v) ∧
      ∀ e ∈ cfg.remotes.entries, Quotable t e.2) ∧ ∀ e ∈ cfg.remotes.entries, SectionName e.1)
    ⟨fun h => ⟨⟨h.1.1, h.1.2.1, h.1.2.2⟩, h.2⟩,
      fun h => ⟨⟨h.userName, h.userEmail, h.url⟩, h.remote⟩⟩

/-- Whether the arguments of a command are of the kind that a file can hold. -/
def ConfigCommand.Clean (t : DebugTables) : ConfigCommand → Prop
  | .config args _ => ∀ key value, Files.configChange args = some (key, value) →
      (∀ v ∈ value, Quotable t v) ∧ ∀ name, cmdKey key = some (.remote name) → SectionName name
  | .remote args _ => ∀ sub name url rest, args = sub :: name :: url :: rest →
      SectionName name ∧ Quotable t url

section Exec

variable {t : DebugTables} {fault : Option IoError} {files files' : Files} {c : ConfigCommand}
  {w : Written} {old cfg : Config} {global : Bool}

/-- What was written is what is parsed next. -/
lemma readTarget_of_writeTarget (h : files.writeTarget t fault w = .ok files') :
    files'.readTarget w.global = parse (w.cfg.write t) ∧
      files'.readTarget (!w.global) = files.readTarget (!w.global) := by
  obtain ⟨global, cfg⟩ := w
  unfold Files.writeTarget at h
  cases fault with
  | some e => cases h
  | none =>
    cases global with
    | true =>
      cases h
      exact ⟨rfl, rfl⟩
    | false =>
      dsimp only at h
      rw [if_neg (by simp)] at h
      split at h
      · next repo hwrite =>
        cases h
        refine ⟨?_, rfl⟩
        rw [RefFiles.write, Option.ite_none_right_eq_some, Option.some.injEq] at hwrite
        obtain ⟨-, rfl⟩ := hwrite
        have hget : (files.repo.set configPath (cfg.write t)).get? configPath =
            some (cfg.write t) := RefFiles.get?_set_self
        have hexists : (files.repo.set configPath (cfg.write t)).exists configPath = true := by
          rw [RefFiles.exists, hget]
          rfl
        rw [Files.readTarget, if_neg Bool.false_ne_true, Files.loadRepoOnly, if_pos hexists,
          RefFiles.readAll, hget]
        rfl
      · cases h

/-- The names in a file are ones that the parser can find. -/
lemma named_of_readTarget (h : files.readTarget global = .ok old) : old.Named := by
  have hdefault : default.Named := by
    constructor <;> exact fun _ h => absurd h List.not_mem_nil
  cases global with
  | true =>
    change loadBase files.env = .ok old at h
    unfold loadBase at h
    split at h
    · obtain ⟨bytes, -, hparse⟩ := bind_eq_ok.mp h
      exact named_of_parse hparse
    · cases h
      exact hdefault
  | false =>
    change files.loadRepoOnly = .ok old at h
    unfold Files.loadRepoOnly at h
    split_ifs at h
    · obtain ⟨bytes, -, hparse⟩ := bind_eq_ok.mp h
      exact named_of_parse hparse
    · cases h
      exact hdefault

lemma Faithful.insert (h : Faithful t cfg) {name url : Str} (hname : SectionName name)
    (hurl : Quotable t url) : Faithful t { cfg with remotes := cfg.remotes.insert name url } := by
  refine ⟨⟨h.userName, h.userEmail, ?_⟩, ?_⟩
  · intro e he
    rcases mem_mapInsert he with rfl | he
    · exact hurl
    · exact h.url e he
  · intro e he
    rcases mem_mapInsert he with rfl | he
    · exact hname
    · exact h.remote e he

/-- A key does not touch the modes of CI jobs, and a value of the kind that a file can hold leaves a
configuration that a file can hold. -/
lemma applyKey_eq_ok {key : Str} {value : Option Str} (h : applyKey old key value = .ok cfg) :
    cfg.ciJobModes = old.ciJobModes ∧
      ((∀ v ∈ value, Quotable t v) → (∀ name, cmdKey key = some (.remote name) → SectionName name) →
        Faithful t old → Faithful t cfg) := by
  unfold applyKey at h
  split at h
  · cases h
    exact ⟨rfl, fun hvalue _ hold => ⟨⟨hvalue, hold.userEmail, hold.url⟩, hold.remote⟩⟩
  · cases h
    exact ⟨rfl, fun hvalue _ hold => ⟨⟨hold.userName, hvalue, hold.url⟩, hold.remote⟩⟩
  · next name hkey =>
    cases value with
    | some v =>
      cases h
      exact ⟨rfl, fun hvalue hname hold => hold.insert (hname name hkey) (hvalue v rfl)⟩
    | none =>
      cases h
      refine ⟨rfl, fun _ _ hold => ⟨⟨hold.userName, hold.userEmail, ?_⟩, ?_⟩⟩
      · exact fun e he => hold.url e (List.mem_filter.mp he).1
      · exact fun e he => hold.remote e (List.mem_filter.mp he).1
  · cases h
    exact ⟨rfl, fun _ _ hold => ⟨⟨hold.userName, hold.userEmail, hold.url⟩, hold.remote⟩⟩
  · cases h
    exact ⟨rfl, fun _ _ hold => ⟨⟨hold.userName, hold.userEmail, hold.url⟩, hold.remote⟩⟩
  · cases h

/-- What a command does: it changes nothing, or it reads a file, changes a setting, and writes the
file. -/
lemma exec_eq_ok {o : Option Written} (h : exec t files c = .ok (files', o)) :
    (o = none ∧ files' = files) ∨ ∃ w old fault, o = some w ∧
      files.readTarget w.global = .ok old ∧ w.cfg.ciJobModes = old.ciJobModes ∧
        (c.Clean t → Faithful t old → Faithful t w.cfg) ∧
          files.writeTarget t fault w = .ok files' := by
  cases c with
  | config args fault =>
    change files.configRun t fault args = .ok (files', o) at h
    unfold Files.configRun at h
    split_ifs at h
    · cases h
      exact .inl ⟨rfl, rfl⟩
    obtain ⟨-, -, h⟩ := bind_eq_ok.mp h
    split at h
    · next key value hchange =>
      obtain ⟨-, h⟩ := check_bind_eq_ok.mp h
      obtain ⟨old, hold, h⟩ := bind_eq_ok.mp h
      obtain ⟨cfg, hcfg, h⟩ := bind_eq_ok.mp h
      obtain ⟨files₁, hwrite, h⟩ := bind_eq_ok.mp h
      cases h
      obtain ⟨hjobs, hfaithful⟩ := applyKey_eq_ok (t := t) hcfg
      refine .inr ⟨_, old, fault, rfl, hold, hjobs, ?_, hwrite⟩
      intro hclean
      obtain ⟨hvalue, hname⟩ := hclean key value hchange
      exact hfaithful hvalue hname
    · cases h
      exact .inl ⟨rfl, rfl⟩
  | remote args fault =>
    change files.remoteRun t fault args = .ok (files', o) at h
    unfold Files.remoteRun at h
    split_ifs at h
    · cases h
      exact .inl ⟨rfl, rfl⟩
    obtain ⟨cfg, -, h⟩ := bind_eq_ok.mp h
    split at h
    · cases h
      exact .inl ⟨rfl, rfl⟩
    · split_ifs at h
      · cases h
        exact .inl ⟨rfl, rfl⟩
      split at h
      · obtain ⟨-, h⟩ := check_bind_eq_ok.mp h
        obtain ⟨old, hold, h⟩ := bind_eq_ok.mp h
        obtain ⟨files₁, hwrite, h⟩ := bind_eq_ok.mp h
        cases h
        refine .inr ⟨_, old, fault, rfl, hold, rfl, ?_, hwrite⟩
        intro hclean hfaithful
        obtain ⟨hname, hurl⟩ := hclean _ _ _ _ rfl
        exact hfaithful.insert hname hurl
      · cases h

/-- What a command has written is read back as it was exactly if it is of the kind that a file can
hold. -/
lemma parse_write_iff_faithful (h : exec t files c = .ok (files', some w)) :
    parse (w.cfg.write t) = .ok w.cfg ↔ Faithful t w.cfg := by
  rcases exec_eq_ok h with ⟨⟨⟩, -⟩ | ⟨w, old, fault, ⟨⟩, hold, hjobs, -, -⟩
  have hnamed : ∀ e ∈ w.cfg.ciJobModes.entries, SectionName e.1 :=
    hjobs ▸ (named_of_readTarget hold).job
  rw [parse_write]
  constructor
  · rintro ⟨hnames, hvalues⟩
    exact ⟨hvalues, hnames.remote⟩
  · intro hfaithful
    exact ⟨⟨hfaithful.remote, hnamed⟩, hfaithful.toQuotableValues⟩

/-- Whether both files hold what can be read back. -/
def Sound (t : DebugTables) (files : Files) : Prop :=
  ∀ global old, files.readTarget global = .ok old → Faithful t old

lemma sound_step (hclean : c.Clean t) (hstep : step t files c = some files')
    (hsound : Sound t files) : Sound t files' := by
  unfold step at hstep
  split at hstep
  · next files₁ o hexec =>
    cases hstep
    rcases exec_eq_ok hexec with ⟨-, rfl⟩ | ⟨w, old, fault, rfl, hold, -, hfaithful, hwrite⟩
    · exact hsound
    · have hw : Faithful t w.cfg := hfaithful hclean (hsound w.global old hold)
      obtain ⟨hself, hother⟩ := readTarget_of_writeTarget hwrite
      intro global cfg hread
      by_cases hglobal : global = w.global
      · rw [hglobal, hself, (parse_write_iff_faithful hexec).mpr hw] at hread
        cases hread
        exact hw
      · rw [Bool.eq_not_of_ne hglobal, hother] at hread
        exact hsound _ _ hread
  · cases hstep
    exact hsound

end Exec

/-- What `gyt config` and `gyt remote` write is parsed as what was written exactly if the user, the
remotes and the addresses are of the kind that a file can hold; and this is so at every command of a
run whose arguments are all of that kind. -/
theorem exec_lossless_iff (t : DebugTables) :
    (∀ files c files' w, exec t files c = .ok (files', some w) →
      files'.readTarget w.global = parse (w.cfg.write t) ∧
        (parse (w.cfg.write t) = .ok w.cfg ↔ Faithful t w.cfg)) ∧
    ∀ files commands files₁, Sound t files →
      Machine.Always (step t) (fun _ c => c.Clean t) files commands →
        Machine.run (step t) files commands = some files₁ →
          ∀ c files' w, c.Clean t → exec t files₁ c = .ok (files', some w) →
            files'.readTarget w.global = .ok w.cfg := by
  have hread : ∀ files c files' w, exec t files c = .ok (files', some w) →
      files'.readTarget w.global = parse (w.cfg.write t) := by
    intro files c files' w h
    rcases exec_eq_ok h with ⟨⟨⟩, -⟩ | ⟨w, old, fault, ⟨⟩, -, -, -, hwrite⟩
    exact (readTarget_of_writeTarget hwrite).1
  constructor
  · intro files c files' w h
    exact ⟨hread files c files' w h, parse_write_iff_faithful h⟩
  · intro files commands files₁ hsound halways hrun c files' w hclean h
    have hsound₁ : Sound t files₁ :=
      Machine.run_invariant (fun _ _ _ hs hc hstep => sound_step hc hstep hs) halways hrun hsound
    rw [hread files₁ c files' w h]
    apply (parse_write_iff_faithful h).mpr
    rcases exec_eq_ok h with ⟨⟨⟩, -⟩ | ⟨w, old, fault, ⟨⟩, hold, -, hfaithful, -⟩
    exact hfaithful hclean (hsound₁ w.global old hold)

/-- A repository without configuration files. -/
def noFiles : Files := ⟨⟨none, none, none⟩, true, ⟨[], []⟩⟩

def addRemote (name : String) : ConfigCommand :=
  .remote ["add", name.toList, "https://h/r"] none

/-- A remote that is added is read back. -/
theorem exec_lossless_origin :
    ∃ files' w, exec sampleTables noFiles (addRemote "origin") = .ok (files', some w) ∧
      files'.readTarget w.global = .ok w.cfg := by
  refine ⟨_, _, rfl, ?_⟩
  have hread := (exec_lossless_iff sampleTables).1 noFiles (addRemote "origin") _ _ rfl
  rw [hread.1, hread.2]
  decide +kernel

/-- A remote with a capital letter is read back under another name. -/
theorem capital_remote_lost :
    ∃ files' w, exec sampleTables noFiles (addRemote "Origin") = .ok (files', some w) ∧
      w.cfg.remotes.entries = [("Origin".toList, "https://h/r".toList)] ∧
      (files'.readTarget w.global).toOption.map (·.remotes.entries) =
        some [("origin".toList, "https://h/r".toList)] :=
  ⟨_, _, rfl, rfl, by decide +kernel⟩

end Gyt.Config
