import Gyt.ConfigFile

/-!
# Layers of configuration

A setting should have the value that the file of the repository writes, else the one that the global
file writes, else its default: this is `layered`.  The code merges two complete configurations, in
which a key that was not written has its default value, so that for the flags and the mode without a
value of their own for "not written" it cannot tell the two apart.  `load_layers` says for which
pairs of files the configuration is the layered one.
-/

namespace Gyt.Config

open List

/-! ## Keys and values -/

inductive Key where
  | userName
  | userEmail
  | remote (name : Str)
  | createDefaultGytignore
  | signRequired
  | ciMode
  | ciJobMode (job : Str)
  deriving DecidableEq, Repr

/-- The values of keys. -/
inductive Value where
  | unset
  | text (value : Str)
  | flag (value : Bool)
  | concurrency (mode : CiConcurrency)
  | jobMode (mode : CiJobMode)
  deriving DecidableEq, Repr

def Setting.key : Setting → Key
  | .userName _ => .userName
  | .userEmail _ => .userEmail
  | .remote name _ => .remote name
  | .createDefaultGytignore _ => .createDefaultGytignore
  | .signRequired _ => .signRequired
  | .ciMode _ => .ciMode
  | .ciJobMode job _ => .ciJobMode job

def Setting.value : Setting → Value
  | .userName value => .text value
  | .userEmail value => .text value
  | .remote _ url => .text url
  | .createDefaultGytignore value => .flag value
  | .signRequired value => .flag value
  | .ciMode mode => .concurrency mode
  | .ciJobMode _ mode => .jobMode mode

def value (cfg : Config) : Key → Value
  | .userName => cfg.userName.elim .unset .text
  | .userEmail => cfg.userEmail.elim .unset .text
  | .remote name => (cfg.remotes.get? name).elim .unset .text
  | .createDefaultGytignore => .flag cfg.createDefaultGytignore
  | .signRequired => .flag cfg.signRequired
  | .ciMode => .concurrency cfg.ciMode
  | .ciJobMode job => (cfg.ciJobModes.get? job).elim .unset .jobMode

/-- The value that the settings of a file write for a key; the last one counts. -/
def written (settings : List Setting) (k : Key) : Option Value :=
  (settings.reverse.find? (·.key = k)).map Setting.value

/-- The value of a key when the second file lies over the first one. -/
def layered (base other : List Setting) (k : Key) : Value :=
  ((written other k).or (written base k)).getD (default.value k)

/-! ## Single files -/

section Files

variable {settings : List Setting} {k : Key} {cfg : Config}

lemma value_set (setting : Setting) :
    (cfg.set setting).value k = if setting.key = k then setting.value else cfg.value k := by
  by_cases h : setting.key = k
  · subst h
    rw [if_pos rfl]
    cases setting <;> simp [set, value, Setting.key, Setting.value, SortedMap.get?_insert]
  · rw [if_neg h]
    cases setting <;> cases k <;> grind [set, value, Setting.key, SortedMap.get?_insert]

lemma written_cons (setting : Setting) : written (setting :: settings) k =
    (written settings k).or (if setting.key = k then some setting.value else none) := by
  rw [written, written, reverse_cons, find?_append, Option.map_or]
  by_cases h : setting.key = k <;> simp [h]

/-- A file gives the keys that it writes their values, and leaves the others. -/
lemma value_foldl_set :
    (settings.foldl set cfg).value k = (written settings k).getD (cfg.value k) := by
  induction settings generalizing cfg with
  | nil => rfl
  | cons setting settings ih =>
    rw [foldl_cons, ih, value_set, written_cons]
    cases written settings k <;> split_ifs <;> rfl

lemma mem_of_written {v : Value} (h : written settings k = some v) :
    ∃ setting ∈ settings, setting.key = k ∧ setting.value = v := by
  obtain ⟨setting, hfind, hv⟩ := Option.map_eq_some_iff.mp h
  exact ⟨setting, mem_reverse.mp (mem_of_find?_eq_some hfind), by simpa using find?_some hfind, hv⟩

lemma written_ne_unset : written settings k ≠ some .unset := by
  intro h
  obtain ⟨setting, -, -, hv⟩ := mem_of_written h
  cases setting <;> cases hv

/-- What a file writes for a key that always has a value, and the value that the key has then. -/
lemma exists_written {α : Type} {c : α → Value} {field : Config → α}
    (hc : Function.Injective c) (hvalue : ∀ cfg : Config, cfg.value k = c (field cfg))
    (hkey : ∀ setting : Setting, setting.key = k → ∃ a, setting.value = c a)
    (settings : List Setting) : ∃ o : Option α, written settings k = o.map c ∧
      field (settings.foldl set default) = o.getD (field default) := by
  have hfield : c (field (settings.foldl set default)) =
      (written settings k).getD (c (field default)) := by
    rw [← hvalue, ← hvalue, value_foldl_set]
  cases h : written settings k with
  | none =>
    rw [h] at hfield
    exact ⟨none, rfl, hc hfield⟩
  | some v =>
    obtain ⟨setting, -, hsetting, rfl⟩ := mem_of_written h
    obtain ⟨a, ha⟩ := hkey setting hsetting
    rw [h, ha] at hfield
    exact ⟨some a, congrArg some ha, hc hfield⟩

end Files

/-! ## Two files -/

section Merge

variable {base other : List Setting}

/-- The configuration of two files. -/
def merged (base other : List Setting) : Config :=
  mergeInto (base.foldl set default) (other.foldl set default)

/-- The keys without a value if no file writes them are layered. -/
lemma value_merged_of_unset {k : Key} (hk : default.value k = .unset) :
    (merged base other).value k = layered base other k := by
  have hbase : (base.foldl set default).value k = (written base k).getD (default.value k) :=
    value_foldl_set
  have hother : (other.foldl set default).value k = (written other k).getD (default.value k) :=
    value_foldl_set
  have hmerge : ∀ cfg cfg' : Config, (mergeInto cfg cfg').value k =
      if cfg'.value k = .unset then cfg.value k else cfg'.value k := by
    intro cfg cfg'
    cases k <;> cases hk
    case userName => cases h : cfg'.userName <;> simp [mergeInto, value, h]
    case userEmail => cases h : cfg'.userEmail <;> simp [mergeInto, value, h]
    case remote name =>
      cases h : cfg'.remotes.get? name <;> simp [mergeInto, value, SortedMap.get?_insertAll, h]
    case ciJobMode job =>
      cases h : cfg'.ciJobModes.get? job <;> simp [mergeInto, value, SortedMap.get?_insertAll, h]
  rw [merged, hmerge, hbase, hother, layered, hk]
  cases h : written other k with
  | none => rfl
  | some v =>
    have hne : v ≠ .unset := fun hv => written_ne_unset (hv ▸ h)
    rw [Option.getD_some, if_neg hne]
    rfl

/-- The pairs of files whose keys the merge tells apart: `other` writes `sign_required` if it is on
below, and does not write the default values of the other flag and of the mode if they have another
value below. -/
structure Compatible (base other : List Setting) : Prop where
  signRequired : written other .signRequired = none →
    written base .signRequired ≠ some (.flag true)
  createDefaultGytignore : written other .createDefaultGytignore = some (.flag false) →
    written base .createDefaultGytignore ≠ some (.flag true)
  ciMode : written other .ciMode = some (.concurrency .parallel) →
    written base .ciMode ≠ some (.concurrency .serial)

/-- What two files write for a key that always has a value, and its value in their merge; `mix` says
how the values are merged. -/
lemma exists_value_merged {α : Type} (k : Key) {c : α → Value} (field : Config → α)
    (mix : α → α → α) (hc : Function.Injective c)
    (hvalue : ∀ cfg : Config, cfg.value k = c (field cfg))
    (hkey : ∀ setting : Setting, setting.key = k → ∃ a, setting.value = c a)
    (hmix : ∀ cfg cfg', field (mergeInto cfg cfg') = mix (field cfg) (field cfg')) :
    ∃ o o' : Option α, written base k = o.map c ∧ written other k = o'.map c ∧
      (merged base other).value k = c (mix (o.getD (field default)) (o'.getD (field default))) := by
  obtain ⟨o, hbase, hfield⟩ := exists_written hc hvalue hkey base
  obtain ⟨o', hother, hfield'⟩ := exists_written hc hvalue hkey other
  exact ⟨o, o', hbase, hother, by rw [hvalue, merged, hmix, hfield, hfield']⟩

lemma value_merged_signRequired :
    (merged base other).value .signRequired = layered base other .signRequired ↔
      (written other .signRequired = none → written base .signRequired ≠ some (.flag true)) := by
  obtain ⟨o, o', hbase, hother, hvalue⟩ := exists_value_merged .signRequired signRequired
    (fun _ b => b) (fun _ _ => Value.flag.inj) (fun _ => rfl)
    (fun setting h => by cases setting <;> cases h; exact ⟨_, rfl⟩) fun _ _ => rfl
  rw [hvalue, layered, hbase, hother]
  rcases o with - | - | - <;> rcases o' with - | - | - <;> decide

lemma value_merged_createDefaultGytignore : (merged base other).value .createDefaultGytignore =
        layered base other .createDefaultGytignore ↔
      (written other .createDefaultGytignore = some (.flag false) →
        written base .createDefaultGytignore ≠ some (.flag true)) := by
  obtain ⟨o, o', hbase, hother, hvalue⟩ := exists_value_merged .createDefaultGytignore
    createDefaultGytignore (fun a b => if b then true else a) (fun _ _ => Value.flag.inj)
      (fun _ => rfl) (fun setting h => by cases setting <;> cases h; exact ⟨_, rfl⟩) fun _ _ => rfl
  rw [hvalue, layered, hbase, hother]
  rcases o with - | - | - <;> rcases o' with - | - | - <;> decide

lemma value_merged_ciMode : (merged base other).value .ciMode = layered base other .ciMode ↔
      (written other .ciMode = some (.concurrency .parallel) →
        written base .ciMode ≠ some (.concurrency .serial)) := by
  obtain ⟨o, o', hbase, hother, hvalue⟩ := exists_value_merged .ciMode ciMode
    (fun a b => if b ≠ .parallel then b else a) (fun _ _ => Value.concurrency.inj) (fun _ => rfl)
    (fun setting h => by cases setting <;> cases h; exact ⟨_, rfl⟩) fun _ _ => rfl
  rw [hvalue, layered, hbase, hother]
  rcases o with - | - | - <;> rcases o' with - | - | - <;> decide

/-- The merged configuration is the layered one exactly for compatible files. -/
lemma merged_eq_layered_iff :
    (∀ k, (merged base other).value k = layered base other k) ↔ Compatible base other := by
  constructor
  · intro h
    exact ⟨value_merged_signRequired.mp (h _), value_merged_createDefaultGytignore.mp (h _),
      value_merged_ciMode.mp (h _)⟩
  · intro h k
    cases k with
    | signRequired => exact value_merged_signRequired.mpr h.signRequired
    | createDefaultGytignore =>
      exact value_merged_createDefaultGytignore.mpr h.createDefaultGytignore
    | ciMode => exact value_merged_ciMode.mpr h.ciMode
    | userName => exact value_merged_of_unset rfl
    | userEmail => exact value_merged_of_unset rfl
    | remote name => exact value_merged_of_unset rfl
    | ciJobMode job => exact value_merged_of_unset rfl

end Merge

/-! ## Loading -/

/-- The settings of the global file; there are none if there is no file. -/
def globalSettings (env : Environment) : Result (List Setting) :=
  match env.globalFile with
  | some file => do
    let bytes ← file.mapError .io
    parseSettings bytes
  | none => .ok []

/-- The settings of the file of the repository, if there is one. -/
def repoSettings (fs : RefFiles) : Result (Option (List Setting)) :=
  if fs.exists configPath then do
    let bytes ← fs.readAll configPath
    some <$> parseSettings bytes
  else .ok none

section Load

variable {env : Environment} {fs : RefFiles} {base : List Setting} {other : Option (List Setting)}

lemma loadBase_eq (h : globalSettings env = .ok base) :
    loadBase env = .ok (base.foldl set default) := by
  unfold globalSettings at h
  unfold loadBase
  cases hglobal : env.globalFile with
  | some file =>
    rw [hglobal] at h
    obtain ⟨bytes, hfile, hparse⟩ := bind_eq_ok.mp h
    show (file.mapError .io).bind parse = _
    rw [hfile]
    show parse bytes = _
    rw [parse, hparse]
    rfl
  | none =>
    rw [hglobal] at h
    cases h
    rfl

lemma loadFiles_eq (h : globalSettings env = .ok base) (hother : repoSettings fs = .ok other) :
    loadFiles env fs = .ok (other.elim (base.foldl set default) (merged base)) := by
  rw [loadFiles, loadBase_eq h, ok_bind]
  unfold repoSettings at hother
  split_ifs at hother ⊢
  · obtain ⟨bytes, hread, hparse⟩ := bind_eq_ok.mp hother
    obtain ⟨settings, hsettings, rfl⟩ := map_eq_ok.mp hparse
    rw [hread, ok_bind, parse, hsettings]
    rfl
  · cases hother
    rfl

/-- Without variables for the author, files that can be parsed give a configuration, and it is the
layered one exactly if there is no file of the repository or it is compatible with the global
file. -/
theorem load_layers (hname : env.authorName = none) (hemail : env.authorEmail = none)
    (hbase : globalSettings env = .ok base) (hother : repoSettings fs = .ok other) :
    ∃ cfg, load env fs = .ok cfg ∧
      ((∀ k, cfg.value k = layered base (other.getD []) k) ↔
        ∀ settings ∈ other, Compatible base settings) := by
  refine ⟨other.elim (base.foldl set default) (merged base), ?_, ?_⟩
  · rw [load, loadFiles_eq hbase hother, ok_bind, hname, hemail]
    rfl
  · cases other with
    | none =>
      refine iff_of_true (fun k => ?_) nofun
      rw [Option.elim_none, value_foldl_set]
      rfl
    | some settings =>
      rw [Option.elim_some, Option.getD_some, merged_eq_layered_iff]
      exact ⟨fun h settings' hmem => Option.mem_some_iff.mp hmem ▸ h, fun h => h settings rfl⟩

/-- A global file that requires signatures. -/
def sampleGlobal : Bytes := Utf8.encode "[commit]\nsign_required = true\n"

/-- The environment with a global file and no other settings. -/
def sampleLayerEnv (bytes : Bytes) : Environment := ⟨some (.ok bytes), none, none⟩

/-- The files of a repository with a configuration file. -/
def sampleConfigFiles (text : String) : RefFiles := ⟨[(configPath, Utf8.encode text.toList)], []⟩

/-- A file of the repository that does not mention `sign_required` turns it off. -/
theorem sign_required_turned_off :
    let fs := sampleConfigFiles "[user]\nname = \"Alice\"\n"
    globalSettings (sampleLayerEnv sampleGlobal) = .ok [.signRequired true] ∧
      repoSettings fs = .ok (some [.userName "Alice"]) ∧
      (load (sampleLayerEnv sampleGlobal) fs).toOption.map (·.value .signRequired) =
        some (.flag false) := by decide +kernel

/-- The repository overrides the global file. -/
theorem load_layers_sign_required :
    ∃ cfg, load (sampleLayerEnv sampleGlobal)
        (sampleConfigFiles "[commit]\nsign_required = false\n") = .ok cfg ∧
      ∀ k, cfg.value k = layered [.signRequired true] [.signRequired false] k := by
  obtain ⟨cfg, hload, hiff⟩ := load_layers rfl rfl
    (show globalSettings (sampleLayerEnv sampleGlobal) = .ok [.signRequired true] by
      decide +kernel)
    (show repoSettings (sampleConfigFiles "[commit]\nsign_required = false\n") =
      .ok (some [.signRequired false]) by decide +kernel)
  have hcompatible : Compatible [.signRequired true] [.signRequired false] :=
    ⟨by decide, by decide, by decide⟩
  refine ⟨cfg, hload, hiff.mpr ?_⟩
  rintro settings ⟨⟩
  exact hcompatible

end Load

end Gyt.Config
