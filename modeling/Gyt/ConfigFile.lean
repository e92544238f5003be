import Gyt.Config
import Gyt.Head

/-!
# Configuration files

The parser of `config.toml` and the way in which the global file, the file of the repository and the
environment are put together, `config.rs`.
-/

namespace Gyt.Config

open Text

/-! ## Lines -/

/-- A line up to a `#` outside of quotes. -/
def stripCommentFrom : Bool → Str → Str
  | _, [] => []
  | true, '\\' :: c :: rest => '\\' :: c :: stripCommentFrom true rest
  | true, c :: rest => c :: stripCommentFrom (c ≠ '"') rest
  | false, c :: rest => if c = '#' then [] else c :: stripCommentFrom (c = '"') rest

def stripComment (line : Str) : Str := stripCommentFrom false line

/-- The value of a hexadecimal digit. -/
def hexDigit (c : Char) : Option ℕ :=
  if '0' ≤ c ∧ c ≤ '9' then some (c.toNat - '0'.toNat)
  else if 'a' ≤ c ∧ c ≤ 'f' then some (c.toNat - 'a'.toNat + 10)
  else if 'A' ≤ c ∧ c ≤ 'F' then some (c.toNat - 'A'.toNat + 10)
  else none

/-- The value of hexadecimal digits, `from_str_radix`: a plus sign may stand in front. -/
def fromHexDigits (s : Str) : Option ℕ :=
  let digits := (stripPrefix ['+'] s).getD s
  if digits = [] then none
  else digits.foldlM (fun acc c => (hexDigit c).map (acc * 16 + ·)) 0

/-- The character with the given code, `char::from_u32`. -/
def charFromU32 (n : ℕ) : Option Char := if n.isValidChar then some (Char.ofNat n) else none

/-- The text between the quotes, with its escapes resolved. -/
def unescape : Str → Option Str
  | [] => some []
  | '\\' :: '\\' :: rest => ('\\' :: ·) <$> unescape rest
  | '\\' :: '"' :: rest => ('"' :: ·) <$> unescape rest
  | '\\' :: 'n' :: rest => ('\n' :: ·) <$> unescape rest
  | '\\' :: 'r' :: rest => ('\r' :: ·) <$> unescape rest
  | '\\' :: 't' :: rest => ('\t' :: ·) <$> unescape rest
  | '\\' :: 'u' :: a :: b :: c :: d :: rest => do
    let code ← fromHexDigits [a, b, c, d]
    let char ← charFromU32 code
    (char :: ·) <$> unescape rest
  | '\\' :: _ => none
  | c :: rest => (c :: ·) <$> unescape rest

/-- The value of a quoted string. -/
def unquote (s : Str) : Option Str :=
  if 2 ≤ (Utf8.encode s).length ∧ s.head? = some '"' ∧ s.getLast? = some '"' then
    unescape s.tail.dropLast
  else none

/-! ## The parser -/

def lineError (lineno : ℕ) (msg : Msg) : GytError :=
  .parse ("config.toml line " :: .num (lineno + 1) :: msg)

/-- The sections that the parser knows, `KNOWN_SECTIONS`. -/
def knownSections : List String := ["user", "remote", "init", "commit", "ci"]

/-- The text in lower case. -/
def toLower (s : Str) : Str := s.map Char.toLower

/-- A setting of a configuration file. -/
inductive Setting where
  | userName (value : Str)
  | userEmail (value : Str)
  | remote (name url : Str)
  | createDefaultGytignore (value : Bool)
  | signRequired (value : Bool)
  | ciMode (mode : CiConcurrency)
  | ciJobMode (job : Str) (mode : CiJobMode)
  deriving DecidableEq, Repr

/-- The configuration with one more setting. -/
def set (cfg : Config) : Setting → Config
  | .userName value => { cfg with userName := some value }
  | .userEmail value => { cfg with userEmail := some value }
  | .remote name url => { cfg with remotes := cfg.remotes.insert name url }
  | .createDefaultGytignore value => { cfg with createDefaultGytignore := value }
  | .signRequired value => { cfg with signRequired := value }
  | .ciMode mode => { cfg with ciMode := mode }
  | .ciJobMode job mode => { cfg with ciJobModes := cfg.ciJobModes.insert job mode }

/-- The loop variables of `parse`: the number of the line, the section, and the settings so far. -/
structure Parsing where
  lineno : ℕ
  parts : List Str
  settings : List Setting

def parseSection (lineno : ℕ) (rest : Str) : Result (List Str) := do
  let raw := (split '.' (trim rest)).map trim
  let parts := raw.map toLower
  -- An unknown first part is reported before an empty part that follows it.
  ensure (parts.head? ≠ some []) (lineError lineno [": empty section component"])
  ensure (∃ known ∈ knownSections, parts.head? = some known.toList)
    (lineError lineno [": unknown section [", .str (raw.headD []),
      "] (known: user, remote, init, commit, ci). A typo here can silently downgrade ",
      "security settings like sign_required."])
  ensure (parts.all (!·.isEmpty)) (lineError lineno [": empty section component"])
  return parts

/-- A boolean, bare or quoted. -/
def parseBool (lineno : ℕ) (rawKey value : Str) : Result Bool :=
  if value = "true" then .ok true
  else if value = "false" then .ok false
  else
    match (unquote value).map toLower with
    | some s =>
      if s = "true" then .ok true
      else if s = "false" then .ok false
      else .error (lineError lineno [": expected boolean for ", .str rawKey])
    | none => .error (lineError lineno [": expected boolean for ", .str rawKey])

/-- The modes of the section `ci`. -/
def ciModes : List (String × CiConcurrency) :=
  [("parallel", .parallel), ("serial", .serial), ("queue", .serial), ("queued", .serial)]

/-- The modes of the subsections of `ci`. -/
def ciJobModeNames : List (String × CiJobMode) :=
  [("parallel", .parallel), ("queue", .queue), ("queued", .queue), ("serial", .queue),
    ("interrupt", .interrupt), ("preempt", .interrupt)]

/-- The mode with the given name, in any case. -/
def parseMode {α : Type} (lineno : ℕ) (value : Str) (known : List (String × α)) (msg : Msg) :
    Result α :=
  okOr ((known.find? fun mode => toLower value = mode.1.toList).map Prod.snd)
    (lineError lineno (msg ++ [.lit ", got ", .debug (toLower value)]))

def parseSetting (lineno : ℕ) (parts : List Str) (rawKey value : Str) : Result Setting :=
  let key := toLower rawKey
  let unknown (rest : Msg) : Result Setting :=
    .error (lineError lineno (": unknown key " :: .str rawKey :: rest))
  match parts with
  | [s] =>
    if s = "user" then
      if key = "name" then .ok (.userName value)
      else if key = "email" then .ok (.userEmail value)
      else unknown [" in [user]"]
    else if s = "ci" then
      if key = "mode" then
        .ciMode <$> parseMode lineno value ciModes
          [": [ci] mode must be \"parallel\" or \"serial\""]
      else unknown [" in [ci] (known: mode)"]
    else if s = "init" then unknown [" in [init]"]
    else if s = "commit" then unknown [" in [commit]"]
    else .error (lineError lineno [": stray key ", .str rawKey,
      " outside a known section"])
  | [s, name] =>
    if s = "remote" then
      if key = "url" then .ok (.remote name value)
      else unknown [" in [remote.", .str name, "]"]
    else if s = "ci" then
      if key = "mode" then
        .ciJobMode name <$> parseMode lineno value ciJobModeNames
          [": [ci.", .str name,
            "] mode must be \"interrupt\", \"queue\", or \"parallel\""]
      else unknown [" in [ci.", .str name, "] (known: mode)"]
    else .error (lineError lineno [": stray key ", .str rawKey,
      " outside a known section"])
  | _ => .error (lineError lineno [": stray key ", .str rawKey,
      " outside a known section"])

/-- A line `key = value`. -/
def parseKeyValue (lineno : ℕ) (parts : List Str) (line : Str) : Result Setting := do
  let (key, value) ← okOr (splitOnce ['='] line)
    (lineError lineno [": expected \x60key = value\x60"])
  let rawKey := trim key
  let value := trim value
  if parts = ["init".toList] ∧ toLower rawKey = "create_default_gytignore" then
    .createDefaultGytignore <$> parseBool lineno rawKey value
  else if parts = ["commit".toList] ∧ toLower rawKey = "sign_required" then
    .signRequired <$> parseBool lineno rawKey value
  else do
    let raw ← okOr (unquote value) (lineError lineno [": value must be a quoted string"])
    parseSetting lineno parts rawKey raw

/-- One iteration of `parse`. -/
def parseLine (st : Parsing) (raw : Str) : Result Parsing := do
  let line := trim (stripComment raw)
  if line = [] then return { st with lineno := st.lineno + 1 }
  else
    match (stripPrefix ['['] line).bind (stripSuffixChar ']') with
    | some rest => do
      let parts ← parseSection st.lineno rest
      return { st with lineno := st.lineno + 1, parts }
    | none => do
      let setting ← parseKeyValue st.lineno st.parts line
      return { st with lineno := st.lineno + 1, settings := st.settings ++ [setting] }

/-- The settings of a configuration file, in their order. -/
def parseSettings (bytes : Bytes) : Result (List Setting) := do
  let text ← okOr (Utf8.decode bytes) (.parse ["config.toml is not utf-8"])
  let st ← (lines text).foldlM parseLine ⟨0, [], []⟩
  return st.settings

/-- Parsing a configuration file.  A later setting of a key replaces an earlier one. -/
def parse (bytes : Bytes) : Result Config := do
  let settings ← parseSettings bytes
  return settings.foldl set default

/-! ## Loading -/

/-- What the environment provides. -/
structure Environment where
  /-- The global file, if it exists. -/
  globalFile : Option (Except IoError Bytes)
  /-- The variable `GYT_AUTHOR_NAME`. -/
  authorName : Option Str
  /-- The variable `GYT_AUTHOR_EMAIL`. -/
  authorEmail : Option Str

/-- The file of the repository. -/
def configPath : Str := "config.toml"

/-- A configuration with the settings of another one on top of it.  A flag or a mode of the other
one that has its default value counts as not set, except for `sign_required`, which is always
taken. -/
def mergeInto (base other : Config) : Config where
  userName := other.userName.or base.userName
  userEmail := other.userEmail.or base.userEmail
  remotes := base.remotes.insertAll other.remotes
  createDefaultGytignore :=
    if other.createDefaultGytignore then true else base.createDefaultGytignore
  signRequired := other.signRequired
  ciMode := if other.ciMode ≠ .parallel then other.ciMode else base.ciMode
  ciJobModes := base.ciJobModes.insertAll other.ciJobModes

/-- The settings of the global file. -/
def loadBase (env : Environment) : Result Config :=
  match env.globalFile with
  | some file => do
    let bytes ← file.mapError .io
    parse bytes
  | none => .ok default

def loadFiles (env : Environment) (fs : RefFiles) : Result Config := do
  let base ← loadBase env
  if fs.exists configPath then do
    let bytes ← fs.readAll configPath
    let other ← parse bytes
    return mergeInto base other
  else return base

def load (env : Environment) (fs : RefFiles) : Result Config := do
  let cfg ← loadFiles env fs
  return { cfg with
    userName := env.authorName.or cfg.userName
    userEmail := env.authorEmail.or cfg.userEmail }

end Gyt.Config
