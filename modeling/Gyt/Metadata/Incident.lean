import Gyt.Metadata.Writer

/-!
# Incidents

Incidents, `incidents.rs`: the decoder of their blobs, the caps it enforces, the encoder, and the
check that one version of an incident extends another.  What was encoded is decoded again exactly if
its texts are plain and no key of `fields` has an equals sign (`decode_encode_eq_ok`).
-/

namespace Gyt

open Text Toml

inductive IncidentState where
  | detected
  | investigating
  | mitigated
  | resolved
  deriving DecidableEq, Repr

inductive Severity where
  | sev1
  | sev2
  | sev3
  | sev4
  deriving DecidableEq, Repr

namespace Incident

inductive EventKind where
  | opened
  | comment
  | transition
  | severity
  | label
  | assign
  | setField
  | resolve
  | reopen
  deriving DecidableEq, Repr

structure Event where
  kind : EventKind
  author : Str
  ts : ℤ
  body : Str
  add : List Str
  remove : List Str
  reason : Str
  newState : Str
  newSeverity : Str
  fieldKey : Str
  fieldValue : Str
  deriving DecidableEq, Repr

end Incident

/-- The whole representation of one incident; `fields` lists the entries in key order. -/
structure Incident where
  number : ℕ
  title : Str
  state : IncidentState
  severity : Severity
  incidentType : Str
  author : Str
  createdTs : ℤ
  labels : List Str
  assignees : List Str
  mentions : List ℕ
  fields : List (Str × Str)
  events : List Incident.Event
  deriving DecidableEq, Repr

def IncidentState.asStr : IncidentState → Str
  | .detected => "detected"
  | .investigating => "investigating"
  | .mitigated => "mitigated"
  | .resolved => "resolved"

def IncidentState.parse : Str → Result IncidentState :=
  parseName asStr [.detected, .investigating, .mitigated, .resolved] "unknown incident state: "

def Severity.asStr : Severity → Str
  | .sev1 => "sev1"
  | .sev2 => "sev2"
  | .sev3 => "sev3"
  | .sev4 => "sev4"

/-- Reading the severity of an incident. -/
def Severity.parse (s : Str) : Result Severity :=
  if s = "sev1" ∨ s = "SEV1" ∨ s = "1" then .ok .sev1
  else if s = "sev2" ∨ s = "SEV2" ∨ s = "2" then .ok .sev2
  else if s = "sev3" ∨ s = "SEV3" ∨ s = "3" then .ok .sev3
  else if s = "sev4" ∨ s = "SEV4" ∨ s = "4" then .ok .sev4
  else .error (.refs ["unknown severity: ", .str s, " (expected sev1..sev4)"])

namespace Incident

/-- The directory of the references to incidents, `INCIDENT_REFS_PREFIX`. -/
def refsPrefix : Str := "refs/incidents"

/-- The name of the blob in error messages. -/
def blob : String := "incident blob"

/-- The caps that only incidents have. -/
def typeMaxBytes : ℕ := 128
def stateStrMaxBytes : ℕ := 64
def fieldKeyMaxBytes : ℕ := 128
def fieldValMaxBytes : ℕ := 4096
def fieldsMaxEntries : ℕ := 256

def EventKind.asStr : EventKind → Str
  | .opened => "open"
  | .comment => "comment"
  | .transition => "transition"
  | .severity => "severity"
  | .label => "label"
  | .assign => "assign"
  | .setField => "set_field"
  | .resolve => "resolve"
  | .reopen => "reopen"

def EventKind.parse : Str → Result EventKind :=
  parseName asStr [.opened, .comment, .transition, .severity, .label, .assign, .setField, .resolve,
    .reopen] "unknown incident event: "

/-- The checks of `validate` on the event at position `i`. -/
def validateEvent (e : Event) (i : ℕ) : Result Unit := do
  checkTextField (eventField i "author") e.author authorMaxBytes
  checkTextField (eventField i "body") e.body bodyMaxBytes
  checkTextField (eventField i "reason") e.reason reasonMaxBytes
  checkTextField (eventField i "new_state") e.newState stateStrMaxBytes
  checkTextField (eventField i "new_severity") e.newSeverity stateStrMaxBytes
  checkTextField (eventField i "field_key") e.fieldKey fieldKeyMaxBytes
  checkTextField (eventField i "field_value") e.fieldValue fieldValMaxBytes
  checkTs (eventField i "ts") e.ts
  checkArray (eventField i "add") e.add
  checkArray (eventField i "remove") e.remove

/-- The checks of `validate` on an entry of `fields`. -/
def validateField (k v : Str) : Result Unit := do
  checkTextField ["fields[", .debug k, "].key"] k fieldKeyMaxBytes
  checkTextField ["fields[", .debug k, "].value"] v fieldValMaxBytes

/-- Checking that an incident is within the caps. -/
def validate (inc : Incident) : Result Unit := do
  checkTextField ["title"] inc.title titleMaxBytes
  checkTextField ["incident_type"] inc.incidentType typeMaxBytes
  checkTextField ["author"] inc.author authorMaxBytes
  checkTs ["created_ts"] inc.createdTs
  checkArray ["labels"] inc.labels
  checkArray ["assignees"] inc.assignees
  checkLength "mentions" inc.mentions.length mentionsMaxEntries
  ensure (inc.fields.length ≤ fieldsMaxEntries)
    (.refs ["fields too many: ", .num inc.fields.length, " (max ",
      .num fieldsMaxEntries, ")"])
  inc.fields.forM fun (k, v) => validateField k v
  checkLength "events" inc.events.length eventsMax
  inc.events.zipIdx.forM fun (e, i) => validateEvent e i

/-- The header variables of `decode`. -/
structure Header where
  number : Option ℕ
  title : Str
  state : Option IncidentState
  severity : Option Severity
  incidentType : Str
  author : Str
  createdTs : ℤ
  labels : List Str
  assignees : List Str
  mentions : List ℕ
  fields : List (Str × Str)
  schemaSeen : Bool
  kindSeen : Bool
  deriving DecidableEq, Repr

/-- The fields of an event. -/
def eventFields : List (Field Event Event) :=
  [⟨"kind", .choice EventKind.asStr EventKind.parse, (·.kind), fun kind e => { e with kind }⟩,
    ⟨"author", .text, (·.author), fun author e => { e with author }⟩,
    ⟨"ts", .time "event.ts", (·.ts), fun ts e => { e with ts }⟩,
    ⟨"body", .text, (·.body), fun body e => { e with body }⟩,
    ⟨"add", .texts, (·.add), fun add e => { e with add }⟩,
    ⟨"remove", .texts, (·.remove), fun remove e => { e with remove }⟩,
    ⟨"reason", .text, (·.reason), fun reason e => { e with reason }⟩,
    ⟨"new_state", .text, (·.newState), fun newState e => { e with newState }⟩,
    ⟨"new_severity", .text, (·.newSeverity), fun newSeverity e => { e with newSeverity }⟩,
    ⟨"field_key", .text, (·.fieldKey), fun fieldKey e => { e with fieldKey }⟩,
    ⟨"field_value", .text, (·.fieldValue), fun fieldValue e => { e with fieldValue }⟩]

/-- The fields of the header. -/
def headerFields : List (Field Header Incident) :=
  [⟨"schema_version", .schema "incident", fun _ => (), fun _ h => { h with schemaSeen := true }⟩,
    ⟨"kind", .only "incident", fun _ => (), fun _ h => { h with kindSeen := true }⟩,
    ⟨"number", .number "number", (·.number), fun number h => { h with number := some number }⟩,
    ⟨"title", .text, (·.title), fun title h => { h with title }⟩,
    ⟨"state", .choice IncidentState.asStr IncidentState.parse, (·.state),
      fun state h => { h with state := some state }⟩,
    ⟨"severity", .choice Severity.asStr Severity.parse, (·.severity),
      fun severity h => { h with severity := some severity }⟩,
    ⟨"incident_type", .text, (·.incidentType), fun incidentType h => { h with incidentType }⟩,
    ⟨"author", .text, (·.author), fun author h => { h with author }⟩,
    ⟨"created_ts", .time "created_ts", (·.createdTs), fun createdTs h => { h with createdTs }⟩,
    ⟨"labels", .texts, (·.labels), fun labels h => { h with labels }⟩,
    ⟨"assignees", .texts, (·.assignees), fun assignees h => { h with assignees }⟩,
    ⟨"mentions", .numbers, (·.mentions), fun mentions h => { h with mentions }⟩,
    ⟨"fields", .table, (·.fields), fun fields h => { h with fields }⟩]

/-- How incident blobs are read. -/
def format : Format Header Event where
  blob := blob
  setHeader := setField headerFields blob "unknown incident field: "
  setEvent := setField eventFields blob "unknown event field: "
  newEvent := ⟨.comment, [], 0, [], [], [], [], [], [], [], []⟩

/-- Decoding an incident blob. -/
def decode (bytes : Bytes) : Result Incident := do
  let (h, events) ←
    scanDocument format ⟨none, [], none, none, [], [], 0, [], [], [], [], false, false⟩ bytes
  ensure (h.schemaSeen = true) (invalid blob ["missing schema_version"])
  ensure (h.kindSeen = true) (invalid blob ["missing kind"])
  let number ← okOr h.number (invalid blob ["missing number"])
  let state ← okOr h.state (invalid blob ["missing state"])
  let severity ← okOr h.severity (invalid blob ["missing severity"])
  let inc : Incident := ⟨number, h.title, state, severity, h.incidentType, h.author, h.createdTs,
    h.labels, h.assignees, h.mentions, h.fields, events⟩
  validate inc
  return inc

/-! ### Encoding -/

section Encode

variable (t : DebugTables)

def encode (inc : Incident) : Bytes :=
  documentText (fieldLines t headerFields inc) (inc.events.map (fieldLines t eventFields))

def PlainEvent (e : Event) : Prop :=
  Plain t e.author ∧ Plain t e.body ∧ (∀ s ∈ e.add, Plain t s) ∧ (∀ s ∈ e.remove, Plain t s) ∧
    Plain t e.reason ∧ Plain t e.newState ∧ Plain t e.newSeverity ∧ Plain t e.fieldKey ∧
    Plain t e.fieldValue

/-- Whether the texts of an incident are plain, and no key of `fields` has an equals sign. -/
@[mk_iff]
structure PlainTexts (inc : Incident) : Prop where
  title : Plain t inc.title
  incidentType : Plain t inc.incidentType
  author : Plain t inc.author
  labels : ∀ s ∈ inc.labels, Plain t s
  assignees : ∀ s ∈ inc.assignees, Plain t s
  fields : ∀ e ∈ inc.fields, PlainEntry t e
  events : ∀ e ∈ inc.events, PlainEvent t e

variable {t} {inc : Incident}

section

variable (hvalid : validate inc = .ok ()) (hnumber : inc.number < 2 ^ 64)
  (hmentions : ∀ n ∈ inc.mentions, n < 2 ^ 64) (hfields : inc.fields.Pairwise fun a b => a.1 < b.1)

include hvalid hnumber hmentions hfields

/-- The encoding of an incident within the caps is decoded exactly if its texts are plain and no key
of `fields` has an equals sign, and then to the incident. -/
theorem decode_encode {r : Incident} :
    decode (encode t inc) = .ok r ↔ PlainTexts t inc ∧ r = inc := by
  have hvalid' := hvalid
  simp only [validate, check_bind_eq_ok] at hvalid'
  obtain ⟨-, -, -, hts, -, -, -, -, -, -, hevents⟩ := hvalid'
  have hfits : ∀ f ∈ headerFields, f.codec.Fits (f.get inc) := by
    simpa [headerFields] using ⟨hnumber, ensure_eq_ok.mp hts, hmentions, hfields⟩
  have efits : ∀ e ∈ inc.events, ∀ f ∈ eventFields, f.codec.Fits (f.get e) := by
    intro e he
    obtain ⟨i, hi⟩ := exists_of_forM_zipIdx hevents he
    simp only [validateEvent, check_bind_eq_ok] at hi
    simpa [eventFields] using ensure_eq_ok.mp hi.2.2.2.2.2.2.2.1
  have hkeys : GoodKeys headerFields ∧ GoodKeys eventFields := by decide +kernel
  rw [decode, encode]
  simp only [bind_eq_ok, pure_eq_ok, Prod.exists,
    scanDocument_fieldLines (f := format) rfl rfl hkeys.1 hkeys.2 hfits efits fun _ => rfl]
  simp [headerFields, eventFields, PlainEvent, plainTexts_iff, and_assoc, hvalid, eq_comm (a := r)]

/-- An incident within the caps is decoded from its encoding exactly if its texts are plain and no
key of `fields` has an equals sign. -/
theorem decode_encode_eq_ok : decode (encode t inc) = .ok inc ↔ PlainTexts t inc :=
  (decode_encode hvalid hnumber hmentions hfields).trans (and_iff_left rfl)

end

end Encode

/-- Whether an incident may go from one state to another. -/
def isAllowedTransition : IncidentState → IncidentState → Bool
  | .detected, .investigating | .detected, .mitigated | .detected, .resolved => true
  | .investigating, .detected | .investigating, .mitigated | .investigating, .resolved => true
  | .mitigated, .investigating | .mitigated, .resolved => true
  | .resolved, .investigating => true
  | _, _ => false

/-- Checking that `new` extends `old`. -/
def validateExtends (old new : Incident) : Result Unit := do
  checkNumber "incident" old.number new.number
  checkUnchanged "incident" "created_ts" old.createdTs new.createdTs
  checkUnchanged "incident" "author" old.author new.author
  checkUnchanged "incident" "title" old.title new.title
  checkUnchanged "incident" "incident_type" old.incidentType new.incidentType
  checkEvents "incident" Event.ts old.events new.events
  ensure (¬(old.state ≠ new.state ∧ isAllowedTransition old.state new.state = false))
    (.refs ["incident rewind: invalid state transition ", .str old.state.asStr, " -> ",
      .str new.state.asStr])

/-- An incident extends another exactly if the identifying fields agree, the events were only
appended, in order of time, and the change of state is allowed. -/
lemma validateExtends_eq_ok {old new : Incident} {u : Unit} : validateExtends old new = .ok u ↔
      new.number = old.number ∧ new.createdTs = old.createdTs ∧ new.author = old.author ∧
      new.title = old.title ∧ new.incidentType = old.incidentType ∧
      (old.events <+: new.events ∧ checkMonotonic "incident" Event.ts new.events = .ok ()) ∧
      ¬(old.state ≠ new.state ∧ isAllowedTransition old.state new.state = false) := by
  simp only [validateExtends, checkNumber, checkUnchanged, bind_eq_ok, ensure_eq_ok,
    checkEvents_eq_ok, exists_const]

/-- The name of the reference to an incident. -/
def refName (n : ℕ) : Str := numberedRef refsPrefix n

def readBlob (s : Store) (id : ObjectId) : Result Incident := readBlobAs refsPrefix decode s id

/-- Reading the incident with a given number. -/
def read (s : Store) (fs : RefFiles) (n : ℕ) : Result Incident :=
  readNumbered "incident" refsPrefix decode number s fs n

end Incident

end Gyt
