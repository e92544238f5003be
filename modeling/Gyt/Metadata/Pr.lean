import Gyt.Metadata.Writer

/-!
# Pull requests

Pull requests, `prs.rs`: the decoder of their blobs, the caps it enforces, the encoder, and the
check that one version of a pull request extends another.  What was encoded is decoded again exactly
if its texts are plain (`decode_encode_eq_ok`).
-/

namespace Gyt

open Text Toml

/-- The state of a pull request. -/
inductive PrState where
  | opened
  | closed
  | merged
  deriving DecidableEq, Repr

/-- The kinds of events of a pull request. -/
inductive PrEventKind where
  | opened
  | comment
  | close
  | reopen
  | label
  | assign
  | merge
  | ciRun
  deriving DecidableEq, Repr

/-- An event of a pull request. -/
structure PrEvent where
  kind : PrEventKind
  author : Str
  ts : ℤ
  body : Str
  add : List Str
  remove : List Str
  reason : Str
  /-- The commit a merge produced, or the outcome of a CI run. -/
  result : Str
  deriving DecidableEq, Repr

/-- The whole representation of one pull request. -/
structure Pr where
  number : ℕ
  title : Str
  state : PrState
  sourceRef : Str
  targetRef : Str
  author : Str
  createdTs : ℤ
  labels : List Str
  assignees : List Str
  mentions : List ℕ
  events : List PrEvent
  deriving DecidableEq, Repr

def PrState.asStr : PrState → Str
  | .opened => "open"
  | .closed => "closed"
  | .merged => "merged"

/-- Reading the state of a pull request. -/
def PrState.parse : Str → Result PrState :=
  parseName asStr [.opened, .closed, .merged] "unknown pr state: "

def PrEventKind.asStr : PrEventKind → Str
  | .opened => "open"
  | .comment => "comment"
  | .close => "close"
  | .reopen => "reopen"
  | .label => "label"
  | .assign => "assign"
  | .merge => "merge"
  | .ciRun => "ci_run"

def PrEventKind.parse : Str → Result PrEventKind :=
  parseName asStr [.opened, .comment, .close, .reopen, .label, .assign, .merge, .ciRun]
    "unknown pr event: "

namespace Pr

/-- The directory of the references to pull requests, `PR_REFS_PREFIX`. -/
def refsPrefix : Str := "refs/prs"

/-- The name of the blob in error messages. -/
def blob : String := "pr blob"

/-- The caps that only pull requests have. -/
def resultMaxBytes : ℕ := 4096
def refMaxBytes : ℕ := 255

/-- The checks of `validate` on the event at position `i`. -/
def validateEvent (e : PrEvent) (i : ℕ) : Result Unit := do
  checkTextField (eventField i "author") e.author authorMaxBytes
  checkTextField (eventField i "body") e.body bodyMaxBytes
  checkTextField (eventField i "reason") e.reason reasonMaxBytes
  checkTextField (eventField i "result") e.result resultMaxBytes
  checkTs (eventField i "ts") e.ts
  checkArray (eventField i "add") e.add
  checkArray (eventField i "remove") e.remove

/-- Checking that a pull request is within the caps and names valid references. -/
def validate (pr : Pr) : Result Unit := do
  checkTextField ["title"] pr.title titleMaxBytes
  checkTextField ["author"] pr.author authorMaxBytes
  checkTextField ["source_ref"] pr.sourceRef refMaxBytes
  checkTextField ["target_ref"] pr.targetRef refMaxBytes
  mapErr (fun e => .refs ("source_ref: " :: e.display)) (validateRefName pr.sourceRef)
  mapErr (fun e => .refs ("target_ref: " :: e.display)) (validateRefName pr.targetRef)
  checkTs ["created_ts"] pr.createdTs
  checkArray ["labels"] pr.labels
  checkArray ["assignees"] pr.assignees
  checkLength "mentions" pr.mentions.length mentionsMaxEntries
  checkLength "events" pr.events.length eventsMax
  pr.events.zipIdx.forM fun (e, i) => validateEvent e i

/-- The header variables of `decode`. -/
structure Header where
  number : Option ℕ
  title : Str
  state : Option PrState
  sourceRef : Str
  targetRef : Str
  author : Str
  createdTs : ℤ
  labels : List Str
  assignees : List Str
  mentions : List ℕ
  schemaSeen : Bool
  kindSeen : Bool
  deriving DecidableEq, Repr

/-- The fields of an event. -/
def eventFields : List (Field PrEvent PrEvent) :=
  [⟨"kind", .choice PrEventKind.asStr PrEventKind.parse, (·.kind), fun kind e => { e with kind }⟩,
    ⟨"author", .text, (·.author), fun author e => { e with author }⟩,
    ⟨"ts", .time "event.ts", (·.ts), fun ts e => { e with ts }⟩,
    ⟨"body", .text, (·.body), fun body e => { e with body }⟩,
    ⟨"add", .texts, (·.add), fun add e => { e with add }⟩,
    ⟨"remove", .texts, (·.remove), fun remove e => { e with remove }⟩,
    ⟨"reason", .text, (·.reason), fun reason e => { e with reason }⟩,
    ⟨"result", .text, (·.result), fun result e => { e with result }⟩]

/-- The fields of the header. -/
def headerFields : List (Field Header Pr) :=
  [⟨"schema_version", .schema "pr", fun _ => (), fun _ h => { h with schemaSeen := true }⟩,
    ⟨"kind", .only "pr", fun _ => (), fun _ h => { h with kindSeen := true }⟩,
    ⟨"number", .number "number", (·.number), fun number h => { h with number := some number }⟩,
    ⟨"title", .text, (·.title), fun title h => { h with title }⟩,
    ⟨"state", .choice PrState.asStr PrState.parse, (·.state),
      fun state h => { h with state := some state }⟩,
    ⟨"source_ref", .text, (·.sourceRef), fun sourceRef h => { h with sourceRef }⟩,
    ⟨"target_ref", .text, (·.targetRef), fun targetRef h => { h with targetRef }⟩,
    ⟨"author", .text, (·.author), fun author h => { h with author }⟩,
    ⟨"created_ts", .time "created_ts", (·.createdTs), fun createdTs h => { h with createdTs }⟩,
    ⟨"labels", .texts, (·.labels), fun labels h => { h with labels }⟩,
    ⟨"assignees", .texts, (·.assignees), fun assignees h => { h with assignees }⟩,
    ⟨"mentions", .numbers, (·.mentions), fun mentions h => { h with mentions }⟩]

/-- How pull request blobs are read. -/
def format : Format Header PrEvent where
  blob := blob
  setHeader := setField headerFields blob "unknown pr field: "
  setEvent := setField eventFields blob "unknown event field: "
  newEvent := ⟨.comment, [], 0, [], [], [], [], []⟩

/-- Decoding a pull request blob. -/
def decode (bytes : Bytes) : Result Pr := do
  let (h, events) ←
    scanDocument format ⟨none, [], none, [], [], [], 0, [], [], [], false, false⟩ bytes
  ensure (h.schemaSeen = true) (invalid blob ["missing schema_version"])
  ensure (h.kindSeen = true) (invalid blob ["missing kind"])
  let number ← okOr h.number (invalid blob ["missing number"])
  let state ← okOr h.state (invalid blob ["missing state"])
  let pr : Pr := ⟨number, h.title, state, h.sourceRef, h.targetRef, h.author, h.createdTs, h.labels,
    h.assignees, h.mentions, events⟩
  validate pr
  return pr

/-! ### Encoding -/

section Encode

variable (t : DebugTables)

/-- Encoding a pull request. -/
def encode (pr : Pr) : Bytes :=
  documentText (fieldLines t headerFields pr) (pr.events.map (fieldLines t eventFields))

def PlainEvent (e : PrEvent) : Prop :=
  Plain t e.author ∧ Plain t e.body ∧ (∀ s ∈ e.add, Plain t s) ∧ (∀ s ∈ e.remove, Plain t s) ∧
    Plain t e.reason ∧ Plain t e.result

/-- Whether the texts of a pull request are plain. -/
@[mk_iff]
structure PlainTexts (pr : Pr) : Prop where
  title : Plain t pr.title
  sourceRef : Plain t pr.sourceRef
  targetRef : Plain t pr.targetRef
  author : Plain t pr.author
  labels : ∀ s ∈ pr.labels, Plain t s
  assignees : ∀ s ∈ pr.assignees, Plain t s
  events : ∀ e ∈ pr.events, PlainEvent t e

variable {t} {pr : Pr}

/-- A pull request within the caps is decoded from its encoding exactly if its texts are plain. -/
theorem decode_encode_eq_ok (hvalid : validate pr = .ok ()) (hnumber : pr.number < 2 ^ 64)
    (hmentions : ∀ n ∈ pr.mentions, n < 2 ^ 64) :
    decode (encode t pr) = .ok pr ↔ PlainTexts t pr := by
  have hvalid' := hvalid
  simp only [validate, check_bind_eq_ok] at hvalid'
  obtain ⟨-, -, -, -, -, -, hts, -, -, -, -, hevents⟩ := hvalid'
  have hfits : ∀ f ∈ headerFields, f.codec.Fits (f.get pr) := by
    simpa [headerFields] using ⟨hnumber, ensure_eq_ok.mp hts, hmentions⟩
  have efits : ∀ e ∈ pr.events, ∀ f ∈ eventFields, f.codec.Fits (f.get e) := by
    intro e he
    obtain ⟨i, hi⟩ := exists_of_forM_zipIdx hevents he
    simp only [validateEvent, check_bind_eq_ok] at hi
    simpa [eventFields] using ensure_eq_ok.mp hi.2.2.2.2.1
  have hkeys : GoodKeys headerFields ∧ GoodKeys eventFields := by decide +kernel
  rw [decode, encode]
  simp only [bind_eq_ok, pure_eq_ok, Prod.exists,
    scanDocument_fieldLines (f := format) rfl rfl hkeys.1 hkeys.2 hfits efits fun _ => rfl]
  simp [headerFields, eventFields, PlainEvent, plainTexts_iff, and_assoc, hvalid]

end Encode

/-- Checking the change of state: a pull request becomes merged only with a new merge event, and
then stays merged. -/
def checkState (old new : Pr) : Result Unit :=
  match old.state, new.state with
  | .opened, .opened | .closed, .closed | .merged, .merged | .opened, .closed
  | .closed, .opened => .ok ()
  | .opened, .merged | .closed, .merged =>
    ensure ((new.events.drop old.events.length).any (·.kind = .merge))
      (.refs ["pr rewind: state -> merged requires a matching merge event"])
  | .merged, _ => .error (.refs ["pr rewind: cannot transition out of merged state"])

/-- Checking that `new` extends `old`. -/
def validateExtends (old new : Pr) : Result Unit := do
  checkNumber "pr" old.number new.number
  checkUnchanged "pr" "created_ts" old.createdTs new.createdTs
  checkUnchanged "pr" "author" old.author new.author
  checkUnchanged "pr" "title" old.title new.title
  checkUnchanged "pr" "source_ref" old.sourceRef new.sourceRef
  checkUnchanged "pr" "target_ref" old.targetRef new.targetRef
  checkEvents "pr" PrEvent.ts old.events new.events
  checkState old new

/-- A pull request extends another exactly if the identifying fields agree, the events were only
appended, in order of time, and the change of state is allowed. -/
lemma validateExtends_eq_ok {old new : Pr} {u : Unit} : validateExtends old new = .ok u ↔
      new.number = old.number ∧ new.createdTs = old.createdTs ∧ new.author = old.author ∧
      new.title = old.title ∧ new.sourceRef = old.sourceRef ∧ new.targetRef = old.targetRef ∧
      (old.events <+: new.events ∧ checkMonotonic "pr" PrEvent.ts new.events = .ok ()) ∧
      checkState old new = .ok () := by
  simp only [validateExtends, checkNumber, checkUnchanged, bind_eq_ok, ensure_eq_ok,
    checkEvents_eq_ok, exists_const]

/-- No allowed change of state leaves the merged state. -/
lemma state_eq_merged_of_checkState {old new : Pr} (hold : old.state = .merged)
    (h : checkState old new = .ok ()) : new.state = .merged := by
  cases hnew : new.state <;> simp [checkState, hold, hnew] at h ⊢

/-- The name of the reference to a pull request. -/
def refName (n : ℕ) : Str := numberedRef refsPrefix n

/-- Reading the blob of a pull request. -/
def readBlob (s : Store) (id : ObjectId) : Result Pr := readBlobAs refsPrefix decode s id

/-- Reading the pull request with a given number. -/
def read (s : Store) (fs : RefFiles) (n : ℕ) : Result Pr :=
  readNumbered "pr" refsPrefix decode number s fs n

end Pr

end Gyt
