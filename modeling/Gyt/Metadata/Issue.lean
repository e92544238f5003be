import Gyt.Metadata.Writer

/-!
# Issues

Issues and discussions, `issues.rs`: the decoder of their blobs, the caps it enforces, the encoder,
and the check that one version of an issue extends another.  What was encoded is decoded again
exactly if its texts are plain (`decode_encode_eq_ok`).
-/

namespace Gyt

open Text Toml List

/-- Whether an entry is an issue or a discussion. -/
inductive IssueKind where
  | issue
  | discussion
  deriving DecidableEq, Repr

inductive IssueState where
  | opened
  | closed
  deriving DecidableEq, Repr

namespace Issue

inductive EventKind where
  | opened
  | comment
  | close
  | reopen
  | label
  | assign
  deriving DecidableEq, Repr

structure Event where
  kind : EventKind
  author : Str
  ts : ℤ
  body : Str
  add : List Str
  remove : List Str
  reason : Str
  deriving DecidableEq, Repr

end Issue

/-- The whole representation of one issue or discussion. -/
structure Issue where
  number : ℕ
  kind : IssueKind
  title : Str
  state : IssueState
  author : Str
  createdTs : ℤ
  labels : List Str
  assignees : List Str
  mentions : List ℕ
  events : List Issue.Event
  deriving DecidableEq, Repr

/-- The name of a kind of entries. -/
def IssueKind.asStr : IssueKind → Str
  | .issue => "issue"
  | .discussion => "discussion"

/-- Reading the kind of an entry. -/
def IssueKind.parse : Str → Result IssueKind :=
  parseName asStr [.issue, .discussion] "unknown issue kind: "

def IssueState.asStr : IssueState → Str
  | .opened => "open"
  | .closed => "closed"

def IssueState.parse : Str → Result IssueState :=
  parseName asStr [.opened, .closed] "unknown issue state: "

namespace Issue

/-- The directory of the references to issues, `ISSUE_REFS_PREFIX`. -/
def refsPrefix : Str := "refs/issues"

/-- The name of the blob in error messages. -/
def blob : String := "issue blob"

def EventKind.asStr : EventKind → Str
  | .opened => "open"
  | .comment => "comment"
  | .close => "close"
  | .reopen => "reopen"
  | .label => "label"
  | .assign => "assign"

def EventKind.parse : Str → Result EventKind :=
  parseName asStr [.opened, .comment, .close, .reopen, .label, .assign] "unknown event kind: "

/-- The checks of `validate` on the event at position `i`. -/
def validateEvent (e : Event) (i : ℕ) : Result Unit := do
  checkTextField (eventField i "author") e.author authorMaxBytes
  checkTextField (eventField i "body") e.body bodyMaxBytes
  checkTextField (eventField i "reason") e.reason reasonMaxBytes
  checkTs (eventField i "ts") e.ts
  checkArray (eventField i "add") e.add
  checkArray (eventField i "remove") e.remove

/-- Checking that an issue is within the caps. -/
def validate (iss : Issue) : Result Unit := do
  checkTextField ["title"] iss.title titleMaxBytes
  checkTextField ["author"] iss.author authorMaxBytes
  checkTs ["created_ts"] iss.createdTs
  checkArray ["labels"] iss.labels
  checkArray ["assignees"] iss.assignees
  checkLength "mentions" iss.mentions.length mentionsMaxEntries
  checkLength "events" iss.events.length eventsMax
  iss.events.zipIdx.forM fun (e, i) => validateEvent e i

/-- The header variables of `decode`. -/
structure Header where
  number : Option ℕ
  kind : Option IssueKind
  title : Str
  state : Option IssueState
  author : Str
  createdTs : ℤ
  labels : List Str
  assignees : List Str
  mentions : List ℕ
  schemaSeen : Bool
  deriving DecidableEq, Repr

/-- The fields of an event. -/
def eventFields : List (Field Event Event) :=
  [⟨"kind", .choice EventKind.asStr EventKind.parse, (·.kind), fun kind e => { e with kind }⟩,
    ⟨"author", .text, (·.author), fun author e => { e with author }⟩,
    ⟨"ts", .time "event.ts", (·.ts), fun ts e => { e with ts }⟩,
    ⟨"body", .text, (·.body), fun body e => { e with body }⟩,
    ⟨"add", .texts, (·.add), fun add e => { e with add }⟩,
    ⟨"remove", .texts, (·.remove), fun remove e => { e with remove }⟩,
    ⟨"reason", .text, (·.reason), fun reason e => { e with reason }⟩]

/-- The fields of the header. -/
def headerFields : List (Field Header Issue) :=
  [⟨"schema_version", .schema "issue", fun _ => (), fun _ h => { h with schemaSeen := true }⟩,
    ⟨"kind", .choice IssueKind.asStr IssueKind.parse, (·.kind),
      fun kind h => { h with kind := some kind }⟩,
    ⟨"number", .number "number", (·.number), fun number h => { h with number := some number }⟩,
    ⟨"title", .text, (·.title), fun title h => { h with title }⟩,
    ⟨"state", .choice IssueState.asStr IssueState.parse, (·.state),
      fun state h => { h with state := some state }⟩,
    ⟨"author", .text, (·.author), fun author h => { h with author }⟩,
    ⟨"created_ts", .time "created_ts", (·.createdTs), fun createdTs h => { h with createdTs }⟩,
    ⟨"labels", .texts, (·.labels), fun labels h => { h with labels }⟩,
    ⟨"assignees", .texts, (·.assignees), fun assignees h => { h with assignees }⟩,
    ⟨"mentions", .numbers, (·.mentions), fun mentions h => { h with mentions }⟩]

/-- How issue blobs are read. -/
def format : Format Header Event where
  blob := blob
  setHeader := setField headerFields blob "unknown issue field: "
  setEvent := setField eventFields blob "unknown event field: "
  newEvent := ⟨.comment, [], 0, [], [], [], []⟩

/-- Decoding an issue blob. -/
def decode (bytes : Bytes) : Result Issue := do
  let (h, events) ← scanDocument format ⟨none, none, [], none, [], 0, [], [], [], false⟩ bytes
  ensure (h.schemaSeen = true) (invalid blob ["missing schema_version"])
  let number ← okOr h.number (invalid blob ["missing number"])
  let kind ← okOr h.kind (invalid blob ["missing kind"])
  let state ← okOr h.state (invalid blob ["missing state"])
  let iss : Issue := ⟨number, kind, h.title, state, h.author, h.createdTs, h.labels, h.assignees,
    h.mentions, events⟩
  validate iss
  return iss

/-! ### Encoding -/

section Encode

variable (t : DebugTables)

def encode (iss : Issue) : Bytes :=
  documentText (fieldLines t headerFields iss) (iss.events.map (fieldLines t eventFields))

def PlainEvent (e : Event) : Prop :=
  Plain t e.author ∧ Plain t e.body ∧ (∀ s ∈ e.add, Plain t s) ∧ (∀ s ∈ e.remove, Plain t s) ∧
    Plain t e.reason

@[mk_iff]
structure PlainTexts (iss : Issue) : Prop where
  title : Plain t iss.title
  author : Plain t iss.author
  labels : ∀ s ∈ iss.labels, Plain t s
  assignees : ∀ s ∈ iss.assignees, Plain t s
  events : ∀ e ∈ iss.events, PlainEvent t e

variable {t} {iss : Issue}

/-- An issue within the caps is decoded from its encoding exactly if its texts are plain. -/
theorem decode_encode_eq_ok (hvalid : validate iss = .ok ()) (hnumber : iss.number < 2 ^ 64)
    (hmentions : ∀ n ∈ iss.mentions, n < 2 ^ 64) :
    decode (encode t iss) = .ok iss ↔ PlainTexts t iss := by
  have hvalid' := hvalid
  simp only [validate, check_bind_eq_ok] at hvalid'
  obtain ⟨-, -, hts, -, -, -, -, hevents⟩ := hvalid'
  have hfits : ∀ f ∈ headerFields, f.codec.Fits (f.get iss) := by
    simpa [headerFields] using ⟨hnumber, ensure_eq_ok.mp hts, hmentions⟩
  have efits : ∀ e ∈ iss.events, ∀ f ∈ eventFields, f.codec.Fits (f.get e) := by
    intro e he
    obtain ⟨i, hi⟩ := exists_of_forM_zipIdx hevents he
    simp only [validateEvent, check_bind_eq_ok] at hi
    simpa [eventFields] using ensure_eq_ok.mp hi.2.2.2.1
  have hkeys : GoodKeys headerFields ∧ GoodKeys eventFields := by decide +kernel
  rw [decode, encode]
  simp only [bind_eq_ok, pure_eq_ok, Prod.exists,
    scanDocument_fieldLines (f := format) rfl rfl hkeys.1 hkeys.2 hfits efits fun _ => rfl]
  simp [headerFields, eventFields, PlainEvent, plainTexts_iff, and_assoc, hvalid]

end Encode

/-- Checking that `new` extends `old`. -/
def validateExtends (old new : Issue) : Result Unit := do
  checkNumber "issue" old.number new.number
  checkUnchanged "issue" "kind" old.kind new.kind
  checkUnchanged "issue" "created_ts" old.createdTs new.createdTs
  checkUnchanged "issue" "author" old.author new.author
  checkUnchanged "issue" "title" old.title new.title
  checkEvents "issue" Event.ts old.events new.events

/-- An issue extends another exactly if the identifying fields agree and the events were only
appended, in order of time. -/
lemma validateExtends_eq_ok {old new : Issue} {u : Unit} : validateExtends old new = .ok u ↔
      new.number = old.number ∧ new.kind = old.kind ∧ new.createdTs = old.createdTs ∧
      new.author = old.author ∧ new.title = old.title ∧ old.events <+: new.events ∧
      checkMonotonic "issue" Event.ts new.events = .ok () := by
  simp only [validateExtends, checkNumber, checkUnchanged, bind_eq_ok, ensure_eq_ok,
    checkEvents_eq_ok, exists_const]

/-! ### Mentions -/

/-- Whether a byte belongs to a word. -/
def isWordChar (b : UInt8) : Bool :=
  (0x30 ≤ b && b ≤ 0x39) || (0x41 ≤ b && b ≤ 0x5a) || (0x61 ≤ b && b ≤ 0x7a) || b == 0x5f

/-- Whether a byte is a decimal digit. -/
def isAsciiDigit (b : UInt8) : Bool := 0x30 ≤ b && b ≤ 0x39

/-- The numbers mentioned from a position on; `prev` is the byte before it.  The loop of the source
goes on after the digits of a mention; none of them starts another one. -/
def mentionsFrom : Option UInt8 → Bytes → List ℕ
  | _, [] => []
  | prev, b :: rest =>
    let here :=
      if b == 0x23 && !prev.any isWordChar && rest.head?.any isAsciiDigit then
        let digits := (rest.take 11).takeWhile isAsciiDigit
        if (rest.drop digits.length).head?.any isWordChar then []
        else (parseU64 (digits.map fun d => Char.ofNat d.toNat)).toList
      else []
    here ++ mentionsFrom (some b) rest

/-- The numbers `#n` in a text, in order and without repetitions. -/
def extractMentions (text : Str) : List ℕ :=
  ((mentionsFrom none (Utf8.encode text)).mergeSort).destutter (· ≠ ·)

/-- Adding mentioned numbers to a list, except for the number of the document itself. -/
def mergeMentions (into new : List ℕ) (selfNumber : ℕ) : List ℕ :=
  let out := new.foldl (fun out n => if n = selfNumber ∨ n ∈ out then out else out ++ [n]) into
  out.mergeSort.destutter (· ≠ ·)

lemma lt_of_mem_mentionsFrom {prev : Option UInt8} {bytes : Bytes} {n : ℕ}
    (h : n ∈ mentionsFrom prev bytes) : n < 2 ^ 64 := by
  induction bytes generalizing prev with
  | nil => simp [mentionsFrom] at h
  | cons b rest ih =>
    rw [mentionsFrom, mem_append] at h
    rcases h with h | h
    · split at h
      · dsimp only at h
        split at h
        · simp at h
        · have hparse := (parseUnsigned_eq_some.mp (Option.mem_toList.mp h)).1
          omega
      · simp at h
    · exact ih h

lemma lt_of_mem_extractMentions {text : Str} {n : ℕ} (h : n ∈ extractMentions text) :
    n < 2 ^ 64 :=
  lt_of_mem_mentionsFrom (mem_mergeSort.mp ((destutter_sublist _ _).subset h))

/-- What is merged into a list of mentions comes from one of the two lists. -/
lemma mem_of_mem_mergeMentions {into new : List ℕ} {selfNumber n : ℕ}
    (h : n ∈ mergeMentions into new selfNumber) : n ∈ into ∨ n ∈ new := by
  have hfold := mem_mergeSort.mp ((destutter_sublist _ _).subset h)
  clear h
  induction new generalizing into with
  | nil => exact .inl hfold
  | cons m new ih =>
    rw [foldl_cons] at hfold
    rcases ih hfold with hmem | hmem
    · split_ifs at hmem
      · exact .inl hmem
      · rcases mem_append.mp hmem with hmem | hmem
        · exact .inl hmem
        · exact .inr (mem_singleton.mp hmem ▸ mem_cons_self)
    · exact .inr (mem_cons_of_mem _ hmem)

/-- The name of the reference to an issue. -/
def refName (n : ℕ) : Str := numberedRef refsPrefix n

def readBlob (s : Store) (id : ObjectId) : Result Issue := readBlobAs refsPrefix decode s id

/-- Reading the issue with a given number. -/
def read (s : Store) (fs : RefFiles) (n : ℕ) : Result Issue :=
  readNumbered "issue" refsPrefix decode number s fs n

end Issue

end Gyt
