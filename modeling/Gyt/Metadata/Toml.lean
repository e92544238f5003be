import Gyt.Refs
import Gyt.Object.Store
import Gyt.Foundation.SortedMap

/-!
# The text format of metadata blobs

Issues, pull requests and incidents are stored as blobs in a restricted form of TOML: header lines
`key = value`, then one `[[event]]` section per event.  The three modules `issues.rs`, `prs.rs` and
`incidents.rs` carry the same parser, which is modelled here once; `blob` is the name of the blob
in its messages.  The caps on field sizes, the comparison of two event lists and the reading of a
document through its reference are shared too.
-/

namespace Gyt.Toml

open Text

/-! ## Values -/

/-- The error for a field that cannot be read. -/
def invalid (blob : String) (field : Msg) : GytError :=
  .refs (.lit blob :: ": invalid " :: field)

/-- The character an escape letter stands for. -/
def unescapeChar (c : Char) : Option Char :=
  if c = 'n' then some '\n'
  else if c = 'r' then some '\r'
  else if c = 't' then some '\t'
  else if c = '\\' then some '\\'
  else if c = '"' then some '"'
  else if c = '0' then some '\x00'
  else none

/-- The text between the quotes of a string, with its escapes resolved. -/
def unescape (blob : String) : Str → Result Str
  | [] => .ok []
  | c :: rest =>
    if c = '\\' then
      match rest with
      | [] => .error (.refs [.lit blob, ": trailing backslash"])
      | d :: rest =>
        match unescapeChar d with
        | some e => (e :: ·) <$> unescape blob rest
        | none => .error (.refs [.lit blob, ": unsupported escape \\", .str [d]])
    else (c :: ·) <$> unescape blob rest

/-- The text without its first and its last character. -/
def inner (s : Str) : Str := s.tail.dropLast

/-- Reading a quoted string. -/
def parseTomlString (blob : String) (s : Str) : Result Str := do
  let s := trim s
  ensure (¬((Utf8.encode s).length < 2 ∨ s.head? ≠ some '"' ∨ s.getLast? ≠ some '"'))
    (.refs [.lit blob, ": not a quoted string: ", .str s])
  unescape blob (inner s)

/-- The loop variables of the scan of an array or a table. -/
structure Scan where
  out : List Str
  buf : Str
  inStr : Bool
  escape : Bool
  deriving DecidableEq, Repr

/-- What a character inside quotes, or the one that opens them, does to the scan; `none` for any
other character. -/
def Scan.quoted (s : Scan) (c : Char) : Option Scan :=
  if s.escape then some { s with buf := s.buf ++ [c], escape := false }
  else if s.inStr then
    some { s with buf := s.buf ++ [c], escape := c == '\\', inStr := c != '"' }
  else if c = '"' then some { s with buf := s.buf ++ [c], inStr := true }
  else none

def arrayStep (blob : String) (s : Scan) (c : Char) : Result Scan :=
  match s.quoted c with
  | some s => .ok s
  | none =>
    if c = ',' then do
      let x ← parseTomlString blob (trim s.buf)
      return { s with out := s.out ++ [x], buf := [] }
    else if isWhitespace c then .ok s
    else .ok { s with buf := s.buf ++ [c] }

def parseTomlStringArray (blob : String) (s : Str) : Result (List Str) := do
  let s := trim s
  if s = ['[', ']'] then return []
  ensure (¬(s.head? ≠ some '[' ∨ s.getLast? ≠ some ']'))
    (.refs [.lit blob, ": not an array: ", .str s])
  let scan ← (inner s).foldlM (arrayStep blob) ⟨[], [], false, false⟩
  if trim scan.buf = [] then return scan.out
  let x ← parseTomlString blob (trim scan.buf)
  return scan.out ++ [x]

/-- Reading an array of numbers. -/
def parseTomlU64Array (blob : String) (s : Str) : Result (List ℕ) := do
  let s := trim s
  if s = ['[', ']'] then return []
  ensure (¬(s.head? ≠ some '[' ∨ s.getLast? ≠ some ']'))
    (.refs [.lit blob, ": not an array: ", .str s])
  (((split ',' (inner s)).map trim).filter (· ≠ [])).mapM fun t =>
    okOr (parseU64 t) (invalid blob ["u64 in array"])

/-- One iteration of the scan of an inline table into its entries. -/
def tableStep (s : Scan) (c : Char) : Scan :=
  match s.quoted c with
  | some s => s
  | none =>
    if c = ',' then
      { s with out := if trim s.buf = [] then s.out else s.out ++ [trim s.buf], buf := [] }
    else { s with buf := s.buf ++ [c] }

/-- Reading an entry of a table and adding it to the map read so far. -/
def addEntry (blob : String) (m : List (Str × Str)) (ent : Str) : Result (List (Str × Str)) := do
  let (k, v) ← okOr (splitOnce ['='] ent) (.refs [.lit blob, ": bad table entry: ", .str ent])
  let key ← parseTomlString blob (trim k)
  let val ← parseTomlString blob (trim v)
  return mapInsert key val m

/-- Reading an inline table of strings. -/
def parseTomlStringMap (blob : String) (s : Str) : Result (List (Str × Str)) := do
  let s := trim s
  if s = ['\x7b', '\x7d'] then return []
  ensure (¬(s.head? ≠ some '\x7b' ∨ s.getLast? ≠ some '\x7d'))
    (.refs [.lit blob, ": not a table: ", .str s])
  let scan := (inner s).foldl tableStep ⟨[], [], false, false⟩
  let entries := if trim scan.buf = [] then scan.out else scan.out ++ [trim scan.buf]
  entries.foldlM (addEntry blob) []

/-! ## Documents -/

/-- What tells the decoders of the three kinds of blobs apart: the name of the blob, how a header
line and an event line are read, and the event that `[[event]]` starts. -/
structure Format (H E : Type) where
  blob : String
  setHeader : H → Str → Str → Result H
  setEvent : E → Str → Str → Result E
  newEvent : E

/-- The loop variables of `decode`. -/
structure Partial (H E : Type) where
  header : H
  events : List E
  cur : Option E

variable {H E : Type}

/-- One iteration of the loop of `decode`. -/
def scanLine (f : Format H E) (st : Partial H E) (raw : Str) : Result (Partial H E) :=
  let line := trim raw
  if line = [] ∨ line.head? = some '#' then .ok st
  else if line = "[[event]]" then
    .ok { st with events := st.events ++ st.cur.toList, cur := some f.newEvent }
  else do
    let (key, val) ← okOr (splitOnce ['='] line)
      (.refs [.lit f.blob, ": malformed line: ", .str raw])
    match st.cur with
    | some e => do
      let e ← f.setEvent e (trim key) (trim val)
      return { st with cur := some e }
    | none => do
      let h ← f.setHeader st.header (trim key) (trim val)
      return { st with header := h }

/-- The header and the events of a blob. -/
def scanDocument (f : Format H E) (init : H) (bytes : Bytes) : Result (H × List E) := do
  let text ← okOr (Utf8.decode bytes) (.refs [.lit f.blob, " is not valid utf-8"])
  let st ← (lines text).foldlM (scanLine f) ⟨init, [], none⟩
  return (st.header, st.events ++ st.cur.toList)

/-- Reading a number field. -/
def parseU64Field (blob field : String) (val : Str) : Result ℕ :=
  okOr (parseU64 val) (invalid blob [.lit field])

/-- Reading a time stamp field. -/
def parseI64Field (blob field : String) (val : Str) : Result ℤ :=
  okOr (parseI64 val) (invalid blob [.lit field])

/-- The supported schema version, `SCHEMA_VERSION`. -/
def schemaVersion : ℕ := 1

/-- Reading the schema version, which has to be the supported one; `kind` names it otherwise. -/
def checkSchemaVersion (blob kind : String) (val : Str) : Result Unit := do
  let v ← okOr (parseU32 val) (invalid blob ["schema_version"])
  ensure (v = schemaVersion)
    (.refs ["unsupported ", .lit kind, " schema_version ", .num v])

/-! ## Caps -/

/-- The bounds of time stamps and field sizes. -/
def tsMin : ℤ := 0
def tsMax : ℤ := 4102444800
def titleMaxBytes : ℕ := 1024
def bodyMaxBytes : ℕ := 65536
def authorMaxBytes : ℕ := 256
def reasonMaxBytes : ℕ := 1024
def arrayEntryMaxBytes : ℕ := 256
def arrayMaxEntries : ℕ := 256
def mentionsMaxEntries : ℕ := 1024
def eventsMax : ℕ := 100000

/-- Whether a byte may not occur in a text field. -/
def forbiddenByte (b : UInt8) : Bool :=
  b == 0x7f || (decide (b < 0x20) && !(b == 0x0a || b == 0x0d || b == 0x09))

def checkTextField (name : Msg) (s : Str) (maxBytes : ℕ) : Result Unit := do
  let bytes := Utf8.encode s
  ensure (bytes.length ≤ maxBytes)
    (.refs (name ++ [.lit " too long: ", .num bytes.length, .lit " bytes (max ", .num maxBytes,
      .lit ")"]))
  bytes.zipIdx.forM fun (b, i) =>
    ensure (forbiddenByte b = false)
      (.refs (name ++ [.lit " contains forbidden control byte 0x", .hex02 b, .lit " at offset ",
        .num i]))

/-- Reading a value of an enumeration by its name; `unknown` is the message if there is none. -/
def parseName {κ : Type} (name : κ → Str) (all : List κ) (unknown : String) (s : Str) : Result κ :=
  okOr (all.find? (name · = s)) (.refs [.lit unknown, .str s])

/-- Checking the range of a time stamp. -/
def checkTs (name : Msg) (ts : ℤ) : Result Unit :=
  ensure (tsMin ≤ ts ∧ ts ≤ tsMax)
    (.refs (name ++ [.lit " timestamp ", .num ts, .lit " out of range [", .num tsMin, .lit ", ",
      .num tsMax, .lit "]"]))

/-- Checking the size of an array and its entries. -/
def checkArray (name : Msg) (xs : List Str) : Result Unit := do
  ensure (xs.length ≤ arrayMaxEntries)
    (.refs (name ++ [.lit " too many entries: ", .num xs.length, .lit " (max ",
      .num arrayMaxEntries, .lit ")"]))
  xs.zipIdx.forM fun (s, i) =>
    checkTextField (name ++ [.lit "[", .num i, .lit "]"]) s arrayEntryMaxBytes

/-- Checking the length of a list without looking at its entries. -/
def checkLength (name : String) (length max : ℕ) : Result Unit :=
  ensure (length ≤ max)
    (.refs [.lit name, " too long: ", .num length, " (max ", .num max, ")"])

def eventField (i : ℕ) (field : String) : Msg := ["event[", .num i, "].", .lit field]

/-! ## Extension of a document -/

section Extends

variable [DecidableEq E]

/-- Comparing the events of the old document with those of the new one, from position `i` on. -/
def checkPreserved (what : String) : ℕ → List E → List E → Result Unit
  | _, [], _ => .ok ()
  | i, oe :: old, new => do
    ensure (new.head? = some oe)
      (.refs [.lit what, " rewind: event #", .num i, " was modified"])
    checkPreserved what (i + 1) old new.tail

/-- Checking that the time stamps of consecutive events do not decrease. -/
def checkMonotonic (what : String) (ts : E → ℤ) : List E → Result Unit
  | a :: b :: rest => do
    ensure (¬ ts b < ts a)
      (.refs [.lit what, " event ts not monotonic: ", .num (ts a), " -> ", .num (ts b)])
    checkMonotonic what ts (b :: rest)
  | _ => .ok ()

/-- Checking that the new events extend the old ones and are in order of time. -/
def checkEvents (what : String) (ts : E → ℤ) (old new : List E) : Result Unit := do
  ensure (¬ new.length < old.length)
    (.refs [.lit what, " rewind: event count decreased ", .num old.length, " -> ",
      .num new.length])
  checkPreserved what 0 old new
  checkMonotonic what ts new

/-- Checking that the number did not change. -/
def checkNumber (what : String) (old new : ℕ) : Result Unit :=
  ensure (new = old)
    (.refs [.lit what, " rewind: number changed ", .num old, " -> ", .num new])

/-- Checking that a field did not change. -/
def checkUnchanged {α : Type} [DecidableEq α] (what field : String) (old new : α) : Result Unit :=
  ensure (new = old) (.refs [.lit what, " rewind: ", .lit field, " changed"])

lemma checkPreserved_eq_ok {what : String} {i : ℕ} {old new : List E} {u : Unit} :
    checkPreserved what i old new = .ok u ↔ old <+: new := by
  induction old generalizing i new with
  | nil => simp [checkPreserved]
  | cons oe old ih =>
    cases new with
    | nil => simp [checkPreserved, ensure]
    | cons ne new =>
      simp only [checkPreserved, bind_eq_ok, ensure_eq_ok, ih, List.cons_prefix_cons,
        List.head?_cons, Option.some.injEq, List.tail_cons, exists_const, eq_comm (a := ne)]

/-- Checking the events passes exactly if the old ones are kept in front and the time stamps do not
decrease. -/
lemma checkEvents_eq_ok {what : String} {ts : E → ℤ} {old new : List E} {u : Unit} :
    checkEvents what ts old new = .ok u ↔ old <+: new ∧ checkMonotonic what ts new = .ok () := by
  simp only [checkEvents, bind_eq_ok, ensure_eq_ok, checkPreserved_eq_ok, Nat.not_lt]
  constructor
  · rintro ⟨-, -, -, hpre, hmono⟩
    exact ⟨hpre, hmono⟩
  · rintro ⟨hpre, hmono⟩
    exact ⟨(), hpre.length_le, (), hpre, hmono⟩

end Extends

/-! ## Storage -/

section Storage

variable {α : Type}

/-- The reference to the document with a given number. -/
def numberedRef (dir : Str) (n : ℕ) : Str := dir ++ '/' :: Text.ofNat n

def readBlobAs (dir : Str) (decode : Bytes → Result α) (s : Store) (id : ObjectId) : Result α := do
  let obj ← s.read id
  ensure (obj.kind = .blob)
    (.refs [.str dir, " blob expected, found ", .str obj.kind.asStr])
  decode obj.payload

/-- The blob of the document with a given number; a reference that cannot be read counts as
missing. -/
def numberedId (what : String) (dir : Str) (fs : RefFiles) (n : ℕ) : Result ObjectId :=
  match readRef fs (numberedRef dir n) with
  | .ok id => .ok id
  | .error (.refs _) => .error (.notFound [.lit what, " #", .num n])
  | .error e => .error e

/-- Reading the document with a given number; the number in the blob has to be the same. -/
def readNumbered (what : String) (dir : Str) (decode : Bytes → Result α) (number : α → ℕ)
    (s : Store) (fs : RefFiles) (n : ℕ) : Result α := do
  let id ← numberedId what dir fs n
  let doc ← readBlobAs dir decode s id
  ensure (number doc = n)
    (.refs [.lit what, " blob at ", .str dir, "/", .num n, " claims number=",
      .num (number doc)])
  return doc

lemma readBlobAs_eq_ok {dir : Str} {decode : Bytes → Result α} {s : Store} {id : ObjectId}
    {doc : α} :
    readBlobAs dir decode s id = .ok doc ↔
      ∃ obj, s.get? id = some obj ∧ obj.kind = .blob ∧ decode obj.payload = .ok doc := by
  simp only [readBlobAs, bind_eq_ok, Store.read_eq_ok, ensure_eq_ok, exists_const]

/-- A document is read exactly if its reference leads to a blob that decodes and carries its
number. -/
lemma readNumbered_eq_ok {what : String} {dir : Str} {decode : Bytes → Result α} {number : α → ℕ}
    {s : Store} {fs : RefFiles} {n : ℕ} {doc : α} :
    readNumbered what dir decode number s fs n = .ok doc ↔
      ∃ id obj, refValue fs (numberedRef dir n) = some id ∧ s.get? id = some obj ∧
        obj.kind = .blob ∧ decode obj.payload = .ok doc ∧ number doc = n := by
  have hid : ∀ id, numberedId what dir fs n = .ok id ↔
      refValue fs (numberedRef dir n) = some id := by
    intro id
    rw [refValue_eq_some, numberedId]
    split <;> simp_all
  simp only [readNumbered, bind_eq_ok, hid, readBlobAs_eq_ok, ensure_eq_ok, exists_const]
  constructor
  · rintro ⟨id, hid, doc', ⟨obj, hobj, hkind, hdec⟩, hnum, hdoc⟩
    cases hdoc
    exact ⟨id, obj, hid, hobj, hkind, hdec, hnum⟩
  · rintro ⟨id, obj, hid, hobj, hkind, hdec, hnum⟩
    exact ⟨id, hid, doc, ⟨obj, hobj, hkind, hdec⟩, hnum, rfl⟩

end Storage

end Gyt.Toml
