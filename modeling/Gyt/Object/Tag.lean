import Gyt.Object.Commit

/-!
# Annotated tag objects

The text format of tags, `object/tag.rs`: four header lines in a fixed order, a blank line, and the
message.
-/

namespace Gyt

open Text

/-- A decoded annotated tag. -/
structure Tag where
  target : ObjectId
  kind : ObjectKind
  name : Str
  tagger : Str
  message : Str
  deriving DecidableEq, Repr

namespace Tag

/-- The header lines in their canonical order. -/
inductive TagSection where
  | object
  | type
  | tag
  | tagger
  deriving DecidableEq, Repr

namespace TagSection

/-- The position of a line in the canonical order. -/
def rank : TagSection → ℕ
  | .object => 0
  | .type => 1
  | .tag => 2
  | .tagger => 3

/-- The name of a line in error messages. -/
def name : TagSection → String
  | .object => "object"
  | .type => "type"
  | .tag => "tag"
  | .tagger => "tagger"

/-- What the line starts with. -/
def label : TagSection → Str
  | .object => "object "
  | .type => "type "
  | .tag => "tag "
  | .tagger => "tagger "

/-- The lines in the order in which `decode` tries their labels. -/
def all : List TagSection := [.object, .type, .tag, .tagger]

end TagSection

/-- The payload of a tag object. -/
def encode (t : Tag) : Bytes :=
  Utf8.encode (unlines
    [TagSection.object.label ++ t.target.toHex, TagSection.type.label ++ t.kind.asStr,
      TagSection.tag.label ++ t.name, TagSection.tagger.label ++ t.tagger] ++ '\n' :: t.message)

/-- The loop variables of `decode`. -/
structure Header where
  cur : TagSection
  target : Option ObjectId
  kind : Option ObjectKind
  name : Option Str
  tagger : Option Str
  deriving DecidableEq, Repr

/-- Moving on to a line is an error if a later one was already reached. -/
def advanceTagSection (state next : TagSection) : Result TagSection :=
  if next.rank < state.rank then
    .error (.object ["tag: header ", .lit next.name, " out of canonical order"])
  else .ok next

/-- The section a line belongs to and the rest of the line. -/
def classify (line : Str) : Option (TagSection × Str) :=
  TagSection.all.findSome? fun s => (stripPrefix s.label line).map (s, ·)

/-- One iteration of the header loop of `decode`. -/
def decodeLine (h : Header) (line : Str) : Result Header :=
  match classify line with
  | some (.object, rest) => do
    ensure (h.target = none) (.object ["tag: multiple object lines"])
    let cur ← advanceTagSection h.cur .object
    let id ← ObjectId.fromHex rest
    return { h with cur, target := some id }
  | some (.type, rest) => do
    ensure (h.kind = none) (.object ["tag: multiple type lines"])
    let cur ← advanceTagSection h.cur .type
    let kind ← ObjectKind.parse rest
    return { h with cur, kind := some kind }
  | some (.tag, rest) => do
    ensure (h.name = none) (.object ["tag: multiple tag lines"])
    let cur ← advanceTagSection h.cur .tag
    return { h with cur, name := some rest }
  | some (.tagger, rest) => do
    ensure (h.tagger = none) (.object ["tag: multiple tagger lines"])
    let cur ← advanceTagSection h.cur .tagger
    return { h with cur, tagger := some rest }
  | none => .error (.object ["tag: unknown line ", .debug line])

/-- Decoding the payload of a tag object. -/
def decode (payload : Bytes) : Result Tag := do
  let text ← okOr (Utf8.decode payload) (.object ["tag: non-utf8"])
  let (header, message) ← okOr (splitOnce ['\n', '\n'] text)
    (.object ["tag: missing blank line"])
  let h ← (lines header).foldlM decodeLine ⟨.object, none, none, none, none⟩
  let target ← okOr h.target (.object ["tag: missing object"])
  let kind ← okOr h.kind (.object ["tag: missing type"])
  let name ← okOr h.name (.object ["tag: missing tag name"])
  let tagger ← okOr h.tagger (.object ["tag: missing tagger"])
  let t : Tag := ⟨target, kind, name, tagger, message⟩
  ensure (encode t = payload)
    (.object ["tag: non-canonical encoding (re-encode differs from input)"])
  return t

def read (s : Store) (id : ObjectId) : Result Tag := do
  let obj ← s.read id
  ensure (obj.kind = .tag) (.object ["expected tag, got ", .str obj.kind.asStr])
  decode obj.payload

end Tag

end Gyt
