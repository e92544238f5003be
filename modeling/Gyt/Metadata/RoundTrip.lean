import Gyt.Metadata.Document

/-!
# Storing metadata documents

A document that passes the checks of its kind is stored as its encoding.  The caps let through
characters that the encoder prints as `\u` escapes, which the decoder refuses, and equals signs in
the keys of an incident, at which the decoder cuts the entry.  Apart from these, a document survives
its storage (`decode_encode_iff`).
-/

namespace Gyt

open Text Toml List

namespace Document

def kind : Document → MetaKind
  | .issue _ => .issue
  | .pr _ => .pr
  | .incident _ => .incident

/-- Checking that a document is within the caps of its kind. -/
def validate : Document → Result Unit
  | .issue d => Issue.validate d
  | .pr d => Pr.validate d
  | .incident d => Incident.validate d

def encode (t : DebugTables) : Document → Bytes
  | .issue d => Issue.encode t d
  | .pr d => Pr.encode t d
  | .incident d => Incident.encode t d

def mentions : Document → List ℕ
  | .issue d => d.mentions
  | .pr d => d.mentions
  | .incident d => d.mentions

/-- The entries of a document that an ordered map holds. -/
def fields : Document → List (Str × Str)
  | .incident d => d.fields
  | _ => []

/-- What the types of the source guarantee: numbers have 64 bits, and the keys of a map are in order
and distinct. -/
structure Representable (d : Document) : Prop where
  number : d.number < 2 ^ 64
  mentions : ∀ n ∈ d.mentions, n < 2 ^ 64
  fields : d.fields.Pairwise fun a b => a.1 < b.1

/-- Whether no text of a document has a character that is printed as a `\u` escape, and no key of an
incident has an equals sign. -/
def PlainTexts (t : DebugTables) : Document → Prop
  | .issue d => d.PlainTexts t
  | .pr d => d.PlainTexts t
  | .incident d => d.PlainTexts t

/-- A document within the caps of its kind is decoded from its encoding exactly if its texts are
plain. -/
theorem decode_encode_iff (t : DebugTables) (d : Document) (hvalid : d.validate = .ok ())
    (hrep : d.Representable) : d.kind.decode (d.encode t) = .ok d ↔ d.PlainTexts t := by
  cases d with
  | issue d =>
    simp only [kind, MetaKind.decode, map_eq_ok, Document.issue.injEq, exists_eq_right]
    exact Issue.decode_encode_eq_ok hvalid hrep.number hrep.mentions
  | pr d =>
    simp only [kind, MetaKind.decode, map_eq_ok, Document.pr.injEq, exists_eq_right]
    exact Pr.decode_encode_eq_ok hvalid hrep.number hrep.mentions
  | incident d =>
    simp only [kind, MetaKind.decode, map_eq_ok, Document.incident.injEq, exists_eq_right]
    exact Incident.decode_encode_eq_ok hvalid hrep.number hrep.mentions hrep.fields

/-! ### Fields of incidents -/

end Document

namespace Incident

/-- Whether all characters of a text are printable ASCII characters. -/
def Ascii (s : Str) : Prop := (s.all fun c => 0x20 ≤ c.toNat && c.toNat < 0x7f) = true

instance (s : Str) : Decidable (Ascii s) := inferInstanceAs (Decidable (_ = true))

def Event.texts (e : Event) : List Str :=
  [e.author, e.body, e.reason, e.newState, e.newSeverity, e.fieldKey, e.fieldValue] ++
    e.add ++ e.remove

def texts (inc : Incident) : List Str :=
  [inc.title, inc.incidentType, inc.author] ++ inc.labels ++ inc.assignees ++
    inc.fields.flatMap (fun e => [e.1, e.2]) ++ inc.events.flatMap Event.texts

lemma plainEntry_iff_of_ascii {t : DebugTables} {e : Str × Str} (h : Ascii e.1 ∧ Ascii e.2) :
    PlainEntry t e ↔ '=' ∉ e.1 := by
  rw [PlainEntry, and_iff_right (plain_of_ascii h.1), and_iff_right (plain_of_ascii h.2)]

lemma plainTexts_iff_of_ascii {t : DebugTables} {inc : Incident} (h : ∀ s ∈ inc.texts, Ascii s) :
    inc.PlainTexts t ↔ ∀ e ∈ inc.fields, '=' ∉ e.1 := by
  simp only [texts, forall_mem_append, forall_mem_cons, mem_flatMap] at h
  obtain ⟨⟨⟨⟨⟨htitle, htype, hauthor, -⟩, hlabels⟩, hassignees⟩, hfields⟩, hevents⟩ := h
  have hentry : ∀ e ∈ inc.fields, Ascii e.1 ∧ Ascii e.2 := fun e he =>
    ⟨hfields _ ⟨e, he, by simp⟩, hfields _ ⟨e, he, by simp⟩⟩
  constructor
  · intro hplain e he
    exact (plainEntry_iff_of_ascii (hentry e he)).mp (hplain.fields e he)
  · intro hkeys
    refine ⟨plain_of_ascii htitle, plain_of_ascii htype, plain_of_ascii hauthor,
      fun s hs => plain_of_ascii (hlabels s hs), fun s hs => plain_of_ascii (hassignees s hs),
      fun e he => (plainEntry_iff_of_ascii (hentry e he)).mpr (hkeys e he), fun e he => ?_⟩
    have htext : ∀ s ∈ e.texts, Plain t s := fun s hs => plain_of_ascii (hevents s ⟨e, he, hs⟩)
    simp only [Event.texts, forall_mem_append, forall_mem_cons] at htext
    obtain ⟨⟨⟨hauthor, hbody, hreason, hstate, hseverity, hkey, hvalue, -⟩, hadd⟩, hremove⟩ := htext
    exact ⟨hauthor, hbody, hadd, hremove, hreason, hstate, hseverity, hkey, hvalue⟩

/-- Maps of printable ASCII texts, and so the fields of an incident within the caps, are read back
if and only if no key has an equals sign. -/
theorem fields_read_back_iff (t : DebugTables) :
    (∀ m : List (Str × Str), m.Pairwise (fun a b => a.1 < b.1) → (∀ e ∈ m, Ascii e.1 ∧ Ascii e.2) →
      (parseTomlStringMap blob (tomlStringMap t m) = .ok m ↔ ∀ e ∈ m, '=' ∉ e.1)) ∧
    ∀ inc : Incident, validate inc = .ok () → (Document.incident inc).Representable →
      (∀ s ∈ inc.texts, Ascii s) →
      ((∃ r, decode (encode t inc) = .ok r ∧ r.fields = inc.fields) ↔
        ∀ e ∈ inc.fields, '=' ∉ e.1) := by
  constructor
  · intro m hm hascii
    rw [parseTomlStringMap_eq_ok hm, and_iff_left rfl]
    exact forall₂_congr fun e he => plainEntry_iff_of_ascii (hascii e he)
  · intro inc hvalid hrep hascii
    rw [← plainTexts_iff_of_ascii hascii (t := t)]
    simp only [decode_encode hvalid hrep.number hrep.mentions hrep.fields]
    constructor
    · rintro ⟨r, ⟨hplain, -⟩, -⟩
      exact hplain
    · exact fun hplain => ⟨inc, ⟨hplain, rfl⟩, rfl⟩

end Incident

namespace Document

/-! ### Sample documents -/

/-- The combining diacritical marks extend graphemes, and the C1 control characters are not
printable. -/
def sampleTables : DebugTables where
  isPrintable c := 0x20 ≤ c.toNat && !(0x7f ≤ c.toNat && c.toNat < 0xa0)
  isGraphemeExtended c := 0x300 ≤ c.toNat && c.toNat ≤ 0x36f
  ascii c hlow hhigh := by
    simp
    omega

def sampleIssue (title : Str) : Document :=
  .issue ⟨1, .issue, title, .opened, "a <a@b>", 1700000000, ["bug"], [], [2, 3],
    [⟨.opened, "a <a@b>", 1700000000, "see \"x\\y\"\n\tthere", [], [], []⟩]⟩

lemma sampleIssue_representable (title : Str) : (sampleIssue title).Representable :=
  ⟨show 1 < 2 ^ 64 by decide, show ∀ n ∈ [2, 3], n < 2 ^ 64 by decide, Pairwise.nil⟩

/-- The accent of `é` in its decomposed form is printed as a `\u` escape. -/
theorem accent_not_decoded :
    (sampleIssue "cafe\u0301").validate = .ok () ∧
      (sampleIssue "cafe\u0301").Representable ∧
      MetaKind.issue.decode ((sampleIssue "cafe\u0301").encode sampleTables) =
        .error (.refs ["issue blob", ": unsupported escape \\", .str "u"]) :=
  ⟨by decide +kernel, sampleIssue_representable _, by decide +kernel⟩

/-- A precomposed letter is read back. -/
theorem decode_encode_precomposed :
    MetaKind.issue.decode ((sampleIssue "caf\u00e9").encode sampleTables) =
      .ok (sampleIssue "caf\u00e9") := by
  have hevent : ∀ e ∈ [(⟨.opened, "a <a@b>", 1700000000, "see \"x\\y\"\n\tthere", [],
      [], []⟩ : Issue.Event)], Issue.PlainEvent sampleTables e := by
    rw [forall_mem_singleton]
    exact ⟨by decide +kernel, by decide +kernel, nofun, nofun, plain_nil⟩
  have hplain : (sampleIssue "caf\u00e9").PlainTexts sampleTables :=
    ⟨by decide +kernel, by decide +kernel, by decide +kernel, nofun, hevent⟩
  exact (decode_encode_iff sampleTables _ (by decide +kernel) (sampleIssue_representable _)).mpr
    hplain

def sampleIncident (key value : Str) : Incident :=
  ⟨1, "disk full", .detected, .sev1, "outage", "a <a@b>", 1700000000, [], [], [2],
    [(key, value)], []⟩

lemma sampleIncident_representable (key value : Str) :
    (Document.incident (sampleIncident key value)).Representable :=
  ⟨show 1 < 2 ^ 64 by decide, show ∀ n ∈ [2], n < 2 ^ 64 by decide, pairwise_singleton _ _⟩

/-- The key `a=b` is cut at its equals sign. -/
theorem equals_in_key_not_decoded :
    (sampleIncident "a=b" "c").validate = .ok () ∧
      (Document.incident (sampleIncident "a=b" "c")).Representable ∧
      (∀ s ∈ (sampleIncident "a=b" "c").texts, Incident.Ascii s) ∧
      parseTomlStringMap Incident.blob (tomlStringMap sampleTables [("a=b", "c")]) =
        .error (.refs ["incident blob", ": not a quoted string: ", .str "\"a"]) ∧
      Incident.decode ((sampleIncident "a=b" "c").encode sampleTables) =
        .error (.refs ["incident blob", ": not a quoted string: ", .str "\"a"]) :=
  ⟨by decide +kernel, sampleIncident_representable _ _, by decide +kernel, by decide +kernel,
    by decide +kernel⟩

/-- Quotes in a value are read back. -/
theorem quotes_in_field_read_back :
    ∃ r, Incident.decode ((sampleIncident "a,b" "\"c=d\\\x7d\"").encode sampleTables) =
      .ok r ∧ r.fields = [("a,b".toList, "\"c=d\\\x7d\"".toList)] :=
  ((Incident.fields_read_back_iff sampleTables).2
    (sampleIncident "a,b" "\"c=d\\\x7d\"") (by decide +kernel)
    (sampleIncident_representable _ _) (by decide +kernel)).mpr (by decide +kernel)

end Document

end Gyt
