import Gyt.Metadata.Issue
import Gyt.Metadata.Pr
import Gyt.Metadata.Incident

/-!
# Metadata documents

Issues, pull requests and incidents taken together: what is common to the three kinds of documents,
and what an accepted update of a document keeps (`Document.Keeps`).
-/

namespace Gyt

/-- The three kinds of metadata. -/
inductive MetaKind where
  | issue
  | pr
  | incident
  deriving DecidableEq, Repr

/-- A decoded metadata blob. -/
inductive Document where
  | issue (d : Issue)
  | pr (d : Pr)
  | incident (d : Incident)
  deriving DecidableEq, Repr

namespace MetaKind

/-- Decoding a blob of the given kind. -/
def decode : MetaKind → Bytes → Result Document
  | .issue, bytes => .issue <$> Issue.decode bytes
  | .pr, bytes => .pr <$> Pr.decode bytes
  | .incident, bytes => .incident <$> Incident.decode bytes

/-- The name of the reference to the document with a given number. -/
def refName : MetaKind → ℕ → Str
  | .issue => Issue.refName
  | .pr => Pr.refName
  | .incident => Incident.refName

def read : MetaKind → Store → RefFiles → ℕ → Result Document
  | .issue, s, fs, n => .issue <$> Issue.read s fs n
  | .pr, s, fs, n => .pr <$> Pr.read s fs n
  | .incident, s, fs, n => .incident <$> Incident.read s fs n

end MetaKind

namespace Document

def number : Document → ℕ
  | .issue d => d.number
  | .pr d => d.number
  | .incident d => d.number

def author : Document → Str
  | .issue d => d.author
  | .pr d => d.author
  | .incident d => d.author

def title : Document → Str
  | .issue d => d.title
  | .pr d => d.title
  | .incident d => d.title

def createdTs : Document → ℤ
  | .issue d => d.createdTs
  | .pr d => d.createdTs
  | .incident d => d.createdTs

/-- Whether a document is a merged pull request. -/
def Merged : Document → Prop
  | .pr d => d.state = .merged
  | _ => False

/-- Whether the event list of the first document is a prefix of that of the second, which is of the
same kind. -/
def EventsPrefix : Document → Document → Prop
  | .issue old, .issue new => old.events <+: new.events
  | .pr old, .pr new => old.events <+: new.events
  | .incident old, .incident new => old.events <+: new.events
  | _, _ => False

/-- Whether the second document extends the first one by the rules of their kind. -/
def Extends : Document → Document → Prop
  | .issue old, .issue new => Issue.validateExtends old new = .ok ()
  | .pr old, .pr new => Pr.validateExtends old new = .ok ()
  | .incident old, .incident new => Incident.validateExtends old new = .ok ()
  | _, _ => False

/-- What no update of a document changes: its number, author, title and creation time, its events
up to now, and that it is merged. -/
structure Keeps (old new : Document) : Prop where
  number_eq : new.number = old.number
  author_eq : new.author = old.author
  title_eq : new.title = old.title
  createdTs_eq : new.createdTs = old.createdTs
  events : EventsPrefix old new
  merged : old.Merged → new.Merged

lemma Keeps.refl (d : Document) : d.Keeps d :=
  ⟨rfl, rfl, rfl, rfl, by cases d <;> exact List.prefix_rfl, id⟩

lemma Keeps.trans {a b c : Document} (hab : a.Keeps b) (hbc : b.Keeps c) : a.Keeps c := by
  refine ⟨hbc.number_eq.trans hab.number_eq, hbc.author_eq.trans hab.author_eq,
    hbc.title_eq.trans hab.title_eq, hbc.createdTs_eq.trans hab.createdTs_eq, ?_,
    fun h => hbc.merged (hab.merged h)⟩
  have h := hab.events
  have h' := hbc.events
  cases a <;> cases b <;> cases c <;> first | exact h.elim | exact h'.elim | exact h.trans h'

/-- An extension keeps the document. -/
lemma Extends.keeps {old new : Document} (h : old.Extends new) : old.Keeps new := by
  cases old with
  | issue old =>
    cases new with
    | issue new =>
      obtain ⟨hnumber, -, hts, hauthor, htitle, hevents, -⟩ := Issue.validateExtends_eq_ok.mp h
      exact ⟨hnumber, hauthor, htitle, hts, hevents, id⟩
    | pr new => exact h.elim
    | incident new => exact h.elim
  | pr old =>
    cases new with
    | issue new => exact h.elim
    | pr new =>
      obtain ⟨hnumber, hts, hauthor, htitle, -, -, ⟨hevents, -⟩, hstate⟩ :=
        Pr.validateExtends_eq_ok.mp h
      exact ⟨hnumber, hauthor, htitle, hts, hevents,
        fun hmerged => Pr.state_eq_merged_of_checkState hmerged hstate⟩
    | incident new => exact h.elim
  | incident old =>
    cases new with
    | issue new => exact h.elim
    | pr new => exact h.elim
    | incident new =>
      obtain ⟨hnumber, hts, hauthor, htitle, -, ⟨hevents, -⟩, -⟩ :=
        Incident.validateExtends_eq_ok.mp h
      exact ⟨hnumber, hauthor, htitle, hts, hevents, id⟩

end Document

/-- The document that a stored object decodes to. -/
def Store.document (s : Store) (k : MetaKind) (id : ObjectId) : Option Document := do
  let obj ← s.get? id
  (k.decode obj.payload).toOption

/-- Whether both identifiers name documents, of which the second extends the first. -/
def Store.DocumentStep (s : Store) (k : MetaKind) (old new : ObjectId) : Prop :=
  ∃ d d', s.document k old = some d ∧ s.document k new = some d' ∧ d.Extends d'

lemma Store.document_eq_some {s : Store} {k : MetaKind} {id : ObjectId} {d : Document} :
    s.document k id = some d ↔ ∃ obj, s.get? id = some obj ∧ k.decode obj.payload = .ok d := by
  have hok : ∀ r : Result Document, r.toOption = some d ↔ r = .ok d := by
    rintro (e | d') <;> simp [Except.toOption]
  simp [document, Option.bind_eq_some_iff, hok]

/-- Documents stay as they are when the store grows. -/
lemma Store.Extends.document {s t : Store} {k : MetaKind} {id : ObjectId} {d : Document}
    (h : s.Extends t) (hd : s.document k id = some d) : t.document k id = some d := by
  obtain ⟨obj, hobj, hdec⟩ := document_eq_some.mp hd
  exact document_eq_some.mpr ⟨obj, h id obj hobj, hdec⟩

namespace MetaKind

variable {k : MetaKind} {s : Store} {fs : RefFiles} {n : ℕ} {d : Document}

/-- A document is read exactly if its reference leads to a blob that decodes and carries its
number. -/
lemma read_eq_ok :
    k.read s fs n = .ok d ↔ ∃ id obj, refValue fs (k.refName n) = some id ∧ s.get? id = some obj ∧
      obj.kind = .blob ∧ k.decode obj.payload = .ok d ∧ d.number = n := by
  cases k
  all_goals
    simp only [read, decode, map_eq_ok, Issue.read, Pr.read, Incident.read,
      Toml.readNumbered_eq_ok]
    constructor
    · rintro ⟨a, ⟨id, obj, hid, hobj, hkind, hdec, hn⟩, rfl⟩
      exact ⟨id, obj, hid, hobj, hkind, ⟨a, hdec, rfl⟩, hn⟩
    · rintro ⟨id, obj, hid, hobj, hkind, ⟨a, hdec, rfl⟩, hn⟩
      exact ⟨a, ⟨id, obj, hid, hobj, hkind, hdec, hn⟩, rfl⟩

end MetaKind

end Gyt
