import Gyt.Object.Id

/-!
# The object store

Objects are typed byte strings stored under the hash of `"<kind> <size>\0<payload>"`.  The hash
function itself is a parameter of the operations that write.

The store is the list of the objects written so far, oldest first.  A lookup finds the oldest entry
of an identifier: the store keeps a file that exists and does not write it again.
-/

namespace Gyt

inductive ObjectKind where
  | blob
  | tree
  | commit
  | tag
  deriving DecidableEq, Repr

namespace ObjectKind

def asStr : ObjectKind → Str
  | .blob => "blob"
  | .tree => "tree"
  | .commit => "commit"
  | .tag => "tag"

/-- The kind with the given name. -/
def parse (s : Str) : Result ObjectKind :=
  if s = "blob" then .ok .blob
  else if s = "tree" then .ok .tree
  else if s = "commit" then .ok .commit
  else if s = "tag" then .ok .tag
  else .error (.object ["unknown object kind: ", .str s])

end ObjectKind

/-- A stored object; its identifier is the key it is stored under. -/
structure Object where
  kind : ObjectKind
  payload : Bytes
  deriving DecidableEq, Repr

/-- The bytes whose hash is the identifier of an object. -/
def buildRaw (kind : ObjectKind) (payload : Bytes) : Bytes :=
  Utf8.encode (kind.asStr ++ ' ' :: Text.ofNat payload.length) ++ 0 :: payload

lemma buildRaw_ne_nil (kind : ObjectKind) (payload : Bytes) : buildRaw kind payload ≠ [] := by
  simp [buildRaw]

/-- The objects of a repository. -/
structure Store where
  entries : List (ObjectId × Object)
  deriving DecidableEq, Repr

/-- A hash function that can be evaluated, for runs on small stores. -/
def sampleHash (bytes : Bytes) : ObjectId where
  bytes := (List.range hashLen).map fun i =>
    UInt8.ofNat (bytes.foldl (fun a b => (a * 257 + b.toNat + 1) % 2 ^ 256) 7 / 256 ^ i)
  length_bytes := by simp

namespace Store

/-- The object stored under an identifier. -/
def get? (s : Store) (id : ObjectId) : Option Object := s.entries.lookup id

def read (s : Store) (id : ObjectId) : Result Object :=
  okOr (s.get? id) (.notFound ["object ", .str id.toHex])

/-- Storing an object under the hash of its raw bytes. -/
def writeBytes (hashBytes : Hash) (s : Store) (kind : ObjectKind) (payload : Bytes) :
    Store × ObjectId :=
  let id := hashBytes (buildRaw kind payload)
  (⟨s.entries ++ [(id, ⟨kind, payload⟩)]⟩, id)

/-- A store that has every object of another one under the same identifier. -/
def Extends (s t : Store) : Prop := ∀ id o, s.get? id = some o → t.get? id = some o

/-- Whether all objects were stored under distinct identifiers: the hash did not collide. -/
def CollisionFree (s : Store) : Prop :=
  ∀ e ∈ s.entries, ∀ e' ∈ s.entries, e.1 = e'.1 → e = e'

variable {s t u : Store} {id : ObjectId} {o : Object}

lemma read_eq_ok : s.read id = .ok o ↔ s.get? id = some o := okOr_eq_ok

/-- Reading an object of a given kind and decoding it. -/
lemma read_bind_eq_ok {α : Type} {kind : ObjectKind} {error : Object → GytError}
    {decode : Bytes → Result α} {a : α} :
    (s.read id >>= fun obj => ensure (obj.kind = kind) (error obj) >>= fun _ =>
      decode obj.payload) = .ok a ↔
      ∃ payload, s.get? id = some ⟨kind, payload⟩ ∧ decode payload = .ok a := by
  simp only [bind_eq_ok, read_eq_ok, ensure_eq_ok, exists_const]
  constructor
  · rintro ⟨⟨kind, payload⟩, hget, rfl, hdec⟩
    exact ⟨payload, hget, hdec⟩
  · rintro ⟨payload, hget, hdec⟩
    exact ⟨_, hget, rfl, hdec⟩

@[refl] lemma Extends.refl (s : Store) : s.Extends s := fun _ _ h => h

@[trans] lemma Extends.trans (h : s.Extends t) (h' : t.Extends u) : s.Extends u :=
  fun id o ho => h' id o (h id o ho)

/-- What a lookup finds was written. -/
lemma mem_entries_of_get? (h : s.get? id = some o) : (id, o) ∈ s.entries := by
  obtain ⟨l₁, l₂, hentries, -⟩ := List.lookup_eq_some_iff.mp h
  rw [hentries]
  exact List.mem_append_right _ List.mem_cons_self

/-- Without collisions, what was written is found. -/
lemma get?_of_mem_entries (hs : s.CollisionFree) (h : (id, o) ∈ s.entries) :
    s.get? id = some o := by
  cases hget : s.get? id with
  | none =>
    rw [get?, List.lookup_eq_none_iff] at hget
    simpa using hget (id, o) h
  | some o' =>
    have hmem := mem_entries_of_get? hget
    have := hs _ hmem _ h rfl
    cases this
    rfl

lemma CollisionFree.of_subset (ht : t.CollisionFree) (h : s.entries ⊆ t.entries) :
    s.CollisionFree :=
  fun e he e' he' => ht e (h he) e' (h he')

/-- Writing more objects leaves those that are there in place. -/
lemma extends_append (s : Store) (entries : List (ObjectId × Object)) :
    s.Extends ⟨s.entries ++ entries⟩ := by
  intro id o h
  simp only [get?, List.lookup_append] at h ⊢
  rw [h]
  rfl

lemma extends_writeBytes (hashBytes : Hash) (s : Store) (kind : ObjectKind)
    (payload : Bytes) : s.Extends (s.writeBytes hashBytes kind payload).1 :=
  s.extends_append _

/-- A written object is among the entries. -/
lemma mem_entries_writeBytes (hashBytes : Hash) (s : Store) (kind : ObjectKind)
    (payload : Bytes) :
    ((s.writeBytes hashBytes kind payload).2, ⟨kind, payload⟩) ∈
      (s.writeBytes hashBytes kind payload).1.entries := by simp [writeBytes]

end Store

end Gyt
