import Gyt.Refs

/-!
# Batches of reference updates and lists of references

The wire forms of a batch of reference updates and of the list of references that a server
advertises, `net/protocol.rs`.
-/

namespace Gyt

open Text

/-- One line of a batch; `old = none` means that the client creates the reference. -/
structure RefUpdate where
  old : Option ObjectId
  new : ObjectId
  name : Str
  deriving DecidableEq, Repr

/-- The hexadecimal form of the all-zero identifier, `ZERO_HEX`. -/
def zeroHex : Str := List.replicate hexLen '0'

/-- The wire form of a batch. -/
def encodeRefUpdates (updates : List RefUpdate) : Bytes :=
  updates.flatMap fun u =>
    Utf8.encode ((u.old.elim zeroHex ObjectId.toHex) ++ '\t' :: u.new.toHex ++ '\t' :: u.name ++
      ['\n'])

/-- Reading the line at position `i` of a batch; empty lines are skipped. -/
def parseRefUpdateLine (line : Str) (i : ℕ) : Result (Option RefUpdate) := do
  let line := (stripSuffixChar '\n' line).getD line
  if line = [] then return none
  let parts := splitn '\t' 3 line
  let missing (what : String) : GytError :=
    .parse ["ref-updates line ", .num i, ": missing ", .lit what]
  let oldHex ← okOr (parts[0]?) (missing "old hex")
  let newHex ← okOr (parts[1]?) (missing "new hex")
  let name ← okOr (parts[2]?) (missing "refname")
  ensure (name ≠ []) (.parse ["ref-updates line ", .num i, ": empty refname"])
  let old ← if oldHex = zeroHex then .ok none else some <$> ObjectId.fromHex oldHex
  let new ← ObjectId.fromHex newHex
  return some ⟨old, new, name⟩

/-- Reading a batch. -/
def parseRefUpdates (body : Bytes) : Result (List RefUpdate) := do
  let s ← okOr (Utf8.decode body) (.parse ["ref-updates: not valid utf-8"])
  let updates ← (splitInclusive '\n' s).zipIdx.mapM fun (line, i) => parseRefUpdateLine line i
  return updates.filterMap id

/-- A reference that a server advertises. -/
structure RefEntry where
  name : Str
  id : ObjectId
  deriving DecidableEq, Repr

/-- The maximum number of advertised references, `MAX_INFO_REFS_ENTRIES`. -/
def maxInfoRefsEntries : ℕ := 1000000

/-- The maximum length of the name of an advertised reference, `MAX_INFO_REF_NAME_LEN`. -/
def maxInfoRefNameLen : ℕ := 1024

/-- The wire form of a list of references. -/
def encodeInfoRefs (refs : List RefEntry) : Bytes :=
  refs.flatMap fun r => Utf8.encode (r.id.toHex ++ '\t' :: r.name ++ ['\n'])

/-- Reading the line at position `i` of a list of references.  A name must not occur twice. -/
def parseInfoRef (out : List RefEntry) (item : Str × ℕ) : Result (List RefEntry) := do
  let (line, i) := item
  ensure (out.length < maxInfoRefsEntries)
    (.parse ["info/refs: entry count exceeds ", .num maxInfoRefsEntries])
  let line := (stripSuffixChar '\n' line).getD line
  if line = [] then return out
  let pos : Msg := ["info/refs line ", .num i]
  let (hex, name) ← okOr (splitOnce ['\t'] line) (.parse (pos ++ [.lit ": missing tab separator"]))
  ensure (name ≠ []) (.parse (pos ++ [.lit ": empty refname"]))
  let len := (Utf8.encode name).length
  ensure (len ≤ maxInfoRefNameLen)
    (.parse (pos ++ [.lit ": refname length ", .num len, .lit " exceeds ", .num maxInfoRefNameLen]))
  ensure (¬ (out.any (·.name = name)))
    (.parse (pos ++ [.lit ": duplicate refname ", .debug name]))
  let id ← ObjectId.fromHex hex
  return out ++ [⟨name, id⟩]

/-- Reading a list of references. -/
def parseInfoRefs (body : Bytes) : Result (List RefEntry) := do
  let s ← okOr (Utf8.decode body) (.parse ["info/refs: not valid utf-8"])
  (splitInclusive '\n' s).zipIdx.foldlM parseInfoRef []

section InfoRefs

variable {out out' refs : List RefEntry}

lemma nodup_parseInfoRef {item : Str × ℕ} (hout : (out.map (·.name)).Nodup)
    (h : parseInfoRef out item = .ok out') : (out'.map (·.name)).Nodup := by
  obtain ⟨-, h⟩ := check_bind_eq_ok.mp h
  dsimp only at h
  split_ifs at h with hline
  · cases h
    exact hout
  obtain ⟨⟨hex, name⟩, -, h⟩ := bind_eq_ok.mp h
  obtain ⟨-, h⟩ := check_bind_eq_ok.mp h
  obtain ⟨-, h⟩ := check_bind_eq_ok.mp h
  obtain ⟨hfresh, h⟩ := check_bind_eq_ok.mp h
  obtain ⟨id, -, hout'⟩ := bind_eq_ok.mp h
  cases hout'
  rw [List.map_append, List.nodup_append]
  exact ⟨hout, List.nodup_singleton _, by simpa using hfresh⟩

/-- A list of references that was read has every name once. -/
lemma nodup_parseInfoRefs {body : Bytes} (h : parseInfoRefs body = .ok refs) :
    (refs.map (·.name)).Nodup := by
  obtain ⟨s, -, hfold⟩ := bind_eq_ok.mp h
  exact @foldlM_invariant _ _ _ _ (fun out _ => (out.map RefEntry.name).Nodup)
    (fun out _ item out' hout hstep => nodup_parseInfoRef hout hstep) _ [] _ _ List.nodup_nil hfold

end InfoRefs

end Gyt
