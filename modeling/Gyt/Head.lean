import Gyt.Refs

/-!
# HEAD

The file `HEAD` names a reference or holds an identifier, `refs.rs`.  In messages, paths are printed
relative to the repository directory.
-/

namespace Gyt

open Text List Utf8

/-- What `HEAD` points at. -/
inductive Head where
  | symbolic (name : Str)
  | detached (id : ObjectId)
  deriving DecidableEq, Repr

/-- The path of `HEAD`. -/
def headPath : Str := "HEAD"

/-- What a symbolic `HEAD` starts with, `HEAD_REF_PREFIX`. -/
def headRefPrefix : Str := "ref: "

/-- What a detached `HEAD` starts with, `HEAD_DETACHED_PREFIX`. -/
def headDetachedPrefix : Str := "blake3:"

/-- A text without the line ends at its end. -/
def trimEol (s : Str) : Str :=
  (s.reverse.dropWhile fun c => c == '\n' || c == '\r').reverse

/-- Reading a file as a whole. -/
def RefFiles.readAll (fs : RefFiles) (path : Str) : Result Bytes :=
  match fs.get? path with
  | some bytes => .ok bytes
  | none => .error (.io (if fs.isDir path then .isADirectory else .notFound))

/-- The reading of a `HEAD` line that starts with `headDetachedPrefix`. -/
def parseDetached (rest : Str) : Result Head := do
  let hex := trim rest
  let len := (Utf8.encode hex).length
  ensure (len = hexLen) (.refs ["HEAD detached hash has wrong length: ", .num len])
  let id ← mapErr (fun e => .refs ("HEAD detached hash invalid: " :: e.display))
    (ObjectId.fromHex hex)
  return .detached id

/-- The reading of the line in `HEAD`. -/
def parseHead (line : Str) : Result Head :=
  match stripPrefix headRefPrefix line, stripPrefix headDetachedPrefix line with
  | some rest, _ => do
    validateRefName (trim rest)
    return .symbolic (trim rest)
  | none, some rest => parseDetached rest
  | none, none => .error (.refs ["malformed HEAD: ", .debug line])

/-- Reading `HEAD`. -/
def readHead (fs : RefFiles) : Result Head := do
  ensure (fs.exists headPath) (.refs ["HEAD not found at ", .str headPath])
  let bytes ← fs.readAll headPath
  let text ← okOr (Utf8.decode bytes) (.refs ["HEAD is not valid utf-8"])
  parseHead (trimEol text)

/-- The content of `HEAD` that `write_head` writes. -/
def headContent : Head → Bytes
  | .symbolic name => Utf8.encode (headRefPrefix ++ name ++ ['\n'])
  | .detached id => Utf8.encode (headDetachedPrefix ++ id.toHex ++ ['\n'])

/-- The commit that `HEAD` denotes; none if it names a reference that does not exist. -/
def resolve (fs : RefFiles) : Head → Result (Option ObjectId)
  | .detached id => .ok (some id)
  | .symbolic name => do
    validateRefName name
    if fs.exists name then return some (← readRef fs name) else return none

variable {fs fs' : RefFiles} {name : Str} {id : ObjectId}

/-- What `HEAD` says if there is such a file. -/
lemma readHead_of_get? {bytes : Bytes} (h : fs.get? headPath = some bytes) :
    readHead fs = (okOr (decode bytes) (.refs ["HEAD is not valid utf-8"])).bind
      fun text => parseHead (trimEol text) := by
  have hexists : fs.exists headPath = true := by
    rw [RefFiles.exists, h]
    rfl
  simp [readHead, RefFiles.readAll, h, hexists, ensure]
  rfl

lemma get?_of_readHead {head : Head} (h : readHead fs = .ok head) :
    ∃ bytes, fs.get? headPath = some bytes := by
  cases hget : fs.get? headPath with
  | some bytes => exact ⟨bytes, rfl⟩
  | none =>
    simp only [readHead, bind_eq_ok, RefFiles.readAll, hget] at h
    obtain ⟨-, -, bytes, hbytes, -⟩ := h
    cases hbytes

/-- Reading `HEAD` depends on its file only. -/
lemma readHead_congr {head : Head} (h : fs'.get? headPath = fs.get? headPath)
    (hfile : readHead fs = .ok head) : readHead fs' = .ok head := by
  obtain ⟨bytes, hbytes⟩ := get?_of_readHead hfile
  rw [readHead_of_get? hbytes] at hfile
  rw [readHead_of_get? (h.trans hbytes), hfile]

/-- A line end after a text that does not end in one is taken off. -/
lemma trimEol_append_newline {text : Str}
    (h : ∀ c, text.getLast? = some c → (c == '\n' || c == '\r') = false) :
    trimEol (text ++ ['\n']) = text := by
  have hlast : ∀ c, text.reverse.head? = some c → (c == '\n' || c == '\r') = false := by
    intro c hc
    rw [head?_reverse] at hc
    exact h c hc
  rw [trimEol, reverse_append, reverse_singleton, singleton_append,
    dropWhile_cons_of_pos (by decide), dropWhile_eq_self hlast, reverse_reverse]

/-- The digits of an identifier are no line ends. -/
lemma trimEol_append_toHex (text : Str) (id : ObjectId) :
    trimEol (text ++ id.toHex ++ ['\n']) = text ++ id.toHex := by
  have hne : ∀ c ∈ id.toHex, (c == '\n' || c == '\r') = false := by
    intro c hc
    rw [Bool.or_eq_false_iff, beq_eq_false_iff_ne, beq_eq_false_iff_ne]
    constructor <;> rintro rfl <;> exact ObjectId.notMem_toHex (by decide) hc
  refine trimEol_append_newline fun c hc => hne c ?_
  rw [getLast?_append_of_ne_nil _ id.toHex_ne_nil] at hc
  exact mem_of_getLast? hc

/-- The file of a reference is no `HEAD`. -/
lemma readHead_of_refContent (h : fs.get? headPath = some (refContent id)) :
    readHead fs = .error (.refs ["malformed HEAD: ", .debug id.toHex]) := by
  have hdecode : decode (refContent id) = some (id.toHex ++ ['\n']) := decode_encode _
  have htrim : trimEol (id.toHex ++ ['\n']) = id.toHex := trimEol_append_toHex [] id
  have hno : ∀ pre : Str, (∃ c ∈ pre, c ∉ "0123456789abcdef".toList) →
      stripPrefix pre id.toHex = none := by
    rintro pre ⟨c, hc, hnot⟩
    cases hstrip : stripPrefix pre id.toHex with
    | none => rfl
    | some rest =>
      have heq := stripPrefix_eq_some_iff.mp hstrip
      exact absurd (ObjectId.mem_digits_of_mem_toHex (heq ▸ mem_append_left _ hc)) hnot
  rw [readHead_of_get? h, hdecode]
  show parseHead (trimEol _) = _
  rw [htrim, parseHead, hno headRefPrefix ⟨'r', by decide, by decide⟩,
    hno headDetachedPrefix ⟨'l', by decide, by decide⟩]

/-- A detached `HEAD` reads back. -/
lemma readHead_of_detached (h : fs.get? headPath = some (headContent (.detached id))) :
    readHead fs = .ok (.detached id) := by
  have hdecode : decode (headContent (.detached id)) =
      some (headDetachedPrefix ++ id.toHex ++ ['\n']) := decode_encode _
  have hno : stripPrefix headRefPrefix (headDetachedPrefix ++ id.toHex) = none := rfl
  have hstrip : stripPrefix headDetachedPrefix (headDetachedPrefix ++ id.toHex) = some id.toHex :=
    stripPrefix_eq_some_iff.mpr rfl
  have htrim : trim id.toHex = id.toHex := trim_eq_self fun c hc => isWhitespace_of_mem_toHex hc
  rw [readHead_of_get? h, hdecode]
  show parseHead (trimEol _) = _
  rw [trimEol_append_toHex, parseHead, hno, hstrip]
  show parseDetached id.toHex = _
  simp [parseDetached, htrim, ObjectId.length_encode_toHex, ensure, mapErr]

/-- The name of a reference has no line ends. -/
lemma ne_newline_of_validateRefName (hname : validateRefName name = .ok ()) {c : Char}
    (hc : c ∈ name) : (c == '\n' || c == '\r') = false := by
  have hne : ∀ d : Char, d.toNat < 0x20 → c ≠ d := fun d hd heq =>
    notMem_of_validateRefName hname hd (heq ▸ hc)
  simp [hne '\n' (by decide), hne '\r' (by decide)]

/-- A symbolic `HEAD` reads back with the blanks around the name taken off. -/
lemma readHead_of_symbolic (hname : validateRefName name = .ok ())
    (h : fs.get? headPath = some (headContent (.symbolic name))) :
    readHead fs = (validateRefName (trim name)).map fun _ => .symbolic (trim name) := by
  have hdecode : decode (headContent (.symbolic name)) =
      some (headRefPrefix ++ name ++ ['\n']) := decode_encode _
  have hne : name ≠ [] := by
    rintro rfl
    cases hname
  have htrim : trimEol (headRefPrefix ++ name ++ ['\n']) = headRefPrefix ++ name := by
    refine trimEol_append_newline fun c hc => ne_newline_of_validateRefName hname ?_
    rw [getLast?_append_of_ne_nil _ hne] at hc
    exact mem_of_getLast? hc
  have hstrip : stripPrefix headRefPrefix (headRefPrefix ++ name) = some name :=
    stripPrefix_eq_some_iff.mpr rfl
  rw [readHead_of_get? h, hdecode]
  show parseHead (trimEol _) = _
  simp only [htrim, parseHead, hstrip]
  cases validateRefName (trim name) <;> rfl

/-- A symbolic `HEAD` holds no reference itself. -/
lemma refValue_headPath_of_symbolic (h : readHead fs = .ok (.symbolic name)) :
    refValue fs headPath = none := by
  cases hvalue : refValue fs headPath with
  | none => rfl
  | some id =>
    obtain ⟨bytes, hbytes⟩ := get?_of_readHead h
    rw [readHead_of_get? hbytes] at h
    obtain ⟨text, htext, hparse⟩ := bind_eq_ok.mp h
    simp only [refValue_eq_some, readRef, bind_eq_ok, readRefFile_eq_ok, okOr_eq_ok,
      mapErr_eq_ok] at hvalue
    obtain ⟨_, -, bytes', hbytes', text', htext', _, -, hid⟩ := hvalue
    cases hbytes.symm.trans hbytes'
    cases (okOr_eq_ok.mp htext).symm.trans htext'
    have hgrows : trimEol text <+: text := by
      have hsuffix := dropWhile_suffix (l := text.reverse) fun c => c == '\n' || c == '\r'
      have := reverse_prefix.mpr hsuffix
      rwa [reverse_reverse] at this
    unfold parseHead at hparse
    split at hparse
    · next rest hstrip =>
      obtain ⟨tail, htail⟩ := hgrows
      rw [stripPrefix_eq_some_iff.mp hstrip] at htail
      obtain ⟨l, -, htrim⟩ := exists_trim_cons (show isWhitespace 'r' = false by decide)
        ("ef: " ++ rest ++ tail)
      rw [← htail, show headRefPrefix ++ rest ++ tail = 'r' :: ("ef: " ++ rest ++ tail) from
        rfl, htrim] at hid
      exact absurd hid (ObjectId.fromHex_cons_ne_ok (by decide) (by decide))
    · simp only [parseDetached, bind_eq_ok] at hparse
      obtain ⟨-, -, id, -, heq⟩ := hparse
      cases heq
    · cases hparse

/-- A symbolic `HEAD` denotes what its reference holds. -/
lemma resolve_of_refValue (h : refValue fs name = some id) :
    resolve fs (.symbolic name) = .ok (some id) := by
  have hexists : fs.exists name = true := by
    rw [RefFiles.exists, get?_isSome_of_refValue h]
    rfl
  have hread := refValue_eq_some.mp h
  have hname := validateRefName_of_refValue h
  simp [resolve, hname, hexists, hread]

lemma refValue_of_resolve (h : resolve fs (.symbolic name) = .ok (some id)) :
    refValue fs name = some id := by
  obtain ⟨-, h⟩ := check_bind_eq_ok.mp h
  split_ifs at h with hexists
  · obtain ⟨id', hread, heq⟩ := bind_eq_ok.mp h
    cases heq
    exact refValue_eq_some.mpr hread
  · cases h

end Gyt
