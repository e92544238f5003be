import Gyt.Object.Store

/-!
# Commit objects

The text format of commits, `object/commit.rs`: a line-based header in a fixed order of sections, a
blank line, and the message.  `Commit.decode` refuses everything whose re-encoding differs from the
input.  `Commit.decode_eq_ok_iff` says what is left: a payload decodes exactly if it is the encoding
of a well-formed commit.
-/

namespace Gyt

open Text List Function Nat

structure Commit where
  tree : ObjectId
  parents : List ObjectId
  authors : List Str
  committer : Str
  aiAssists : List Str
  reviewers : List Str
  /-- The base64 text of an ed25519 signature; `none` if the commit is unsigned. -/
  signature : Option Str
  message : Str
  deriving DecidableEq, Repr

namespace Commit

/-- The header sections in their canonical order. -/
inductive Section where
  | tree
  | parent
  | author
  | committer
  | ai
  | reviewer
  | signature
  deriving DecidableEq, Repr

namespace Section

/-- The position of a section in the canonical order. -/
def rank : Section → ℕ
  | .tree => 0
  | .parent => 1
  | .author => 2
  | .committer => 3
  | .ai => 4
  | .reviewer => 5
  | .signature => 6

/-- The name of a section in error messages. -/
def name : Section → String
  | .tree => "tree"
  | .parent => "parent"
  | .author => "author"
  | .committer => "committer"
  | .ai => "ai"
  | .reviewer => "reviewer"
  | .signature => "signature"

/-- What every line of a section starts with. -/
def label : Section → Str
  | .tree => "tree "
  | .parent => "parent "
  | .author => "author "
  | .committer => "committer "
  | .ai => "ai "
  | .reviewer => "reviewer "
  | .signature => "signature "

/-- The sections in the order in which `decode` tries their labels. -/
def all : List Section := [.tree, .parent, .author, .committer, .ai, .reviewer, .signature]

end Section

def headerLines (c : Commit) : List Str :=
  [Section.tree.label ++ c.tree.toHex] ++
  c.parents.map (Section.parent.label ++ ·.toHex) ++
  c.authors.map (Section.author.label ++ ·) ++
  [Section.committer.label ++ c.committer] ++
  c.aiAssists.map (Section.ai.label ++ ·) ++
  c.reviewers.map (Section.reviewer.label ++ ·) ++
  c.signature.toList.map (Section.signature.label ++ ·)

/-- The payload of a commit object. -/
def encode (c : Commit) : Bytes := Utf8.encode (unlines c.headerLines ++ '\n' :: c.message)

/-- The loop variables of `decode`. -/
structure Header where
  cur : Section
  tree : Option ObjectId
  parents : List ObjectId
  authors : List Str
  committer : Option Str
  aiAssists : List Str
  reviewers : List Str
  signature : Option Str
  deriving DecidableEq, Repr

/-- The loop variables before the first line. -/
def Header.init : Header := ⟨.tree, none, [], [], none, [], [], none⟩

/-- Moving on to a section is an error if a later one was already reached. -/
def advanceSection (cur next : Section) : Result Section :=
  if next.rank < cur.rank then
    .error (.object ["commit: header ", .lit next.name, " out of canonical order"])
  else .ok next

/-- The section a line belongs to and the rest of the line. -/
def classify (line : Str) : Option (Section × Str) :=
  Section.all.findSome? fun s => (stripPrefix s.label line).map (s, ·)

/-- One iteration of the header loop of `decode`. -/
def decodeLine (h : Header) (line : Str) : Result Header :=
  match classify line with
  | some (.tree, rest) => do
    ensure (h.tree = none) (.object ["commit: multiple tree lines"])
    let cur ← advanceSection h.cur .tree
    ensure ((Utf8.encode rest).length = hexLen) (.object ["commit: bad tree hash length"])
    let id ← ObjectId.fromHex rest
    return { h with cur, tree := some id }
  | some (.parent, rest) => do
    let cur ← advanceSection h.cur .parent
    let id ← ObjectId.fromHex rest
    return { h with cur, parents := h.parents ++ [id] }
  | some (.author, rest) => do
    let cur ← advanceSection h.cur .author
    return { h with cur, authors := h.authors ++ [rest] }
  | some (.committer, rest) => do
    ensure (h.committer = none) (.object ["commit: multiple committer lines"])
    let cur ← advanceSection h.cur .committer
    return { h with cur, committer := some rest }
  | some (.ai, rest) => do
    let cur ← advanceSection h.cur .ai
    return { h with cur, aiAssists := h.aiAssists ++ [rest] }
  | some (.reviewer, rest) => do
    let cur ← advanceSection h.cur .reviewer
    return { h with cur, reviewers := h.reviewers ++ [rest] }
  | some (.signature, rest) => do
    ensure (h.signature = none) (.object ["commit: multiple signature lines"])
    let cur ← advanceSection h.cur .signature
    return { h with cur, signature := some rest }
  | none => .error (.object ["commit: unknown line ", .debug line])

/-- Decoding the payload of a commit object. -/
def decode (payload : Bytes) : Result Commit := do
  let text ← okOr (Utf8.decode payload) (.object ["commit: non-utf8"])
  let (header, message) ← okOr (splitOnce ['\n', '\n'] text)
    (.object ["commit: missing blank line before message"])
  let h ← (lines header).foldlM decodeLine Header.init
  ensure (h.authors ≠ []) (.object ["commit: missing author"])
  let tree ← okOr h.tree (.object ["commit: missing tree"])
  let committer ← okOr h.committer (.object ["commit: missing committer"])
  let commit : Commit :=
    ⟨tree, h.parents, h.authors, committer, h.aiAssists, h.reviewers, h.signature, message⟩
  ensure (encode commit = payload)
    (.object ["commit: non-canonical encoding (re-encode differs from input)"])
  return commit

def read (s : Store) (id : ObjectId) : Result Commit := do
  let obj ← s.read id
  ensure (obj.kind = .commit) (.object ["expected commit, got ", .str obj.kind.asStr])
  decode obj.payload

def write (hashBytes : Hash) (s : Store) (c : Commit) : Store × ObjectId :=
  s.writeBytes hashBytes .commit (encode c)

/-- Writing a small commit. -/
def writeSample (s : Store) (tree : ObjectId) (parents : List ObjectId) : Store × ObjectId :=
  write sampleHash s ⟨tree, parents, [['o']], ['o'], [], [], none, ['m']⟩

/-! ## What the header loop collects -/

/-- No label starts another one. -/
lemma Section.label_not_prefix {s s' : Section} (h : s ≠ s') : ¬ s.label <+: s'.label := by
  cases s <;> cases s' <;> first | exact absurd rfl h | decide

/-- A labelled line belongs to the section of its label. -/
@[simp] lemma classify_label_append (s : Section) (rest : Str) :
    classify (s.label ++ rest) = some (s, rest) := by
  have hother : ∀ s', s' ≠ s → stripPrefix s'.label (s.label ++ rest) = none := fun s' hs' =>
    stripPrefix_append_eq_none (Section.label_not_prefix hs')
      (Section.label_not_prefix (Ne.symm hs')) rest
  have hself : stripPrefix s.label (s.label ++ rest) = some rest := stripPrefix_append _ _
  unfold classify Section.all
  cases s <;>
    simp only [findSome?_cons, hself, Option.map_some, ne_eq, reduceCtorEq, not_false_eq_true,
      hother, Option.map_none]

/-- A classified line is the label of its section and the rest. -/
lemma eq_label_append_of_classify {line rest : Str} {s : Section}
    (h : classify line = some (s, rest)) : line = s.label ++ rest := by
  obtain ⟨s', -, h⟩ := exists_of_findSome?_eq_some h
  obtain ⟨rest', hrest, heq⟩ := Option.map_eq_some_iff.mp h
  cases heq
  exact stripPrefix_eq_some_iff.mp hrest

lemma advanceSection_eq_ok {cur next s : Section} :
    advanceSection cur next = .ok s ↔ cur.rank ≤ next.rank ∧ s = next := by
  unfold advanceSection
  split_ifs with h
  · simp only [false_iff, not_and]
    omega
  · simp only [Except.ok.injEq, eq_comm, iff_and_self]
    omega

/-- The lines that were read into one section of the loop variables. -/
def Header.linesOf (h : Header) : Section → List Str
  | .tree => h.tree.toList.map (Section.tree.label ++ ·.toHex)
  | .parent => h.parents.map (Section.parent.label ++ ·.toHex)
  | .author => h.authors.map (Section.author.label ++ ·)
  | .committer => h.committer.toList.map (Section.committer.label ++ ·)
  | .ai => h.aiAssists.map (Section.ai.label ++ ·)
  | .reviewer => h.reviewers.map (Section.reviewer.label ++ ·)
  | .signature => h.signature.toList.map (Section.signature.label ++ ·)

/-- All lines that were read, in canonical order. -/
def Header.lines (h : Header) : List Str := Section.all.flatMap h.linesOf

/-- Whether a rendered line agrees with the line that was read.  Hexadecimal digits may have been
read in upper case. -/
def LineAgrees (rendered line : Str) : Prop :=
  rendered = line ∨ '\n' ∉ rendered ∧ rendered.getLast? ≠ some '\r'

lemma notMem_label (s : Section) : '\n' ∉ s.label ∧ '\r' ∉ s.label := by
  cases s <;> decide

/-- A line of a section whose text is one line and does not end in a carriage return. -/
lemma label_append_clean {s : Section} {text : Str} (h : '\n' ∉ text)
    (hcr : text.getLast? ≠ some '\r') :
    '\n' ∉ s.label ++ text ∧ (s.label ++ text).getLast? ≠ some '\r' := by
  refine ⟨fun hmem => ?_, fun hlast => ?_⟩
  · rcases mem_append.mp hmem with hmem | hmem
    · exact (notMem_label s).1 hmem
    · exact h hmem
  · by_cases htext : text = []
    · rw [htext, append_nil] at hlast
      exact (notMem_label s).2 (mem_of_getLast? hlast)
    · rw [getLast?_append_of_ne_nil _ htext] at hlast
      exact hcr hlast

/-- A line with a printed identifier is a clean line. -/
lemma clean_toHex (s : Section) (id : ObjectId) :
    '\n' ∉ s.label ++ id.toHex ∧ (s.label ++ id.toHex).getLast? ≠ some '\r' :=
  label_append_clean (ObjectId.notMem_toHex (by decide)) fun hlast =>
    ObjectId.notMem_toHex (by decide) (mem_of_getLast? hlast)

/-- What one iteration of the header loop does: it appends a line that agrees with the one read to
its section, which is not before the current one. -/
lemma decodeLine_spec {h h' : Header} {line : Str} (hdec : decodeLine h line = .ok h') :
    ∃ s r, h.cur.rank ≤ s.rank ∧ h'.cur = s ∧ LineAgrees r line ∧
      h'.linesOf = update h.linesOf s (h.linesOf s ++ [r]) := by
  unfold decodeLine at hdec
  split at hdec
  case h_1 =>
    simp only [bind_eq_ok, ensure_eq_ok, advanceSection_eq_ok] at hdec
    obtain ⟨-, hnone, -, ⟨hle, rfl⟩, -, -, id, -, hdec⟩ := hdec
    cases hdec
    refine ⟨_, _, hle, rfl, Or.inr (clean_toHex .tree id), ?_⟩
    funext s
    cases s <;> simp [Header.linesOf, update, hnone]
  case h_2 =>
    simp only [bind_eq_ok, advanceSection_eq_ok] at hdec
    obtain ⟨-, ⟨hle, rfl⟩, id, -, hdec⟩ := hdec
    cases hdec
    refine ⟨_, _, hle, rfl, Or.inr (clean_toHex .parent id), ?_⟩
    funext s
    cases s <;> simp [Header.linesOf, update]
  -- The sections of many texts, and then those of at most one.
  case h_3 rest hc | h_5 rest hc | h_6 rest hc =>
    simp only [bind_eq_ok, advanceSection_eq_ok] at hdec
    obtain ⟨-, ⟨hle, rfl⟩, hdec⟩ := hdec
    cases hdec
    refine ⟨_, _, hle, rfl, Or.inl (eq_label_append_of_classify hc).symm, ?_⟩
    funext s
    cases s <;> simp [Header.linesOf, update]
  case h_4 rest hc | h_7 rest hc =>
    simp only [bind_eq_ok, ensure_eq_ok, advanceSection_eq_ok] at hdec
    obtain ⟨-, hnone, -, ⟨hle, rfl⟩, hdec⟩ := hdec
    cases hdec
    refine ⟨_, _, hle, rfl, Or.inl (eq_label_append_of_classify hc).symm, ?_⟩
    funext s
    cases s <;> simp [Header.linesOf, update, hnone]
  case h_8 => cases hdec

/-- What holds after some lines were read: the collected lines agree with them in order, and the
sections after the current one are empty. -/
structure HeaderInv (h : Header) (ls : List Str) : Prop where
  agrees : List.Forall₂ LineAgrees h.lines ls
  later : ∀ s, h.cur.rank < s.rank → h.linesOf s = []

/-- Appending to a section that only empty sections follow appends to the whole header. -/
lemma Header.lines_of_update {h h' : Header} {s : Section} {r : Str}
    (hupd : h'.linesOf = update h.linesOf s (h.linesOf s ++ [r]))
    (hlater : ∀ s', s.rank < s'.rank → h.linesOf s' = []) : h'.lines = h.lines ++ [r] := by
  unfold Header.lines Section.all
  rw [hupd]
  cases s <;> simp_all [update, Section.rank]

/-- Reading one more line keeps the invariant. -/
theorem HeaderInv.step {h h' : Header} {ls : List Str} {line : Str} (hinv : HeaderInv h ls)
    (hdec : decodeLine h line = .ok h') : HeaderInv h' (ls ++ [line]) := by
  obtain ⟨s, r, hle, hcur, hr, hupd⟩ := decodeLine_spec hdec
  have hlater : ∀ s', s.rank < s'.rank → h.linesOf s' = [] := fun s' hs' =>
    hinv.later s' (by omega)
  refine ⟨?_, fun s' hs' => ?_⟩
  · rw [Header.lines_of_update hupd hlater]
    exact rel_append hinv.agrees (Forall₂.cons hr .nil)
  · have hne : s' ≠ s := by rintro rfl; rw [hcur] at hs'; omega
    rw [hupd, update_of_ne hne]
    exact hlater s' (hcur ▸ hs')

/-- The collected header agrees, line by line, with what was read. -/
lemma lines_agree_of_foldlM {h : Header} {ls : List Str}
    (hrun : ls.foldlM decodeLine Header.init = .ok h) : Forall₂ LineAgrees h.lines ls := by
  have hinit : HeaderInv Header.init [] := ⟨.nil, fun s _ => by cases s <;> rfl⟩
  exact (foldlM_invariant HeaderInv (fun _ _ _ _ hs hx => hs.step hx) hinit hrun).agrees

/-! ## The codec -/

/-- What makes a commit readable once it is written: it has an author, no header field holds a line
end, and no header line but the last ends in a carriage return. -/
structure WellFormed (c : Commit) : Prop where
  authors_ne_nil : c.authors ≠ []
  newline_notMem : ∀ l ∈ c.headerLines, '\n' ∉ l
  getLast?_ne_cr : ∀ l ∈ c.headerLines.dropLast, l.getLast? ≠ some '\r'

lemma headerLines_ne_nil (c : Commit) : c.headerLines ≠ [] := by simp [headerLines]

/-- Header lines carry a label, so they are not empty. -/
lemma ne_nil_of_mem_headerLines {c : Commit} {l : Str} (h : l ∈ c.headerLines) : l ≠ [] := by
  have hlabel : ∀ s : Section, s.label ≠ [] := fun s => by cases s <;> decide
  simp only [headerLines, mem_append, mem_map, mem_singleton] at h
  rcases h with ((((((rfl | ⟨_, _, rfl⟩) | ⟨_, _, rfl⟩) | rfl) | ⟨_, _, rfl⟩) | ⟨_, _, rfl⟩) |
    ⟨_, _, rfl⟩) <;> simp [hlabel]

/-- The same loop variables at another section. -/
def Header.reach (h : Header) (cur : Section) : Header := { h with cur := cur }

/-- The lines of one section are read one after the other; `add` is the effect of a list of them on
the loop variables. -/
lemma foldlM_section {α : Type} (s : Section) (render : α → Str) (add : Header → List α → Header)
    (hnil : ∀ h, add h [] = h)
    (hcons : ∀ h x xs cur, (add ((add h [x]).reach s) xs).reach cur = (add h (x :: xs)).reach cur)
    (hline : ∀ h x, h.cur.rank ≤ s.rank → decodeLine h (render x) = .ok ((add h [x]).reach s))
    (h : Header) (xs : List α) (hle : h.cur.rank ≤ s.rank) :
    ∃ cur : Section, cur.rank ≤ s.rank ∧
      (xs.map render).foldlM decodeLine h = .ok ((add h xs).reach cur) := by
  induction xs generalizing h with
  | nil => exact ⟨h.cur, hle, by rw [hnil]; rfl⟩
  | cons x xs ih =>
    obtain ⟨cur, hcur, hrun⟩ := ih ((add h [x]).reach s) (le_refl _)
    refine ⟨cur, hcur, ?_⟩
    rw [map_cons, foldlM_cons, hline h x hle, ok_bind, hrun, hcons]

lemma decodeLine_tree (id : ObjectId) : decodeLine Header.init (Section.tree.label ++ id.toHex) =
      .ok { Header.init with tree := some id } := by
  simp [decodeLine, Header.init, ensure, advanceSection, ObjectId.length_encode_toHex, pure,
    Except.pure]

lemma decodeLine_committer {h : Header} (committer : Str) (hnone : h.committer = none)
    (hle : h.cur.rank ≤ Section.committer.rank) :
    decodeLine h (Section.committer.label ++ committer) =
      .ok ({ h with committer := some committer }.reach .committer) := by
  simp [decodeLine, ensure, hnone, advanceSection, not_lt.mpr hle, pure, Except.pure,
    Header.reach]

lemma foldlM_signature {h : Header} (signature : Option Str) (hnone : h.signature = none) :
    ∃ cur, (signature.toList.map (Section.signature.label ++ ·)).foldlM decodeLine h =
      .ok ({ h with signature := signature }.reach cur) := by
  have hle : h.cur.rank ≤ Section.signature.rank := by cases h.cur <;> decide
  cases signature with
  | none => exact ⟨h.cur, by cases h; cases hnone; rfl⟩
  | some sig =>
    refine ⟨.signature, ?_⟩
    simp [decodeLine, ensure, hnone, advanceSection, not_lt.mpr hle, pure, Except.pure,
      Header.reach]

/-- The header of a commit is read back into the fields it was written from. -/
lemma foldlM_headerLines (c : Commit) : ∃ cur, c.headerLines.foldlM decodeLine Header.init =
      .ok ⟨cur, some c.tree, c.parents, c.authors, some c.committer, c.aiAssists, c.reviewers,
        c.signature⟩ := by
  obtain ⟨cur₁, hcur₁, hparents⟩ := foldlM_section .parent (Section.parent.label ++ ·.toHex)
    (fun h xs => { h with parents := h.parents ++ xs }) (by simp) (by simp [Header.reach])
    (fun h x hle => by simp [decodeLine, advanceSection, not_lt.mpr hle, Header.reach])
    { Header.init with tree := some c.tree } c.parents (zero_le _)
  obtain ⟨cur₂, hcur₂, hauthors⟩ := foldlM_section .author (Section.author.label ++ ·)
    (fun h xs => { h with authors := h.authors ++ xs }) (by simp) (by simp [Header.reach])
    (fun h x hle => by simp [decodeLine, advanceSection, not_lt.mpr hle, Header.reach])
    ⟨cur₁, some c.tree, c.parents, [], none, [], [], none⟩ c.authors
    (le_trans hcur₁ (by decide))
  have hcommitter := decodeLine_committer
    (h := ⟨cur₂, some c.tree, c.parents, c.authors, none, [], [], none⟩) c.committer rfl
    (le_trans hcur₂ (by decide))
  obtain ⟨cur₃, hcur₃, hai⟩ := foldlM_section .ai (Section.ai.label ++ ·)
    (fun h xs => { h with aiAssists := h.aiAssists ++ xs }) (by simp) (by simp [Header.reach])
    (fun h x hle => by simp [decodeLine, advanceSection, not_lt.mpr hle, Header.reach])
    ⟨.committer, some c.tree, c.parents, c.authors, some c.committer, [], [], none⟩
    c.aiAssists (show Section.committer.rank ≤ Section.ai.rank by decide)
  obtain ⟨cur₄, hcur₄, hreviewers⟩ := foldlM_section .reviewer (Section.reviewer.label ++ ·)
    (fun h xs => { h with reviewers := h.reviewers ++ xs }) (by simp) (by simp [Header.reach])
    (fun h x hle => by simp [decodeLine, advanceSection, not_lt.mpr hle, Header.reach])
    ⟨cur₃, some c.tree, c.parents, c.authors, some c.committer, c.aiAssists, [], none⟩
    c.reviewers (le_trans hcur₃ (by decide))
  obtain ⟨cur₅, hsig⟩ :=
    foldlM_signature
      (h := ⟨cur₄, some c.tree, c.parents, c.authors, some c.committer, c.aiAssists, c.reviewers,
        none⟩) c.signature rfl
  have htree := decodeLine_tree c.tree
  refine ⟨cur₅, ?_⟩
  simp only [Header.init, Header.reach, nil_append] at *
  simp only [headerLines, foldlM_append, foldlM_cons, foldlM_nil, ok_bind, pure_bind,
    htree, hparents, hauthors, hcommitter, hai, hreviewers, hsig]

/-- A well-formed commit reads back as itself. -/
theorem decode_encode {c : Commit} (hc : c.WellFormed) : decode (encode c) = .ok c := by
  have hsplit : splitOnce ['\n', '\n'] (unlines c.headerLines ++ '\n' :: c.message) =
      some (joinLines c.headerLines, c.message) :=
    splitOnce_unlines c.headerLines_ne_nil
      (fun l hl => ⟨hc.newline_notMem l hl, ne_nil_of_mem_headerLines hl⟩) c.message
  have hlines : lines (joinLines c.headerLines) = c.headerLines :=
    lines_joinLines_eq
      (fun l hl => ⟨hc.newline_notMem l hl, ne_nil_of_mem_headerLines hl⟩) hc.getLast?_ne_cr
  obtain ⟨cur, hfold⟩ := foldlM_headerLines c
  have hdec : Utf8.decode c.encode = some (unlines c.headerLines ++ '\n' :: c.message) :=
    Utf8.decode_encode _
  simp only [decode, hdec, hsplit, hlines, hfold, okOr_some, ok_bind, ensure, hc.authors_ne_nil,
    ne_eq, not_false_eq_true, if_true]
  rfl

/-- Decoded payloads are encodings of well-formed commits. -/
lemma wellFormed_of_decode {payload : Bytes} {c : Commit} (h : decode payload = .ok c) :
    encode c = payload ∧ c.WellFormed := by
  simp only [decode, bind_eq_ok, okOr_eq_ok, ensure_eq_ok] at h
  obtain ⟨text, htext, ⟨header, message⟩, hsplit, hdr, hfold, _, hauthors, tree, htree, committer,
    hcommitter, _, hcanon, hc⟩ := h
  cases hc
  refine ⟨hcanon, ?_⟩
  generalize hcommit : (⟨tree, hdr.parents, hdr.authors, committer, hdr.aiAssists, hdr.reviewers,
    hdr.signature, message⟩ : Commit) = c at hcanon
  -- The rendered header agrees line by line with the header that was read.
  have hagree : Forall₂ LineAgrees c.headerLines (lines header) := by
    have hlines : c.headerLines = hdr.lines := by
      rw [← hcommit]
      simp [headerLines, Header.lines, Section.all, Header.linesOf, htree, hcommitter]
    rw [hlines]
    exact lines_agree_of_foldlM hfold
  have hnewline : ∀ l ∈ c.headerLines, '\n' ∉ l := by
    intro l hl
    obtain ⟨l', hl', hagrees⟩ := exists_mem_of_forall₂ hagree hl
    rcases hagrees with rfl | h
    · exact newline_notMem_of_mem_lines hl'
    · exact h.1
  have hline : ∀ l ∈ c.headerLines, '\n' ∉ l ∧ l ≠ [] := fun l hl =>
    ⟨hnewline l hl, ne_nil_of_mem_headerLines hl⟩
  -- Since the payload is the re-encoding, the header that was read is the rendered one.
  have hheader : header = joinLines c.headerLines := by
    have htext' : text = unlines c.headerLines ++ '\n' :: c.message := by
      rw [← hcanon, encode, Utf8.decode_encode] at htext
      exact (Option.some.inj htext).symm
    have hmessage : c.message = message := by rw [← hcommit]
    have hsame := eq_of_splitOnce hsplit
    rw [htext', ← joinLines_append_newline c.headerLines_ne_nil, hmessage] at hsame
    simpa using hsame.symm
  refine ⟨by rw [← hcommit]; exact hauthors, hnewline, fun l hl => ?_⟩
  rw [hheader] at hagree
  rcases forall_dropLast_of_forall₂ hline hagree l hl with h | h
  · exact getLast?_ne_of_stripCr_eq h.symm
  · exact h.2

/-- The payloads that decode are exactly the encodings of well-formed commits. -/
theorem decode_eq_ok_iff {payload : Bytes} {c : Commit} :
    decode payload = .ok c ↔ encode c = payload ∧ c.WellFormed := by
  refine ⟨wellFormed_of_decode, ?_⟩
  rintro ⟨rfl, hc⟩
  exact decode_encode hc

/-! ## Commits with changed fields -/

/-- The header lines of a commit after those with identifiers. -/
def fieldLines (c : Commit) : List Str :=
  c.authors.map (Section.author.label ++ ·) ++
  ([Section.committer.label ++ c.committer] ++
  (c.aiAssists.map (Section.ai.label ++ ·) ++ c.reviewers.map (Section.reviewer.label ++ ·) ++
  c.signature.toList.map (Section.signature.label ++ ·)))

lemma headerLines_eq (c : Commit) : c.headerLines = ([Section.tree.label ++ c.tree.toHex] ++
      c.parents.map (Section.parent.label ++ ·.toHex)) ++ c.fieldLines := by
  simp [headerLines, fieldLines, append_assoc]

/-- Lines with identifiers are never the reason that a commit cannot be read. -/
lemma wellFormed_iff {c : Commit} :
    c.WellFormed ↔ c.authors ≠ [] ∧ (∀ l ∈ c.fieldLines, '\n' ∉ l) ∧
      ∀ l ∈ c.fieldLines.dropLast, l.getLast? ≠ some '\r' := by
  have hclean : ∀ l ∈ [Section.tree.label ++ c.tree.toHex] ++
      c.parents.map (Section.parent.label ++ ·.toHex),
      '\n' ∉ l ∧ l.getLast? ≠ some '\r' := by
    intro l hl
    rcases mem_append.mp hl with hl | hl
    · rw [mem_singleton.mp hl]
      exact clean_toHex .tree c.tree
    · obtain ⟨p, -, rfl⟩ := mem_map.mp hl
      exact clean_toHex .parent p
  have hne : c.fieldLines ≠ [] := by simp [fieldLines]
  constructor
  · rintro ⟨hauthors, hnewline, hcr⟩
    rw [headerLines_eq] at hnewline hcr
    rw [dropLast_append_of_ne_nil hne] at hcr
    exact ⟨hauthors, fun l hl => hnewline l (mem_append_right _ hl),
      fun l hl => hcr l (mem_append_right _ hl)⟩
  · rintro ⟨hauthors, hnewline, hcr⟩
    refine ⟨hauthors, fun l hl => ?_, fun l hl => ?_⟩
    · rw [headerLines_eq] at hl
      rcases mem_append.mp hl with hl | hl
      · exact (hclean l hl).1
      · exact hnewline l hl
    · rw [headerLines_eq, dropLast_append_of_ne_nil hne] at hl
      rcases mem_append.mp hl with hl | hl
      · exact (hclean l hl).2
      · exact hcr l hl

/-- The texts of a commit that stand in lines of their own. -/
def texts (c : Commit) : List Str :=
  c.authors ++ c.committer :: (c.aiAssists ++ c.reviewers ++ c.signature.toList)

lemma exists_text_of_mem_fieldLines {c : Commit} {l : Str} (h : l ∈ c.fieldLines) :
    ∃ s : Section, ∃ text ∈ c.texts, l = s.label ++ text := by
  simp only [fieldLines, mem_append, mem_map, mem_singleton] at h
  simp only [texts, mem_append, mem_cons]
  rcases h with ⟨t, ht, rfl⟩ | rfl | (⟨t, ht, rfl⟩ | ⟨t, ht, rfl⟩) | ⟨t, ht, rfl⟩
  · exact ⟨.author, t, .inl ht, rfl⟩
  · exact ⟨.committer, c.committer, .inr (.inl rfl), rfl⟩
  · exact ⟨.ai, t, .inr (.inr (.inl (.inl ht))), rfl⟩
  · exact ⟨.reviewer, t, .inr (.inr (.inl (.inr ht))), rfl⟩
  · exact ⟨.signature, t, .inr (.inr (.inr ht)), rfl⟩

/-- If no text ends in a carriage return, a commit can be read exactly if all its texts are lines.
-/
lemma wellFormed_iff_texts {c : Commit} (hauthors : c.authors ≠ [])
    (hcr : ∀ text ∈ c.texts, text.getLast? ≠ some '\r') :
    c.WellFormed ↔ ∀ text ∈ c.texts, '\n' ∉ text := by
  rw [wellFormed_iff]
  constructor
  · rintro ⟨-, hnewline, -⟩ text htext hmem
    have hline : ∃ s : Section, s.label ++ text ∈ c.fieldLines := by
      simp only [texts, mem_append, mem_cons] at htext
      simp only [fieldLines, mem_append, mem_map, mem_singleton]
      rcases htext with ht | rfl | (ht | ht) | ht
      · exact ⟨.author, .inl ⟨text, ht, rfl⟩⟩
      · exact ⟨.committer, .inr (.inl rfl)⟩
      · exact ⟨.ai, .inr (.inr (.inl (.inl ⟨text, ht, rfl⟩)))⟩
      · exact ⟨.reviewer, .inr (.inr (.inl (.inr ⟨text, ht, rfl⟩)))⟩
      · exact ⟨.signature, .inr (.inr (.inr ⟨text, ht, rfl⟩))⟩
    obtain ⟨s, hs⟩ := hline
    exact hnewline _ hs (mem_append_right _ hmem)
  · intro hnewline
    have hclean : ∀ l ∈ c.fieldLines, '\n' ∉ l ∧ l.getLast? ≠ some '\r' := by
      intro l hl
      obtain ⟨s, text, htext, rfl⟩ := exists_text_of_mem_fieldLines hl
      exact label_append_clean (hnewline text htext) (hcr text htext)
    exact ⟨hauthors, fun l hl => (hclean l hl).1, fun l hl => (hclean l (dropLast_subset _ hl)).2⟩

end Commit

end Gyt
