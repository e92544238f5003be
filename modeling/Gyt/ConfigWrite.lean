import Gyt.ConfigFile
import Gyt.Metadata.Writer

/-!
# Writing configuration files

The writer of `config.toml`, `config.rs`, and when the parser reads back what it wrote.  The writer
prints values with the `{:?}` form of the standard library, which has escapes that the parser does
not know, and it prints the names of sections as they are, while the parser splits them at dots,
trims them, and makes them lower case.  `parse_write` says for which configurations nothing is lost.
-/

namespace Gyt

open Text Toml List

def CiConcurrency.name : CiConcurrency → Str
  | .parallel => "parallel"
  | .serial => "serial"

def CiJobMode.name : CiJobMode → Str
  | .parallel => "parallel"
  | .queue => "queue"
  | .interrupt => "interrupt"

namespace Config

open Toml (DebugTables debugStr debugChar)

/-! ## The writer -/

section Write

variable (t : DebugTables)

def textLine (key : String) (value : Str) : Str := key.toList ++ " = " ++ debugStr t value

/-- The text of a configuration. -/
def writeText (cfg : Config) : Str :=
  (if cfg.userName.isSome ∨ cfg.userEmail.isSome then
    "[user]\n".toList ++ cfg.userName.elim [] (textLine t "name" · ++ ['\n']) ++
      cfg.userEmail.elim [] (textLine t "email" · ++ ['\n']) ++ ['\n']
  else []) ++
  (cfg.remotes.entries.flatMap fun e =>
    "[remote.".toList ++ e.1 ++ "]\n".toList ++ textLine t "url" e.2 ++ "\n\n".toList) ++
  (if cfg.createDefaultGytignore then
    "\n[init]\ncreate_default_gytignore = true\n".toList else []) ++
  (if cfg.signRequired then "\n[commit]\nsign_required = true\n".toList else []) ++
  (if cfg.ciMode ≠ .parallel then
    "\n[ci]\n".toList ++ textLine t "mode" cfg.ciMode.name ++ ['\n'] else []) ++
  cfg.ciJobModes.entries.flatMap fun e =>
    "\n[ci.".toList ++ e.1 ++ "]\n".toList ++ textLine t "mode" e.2.name ++ ['\n']

/-- The content of the file that `Config::write` writes. -/
def write (cfg : Config) : Bytes := Utf8.encode (cfg.writeText t)

/-! ## Lines of the written text -/

def subsection (s : String) (name : Str) : Str := '[' :: s.toList ++ '.' :: name ++ [']']

def userLines (cfg : Config) : List Str :=
  if cfg.userName.isSome ∨ cfg.userEmail.isSome then
    "[user]".toList :: (cfg.userName.elim [] fun name => [textLine t "name" name]) ++
      (cfg.userEmail.elim [] fun email => [textLine t "email" email]) ++ [[]]
  else []

def remoteLines (e : Str × Str) : List Str := [subsection "remote" e.1, textLine t "url" e.2, []]

def flagLines (s key : String) : List Str :=
  [[], '[' :: s.toList ++ [']'], key.toList ++ " = true"]

def ciModeLines (mode : CiConcurrency) : List Str :=
  [[], "[ci]", textLine t "mode" mode.name]

def ciJobModeLines (e : Str × CiJobMode) : List Str :=
  [[], subsection "ci" e.1, textLine t "mode" e.2.name]

def writeLines (cfg : Config) : List Str :=
  cfg.userLines t ++ (cfg.remotes.entries.flatMap (remoteLines t) ++
    ((if cfg.createDefaultGytignore then flagLines "init" "create_default_gytignore" else []) ++
      ((if cfg.signRequired then flagLines "commit" "sign_required" else []) ++
        ((if cfg.ciMode ≠ .parallel then ciModeLines t cfg.ciMode else []) ++
          cfg.ciJobModes.entries.flatMap (ciJobModeLines t)))))

lemma unlines_append (ls ls' : List Str) : unlines (ls ++ ls') = unlines ls ++ unlines ls' :=
  flatMap_append

lemma unlines_flatMap {α : Type} (xs : List α) (f : α → List Str) :
    unlines (xs.flatMap f) = xs.flatMap fun x => unlines (f x) :=
  flatMap_assoc

lemma writeText_eq (cfg : Config) : cfg.writeText t = unlines (cfg.writeLines t) := by
  have huser : unlines (cfg.userLines t) = if cfg.userName.isSome ∨ cfg.userEmail.isSome then
        "[user]\n".toList ++ cfg.userName.elim [] (textLine t "name" · ++ ['\n']) ++
          cfg.userEmail.elim [] (textLine t "email" · ++ ['\n']) ++ ['\n']
      else [] := by
    unfold userLines
    split_ifs
    · cases cfg.userName <;> cases cfg.userEmail <;> simp [unlines]
    · rfl
  rw [writeText, writeLines]
  simp only [unlines_append, unlines_flatMap, huser, append_assoc]
  congr 2
  · simp [unlines, remoteLines, subsection]
  · congr 1
    · split_ifs <;> rfl
    · congr 1
      · split_ifs <;> rfl
      · congr 1
        · split_ifs <;> simp [unlines, ciModeLines]
        · simp [unlines, ciJobModeLines, subsection]

end Write

/-! ## Comments -/

/-- Where a scan for a comment stands. -/
inductive Quote where
  | outside
  | inside
  | escaped
  deriving DecidableEq, Repr

/-- A scan for a comment; it ends at a `#` outside of quotes. -/
def Quote.next : Quote → Char → Option Quote
  | .outside, c => if c = '#' then none else some (if c = '"' then .inside else .outside)
  | .inside, c => some (if c = '\\' then .escaped else if c = '"' then .outside else .inside)
  | .escaped, _ => some .inside

/-- The start of a scan. -/
def Quote.of (inQuote : Bool) : Quote := if inQuote then .inside else .outside

section Comments

variable {t : DebugTables} {q : Bool} {c : Char} {x y : Str}

lemma next_inside (hc : c ≠ '\\') : Quote.next (.of true) c = some (.of (decide (c ≠ '"'))) := by
  by_cases hquote : c = '"' <;> simp [Quote.next, Quote.of, hc, hquote]

lemma next_outside (hc : c ≠ '#') : Quote.next (.of false) c = some (.of (decide (c = '"'))) := by
  simp [Quote.next, Quote.of, hc]

lemma stripCommentFrom_isPrefix (q : Bool) (x : Str) : stripCommentFrom q x <+: x := by
  fun_induction stripCommentFrom q x with
  | case1 => exact prefix_rfl
  | case2 c rest ih =>
    rw [prefix_cons_inj, prefix_cons_inj]
    exact ih
  | case3 c rest hesc ih | case5 c rest hc ih =>
    rw [prefix_cons_inj]
    exact ih
  | case4 => exact nil_prefix

lemma isSome_scan_stripCommentFrom (q : Bool) (x : Str) :
    ((stripCommentFrom q x).foldlM Quote.next (.of q)).isSome = true := by
  fun_induction stripCommentFrom q x with
  | case1 => rfl
  | case2 c rest ih => exact ih
  | case3 c rest hesc ih =>
    by_cases hc : c = '\\'
    · cases rest with
      | nil =>
        subst hc
        rfl
      | cons d rest => exact absurd rfl (hesc d rest hc)
    · rw [foldlM_cons, next_inside hc]
      exact ih
  | case4 => rfl
  | case5 c rest hc ih =>
    rw [foldlM_cons, next_outside hc]
    exact ih

/-- A line is without a comment exactly if a scan comes to its end. -/
lemma stripCommentFrom_eq_self_iff :
    stripCommentFrom q x = x ↔ (x.foldlM Quote.next (.of q)).isSome = true := by
  constructor
  · intro h
    rw [← h]
    exact isSome_scan_stripCommentFrom q x
  · intro h
    fun_induction stripCommentFrom q x with
    | case1 => rfl
    | case2 c rest ih => rw [ih h]
    | case3 c rest hesc ih =>
      by_cases hc : c = '\\'
      · cases rest with
        | nil => rfl
        | cons d rest => exact absurd rfl (hesc d rest hc)
      · rw [foldlM_cons, next_inside hc] at h
        rw [ih h]
    | case4 rest => cases h
    | case5 c rest hc ih =>
      rw [foldlM_cons, next_outside hc] at h
      rw [ih h]

lemma stripComment_eq_self_iff :
    stripComment x = x ↔ (x.foldlM Quote.next .outside).isSome = true :=
  stripCommentFrom_eq_self_iff

/-- Without quotes and `#`, a scan passes. -/
lemma scan_unquoted (h : ∀ c ∈ x, c ≠ '"' ∧ c ≠ '#') :
    x.foldlM Quote.next .outside = some .outside := by
  induction x with
  | nil => rfl
  | cons c x ih =>
    obtain ⟨⟨hquote, hhash⟩, hx⟩ := forall_mem_cons.mp h
    rw [foldlM_cons, Quote.next, if_neg hhash, if_neg hquote]
    exact ih hx

lemma scan_unquoted_append (hx : ∀ c ∈ x, c ≠ '"' ∧ c ≠ '#') (y : Str) :
    (x ++ y).foldlM Quote.next .outside = y.foldlM Quote.next .outside := by
  rw [foldlM_append, scan_unquoted hx]
  rfl

/-- Inside quotes, a scan passes what is neither a quote nor a backslash. -/
lemma scan_inside (h : ∀ c ∈ x, c ≠ '\\' ∧ c ≠ '"') :
    x.foldlM Quote.next .inside = some .inside := by
  induction x with
  | nil => rfl
  | cons c x ih =>
    obtain ⟨⟨hback, hquote⟩, hx⟩ := forall_mem_cons.mp h
    rw [foldlM_cons, Quote.next, if_neg hback, if_neg hquote]
    exact ih hx

/-- A scan passes a printed character. -/
lemma scan_debugChar (t : DebugTables) (c : Char) :
    (debugChar t c).foldlM Quote.next .inside = some .inside := by
  rcases debugChar_cases t c with ⟨d, hc, -, -⟩ | ⟨digits, hc, hdigits, -⟩ | ⟨hc, hesc, -⟩
  · rw [hc]
    rfl
  · rw [hc]
    show ('\x7b' :: digits ++ ['\x7d']).foldlM Quote.next .inside = _
    exact scan_inside fun _ => ne_of_mem_braces hdigits
  · rw [hc]
    refine scan_inside ?_
    rintro d (_ | ⟨_, ⟨⟩⟩)
    exact ⟨(ne_of_escapeLetter hesc).1, (ne_of_escapeLetter hesc).2.1⟩

/-- A scan passes a printed text. -/
lemma scan_debugStr (t : DebugTables) (s : Str) :
    (debugStr t s).foldlM Quote.next .outside = some .outside := by
  have hinner : (s.flatMap (debugChar t)).foldlM Quote.next .inside = some .inside := by
    induction s with
    | nil => rfl
    | cons c s ih =>
      rw [flatMap_cons, foldlM_append, scan_debugChar]
      exact ih
  rw [debugStr, foldlM_append, foldlM_cons]
  show (s.flatMap (debugChar t)).foldlM Quote.next .inside >>= _ = _
  rw [hinner]
  rfl

end Comments

/-! ## Values -/

/-- Whether a text is read back after it was printed: no character is printed as `\0` or as a `\u`
escape. -/
def Quotable (t : DebugTables) (s : Str) : Prop := Toml.Plain t s ∧ '\x00' ∉ s

instance (t : DebugTables) (s : Str) : Decidable (Quotable t s) :=
  inferInstanceAs (Decidable (_ ∧ _))

section Values

variable {t : DebugTables} {s r : Str}

lemma unescape_unicode (l : Str) : unescape ('\\' :: 'u' :: '\x7b' :: l) = none := by
  rcases l with _ | ⟨b, _ | ⟨c, _ | ⟨d, l⟩⟩⟩
  · rfl
  · rfl
  · rfl
  · rfl

lemma unescape_cons_of_ne {c : Char} (hc : c ≠ '\\') (l : Str) :
    unescape (c :: l) = (c :: ·) <$> unescape l := by
  rw [unescape.eq_def]
  split
  all_goals simp_all

lemma quotable_cons {c : Char} : Quotable t (c :: s) ↔
    (unicodeEscaped t c = false ∧ c ≠ '\x00') ∧ Quotable t s := by
  rw [Quotable, Quotable, plain_cons, mem_cons, not_or, ne_comm]
  tauto

/-- A character with an escape letter is read back, except for `\0`. -/
lemma unescape_letter {c d : Char} (h : escapeLetter c = some d) (hc : c ≠ '\x00') (l : Str) :
    unescape ('\\' :: d :: l) = (c :: ·) <$> unescape l := by
  unfold escapeLetter at h
  split_ifs at h with h₁ h₂ h₃ h₄ h₅ h₆
  · exact absurd h₁ hc
  all_goals
    cases h
    subst c
    rfl

/-- What was printed is read back exactly if no character was printed as `\0` or as a `\u`
escape. -/
lemma unescape_flatMap : unescape (s.flatMap (debugChar t)) = some r ↔ Quotable t s ∧ r = s := by
  induction s generalizing r with
  | nil => simp [unescape, Quotable, eq_comm]
  | cons c s ih =>
    have hcons : (c :: ·) <$> unescape (s.flatMap (debugChar t)) = some r ↔
        Quotable t s ∧ r = c :: s := by
      rw [Option.map_eq_map, Option.map_eq_some_iff]
      constructor
      · rintro ⟨r', hr', rfl⟩
        obtain ⟨hs, rfl⟩ := ih.mp hr'
        exact ⟨hs, rfl⟩
      · rintro ⟨hs, rfl⟩
        exact ⟨s, ih.mpr ⟨hs, rfl⟩, rfl⟩
    rw [flatMap_cons, quotable_cons, and_assoc, debugChar, unicodeEscaped]
    cases hesc : escapeLetter c with
    | some d =>
      by_cases hzero : c = '\x00'
      · subst hzero
        cases hesc
        exact iff_of_false (by rintro ⟨⟩) fun h => h.1.2 rfl
      · have hchar : ((some d).isNone && (t.isGraphemeExtended c || !t.isPrintable c)) = false ∧
            c ≠ '\x00' := ⟨rfl, hzero⟩
        rw [and_iff_right hchar]
        exact (unescape_letter hesc hzero _ ▸ hcons :)
    | none =>
      have hzero : c ≠ '\x00' := by
        rintro rfl
        cases hesc
      dsimp only
      split_ifs with htable
      · simp only [cons_append]
        rw [unescape_unicode]
        refine iff_of_false (by rintro ⟨⟩) fun h => ?_
        rw [htable] at h
        cases h.1.1
      · have hchar : ((none : Option Char).isNone &&
            (t.isGraphemeExtended c || !t.isPrintable c)) = false ∧ c ≠ '\x00' :=
          ⟨by simpa using htable, hzero⟩
        rw [and_iff_right hchar, singleton_append, unescape_cons_of_ne (ne_of_escapeLetter hesc).1]
        exact hcons

/-- A printed text is read back exactly if it is quotable. -/
lemma unquote_debugStr : unquote (debugStr t s) = some r ↔ Quotable t s ∧ r = s := by
  have hlen : 2 ≤ (Utf8.encode (debugStr t s)).length := by
    have hchars : 2 ≤ (debugStr t s).length := by simp [debugStr]
    exact hchars.trans (Utf8.length_le_length_encode _)
  have hinner : (debugStr t s).tail.dropLast = s.flatMap (debugChar t) :=
    inner_bracketed '"' '"' _
  rw [unquote, if_pos ⟨hlen, rfl, getLast?_bracketed _ _ _⟩, hinner, unescape_flatMap]

end Values

/-! ## Lines that are read back -/

/-- The names of subsections that the parser can find. -/
structure SectionName (name : Str) : Prop where
  ne_nil : name ≠ []
  dot : '.' ∉ name
  newline : '\n' ∉ name
  trim_eq : trim name = name
  lower : toLower name = name
  comment : stripComment name = name

instance (name : Str) : Decidable (SectionName name) :=
  decidable_of_iff (name ≠ [] ∧ '.' ∉ name ∧ '\n' ∉ name ∧ trim name = name ∧ toLower name = name ∧
      stripComment name = name)
    ⟨fun ⟨h₁, h₂, h₃, h₄, h₅, h₆⟩ => ⟨h₁, h₂, h₃, h₄, h₅, h₆⟩,
      fun h => ⟨h.ne_nil, h.dot, h.newline, h.trim_eq, h.lower, h.comment⟩⟩

/-- What lines contribute to a configuration: if `P` holds, they lead from one section to another
and give `settings`, and otherwise there is an error. -/
structure Reads (ls : List Str) (parts parts' : List Str) (P : Prop) (settings : List Setting) :
    Prop where
  isLine : ∀ l ∈ ls, '\n' ∉ l ∧ stripCr l = l
  ok : P → ∀ lineno acc, ls.foldlM parseLine ⟨lineno, parts, acc⟩ =
    .ok ⟨lineno + ls.length, parts', acc ++ settings⟩
  error : ¬ P → ∀ lineno acc, ∃ e, ls.foldlM parseLine ⟨lineno, parts, acc⟩ = .error e

section Reads

variable {t : DebugTables} {ls ls' : List Str} {p p' p'' : List Str} {P Q : Prop}
  {settings settings' : List Setting} {key : String} {name v : Str} {setting : Setting}

lemma Reads.nil (p : List Str) : Reads [] p p True [] where
  isLine := nofun
  ok _ lineno acc := by rw [append_nil]; rfl
  error h := absurd trivial h

lemma Reads.append (h : Reads ls p p' P settings) (h' : Reads ls' p' p'' Q settings') :
    Reads (ls ++ ls') p p'' (P ∧ Q) (settings ++ settings') where
  isLine := forall_mem_append.mpr ⟨h.isLine, h'.isLine⟩
  ok hPQ lineno acc := by
    rw [foldlM_append, h.ok hPQ.1, ok_bind, h'.ok hPQ.2, length_append, Nat.add_assoc, append_assoc]
  error hPQ lineno acc := by
    rw [foldlM_append]
    by_cases hP : P
    · rw [h.ok hP, ok_bind]
      exact h'.error (fun hQ => hPQ ⟨hP, hQ⟩) _ _
    · obtain ⟨e, he⟩ := h.error hP lineno acc
      exact ⟨e, by rw [he, error_bind]⟩

lemma Reads.blank (p : List Str) : Reads [[]] p p True [] where
  isLine := by decide
  ok _ lineno acc := by rw [append_nil]; rfl
  error h := absurd trivial h

/-- A line that cannot fail. -/
lemma Reads.line {l : Str} (hline : '\n' ∉ l ∧ stripCr l = l)
    (h : ∀ lineno acc, parseLine ⟨lineno, p, acc⟩ l = .ok ⟨lineno + 1, p', acc ++ settings⟩) :
    Reads [l] p p' True settings where
  isLine := by simpa using hline
  ok _ lineno acc := by
    rw [foldlM_cons, h]
    rfl
  error h := absurd trivial h

lemma stripBrackets (s : Str) :
    (stripPrefix ['['] ('[' :: s ++ [']'])).bind (stripSuffixChar ']') = some s := by
  have hstrip : stripPrefix ['['] ('[' :: s ++ [']']) = some (s ++ [']']) :=
    stripPrefix_append ['['] (s ++ [']'])
  rw [hstrip, Option.bind_some, stripSuffixChar, getLast?_concat, if_pos rfl, dropLast_concat]

lemma eq_of_stripBrackets {s l : Str}
    (h : (stripPrefix ['['] l).bind (stripSuffixChar ']') = some s) : l = '[' :: s ++ [']'] := by
  obtain ⟨tail, htail, hsuffix⟩ := Option.bind_eq_some_iff.mp h
  rw [stripSuffixChar] at hsuffix
  split_ifs at hsuffix with hlast
  cases hsuffix
  rw [stripPrefix_eq_some_iff.mp htail]
  show '[' :: tail = '[' :: (tail.dropLast ++ [']'])
  rw [dropLast_append_getLast? _ (Option.mem_def.mpr hlast)]

lemma isLine_bracketed {s : Str} (hs : '\n' ∉ s) :
    '\n' ∉ '[' :: s ++ [']'] ∧ stripCr ('[' :: s ++ [']']) = '[' :: s ++ [']'] := by
  refine ⟨by simpa using hs, stripCr_of_getLast?_ne ?_⟩
  rw [getLast?_bracketed]
  decide

/-- The parts of a section header. -/
lemma parseSection_subsection {s : String} (hs : s = "remote" ∨ s = "ci")
    (hname : SectionName name) (lineno : ℕ) :
    parseSection lineno (s.toList ++ '.' :: name) = .ok [s.toList, name] := by
  have hdot : '.' ∉ s.toList := by rcases hs with rfl | rfl <;> decide
  have htrim : trim (s.toList ++ '.' :: name) = s.toList ++ '.' :: name := by
    refine trim_eq_self_of_ends ?_ ?_
    · rcases hs with rfl | rfl
      · rintro c ⟨⟩
        decide
      · rintro c ⟨⟩
        decide
    · intro c hc
      apply isWhitespace_getLast_trim (l := name)
      obtain ⟨d, rest, rfl⟩ := exists_cons_of_ne_nil hname.ne_nil
      rw [hname.trim_eq]
      rwa [getLast?_append, getLast?_cons_cons, getLast?_cons, Option.some_or,
        ← getLast?_cons] at hc
  have hparts : ((split '.' (trim (s.toList ++ '.' :: name))).map trim).map toLower =
      [s.toList, name] := by
    rw [htrim, split_append_cons hdot, split_of_notMem hname.dot]
    simp only [map_cons, map_nil, hname.trim_eq, hname.lower]
    rcases hs with rfl | rfl <;> rfl
  rw [parseSection, hparts]
  have hempty : name.isEmpty = false := by
    rw [isEmpty_eq_false_iff]
    exact hname.ne_nil
  rcases hs with rfl | rfl <;> simp [ensure, knownSections, hempty]

/-- The header of a subsection. -/
lemma Reads.subsection {s : String} (hs : s = "remote" ∨ s = "ci") (hname : SectionName name)
    (p : List Str) : Reads [subsection s name] p [s.toList, name] True [] := by
  have hbracket : Config.subsection s name = '[' :: (s.toList ++ '.' :: name) ++ [']'] := by
    simp [Config.subsection]
  have hfront : ∀ c ∈ '[' :: s.toList ++ ['.'], c ≠ '"' ∧ c ≠ '#' := by
    have hall : (('[' :: s.toList ++ ['.']).all fun c => c ≠ '"' ∧ c ≠ '#') = true := by
      rcases hs with rfl | rfl <;> decide
    intro c hc
    exact of_decide_eq_true (all_eq_true.mp hall c hc)
  have hcomment : stripComment (Config.subsection s name) = Config.subsection s name := by
    have hscan := stripComment_eq_self_iff.mp hname.comment
    obtain ⟨q, hq⟩ := Option.isSome_iff_exists.mp hscan
    have hsplit : Config.subsection s name = ('[' :: s.toList ++ ['.']) ++ (name ++ [']']) := by
      simp [Config.subsection]
    rw [stripComment_eq_self_iff, hsplit, scan_unquoted_append hfront, foldlM_append, hq]
    cases q <;> rfl
  refine .line ?_ ?_
  · rw [hbracket]
    apply isLine_bracketed
    rcases hs with rfl | rfl <;> simpa using hname.newline
  · intro lineno acc
    rw [parseLine, hcomment, hbracket, trim_bracketed (by decide) (by decide)]
    dsimp only
    rw [if_neg (by simp), stripBrackets]
    dsimp only
    rw [parseSection_subsection hs hname, ok_bind, append_nil]
    rfl

/-- The letters of keys. -/
lemma of_mem_key (hkey : IsKey key.toList) {c : Char} (hc : c ∈ key.toList) :
    c ≠ '"' ∧ c ≠ '#' := by
  have hall : (keyChars.all fun c => c ≠ '"' ∧ c ≠ '#') = true := by decide
  have hmem : c ∈ keyChars := by simpa using all_eq_true.mp hkey.2 c hc
  exact of_decide_eq_true (all_eq_true.mp hall c hmem)

section

variable (hkey : Toml.IsKey key.toList) (hinit : p ≠ ["init".toList])
  (hcommit : p ≠ ["commit".toList])

include hkey hinit hcommit

/-- What the parser makes of a key with a text. -/
lemma parseLine_textLine (lineno : ℕ) (acc : List Setting) :
    parseLine ⟨lineno, p, acc⟩ (textLine t key v) =
      (okOr (unquote (debugStr t v)) (lineError lineno [": value must be a quoted string"]) >>=
        fun raw => parseSetting lineno p key.toList raw >>= fun setting =>
          .ok ⟨lineno + 1, p, acc ++ [setting]⟩) := by
  have hwritable : Writable (key.toList, debugStr t v) := ⟨hkey, isValue_debugStr t v⟩
  have hfront : ∀ c ∈ key.toList ++ " = ", c ≠ '"' ∧ c ≠ '#' := by
    intro c hc
    rcases mem_append.mp hc with hc | hc
    · exact of_mem_key hkey hc
    · constructor <;> rintro rfl <;> exact absurd hc (by decide)
  have hcomment : stripComment (textLine t key v) = textLine t key v := by
    rw [stripComment_eq_self_iff, textLine, scan_unquoted_append hfront, scan_debugStr]
    rfl
  obtain ⟨c, rest, hcons, -, hbracket, -⟩ := hwritable.exists_renderLine_eq_cons
  have hheader : stripPrefix ['['] (renderLine (key.toList, debugStr t v)) = none := by
    rw [hcons, stripPrefix_cons_of_ne hbracket.symm]
  rw [parseLine, hcomment, show textLine t key v = renderLine (key.toList, debugStr t v)
    from rfl, hwritable.trim_renderLine]
  dsimp only
  rw [if_neg (by simp [hcons]), hheader, Option.bind_none]
  dsimp only
  rw [parseKeyValue, hwritable.splitOnce_renderLine, okOr_some, ok_bind]
  dsimp only
  rw [hwritable.trim_key_append, hwritable.trim_cons_value, if_neg fun h => hinit h.1,
    if_neg fun h => hcommit h.1, bind_assoc]
  rfl

/-- A key with a text is read back if the text is quotable. -/
lemma Reads.text (hsetting : ∀ lineno, parseSetting lineno p key.toList v = .ok setting) :
    Reads [textLine t key v] p p (Quotable t v) [setting] where
  isLine := by
    rw [forall_mem_singleton]
    exact (writable_iff.mpr ⟨hkey, isValue_debugStr t v⟩).isLine
  ok hv lineno acc := by
    rw [foldlM_cons, parseLine_textLine hkey hinit hcommit, unquote_debugStr.mpr ⟨hv, rfl⟩,
      okOr_some, ok_bind, hsetting]
    rfl
  error hv lineno acc := by
    have hnone : unquote (debugStr t v) = none := by
      rw [Option.eq_none_iff_forall_ne_some]
      intro r hr
      exact hv (unquote_debugStr.mp hr).1
    rw [foldlM_cons, parseLine_textLine hkey hinit hcommit, hnone]
    exact ⟨_, rfl⟩

end

end Reads

/-! ## Sections that are read back -/

/-- What lines that do not depend on the section before them contribute to a configuration. -/
def Block (ls : List Str) (P : Prop) (settings : List Setting) : Prop :=
  ∀ parts, ∃ parts', Reads ls parts parts' P settings

section Blocks

variable {t : DebugTables} {ls ls' : List Str} {P Q : Prop} {settings settings' : List Setting}

lemma Block.nil : Block [] True [] := fun p => ⟨p, .nil p⟩

lemma Block.append (h : Block ls P settings) (h' : Block ls' Q settings') :
    Block (ls ++ ls') (P ∧ Q) (settings ++ settings') := by
  intro p
  obtain ⟨p', hreads⟩ := h p
  obtain ⟨p'', hreads'⟩ := h' p'
  exact ⟨p'', hreads.append hreads'⟩

lemma Block.flatMap {α : Type} {xs : List α} {f : α → List Str} {P : α → Prop} {g : α → Setting}
    (h : ∀ x ∈ xs, Block (f x) (P x) [g x]) :
    Block (xs.flatMap f) (∀ x ∈ xs, P x) (xs.map g) := by
  induction xs with
  | nil => simpa using Block.nil
  | cons x xs ih =>
    obtain ⟨hx, hxs⟩ := forall_mem_cons.mp h
    rw [flatMap_cons, map_cons, forall_mem_cons]
    exact hx.append (ih hxs)

/-- Lines that are written under a condition. -/
lemma Block.ite {c : Prop} [Decidable c] (h : Block ls True settings) :
    Block (if c then ls else []) True (if c then settings else []) := by
  split_ifs
  · exact h
  · exact Block.nil

/-- A key that is written if it has a value. -/
lemma Reads.option {key : String} {p : List Str} {mk : Str → Setting} (o : Option Str)
    (hkey : IsKey key.toList) (hinit : p ≠ ["init".toList]) (hcommit : p ≠ ["commit".toList])
    (hsetting : ∀ v lineno, parseSetting lineno p key.toList v = .ok (mk v)) :
    Reads (o.elim [] fun v => [textLine t key v]) p p (∀ v ∈ o, Quotable t v)
      (o.toList.map mk) := by
  cases o with
  | none => simpa using Reads.nil p
  | some v => simpa using Reads.text (t := t) hkey hinit hcommit (hsetting v)

lemma block_userLines (cfg : Config) : Block (cfg.userLines t)
    ((∀ v ∈ cfg.userName, Quotable t v) ∧ ∀ v ∈ cfg.userEmail, Quotable t v)
    (cfg.userName.toList.map .userName ++ cfg.userEmail.toList.map .userEmail) := by
  intro p
  unfold userLines
  split_ifs with hsome
  · have hheader : Reads ["[user]".toList] p ["user".toList] True [] :=
      .line (by decide) fun lineno acc => by rw [append_nil]; rfl
    have hname : Reads (cfg.userName.elim [] fun v => [textLine t "name" v]) ["user".toList]
        ["user".toList] (∀ v ∈ cfg.userName, Quotable t v)
        (cfg.userName.toList.map .userName) :=
      .option _ (by decide) (by decide) (by decide) fun _ _ => rfl
    have hemail : Reads (cfg.userEmail.elim [] fun v => [textLine t "email" v]) ["user".toList]
        ["user".toList] (∀ v ∈ cfg.userEmail, Quotable t v)
        (cfg.userEmail.toList.map .userEmail) :=
      .option _ (by decide) (by decide) (by decide) fun _ _ => rfl
    have hreads := ((hheader.append hname).append hemail).append (.blank _)
    exact ⟨_, by simpa using hreads⟩
  · obtain ⟨hname, hemail⟩ : cfg.userName = none ∧ cfg.userEmail = none := by simpa using hsome
    rw [hname, hemail]
    exact ⟨p, by simpa using Reads.nil p⟩

lemma block_remoteLines {e : Str × Str} (hname : SectionName e.1) :
    Block (remoteLines t e) (Quotable t e.2) [.remote e.1 e.2] := by
  intro p
  have htext : Reads [textLine t "url" e.2] ["remote", e.1] ["remote", e.1]
      (Quotable t e.2) [.remote e.1 e.2] :=
    .text (by decide) (by simp) (by simp) fun _ => rfl
  have hreads := ((Reads.subsection (.inl rfl) hname p).append htext).append (.blank _)
  exact ⟨_, by simpa [remoteLines] using hreads⟩

lemma block_flagLines {s key : String} {setting : Setting}
    (hheader : ∀ p, Reads ['[' :: s.toList ++ [']']] p [s.toList] True [])
    (hflag : Reads [key.toList ++ " = true"] [s.toList] [s.toList] True [setting]) :
    Block (flagLines s key) True [setting] := by
  intro p
  have hreads := ((Reads.blank p).append (hheader p)).append hflag
  exact ⟨_, by simpa [flagLines] using hreads⟩

lemma block_init : Block (flagLines "init" "create_default_gytignore") True
    [.createDefaultGytignore true] :=
  block_flagLines (fun _ => .line (by decide) fun lineno acc => by rw [append_nil]; rfl)
    (.line (by decide) fun _ _ => rfl)

lemma block_commit : Block (flagLines "commit" "sign_required") True [.signRequired true] :=
  block_flagLines (fun _ => .line (by decide) fun lineno acc => by rw [append_nil]; rfl)
    (.line (by decide) fun _ _ => rfl)

lemma quotable_concurrency (t : DebugTables) (mode : CiConcurrency) : Quotable t mode.name := by
  cases mode <;> exact ⟨plain_of_ascii (by decide), by decide⟩

lemma quotable_jobMode (t : DebugTables) (mode : CiJobMode) : Quotable t mode.name := by
  cases mode <;> exact ⟨plain_of_ascii (by decide), by decide⟩

lemma block_ciModeLines (mode : CiConcurrency) :
    Block (ciModeLines t mode) True [.ciMode mode] := by
  intro p
  have hheader : Reads ["[ci]"] p ["ci"] True [] :=
    .line (by decide) fun lineno acc => by rw [append_nil]; rfl
  have htext : Reads [textLine t "mode" mode.name] ["ci"] ["ci"]
      (Quotable t mode.name) [.ciMode mode] :=
    .text (by decide) (by decide) (by decide) fun _ => by cases mode <;> rfl
  have hreads := ((Reads.blank p).append hheader).append htext
  exact ⟨_, by simpa [ciModeLines, quotable_concurrency] using hreads⟩

lemma block_ciJobModeLines {e : Str × CiJobMode} (hname : SectionName e.1) :
    Block (ciJobModeLines t e) True [.ciJobMode e.1 e.2] := by
  intro p
  obtain ⟨job, mode⟩ := e
  have htext : Reads [textLine t "mode" mode.name] ["ci", job] ["ci", job]
      (Quotable t mode.name) [.ciJobMode job mode] :=
    .text (by decide) (by simp) (by simp) fun _ => by cases mode <;> rfl
  have hreads := ((Reads.blank p).append (Reads.subsection (.inr rfl) hname _)).append htext
  exact ⟨_, by simpa [ciJobModeLines, quotable_jobMode] using hreads⟩

end Blocks

/-! ## Configurations that are read back -/

/-- The settings that are written for a configuration. -/
def settings (cfg : Config) : List Setting :=
  (cfg.userName.toList.map .userName ++ cfg.userEmail.toList.map .userEmail) ++
    (cfg.remotes.entries.map (fun e => .remote e.1 e.2) ++
      ((if cfg.createDefaultGytignore then [.createDefaultGytignore true] else []) ++
        ((if cfg.signRequired then [.signRequired true] else []) ++
          ((if cfg.ciMode ≠ .parallel then [.ciMode cfg.ciMode] else []) ++
            cfg.ciJobModes.entries.map fun e => .ciJobMode e.1 e.2))))

/-- Whether all values of a configuration are read back. -/
structure QuotableValues (t : DebugTables) (cfg : Config) : Prop where
  userName : ∀ v ∈ cfg.userName, Quotable t v
  userEmail : ∀ v ∈ cfg.userEmail, Quotable t v
  url : ∀ e ∈ cfg.remotes.entries, Quotable t e.2

section Configs

variable {t : DebugTables} {cfg r : Config}

/-- Settings that each insert an entry into the same map insert all of the entries. -/
lemma foldl_set_entries {V : Type} (setting : Str × V → Setting)
    (put : Config → SortedMap Str V → Config)
    (hset : ∀ cfg m e, set (put cfg m) (setting e) = put cfg (m.insert e.1 e.2))
    (entries : List (Str × V)) (cfg : Config) (m : SortedMap Str V) :
    (entries.map setting).foldl set (put cfg m) =
      put cfg (entries.foldl (fun m e => m.insert e.1 e.2) m) := by
  induction entries generalizing m with
  | nil => rfl
  | cons e entries ih => rw [map_cons, foldl_cons, hset, ih, foldl_cons]

/-- The settings of a configuration make it up. -/
lemma foldl_set_settings (cfg : Config) : cfg.settings.foldl set default = cfg := by
  have hremotes := SortedMap.empty_insertAll cfg.remotes
  have hmodes := SortedMap.empty_insertAll cfg.ciJobModes
  rw [SortedMap.insertAll] at hremotes hmodes
  have hurls : ∀ c : Config, _ = _ := fun c => foldl_set_entries
    (fun e => .remote e.1 e.2) (fun cfg m => { cfg with remotes := m }) (fun _ _ _ => rfl)
    cfg.remotes.entries c c.remotes
  have hjobs : ∀ c : Config, _ = _ := fun c => foldl_set_entries
    (fun e => .ciJobMode e.1 e.2) (fun cfg m => { cfg with ciJobModes := m }) (fun _ _ _ => rfl)
    cfg.ciJobModes.entries c c.ciJobModes
  rw [settings]
  simp only [foldl_append, hurls, hjobs]
  obtain ⟨name, email, remotes, ignore, sign, mode, modes⟩ := cfg
  cases name <;> cases email <;> cases ignore <;> cases sign <;> cases mode <;>
    simpa [set, default] using ⟨hremotes, hmodes⟩

section

variable (hremotes : ∀ e ∈ cfg.remotes.entries, SectionName e.1)
  (hjobs : ∀ e ∈ cfg.ciJobModes.entries, SectionName e.1)

include hremotes hjobs

/-- The lines of a configuration whose names the parser can find. -/
lemma block_writeLines : Block (cfg.writeLines t) (QuotableValues t cfg) cfg.settings := by
  have hblock := (block_userLines (t := t) cfg).append
    ((Block.flatMap fun e he => block_remoteLines (t := t) (hremotes e he)).append
      ((Block.ite (c := cfg.createDefaultGytignore) block_init).append
        ((Block.ite (c := cfg.signRequired) block_commit).append
          ((Block.ite (c := cfg.ciMode ≠ .parallel) (block_ciModeLines (t := t) cfg.ciMode)).append
            (Block.flatMap fun e he => block_ciJobModeLines (t := t) (hjobs e he))))))
  have hiff : QuotableValues t cfg ↔
      ((∀ v ∈ cfg.userName, Quotable t v) ∧ ∀ v ∈ cfg.userEmail, Quotable t v) ∧
        (∀ e ∈ cfg.remotes.entries, Quotable t e.2) ∧ True ∧ True ∧ True ∧
          ∀ e ∈ cfg.ciJobModes.entries, True := by
    constructor
    · intro h
      exact ⟨⟨h.userName, h.userEmail⟩, h.url, trivial, trivial, trivial, fun _ _ => trivial⟩
    · rintro ⟨⟨hname, hemail⟩, hurl, -⟩
      exact ⟨hname, hemail, hurl⟩
  rw [hiff]
  exact hblock

/-- With names that the parser can find, a configuration is read back exactly if its values are. -/
lemma parse_write_of_names : parse (cfg.write t) = .ok r ↔ QuotableValues t cfg ∧ r = cfg := by
  obtain ⟨p, hreads⟩ := block_writeLines (t := t) hremotes hjobs []
  have hlines : lines (unlines (cfg.writeLines t)) = cfg.writeLines t := by
    rw [lines_unlines fun l hl => (hreads.isLine l hl).1]
    exact (map_congr_left fun l hl => (hreads.isLine l hl).2).trans (map_id _)
  rw [parse, parseSettings, write, Utf8.decode_encode, okOr_some, ok_bind, writeText_eq, hlines]
  by_cases hvalues : QuotableValues t cfg
  · rw [hreads.ok hvalues, and_iff_right hvalues]
    show Except.ok (([] ++ cfg.settings).foldl set default) = Except.ok r ↔ r = cfg
    rw [nil_append, foldl_set_settings, Except.ok.injEq, eq_comm]
  · obtain ⟨e, he⟩ := hreads.error hvalues 0 []
    rw [he]
    exact iff_of_false nofun fun h => hvalues h.1

end

end Configs

/-! ## Names that the parser finds -/

section Names

variable {q : Quote} {c d : Char} {x y : Str}

lemma toLower_eq_iff (hd : d.isAlpha = false) : c.toLower = d ↔ c = d := by
  constructor
  · rintro rfl
    rw [Char.isAlpha_toLower_eq_isAlpha, Char.isAlpha, Bool.or_eq_false_iff] at hd
    exact (Char.toLower_eq_of_not_isUpper (by simp [hd.1])).symm
  · rintro rfl
    rw [Char.isAlpha, Bool.or_eq_false_iff] at hd
    exact Char.toLower_eq_of_not_isUpper (by simp [hd.1])

lemma isAlpha_of_isWhitespace (h : isWhitespace c = true) : c.isAlpha = false := by
  rw [← Bool.not_eq_true]
  intro halpha
  have hrange : 65 ≤ c.toNat ∧ c.toNat ≤ 90 ∨ 97 ≤ c.toNat ∧ c.toNat ≤ 122 := by
    rw [Char.isAlpha, Bool.or_eq_true] at halpha
    rcases halpha with hupper | hlower
    · left
      simp only [Char.isUpper, decide_eq_true_eq] at hupper
      exact hupper
    · right
      simp only [Char.isLower, Bool.and_eq_true, decide_eq_true_eq] at hlower
      exact hlower
  simp only [isWhitespace, Bool.or_eq_true, Bool.and_eq_true, decide_eq_true_eq, beq_iff_eq] at h
  omega

lemma isWhitespace_toLower (c : Char) : isWhitespace c.toLower = isWhitespace c := by
  rw [Bool.eq_iff_iff]
  constructor
  · intro h
    rwa [(toLower_eq_iff (isAlpha_of_isWhitespace h)).mp rfl]
  · intro h
    rwa [(toLower_eq_iff (isAlpha_of_isWhitespace h)).mpr rfl]

lemma trim_toLower (x : Str) : trim (toLower x) = toLower (trim x) := by
  have hcomp : isWhitespace ∘ Char.toLower = isWhitespace := funext isWhitespace_toLower
  simp only [trim, trimStart, trimEnd, toLower, dropWhile_map, hcomp, ← map_reverse]

lemma next_toLower (q : Quote) (c : Char) : q.next c.toLower = q.next c := by
  have hhash : c.toLower = '#' ↔ c = '#' := toLower_eq_iff (by decide)
  have hquote : c.toLower = '"' ↔ c = '"' := toLower_eq_iff (by decide)
  have hback : c.toLower = '\\' ↔ c = '\\' := toLower_eq_iff (by decide)
  cases q <;> simp only [Quote.next, hhash, hquote, hback]

/-- Capital letters do not matter for comments. -/
lemma scan_toLower (q : Quote) (x : Str) :
    (toLower x).foldlM Quote.next q = x.foldlM Quote.next q := by
  rw [toLower, foldlM_map]
  simp only [next_toLower]

lemma scan_of_append (h : ((x ++ y).foldlM Quote.next q).isSome = true) :
    (x.foldlM Quote.next q).isSome = true := by
  rw [foldlM_append] at h
  cases hx : x.foldlM Quote.next q with
  | none =>
    rw [hx] at h
    cases h
  | some q' => rfl

lemma unquoted_of_isWhitespace (h : isWhitespace c = true) : c ≠ '"' ∧ c ≠ '#' := by
  constructor <;> rintro rfl <;> cases h

/-- Trimming a line without a comment leaves one without a comment. -/
lemma scan_trim (h : (x.foldlM Quote.next .outside).isSome = true) :
    ((trim x).foldlM Quote.next .outside).isSome = true := by
  obtain ⟨front, back, hfront, -, heq⟩ := exists_trim_append x
  rw [heq, scan_unquoted_append fun c hc => unquoted_of_isWhitespace (hfront c hc)] at h
  exact scan_of_append h

/-- A part of a section that the parser knows is without quotes and `#`. -/
lemma unquoted_of_known {known : String} (hknown : known ∈ knownSections)
    (hx : toLower (trim x) = known.toList) : ∀ c ∈ x, c ≠ '"' ∧ c ≠ '#' := by
  have hall : (knownSections.all fun known =>
      known.toList.all fun c => c ≠ '"' ∧ c ≠ '#') = true := by decide
  obtain ⟨front, back, hfront, hback, heq⟩ := exists_trim_append x
  intro c hc
  rw [heq, mem_append, mem_append] at hc
  rcases hc with hc | hc | hc
  · exact unquoted_of_isWhitespace (hfront c hc)
  · have hmem : c.toLower ∈ known.toList := hx ▸ mem_map_of_mem hc
    obtain ⟨hquote, hhash⟩ := of_decide_eq_true
      (all_eq_true.mp (all_eq_true.mp hall known hknown) _ hmem)
    constructor
    · rintro rfl
      exact hquote rfl
    · rintro rfl
      exact hhash rfl
  · exact unquoted_of_isWhitespace (hback c hc)

lemma notMem_toLower (hd : d.isAlpha = false) (h : d ∉ x) : d ∉ toLower x := by
  intro hmem
  obtain ⟨c, hc, hlower⟩ := mem_map.mp hmem
  exact h ((toLower_eq_iff hd).mp hlower ▸ hc)

/-- The name of a subsection. -/
lemma sectionName_of_parseSection {lineno : ℕ} {rest s name : Str} (hnewline : '\n' ∉ rest)
    (hscan : (rest.foldlM Quote.next .outside).isSome = true)
    (h : parseSection lineno rest = .ok [s, name]) : SectionName name := by
  obtain ⟨-, h⟩ := check_bind_eq_ok.mp h
  obtain ⟨hknown, h⟩ := check_bind_eq_ok.mp h
  obtain ⟨hempty, h⟩ := check_bind_eq_ok.mp h
  rw [ensure_eq_ok] at hknown hempty
  rw [pure_eq_ok] at h
  rw [h] at hknown hempty
  obtain ⟨a, b, hsplit, rfl, rfl⟩ : ∃ a b, split '.' (trim rest) = [a, b] ∧
      toLower (trim a) = s ∧ toLower (trim b) = name := by
    rw [map_map] at h
    obtain ⟨a, l, hsplit, ha, hl⟩ := map_eq_cons_iff.mp h
    obtain ⟨b, l', rfl, hb, hl'⟩ := map_eq_cons_iff.mp hl
    rw [map_eq_nil_iff.mp hl'] at hsplit
    exact ⟨a, b, hsplit, ha, hb⟩
  have hrest : trim rest = a ++ '.' :: b := by
    rw [← intercalate_split '.' (trim rest), hsplit, Text.intercalate_cons_cons]
    simp [intercalate]
  have hsub : b ⊆ rest := by
    intro c hc
    apply trim_subset rest
    rw [hrest]
    simp [hc]
  refine ⟨?_, ?_, ?_, ?_, ?_, ?_⟩
  · simp at hempty
    exact hempty.2
  · exact notMem_toLower (by decide) fun hmem =>
      notMem_of_mem_split (hsplit ▸ by simp : b ∈ split '.' (trim rest)) (trim_subset b hmem)
  · exact notMem_toLower (by decide) fun hmem => hnewline (hsub (trim_subset b hmem))
  · rw [trim_toLower, trim_trim]
  · simp [toLower]
  · obtain ⟨known, hmem, hs⟩ := hknown
    have ha : ∀ c ∈ a ++ ['.'], c ≠ '"' ∧ c ≠ '#' := by
      intro c hc
      rcases mem_append.mp hc with hc | hc
      · exact unquoted_of_known hmem (Option.some.inj hs) c hc
      · cases mem_singleton.mp hc
        decide
    have htrim := scan_trim hscan
    rw [hrest, show a ++ '.' :: b = (a ++ ['.']) ++ b by simp, scan_unquoted_append ha] at htrim
    rw [stripComment_eq_self_iff, scan_toLower]
    exact scan_trim htrim

end Names

/-- Whether the name in a setting is one that the parser can find. -/
def Setting.Named : Setting → Prop
  | .remote name _ => SectionName name
  | .ciJobMode job _ => SectionName job
  | _ => True

/-- Whether all names in a configuration are ones that the parser can find. -/
structure Named (cfg : Config) : Prop where
  remote : ∀ e ∈ cfg.remotes.entries, SectionName e.1
  job : ∀ e ∈ cfg.ciJobModes.entries, SectionName e.1

section Parsed

variable {t : DebugTables} {st st' : Parsing} {lineno : ℕ} {parts : List Str}
  {setting : Setting} {cfg : Config}

lemma named_of_parseSetting {rawKey value : Str}
    (hparts : ∀ s name, parts = [s, name] → SectionName name)
    (h : parseSetting lineno parts rawKey value = .ok setting) : setting.Named := by
  unfold parseSetting at h
  dsimp only at h
  split at h
  · split_ifs at h
    · cases h
      trivial
    · cases h
      trivial
    · obtain ⟨mode, -, rfl⟩ := map_eq_ok.mp h
      trivial
  · next s name =>
    split_ifs at h
    · cases h
      exact hparts s name rfl
    · obtain ⟨mode, -, rfl⟩ := map_eq_ok.mp h
      exact hparts s name rfl
  · cases h

lemma named_of_parseKeyValue {line : Str}
    (hparts : ∀ s name, parts = [s, name] → SectionName name)
    (h : parseKeyValue lineno parts line = .ok setting) : setting.Named := by
  obtain ⟨⟨key, value⟩, -, h⟩ := bind_eq_ok.mp h
  dsimp only at h
  split_ifs at h
  · obtain ⟨b, -, rfl⟩ := map_eq_ok.mp h
    trivial
  · obtain ⟨b, -, rfl⟩ := map_eq_ok.mp h
    trivial
  · obtain ⟨raw, -, h⟩ := bind_eq_ok.mp h
    exact named_of_parseSetting hparts h

/-- Whether the names in what was parsed are ones that the parser can find. -/
structure Parsing.Named (st : Parsing) : Prop where
  parts : ∀ s name, st.parts = [s, name] → SectionName name
  settings : ∀ setting ∈ st.settings, setting.Named

lemma named_of_parseLine {raw : Str} (hraw : '\n' ∉ raw) (hst : st.Named)
    (h : parseLine st raw = .ok st') : st'.Named := by
  unfold parseLine at h
  dsimp only at h
  split_ifs at h
  · cases h
    exact ⟨hst.parts, hst.settings⟩
  · split at h
    · next rest hstrip =>
      obtain ⟨parts, hparts, h⟩ := bind_eq_ok.mp h
      cases h
      refine ⟨?_, hst.settings⟩
      rintro s name rfl
      have hline : trim (stripComment raw) = '[' :: rest ++ [']'] := eq_of_stripBrackets hstrip
      have hscan : ((trim (stripComment raw)).foldlM Quote.next .outside).isSome = true :=
        scan_trim (isSome_scan_stripCommentFrom false raw)
      rw [hline] at hscan
      change ((rest ++ [']']).foldlM Quote.next .outside).isSome = true at hscan
      refine sectionName_of_parseSection ?_ (scan_of_append hscan) hparts
      intro hmem
      apply hraw
      apply (stripCommentFrom_isPrefix false raw).subset
      apply trim_subset
      show '\n' ∈ trim (stripComment raw)
      rw [hline]
      simp [hmem]
    · obtain ⟨setting, hsetting, h⟩ := bind_eq_ok.mp h
      cases h
      refine ⟨hst.parts, ?_⟩
      intro setting' hmem
      rcases mem_append.mp hmem with hmem | hmem
      · exact hst.settings setting' hmem
      · cases mem_singleton.mp hmem
        exact named_of_parseKeyValue hst.parts hsetting

lemma named_set (hcfg : cfg.Named) (hsetting : setting.Named) : (cfg.set setting).Named := by
  cases setting with
  | remote name url =>
    refine ⟨?_, hcfg.job⟩
    intro e he
    rcases mem_mapInsert he with rfl | he
    · exact hsetting
    · exact hcfg.remote e he
  | ciJobMode job mode =>
    refine ⟨hcfg.remote, ?_⟩
    intro e he
    rcases mem_mapInsert he with rfl | he
    · exact hsetting
    · exact hcfg.job e he
  | _ => exact ⟨hcfg.remote, hcfg.job⟩

/-- The names that the parser finds. -/
lemma named_of_parse {bytes : Bytes} (h : parse bytes = .ok cfg) : cfg.Named := by
  obtain ⟨settings, hsettings, h⟩ := bind_eq_ok.mp h
  cases h
  obtain ⟨text, -, hsettings⟩ := bind_eq_ok.mp hsettings
  obtain ⟨st, hst, hsettings⟩ := bind_eq_ok.mp hsettings
  cases hsettings
  have hparsed : st.Named := by
    have hinv : (∀ l ∈ [] ++ lines text, '\n' ∉ l) → st.Named := by
      refine foldlM_invariant (fun st done => (∀ l ∈ done, '\n' ∉ l) → st.Named) ?_ ?_ hst
      · intro st done raw st' hst hstep hdone
        exact named_of_parseLine (hdone raw (by simp)) (hst fun l hl => hdone l (by simp [hl]))
          hstep
      · intro _
        constructor
        · intro s name h
          cases h
        · intro setting h
          cases h
    exact hinv fun l hl => newline_notMem_of_mem_lines hl
  have hfold : ∀ (settings : List Setting) (cfg : Config), cfg.Named →
      (∀ setting ∈ settings, setting.Named) → (settings.foldl set cfg).Named := by
    intro settings
    induction settings with
    | nil => exact fun _ hcfg _ => hcfg
    | cons setting settings ih =>
      intro cfg hcfg hall
      obtain ⟨hsetting, hrest⟩ := forall_mem_cons.mp hall
      exact ih _ (named_set hcfg hsetting) hrest
  exact hfold st.settings default ⟨nofun, nofun⟩ hparsed.settings

/-- A configuration is read back exactly if the parser can find its names and read its values. -/
theorem parse_write (t : DebugTables) (cfg : Config) :
    parse (cfg.write t) = .ok cfg ↔ cfg.Named ∧ QuotableValues t cfg := by
  constructor
  · intro h
    have hnamed := named_of_parse h
    exact ⟨hnamed, ((parse_write_of_names hnamed.remote hnamed.job).mp h).1⟩
  · rintro ⟨hnamed, hvalues⟩
    exact (parse_write_of_names hnamed.remote hnamed.job).mpr ⟨hvalues, rfl⟩

end Parsed

end Config

end Gyt
