import Gyt.Metadata.Toml

/-!
# Values in metadata blobs

The encoders of `issues.rs`, `prs.rs` and `incidents.rs` print texts with the `{:?}` form of the
standard library, which escapes more characters than the decoders know.  A text or an array of texts
is read back exactly if no character is printed as a `\u` escape (`parseTomlString_debugStr`,
`parseTomlStringArray_eq_ok`); a map moreover needs keys without an equals sign
(`parseTomlStringMap_eq_ok`).
-/

namespace Gyt.Toml

open Text List

/-! ## Texts -/

/-- The tables of the standard library that decide how a character is printed with `{:?}`. -/
structure DebugTables where
  isPrintable : Char → Bool
  isGraphemeExtended : Char → Bool
  /-- The characters from the blank to the tilde are printed as they are. -/
  ascii : ∀ c : Char, 0x20 ≤ c.toNat → c.toNat < 0x7f →
    isPrintable c = true ∧ isGraphemeExtended c = false

/-- The letter of the escape of a character that has one. -/
def escapeLetter (c : Char) : Option Char :=
  if c = '\x00' then some '0'
  else if c = '\t' then some 't'
  else if c = '\r' then some 'r'
  else if c = '\n' then some 'n'
  else if c = '"' then some '"'
  else if c = '\\' then some '\\'
  else none

variable (t : DebugTables)

/-- Whether a character is printed as a `\u` escape. -/
def unicodeEscaped (c : Char) : Bool :=
  (escapeLetter c).isNone && (t.isGraphemeExtended c || !t.isPrintable c)

/-- How a character of a text is printed. -/
def debugChar (c : Char) : Str :=
  match escapeLetter c with
  | some d => ['\\', d]
  | none =>
    if t.isGraphemeExtended c || !t.isPrintable c then
      '\\' :: 'u' :: '\x7b' :: Nat.toDigits 16 c.toNat ++ ['\x7d']
    else [c]

/-- How a text is printed. -/
def debugStr (s : Str) : Str := '"' :: s.flatMap (debugChar t) ++ ['"']

/-- Whether no character of a text is printed as a `\u` escape. -/
def Plain (s : Str) : Prop := ∀ c ∈ s, unicodeEscaped t c = false

instance (s : Str) : Decidable (Plain t s) := List.decidableBAll _ _

variable {t}

lemma unescapeChar_of_escapeLetter {c d : Char} (h : escapeLetter c = some d) :
    unescapeChar d = some c := by
  unfold escapeLetter at h
  split_ifs at h with h₁ h₂ h₃ h₄ h₅ h₆ <;> cases h <;> first | (subst c; rfl)

/-- The text of a `\u` escape after its backslash. -/
lemma unicode_digits {c d : Char} (h : d ∈ Nat.toDigits 16 c.toNat) :
    d ∈ "0123456789abcdef".toList := by
  obtain ⟨n, hn, rfl⟩ := exists_of_mem_toDigits (by decide) h
  interval_cases n <;> decide

/-- The three ways to print a character. -/
lemma debugChar_cases (t : DebugTables) (c : Char) :
    (∃ d, debugChar t c = ['\\', d] ∧ unescapeChar d = some c ∧ unicodeEscaped t c = false) ∨
    (∃ digits, debugChar t c = '\\' :: 'u' :: '\x7b' :: digits ++ ['\x7d'] ∧
      (∀ d ∈ digits, d ∈ "0123456789abcdef".toList) ∧ unicodeEscaped t c = true) ∨
    (debugChar t c = [c] ∧ escapeLetter c = none ∧ unicodeEscaped t c = false) := by
  unfold debugChar unicodeEscaped
  cases hesc : escapeLetter c with
  | some d => exact .inl ⟨d, rfl, unescapeChar_of_escapeLetter hesc, rfl⟩
  | none =>
    dsimp only
    split_ifs with htable
    · exact .inr (.inl ⟨_, rfl, fun d hd => unicode_digits hd, by simpa using htable⟩)
    · exact .inr (.inr ⟨rfl, rfl, by simpa using htable⟩)

/-- The text of a `\u` escape has no backslash and no quote after the first two characters. -/
lemma ne_of_mem_braces {digits : Str} (hdigits : ∀ d ∈ digits, d ∈ "0123456789abcdef".toList)
    {d : Char} (hd : d ∈ '\x7b' :: digits ++ ['\x7d']) : d ≠ '\\' ∧ d ≠ '"' := by
  rw [cons_append, mem_cons, mem_append, mem_singleton] at hd
  rcases hd with rfl | hd | rfl
  · decide
  · have hlist : ("0123456789abcdef".toList.all fun d => d ≠ '\\' && d ≠ '"') = true := by decide
    simpa using all_eq_true.mp hlist d (hdigits d hd)
  · decide

/-- A character that is in no escape is printed as itself only. -/
lemma eq_of_mem_debugChar {c d : Char} (hd : d ∉ "\\u\x7b0123456789abcdef\x7d".toList)
    (hletter : unescapeChar d = none) (h : d ∈ debugChar t c) : d = c ∧ escapeLetter c = none := by
  rcases debugChar_cases t c with ⟨e, heq, he, -⟩ | ⟨digits, heq, hdigits, -⟩ | ⟨heq, hesc, -⟩
  · rw [heq, mem_cons, mem_singleton] at h
    rcases h with rfl | rfl
    · exact absurd (by decide) hd
    · cases hletter.symm.trans he
  · have hsub : '\\' :: 'u' :: '\x7b' :: digits ++ ['\x7d'] ⊆
        "\\u\x7b0123456789abcdef\x7d" := by
      have hhex : "0123456789abcdef".toList ⊆ "\\u\x7b0123456789abcdef\x7d".toList := by decide
      simpa using Subset.trans hdigits hhex
    exact absurd (hsub (heq ▸ h)) hd
  · rw [heq, mem_singleton] at h
    exact ⟨h, hesc⟩

/-- A character without an escape letter is no backslash, quote or line end. -/
lemma ne_of_escapeLetter {c : Char} (h : escapeLetter c = none) :
    c ≠ '\\' ∧ c ≠ '"' ∧ c ≠ '\n' ∧ c ≠ '\r' := by
  refine ⟨?_, ?_, ?_, ?_⟩ <;> rintro rfl <;> exact absurd h (by decide)

section Texts

variable {blob : String} {s r : Str}

@[simp] lemma plain_nil : Plain t [] := nofun

lemma plain_cons {c : Char} : Plain t (c :: s) ↔ unicodeEscaped t c = false ∧ Plain t s :=
  forall_mem_cons

/-- What was printed is read back exactly if no character was printed as a `\u` escape. -/
lemma unescape_flatMap : unescape blob (s.flatMap (debugChar t)) = .ok r ↔ Plain t s ∧ r = s := by
  induction s generalizing r with
  | nil =>
    rw [flatMap_nil, unescape, Except.ok.injEq, and_iff_right plain_nil, eq_comm]
  | cons c s ih =>
    have hcons : ((c :: ·) <$> unescape blob (s.flatMap (debugChar t)) = .ok r) ↔
        Plain t s ∧ r = c :: s := by
      rw [map_eq_ok]
      constructor
      · rintro ⟨r', hr', rfl⟩
        obtain ⟨hs, rfl⟩ := ih.mp hr'
        exact ⟨hs, rfl⟩
      · rintro ⟨hs, rfl⟩
        exact ⟨s, ih.mpr ⟨hs, rfl⟩, rfl⟩
    rw [flatMap_cons, plain_cons, and_assoc]
    rcases debugChar_cases t c with
      ⟨d, hc, hd, hplain⟩ | ⟨digits, hc, -, hplain⟩ | ⟨hc, hesc, hplain⟩
    · rw [hc, cons_append, cons_append, nil_append, unescape, if_pos rfl, hd, and_iff_right hplain]
      exact hcons
    · rw [hc, hplain]
      simp only [cons_append, unescape, if_true]
      exact ⟨nofun, nofun⟩
    · rw [hc, singleton_append, unescape.eq_def, and_iff_right hplain]
      dsimp only
      rw [if_neg (ne_of_escapeLetter hesc).1]
      exact hcons

/-- Text in brackets that do not count as whitespace is not trimmed. -/
lemma trim_bracketed {a b : Char} (ha : isWhitespace a = false) (hb : isWhitespace b = false)
    (l : Str) : trim (a :: l ++ [b]) = a :: l ++ [b] := by
  refine trim_eq_self_of_ends (fun c hc => ?_) fun c hc => ?_
  · cases hc
    exact ha
  · rw [getLast?_append] at hc
    cases hc
    exact hb

lemma inner_bracketed (a b : Char) (l : Str) : inner (a :: l ++ [b]) = l := by
  rw [inner, cons_append, tail_cons, dropLast_concat]

lemma getLast?_bracketed (a b : Char) (l : Str) : (a :: l ++ [b]).getLast? = some b := by
  rw [getLast?_append]
  rfl

lemma debugStr_ne_nil (t : DebugTables) (s : Str) : debugStr t s ≠ [] := cons_ne_nil _ _

lemma trim_debugStr (t : DebugTables) (s : Str) : trim (debugStr t s) = debugStr t s :=
  trim_bracketed (by decide) (by decide) _

/-- A printed text is read back exactly if it is plain. -/
theorem parseTomlString_debugStr :
    parseTomlString blob (debugStr t s) = .ok r ↔ Plain t s ∧ r = s := by
  have hquoted : ¬((Utf8.encode (debugStr t s)).length < 2 ∨ (debugStr t s).head? ≠ some '"' ∨
      (debugStr t s).getLast? ≠ some '"') := by
    have hlen : 2 ≤ (debugStr t s).length := by simp [debugStr]
    have hbytes := Utf8.length_le_length_encode (debugStr t s)
    rw [show (debugStr t s).getLast? = some '"' from getLast?_bracketed _ _ _]
    simp only [debugStr, cons_append, head?_cons, not_or, not_not, Nat.not_lt, and_true]
    exact hlen.trans hbytes
  have hinner : inner (debugStr t s) = s.flatMap (debugChar t) := inner_bracketed _ _ _
  rw [parseTomlString, trim_debugStr, ensure, if_pos hquoted, ok_bind, hinner, unescape_flatMap]

end Texts

/-! ## Arrays -/

/-- The parts with commas between them. -/
def joined (parts : List Str) : Str := List.intercalate ", " parts

/-- How an array of texts is written. -/
def tomlStringArray (t : DebugTables) (xs : List Str) : Str :=
  if xs = [] then "[]" else '[' :: joined (xs.map (debugStr t)) ++ [']']

/-- How an array of numbers is written. -/
def tomlU64Array (xs : List ℕ) : Str :=
  if xs = [] then "[]" else '[' :: joined (xs.map Text.ofNat) ++ [']']

section Arrays

variable {blob : String} {x y : Str} {xs parts : List Str}

lemma joined_singleton (x : Str) : joined [x] = x := by simp [joined]

lemma joined_cons_cons (x y : Str) (parts : List Str) :
    joined (x :: y :: parts) = x ++ ',' :: ' ' :: joined (y :: parts) := by
  simp [joined, intercalate, intersperse]

lemma joined_ne_nil (hx : x ≠ []) (xs : List Str) : joined (x :: xs) ≠ [] := by
  cases xs with
  | nil => rwa [joined_singleton]
  | cons y ys => rw [joined_cons_cons]; simp

/-- A scan that meets only quoted characters. -/
lemma foldlM_arrayStep_of_quoted {l : Str} {st st' : Scan}
    (h : l.foldlM Scan.quoted st = some st') : l.foldlM (arrayStep blob) st = .ok st' := by
  induction l generalizing st with
  | nil =>
    cases h
    rfl
  | cons c l ih =>
    obtain ⟨st₁, hc, hl⟩ := Option.bind_eq_some_iff.mp h
    rw [foldlM_cons, arrayStep, hc]
    exact ih hl

lemma foldl_tableStep_of_quoted {l : Str} {st st' : Scan}
    (h : l.foldlM Scan.quoted st = some st') : l.foldl tableStep st = st' := by
  induction l generalizing st with
  | nil =>
    cases h
    rfl
  | cons c l ih =>
    obtain ⟨st₁, hc, hl⟩ := Option.bind_eq_some_iff.mp h
    rw [foldl_cons, tableStep, hc]
    exact ih hl

/-- Inside quotes, the characters up to the next quote or backslash are kept. -/
lemma foldlM_quoted_of_inner {l : Str} (h : ∀ c ∈ l, c ≠ '\\' ∧ c ≠ '"') (out : List Str)
    (buf : Str) : l.foldlM Scan.quoted ⟨out, buf, true, false⟩ =
      some ⟨out, buf ++ l, true, false⟩ := by
  induction l generalizing buf with
  | nil => simp
  | cons c l ih =>
    obtain ⟨⟨hback, hquote⟩, hl⟩ := forall_mem_cons.mp h
    have hstep : Scan.quoted ⟨out, buf, true, false⟩ c = some ⟨out, buf ++ [c], true, false⟩ := by
      simp [Scan.quoted, hback, hquote]
    rw [foldlM_cons, hstep]
    simpa using ih hl (buf ++ [c])

lemma foldlM_quoted_debugChar (t : DebugTables) (c : Char) (out : List Str) (buf : Str) :
    (debugChar t c).foldlM Scan.quoted ⟨out, buf, true, false⟩ =
      some ⟨out, buf ++ debugChar t c, true, false⟩ := by
  have hescape : ∀ d, ['\\', d].foldlM Scan.quoted ⟨out, buf, true, false⟩ =
      some ⟨out, buf ++ ['\\', d], true, false⟩ := fun d => by simp [Scan.quoted]
  rcases debugChar_cases t c with ⟨d, hc, -⟩ | ⟨digits, hc, hdigits, -⟩ | ⟨hc, hesc, -⟩
  · rw [hc, hescape]
  · rw [hc, show '\\' :: 'u' :: '\x7b' :: digits ++ ['\x7d'] =
        ['\\', 'u'] ++ ('\x7b' :: digits ++ ['\x7d']) from rfl, foldlM_append, hescape]
    exact (foldlM_quoted_of_inner (fun _ => ne_of_mem_braces hdigits) out _).trans
      (by rw [append_assoc])
  · rw [hc]
    refine foldlM_quoted_of_inner (fun d hd => ?_) out buf
    obtain ⟨hback, hquote, -⟩ := ne_of_escapeLetter hesc
    rw [mem_singleton.mp hd]
    exact ⟨hback, hquote⟩

lemma foldlM_quoted_flatMap (t : DebugTables) (s : Str) (out : List Str) (buf : Str) :
    (s.flatMap (debugChar t)).foldlM Scan.quoted ⟨out, buf, true, false⟩ =
      some ⟨out, buf ++ s.flatMap (debugChar t), true, false⟩ := by
  induction s generalizing buf with
  | nil => simp
  | cons c s ih =>
    rw [flatMap_cons, foldlM_append, foldlM_quoted_debugChar]
    exact (ih _).trans (by rw [append_assoc])

/-- A scan collects a printed text as a whole. -/
lemma foldlM_quoted_debugStr (t : DebugTables) (s : Str) (out : List Str) (buf : Str) :
    (debugStr t s).foldlM Scan.quoted ⟨out, buf, false, false⟩ =
      some ⟨out, buf ++ debugStr t s, false, false⟩ := by
  have hopen : Scan.quoted ⟨out, buf, false, false⟩ '"' =
      some ⟨out, buf ++ ['"'], true, false⟩ := by simp [Scan.quoted]
  have hclose : ∀ buf', Scan.quoted ⟨out, buf', true, false⟩ '"' =
      some ⟨out, buf' ++ ['"'], false, false⟩ := fun buf' => by simp [Scan.quoted]
  rw [debugStr, cons_append, foldlM_cons, hopen]
  simp only [Option.bind_eq_bind, Option.bind_some, foldlM_append, foldlM_quoted_flatMap,
    foldlM_cons, hclose, foldlM_nil]
  simp

/-- A comma ends the text that the scan of an array has collected. -/
lemma arrayStep_comma {st : Scan} {out : List Str} :
    arrayStep blob ⟨out, debugStr t x, false, false⟩ ',' = .ok st ↔
      Plain t x ∧ st = ⟨out ++ [x], [], false, false⟩ := by
  have hquoted : Scan.quoted ⟨out, debugStr t x, false, false⟩ ',' = none := by simp [Scan.quoted]
  rw [arrayStep, hquoted]
  dsimp only
  rw [if_pos rfl, trim_debugStr, bind_eq_ok]
  simp only [parseTomlString_debugStr]
  constructor
  · rintro ⟨_, ⟨hx, rfl⟩, h⟩
    exact ⟨hx, (Except.ok.inj h).symm⟩
  · rintro ⟨hx, rfl⟩
    exact ⟨x, ⟨hx, rfl⟩, rfl⟩

lemma arrayStep_space (out : List Str) :
    arrayStep blob ⟨out, [], false, false⟩ ' ' = .ok ⟨out, [], false, false⟩ := by
  simp [arrayStep, Scan.quoted, show isWhitespace ' ' = true by decide]

/-- The scan of an array collects all texts but the last one, which it has left in its buffer. -/
lemma foldlM_arrayStep_joined {st : Scan} {out : List Str} :
    (joined ((xs ++ [x]).map (debugStr t))).foldlM (arrayStep blob) ⟨out, [], false, false⟩ =
      .ok st ↔ (∀ s ∈ xs, Plain t s) ∧ st = ⟨out ++ xs, debugStr t x, false, false⟩ := by
  have hscan : ∀ s out, (debugStr t s).foldlM (arrayStep blob) ⟨out, [], false, false⟩ =
      .ok ⟨out, debugStr t s, false, false⟩ := fun s out =>
    foldlM_arrayStep_of_quoted (foldlM_quoted_debugStr t s out [])
  induction xs generalizing out with
  | nil =>
    rw [nil_append, map_singleton, joined_singleton, hscan, Except.ok.injEq,
      append_nil, and_iff_right nofun, eq_comm]
  | cons y ys ih =>
    obtain ⟨z, zs, hz⟩ := exists_cons_of_ne_nil (show (ys ++ [x]).map (debugStr t) ≠ [] by simp)
    rw [cons_append, map_cons, hz, joined_cons_cons, foldlM_append, hscan, ok_bind,
      foldlM_cons, bind_eq_ok, ← hz]
    simp only [arrayStep_comma, foldlM_cons, forall_mem_cons]
    constructor
    · rintro ⟨_, ⟨hy, rfl⟩, hrest⟩
      rw [arrayStep_space, ok_bind] at hrest
      obtain ⟨hys, hst⟩ := ih.mp hrest
      exact ⟨⟨hy, hys⟩, by rw [hst, append_assoc, singleton_append]⟩
    · rintro ⟨⟨hy, hys⟩, rfl⟩
      refine ⟨_, ⟨hy, rfl⟩, ?_⟩
      rw [arrayStep_space, ok_bind]
      exact ih.mpr ⟨hys, by rw [append_assoc, singleton_append]⟩

/-- An array is read back exactly if its texts are plain. -/
theorem parseTomlStringArray_eq_ok {r : List Str} :
    parseTomlStringArray blob (tomlStringArray t xs) = .ok r ↔ (∀ s ∈ xs, Plain t s) ∧ r = xs := by
  rcases eq_nil_or_concat xs with rfl | ⟨ys, y, rfl⟩
  · have hnil : parseTomlStringArray blob (tomlStringArray t []) = .ok [] := rfl
    rw [hnil, Except.ok.injEq, and_iff_right nofun, eq_comm]
  · rw [concat_eq_append]
    have htext : tomlStringArray t (ys ++ [y]) =
        '[' :: joined ((ys ++ [y]).map (debugStr t)) ++ [']'] := if_neg (by simp)
    have hlist : '[' :: joined ((ys ++ [y]).map (debugStr t)) ++ [']'] ≠ ['[', ']'] := by
      obtain ⟨z, zs, hz⟩ := exists_cons_of_ne_nil (show ys ++ [y] ≠ [] by simp)
      rw [hz]
      simpa using joined_ne_nil (debugStr_ne_nil t z) (zs.map (debugStr t))
    rw [parseTomlStringArray, htext, trim_bracketed (by decide) (by decide), if_neg hlist,
      getLast?_bracketed, inner_bracketed, ensure, if_pos (by simp), ok_bind, bind_eq_ok]
    simp only [foldlM_arrayStep_joined, nil_append, forall_mem_append, forall_mem_singleton]
    have hbuf : trim (debugStr t y) ≠ [] := by rw [trim_debugStr]; exact debugStr_ne_nil t y
    constructor
    · rintro ⟨_, ⟨hys, rfl⟩, h⟩
      rw [if_neg hbuf, trim_debugStr, bind_eq_ok] at h
      obtain ⟨z, hz, hr⟩ := h
      obtain ⟨hy, rfl⟩ := parseTomlString_debugStr.mp hz
      exact ⟨⟨hys, hy⟩, (Except.ok.inj hr).symm⟩
    · rintro ⟨⟨hys, hy⟩, rfl⟩
      refine ⟨_, ⟨hys, rfl⟩, ?_⟩
      rw [if_neg hbuf, trim_debugStr, parseTomlString_debugStr.mpr ⟨hy, rfl⟩]
      rfl

/-- The parts between the commas, with the blank that follows a comma. -/
lemma split_joined (h : ∀ p ∈ x :: xs, ',' ∉ p) :
    split ',' (joined (x :: xs)) = x :: xs.map (' ' :: ·) := by
  induction xs generalizing x with
  | nil => rw [joined_singleton, split_of_notMem (h x mem_cons_self), map_nil]
  | cons y ys ih =>
    obtain ⟨hx, hys⟩ := forall_mem_cons.mp h
    obtain ⟨l, ls, hsplit, hspace⟩ := split_cons_of_ne (show ' ' ≠ ',' by decide) (joined (y :: ys))
    rw [ih hys] at hsplit
    obtain ⟨rfl, rfl⟩ := cons.inj hsplit
    rw [joined_cons_cons, split_append_cons hx, hspace, map_cons]

/-- An array of numbers is read back. -/
lemma parseTomlU64Array_eq_ok {ns : List ℕ} (hns : ∀ n ∈ ns, n < 2 ^ 64) :
    parseTomlU64Array blob (tomlU64Array ns) = .ok ns := by
  cases ns with
  | nil => rfl
  | cons n ns =>
    have hcomma : ∀ p ∈ ofNat n :: ns.map ofNat, ',' ∉ p := by
      intro p hp hmem
      rw [← map_cons] at hp
      obtain ⟨n', -, rfl⟩ := mem_map.mp hp
      exact absurd (isDigit_of_mem_ofNat hmem) (by decide)
    have htrim : ((ofNat n :: (ns.map ofNat).map (' ' :: ·)).map trim) = (n :: ns).map ofNat := by
      simp only [map_cons, map_map, trim_ofNat, cons.injEq, true_and]
      refine map_congr_left fun n' _ => ?_
      rw [Function.comp, Function.comp, trim_cons_space (by decide), trim_ofNat]
    have hfilter : ((n :: ns).map ofNat).filter (· ≠ []) = (n :: ns).map ofNat := by
      refine filter_eq_self.mpr fun p hp => ?_
      obtain ⟨n', -, rfl⟩ := mem_map.mp hp
      exact decide_eq_true Nat.toDigits_ne_nil
    have hparse : ∀ ms : List ℕ, (∀ n ∈ ms, n < 2 ^ 64) → ((ms.map ofNat).mapM fun t =>
        okOr (parseU64 t) (invalid blob ["u64 in array"])) = .ok ms := by
      intro ms hms
      induction ms with
      | nil => rfl
      | cons m ms ih =>
        obtain ⟨hm, hms⟩ := forall_mem_cons.mp hms
        have hok : parseU64 (ofNat m) = some m := parseUnsigned_ofNat (by omega)
        rw [map_cons, mapM_cons, hok, ih hms]
        rfl
    have htext : tomlU64Array (n :: ns) = '[' :: joined (ofNat n :: ns.map ofNat) ++ [']'] := rfl
    have hlist : '[' :: joined (ofNat n :: ns.map ofNat) ++ [']'] ≠ ['[', ']'] := by
      have hne : joined (ofNat n :: ns.map ofNat) ≠ [] := joined_ne_nil Nat.toDigits_ne_nil _
      simpa using hne
    rw [parseTomlU64Array, htext, trim_bracketed (by decide) (by decide), if_neg hlist,
      getLast?_bracketed, inner_bracketed, ensure, if_pos (by simp), ok_bind, split_joined hcomma,
      htrim, hfilter, hparse _ hns]

end Arrays

/-! ## Tables -/

/-- How an entry of a map is written. -/
def entryText (t : DebugTables) (e : Str × Str) : Str :=
  debugStr t e.1 ++ " = " ++ debugStr t e.2

/-- How a map is written, in the order of its keys. -/
def tomlStringMap (t : DebugTables) (m : List (Str × Str)) : Str :=
  if m = [] then "\x7b\x7d"
  else "\x7b " ++ joined (m.map (entryText t)) ++ " \x7d"

section Tables

variable {blob : String} {k v s : Str} {m acc r : List (Str × Str)} {e : Str × Str}

/-- A printed text has an equals sign exactly if the text has one. -/
lemma eq_mem_flatMap : '=' ∈ s.flatMap (debugChar t) ↔ '=' ∈ s := by
  have hself : debugChar t '=' = ['='] := by
    obtain ⟨hprint, hext⟩ := t.ascii '=' (by decide) (by decide)
    rw [debugChar, show escapeLetter '=' = none from rfl]
    simp [hprint, hext]
  rw [mem_flatMap]
  refine ⟨?_, fun h => ⟨'=', h, by rw [hself]; exact mem_singleton_self _⟩⟩
  rintro ⟨c, hc, hmem⟩
  rwa [(eq_of_mem_debugChar (by decide) (by decide) hmem).1]

/-- A text that was cut right after a printed quote cannot be read, since the quote was escaped. -/
lemma unescape_ne_ok {p rest r : Str} (h : s.flatMap (debugChar t) = p ++ '"' :: rest) :
    unescape blob p ≠ .ok r := by
  induction s generalizing p r with
  | nil => simp at h
  | cons c s ih =>
    rw [flatMap_cons] at h
    rcases debugChar_cases t c with ⟨d, hc, -⟩ | ⟨digits, hc, -⟩ | ⟨hc, hesc, -⟩
    · rw [hc] at h
      match p with
      | [] => exact absurd (cons.inj h).1 (by decide)
      | [a] =>
        obtain ⟨rfl, -⟩ := cons.inj h
        rw [unescape]
        simp
      | a :: b :: p =>
        obtain ⟨rfl, htail⟩ := cons.inj h
        obtain ⟨rfl, hrest⟩ := cons.inj htail
        rw [unescape, if_pos rfl]
        cases unescapeChar d with
        | none => nofun
        | some e =>
          intro hr
          obtain ⟨r', hr', -⟩ := map_eq_ok.mp hr
          exact ih hrest hr'
    · rw [hc] at h
      match p with
      | [] => exact absurd (cons.inj h).1 (by decide)
      | [a] => exact absurd (cons.inj (cons.inj h).2).1 (by decide)
      | a :: b :: p =>
        obtain ⟨rfl, htail⟩ := cons.inj h
        obtain ⟨rfl, -⟩ := cons.inj htail
        rw [unescape, if_pos rfl]
        nofun
    · rw [hc] at h
      match p with
      | [] => exact absurd (cons.inj h).1 (ne_of_escapeLetter hesc).2.1
      | a :: p =>
        obtain ⟨rfl, htail⟩ := cons.inj h
        rw [unescape.eq_def]
        dsimp only
        rw [if_neg (ne_of_escapeLetter hesc).1]
        intro hr
        obtain ⟨r', hr', -⟩ := map_eq_ok.mp hr
        exact ih htail hr'

/-- What stands before an equals sign in a key is not a quoted string. -/
lemma parseTomlString_ne_ok (hs : k.flatMap (debugChar t) = s ++ v) {r : Str} :
    parseTomlString blob ('"' :: s) ≠ .ok r := by
  intro h
  obtain ⟨s', ⟨w, rfl⟩, htrim⟩ := exists_trim_cons (show isWhitespace '"' = false by decide) s
  rw [parseTomlString, htrim, bind_eq_ok] at h
  obtain ⟨_, hquoted, h⟩ := h
  rw [ensure_eq_ok, not_or, not_or, not_not, not_not] at hquoted
  obtain ⟨hlen, -, hlast⟩ := hquoted
  rcases eq_nil_or_concat s' with rfl | ⟨p, q, rfl⟩
  · exact hlen (by decide)
  · rw [concat_eq_append, ← cons_append, getLast?_append] at hlast
    obtain rfl := Option.some.inj hlast
    rw [concat_eq_append, ← cons_append, inner_bracketed] at h
    have hcut : k.flatMap (debugChar t) = p ++ '"' :: (w ++ v) := by
      rw [hs, concat_eq_append]
      simp
    exact unescape_ne_ok hcut h

/-- An entry is read back exactly if its texts are plain and its key has no equals sign: the entry
is cut at the first one, even within quotes. -/
lemma addEntry_eq_ok : addEntry blob acc (entryText t (k, v)) = .ok r ↔
    (Plain t k ∧ Plain t v ∧ '=' ∉ k) ∧ r = mapInsert k v acc := by
  by_cases hkey : '=' ∈ k
  · have hprinted : '=' ∈ k.flatMap (debugChar t) := eq_mem_flatMap.mpr hkey
    obtain ⟨s, rest, hs, hnotMem⟩ := eq_append_cons_of_mem hprinted
    have hsplit : splitOnce ['='] (entryText t (k, v)) = some ('"' :: s, rest ++
        '"' :: " = " ++ debugStr t v) := by
      have htext : entryText t (k, v) =
          ('"' :: s) ++ '=' :: (rest ++ '"' :: " = " ++ debugStr t v) := by
        simp [entryText, debugStr, hs]
      rw [htext, splitOnce_append_cons (by simpa using hnotMem)]
    obtain ⟨s', ⟨w, rfl⟩, htrim⟩ := exists_trim_cons (show isWhitespace '"' = false by decide) s
    rw [addEntry, hsplit, okOr, ok_bind]
    dsimp only
    rw [htrim, bind_eq_ok]
    constructor
    · rintro ⟨key, hparse, -⟩
      exact absurd hparse (parseTomlString_ne_ok (hs.trans (append_assoc _ _ _)))
    · rintro ⟨⟨-, -, hno⟩, -⟩
      exact absurd hkey hno
  · have hsplit : splitOnce ['='] (entryText t (k, v)) =
        some (debugStr t k ++ [' '], ' ' :: debugStr t v) := by
      have htext : entryText t (k, v) = (debugStr t k ++ [' ']) ++ '=' :: ' ' :: debugStr t v := by
        simp [entryText]
      have hnotMem : '=' ∉ debugStr t k ++ [' '] := by
        simpa [debugStr] using fun h => hkey (eq_mem_flatMap.mp h)
      rw [htext, splitOnce_append_cons hnotMem]
    rw [addEntry, hsplit, okOr, ok_bind]
    dsimp only
    rw [trim_append_space (by decide), trim_cons_space (by decide), trim_debugStr, trim_debugStr,
      bind_eq_ok]
    constructor
    · rintro ⟨key, hparse, h⟩
      obtain ⟨hk, rfl⟩ := parseTomlString_debugStr.mp hparse
      obtain ⟨val, hparse', hr⟩ := bind_eq_ok.mp h
      obtain ⟨hv, rfl⟩ := parseTomlString_debugStr.mp hparse'
      exact ⟨⟨hk, hv, hkey⟩, (Except.ok.inj hr).symm⟩
    · rintro ⟨⟨hk, hv, -⟩, rfl⟩
      refine ⟨k, parseTomlString_debugStr.mpr ⟨hk, rfl⟩, ?_⟩
      rw [parseTomlString_debugStr.mpr ⟨hv, rfl⟩]
      rfl

/-- Whether an entry of a map is read back. -/
def PlainEntry (t : DebugTables) (e : Str × Str) : Prop := Plain t e.1 ∧ Plain t e.2 ∧ '=' ∉ e.1

instance (t : DebugTables) (e : Str × Str) : Decidable (PlainEntry t e) :=
  inferInstanceAs (Decidable (_ ∧ _ ∧ _))

lemma foldlM_addEntry : (m.map (entryText t)).foldlM (addEntry blob) acc = .ok r ↔
    (∀ e ∈ m, PlainEntry t e) ∧ r = m.foldl (fun acc e => mapInsert e.1 e.2 acc) acc := by
  induction m generalizing acc with
  | nil =>
    rw [map_nil, foldlM_nil, foldl_nil, and_iff_right nofun]
    exact ⟨fun h => (Except.ok.inj h).symm, fun h => h ▸ rfl⟩
  | cons e m ih =>
    rw [map_cons, foldlM_cons, bind_eq_ok, forall_mem_cons, foldl_cons]
    constructor
    · rintro ⟨acc', hadd, h⟩
      obtain ⟨he, rfl⟩ := addEntry_eq_ok.mp hadd
      obtain ⟨hm, hr⟩ := ih.mp h
      exact ⟨⟨he, hm⟩, hr⟩
    · rintro ⟨⟨he, hm⟩, rfl⟩
      exact ⟨_, addEntry_eq_ok.mpr ⟨he, rfl⟩, ih.mpr ⟨hm, rfl⟩⟩

lemma tableStep_of_ne {c : Char} (hquote : c ≠ '"') (hcomma : c ≠ ',') (out : List Str)
    (buf : Str) : tableStep ⟨out, buf, false, false⟩ c = ⟨out, buf ++ [c], false, false⟩ := by
  simp [tableStep, Scan.quoted, hquote, hcomma]

/-- The scan of a table collects an entry as a whole. -/
lemma foldl_tableStep_entryText (t : DebugTables) (e : Str × Str) (out : List Str) (buf : Str) :
    (entryText t e).foldl tableStep ⟨out, buf, false, false⟩ =
      ⟨out, buf ++ entryText t e, false, false⟩ := by
  have hscan : ∀ s buf, (debugStr t s).foldl tableStep ⟨out, buf, false, false⟩ =
      ⟨out, buf ++ debugStr t s, false, false⟩ := fun s buf =>
    foldl_tableStep_of_quoted (foldlM_quoted_debugStr t s out buf)
  have hequals : ∀ buf, " = ".toList.foldl tableStep ⟨out, buf, false, false⟩ =
      ⟨out, buf ++ " = ", false, false⟩ := fun buf => by
    simp [tableStep, Scan.quoted]
  rw [entryText, foldl_append, foldl_append, hscan, hequals, hscan]
  simp

lemma trim_entryText (t : DebugTables) (e : Str × Str) :
    trim (entryText t e) = entryText t e := by
  rw [entryText, debugStr, debugStr]
  simpa using trim_bracketed (show isWhitespace '"' = false by decide)
    (show isWhitespace '"' = false by decide)
    (e.1.flatMap (debugChar t) ++ '"' :: " = " ++ '"' :: e.2.flatMap (debugChar t))

lemma entryText_ne_nil (t : DebugTables) (e : Str × Str) : entryText t e ≠ [] := by
  simp [entryText, debugStr]

/-- The scan of a table collects all entries but the last one, which it has left in its buffer. -/
lemma foldl_tableStep_joined (out : List Str) :
    (joined ((m ++ [e]).map (entryText t))).foldl tableStep ⟨out, [' '], false, false⟩ =
      ⟨out ++ m.map (entryText t), ' ' :: entryText t e, false, false⟩ := by
  induction m generalizing out with
  | nil =>
    rw [nil_append, map_singleton, joined_singleton, foldl_tableStep_entryText]
    simp
  | cons e' m ih =>
    have hcomma : tableStep ⟨out, ' ' :: entryText t e', false, false⟩ ',' =
        ⟨out ++ [entryText t e'], [], false, false⟩ := by
      have htrim : trim (' ' :: entryText t e') = entryText t e' := by
        rw [trim_cons_space (by decide), trim_entryText]
      simp [tableStep, Scan.quoted, htrim, entryText_ne_nil]
    obtain ⟨z, zs, hz⟩ := exists_cons_of_ne_nil (show (m ++ [e]).map (entryText t) ≠ [] by simp)
    rw [cons_append, map_cons, hz, joined_cons_cons, foldl_append,
      foldl_tableStep_entryText, foldl_cons, singleton_append, hcomma, foldl_cons,
      tableStep_of_ne (by decide) (by decide), nil_append, ← hz, ih]
    simp

/-- A map is read back exactly if its texts are plain and no key has an equals sign. -/
theorem parseTomlStringMap_eq_ok (hm : m.Pairwise fun a b => a.1 < b.1) :
    parseTomlStringMap blob (tomlStringMap t m) = .ok r ↔ (∀ e ∈ m, PlainEntry t e) ∧ r = m := by
  rcases eq_nil_or_concat m with rfl | ⟨m', e, rfl⟩
  · have hnil : parseTomlStringMap blob (tomlStringMap t []) = .ok [] := rfl
    rw [hnil, Except.ok.injEq, and_iff_right nofun, eq_comm]
  · rw [concat_eq_append] at hm ⊢
    have htext : tomlStringMap t (m' ++ [e]) = '\x7b' ::
        (' ' :: joined ((m' ++ [e]).map (entryText t)) ++ [' ']) ++ ['\x7d'] := by
      rw [tomlStringMap, if_neg (by simp)]
      simp
    have hscan : (' ' :: joined ((m' ++ [e]).map (entryText t)) ++ [' ']).foldl tableStep
        ⟨[], [], false, false⟩ =
        ⟨m'.map (entryText t), ' ' :: entryText t e ++ [' '], false, false⟩ := by
      have hopen : (' ' :: joined ((m' ++ [e]).map (entryText t))).foldl tableStep
          ⟨[], [], false, false⟩ = ⟨m'.map (entryText t), ' ' :: entryText t e, false, false⟩ := by
        rw [foldl_cons, tableStep_of_ne (by decide) (by decide)]
        exact foldl_tableStep_joined []
      rw [foldl_append, hopen, foldl_cons, foldl_nil, tableStep_of_ne (by decide) (by decide)]
    have hbuf : trim (' ' :: entryText t e ++ [' ']) = entryText t e := by
      rw [trim_append_space (by decide), trim_cons_space (by decide), trim_entryText]
    have hparse : parseTomlStringMap blob (tomlStringMap t (m' ++ [e])) =
        ((m' ++ [e]).map (entryText t)).foldlM (addEntry blob) [] := by
      rw [parseTomlStringMap, htext, trim_bracketed (by decide) (by decide), if_neg (by simp),
        getLast?_bracketed, inner_bracketed, ensure, if_pos (by simp), ok_bind, hscan]
      dsimp only
      rw [hbuf, if_neg (entryText_ne_nil t e), map_append, map_singleton]
    rw [hparse, foldlM_addEntry, foldl_mapInsert (by simpa using hm), nil_append]

end Tables

end Gyt.Toml
