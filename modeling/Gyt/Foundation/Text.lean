import Mathlib

/-!
# Text as lists of characters

The string operations of the Rust standard library that the modelled code uses, on a text given as
the list of its Unicode scalar values.  Operations that do not depend on characters are stated for
lists over any type with decidable equality.

Every operation recurses structurally, so that it can be evaluated on a concrete text.
-/

namespace Gyt

open List Nat

/-- A text is written as a string. -/
instance coeText : Coe String (List Char) := ⟨String.toList⟩

namespace Text

variable {α : Type*} [DecidableEq α]

/-! ## Prefixes and splitting -/

/-- Rust's `str::strip_prefix`: what follows `pre`, if the text starts with it. -/
def stripPrefix (pre s : List α) : Option (List α) := pre.isPrefixOf? s

/-- Rust's `str::split_once`: the text before and after the first occurrence of the separator. -/
def splitOnce (sep : List α) : List α → Option (List α × List α)
  | [] => if sep = [] then some ([], []) else none
  | c :: s =>
    match stripPrefix sep (c :: s) with
    | some rest => some ([], rest)
    | none => (splitOnce sep s).map fun p => (c :: p.1, p.2)

/-- Rust's `str::split` at a single character: never empty, and one longer than the occurrences. -/
def split (c : α) : List α → List (List α)
  | [] => [[]]
  | d :: s =>
    if d = c then [] :: split c s
    else match split c s with
      | [] => [[d]]
      | l :: ls => (d :: l) :: ls

/-- Rust's `str::splitn`: at most `n` parts, the last one holding the unsplit rest. -/
def splitn (c : α) : ℕ → List α → List (List α)
  | 0, _ => []
  | 1, s => [s]
  | n + 2, s =>
    match splitOnce [c] s with
    | some (l, rest) => l :: splitn c (n + 1) rest
    | none => [s]

/-- Rust's `str::split_inclusive` at a single character: the parts keep their terminator, and a
final part is present only if it is not empty. -/
def splitInclusive (c : α) : List α → List (List α)
  | [] => []
  | d :: s =>
    if d = c then [d] :: splitInclusive c s
    else match splitInclusive c s with
      | [] => [[d]]
      | l :: ls => (d :: l) :: ls

/-- Rust's `str::strip_suffix` for a single character. -/
def stripSuffixChar (c : α) (s : List α) : Option (List α) :=
  if s.getLast? = some c then some s.dropLast else none

/-- A line without the carriage return at its end. -/
def stripCr (s : List Char) : List Char := (stripSuffixChar '\r' s).getD s

/-- What `str::lines` makes of one part: a terminating `\n` goes, and with it a `\r` before it. -/
def stripEol (s : List Char) : List Char :=
  match stripSuffixChar '\n' s with
  | none => s
  | some l => stripCr l

/-- Rust's `str::lines`. -/
def lines (s : List Char) : List (List Char) := (splitInclusive '\n' s).map stripEol

section StripPrefix

variable {pre s t : List α}

@[simp] lemma stripPrefix_append (pre s : List α) : stripPrefix pre (pre ++ s) = some s := by
  simp [stripPrefix]

/-- Stripping succeeds exactly on texts that start with the prefix. -/
lemma stripPrefix_eq_some_iff : stripPrefix pre s = some t ↔ s = pre ++ t := by
  rw [stripPrefix, isPrefixOf?_eq_some_iff_append_eq, eq_comm]

/-- A text with another first character does not start with the prefix. -/
lemma stripPrefix_cons_of_ne {c d : α} (h : c ≠ d) (pre s : List α) :
    stripPrefix (c :: pre) (d :: s) = none := by simp [stripPrefix, isPrefixOf?, h]

/-- A text does not start with a prefix that is incomparable with what it starts with. -/
lemma stripPrefix_append_eq_none {p q : List α} (h : ¬ p <+: q) (h' : ¬ q <+: p) (s : List α) :
    stripPrefix p (q ++ s) = none := by
  rw [Option.eq_none_iff_forall_ne_some]
  intro t ht
  have heq := stripPrefix_eq_some_iff.mp ht
  rcases prefix_or_prefix_of_prefix (prefix_append q s) ⟨t, heq.symm⟩ with hpre | hpre
  · exact h' hpre
  · exact h hpre

end StripPrefix

section SplitOnce

variable {c : α} {sep l s : List α}

/-- A separator found right at the start. -/
@[simp] lemma splitOnce_append {sep : List α} (hsep : sep ≠ []) (s : List α) :
    splitOnce sep (sep ++ s) = some ([], s) := by
  obtain ⟨c, sep, rfl⟩ := exists_cons_of_ne_nil hsep
  have h := stripPrefix_append (c :: sep) s
  rw [cons_append] at h ⊢
  rw [splitOnce, h]

/-- The search passes over characters that cannot start the separator. -/
lemma splitOnce_append_of_notMem (hl : c ∉ l) (s : List α) :
    splitOnce (c :: sep) (l ++ s) = (splitOnce (c :: sep) s).map fun p => (l ++ p.1, p.2) := by
  induction l with
  | nil => simp
  | cons d l ih =>
    rw [mem_cons, not_or] at hl
    rw [cons_append, splitOnce, stripPrefix_cons_of_ne hl.1, ih hl.2, Option.map_map]
    rfl

/-- A text is split at the first separator. -/
lemma splitOnce_append_cons (hl : c ∉ l) (s : List α) :
    splitOnce [c] (l ++ c :: s) = some (l, s) := by
  have hsep : splitOnce [c] (c :: s) = some ([], s) := splitOnce_append (cons_ne_nil c []) s
  rw [splitOnce_append_of_notMem hl, hsep, Option.map_some, append_nil]

lemma splitn_append_cons (hl : c ∉ l) (n : ℕ) (s : List α) :
    splitn c (n + 2) (l ++ c :: s) = l :: splitn c (n + 1) s := by
  rw [splitn, splitOnce_append_cons hl]

/-- The parts of a split make up the text. -/
lemma eq_of_splitOnce {a b : List α} (h : splitOnce sep s = some (a, b)) : s = a ++ sep ++ b := by
  induction s generalizing a with
  | nil =>
    by_cases hsep : sep = []
    · simp only [splitOnce, hsep, if_true] at h
      cases h
      simp [hsep]
    · simp [splitOnce, hsep] at h
  | cons d s ih =>
    rw [splitOnce] at h
    split at h
    · next rest hrest =>
      cases h
      simpa using stripPrefix_eq_some_iff.mp hrest
    · obtain ⟨⟨a', b'⟩, hab, heq⟩ := Option.map_eq_some_iff.mp h
      cases heq
      rw [cons_append, cons_append, ← ih hab]

lemma stripPrefix_eq_none_iff {pre : List α} : stripPrefix pre s = none ↔ ¬ pre <+: s := by
  rw [Option.eq_none_iff_forall_ne_some]
  constructor
  · rintro h ⟨t, rfl⟩
    exact h t (stripPrefix_append pre t)
  · rintro h t ht
    exact h ⟨t, (stripPrefix_eq_some_iff.mp ht).symm⟩

/-- A text is not split if the separator does not occur in it. -/
lemma splitOnce_eq_none_iff : splitOnce sep s = none ↔ ¬ sep <:+: s := by
  induction s with
  | nil => by_cases hsep : sep = [] <;> simp [splitOnce, hsep]
  | cons d s ih =>
    rw [splitOnce, infix_cons_iff, not_or, ← ih, ← stripPrefix_eq_none_iff]
    cases stripPrefix sep (d :: s) <;> simp

end SplitOnce

section Split

variable {c d : α} {s l : List α} {ls : List (List α)}

lemma split_eq_splitOn (c : α) (s : List α) : split c s = s.splitOn c := by
  induction s with
  | nil => rfl
  | cons d s ih =>
    rw [split, ih, splitOn, splitOn, splitOnP_cons_eq_if_modifyHead]
    obtain ⟨l, ls, hs⟩ := exists_cons_of_ne_nil (splitOnP_ne_nil (· == c) s)
    rw [hs]
    simp

lemma split_ne_nil (c : α) (s : List α) : split c s ≠ [] := by
  rw [split_eq_splitOn]
  exact splitOnP_ne_nil _ s

lemma split_cons_of_ne (h : d ≠ c) (s : List α) :
    ∃ l ls, split c s = l :: ls ∧ split c (d :: s) = (d :: l) :: ls := by
  obtain ⟨l, ls, hs⟩ := exists_cons_of_ne_nil (split_ne_nil c s)
  exact ⟨l, ls, hs, by rw [split, if_neg h, hs]⟩

/-- Splitting at the first separator. -/
lemma split_append_cons (hl : c ∉ l) (s : List α) : split c (l ++ c :: s) = l :: split c s := by
  rw [split_eq_splitOn, split_eq_splitOn]
  exact splitOnP_append_cons_of_forall_mem (p := (· == c))
    (fun d hd => beq_false_of_ne fun h => hl (h ▸ hd)) c (beq_self_eq_true c) s

/-- Splitting at any separator. -/
lemma split_append_sep (l s : List α) : split c (l ++ c :: s) = split c l ++ split c s := by
  simp only [split_eq_splitOn]
  exact splitOnP_append_cons l s (beq_self_eq_true c)

lemma split_of_notMem (hl : c ∉ l) : split c l = [l] := by
  rw [split_eq_splitOn]
  exact splitOnP_eq_singleton fun d hd => beq_false_of_ne fun h => hl (h ▸ hd)

omit [DecidableEq α] in
lemma intercalate_cons_cons (l l' : List α) (ls : List (List α)) :
    intercalate [c] (l :: l' :: ls) = l ++ c :: intercalate [c] (l' :: ls) := by
  simp [intercalate, intersperse]

/-- Parts without the separator are found again. -/
lemma split_intercalate (hne : ls ≠ []) (h : ∀ l ∈ ls, c ∉ l) :
    split c (intercalate [c] ls) = ls := by
  rw [split_eq_splitOn, splitOn_intercalate c h hne]

/-- The parts determine the text. -/
lemma intercalate_split (c : α) (s : List α) : intercalate [c] (split c s) = s := by
  rw [split_eq_splitOn, intercalate_splitOn]

lemma notMem_of_mem_split (h : l ∈ split c s) : c ∉ l := by
  induction s generalizing l with
  | nil =>
    rw [mem_singleton.mp h]
    exact not_mem_nil
  | cons d s ih =>
    by_cases hd : d = c
    · rw [split, if_pos hd] at h
      rcases mem_cons.mp h with rfl | h
      · exact not_mem_nil
      · exact ih h
    · obtain ⟨k, ls, hs, hcons⟩ := split_cons_of_ne hd s
      rw [hcons] at h
      rw [hs] at ih
      rcases mem_cons.mp h with rfl | h
      · rw [mem_cons, not_or]
        exact ⟨Ne.symm hd, ih mem_cons_self⟩
      · exact ih (mem_cons_of_mem _ h)

/-- What is not the separator is in a part exactly if it is in the text. -/
lemma mem_iff_exists_mem_split (hd : d ≠ c) : d ∈ s ↔ ∃ l ∈ split c s, d ∈ l := by
  induction s with
  | nil => simp [split]
  | cons e s ih =>
    by_cases he : e = c
    · rw [split, if_pos he, mem_cons, ih]
      simp [he, hd]
    · obtain ⟨k, ls, hs, hcons⟩ := split_cons_of_ne he s
      rw [hcons, mem_cons, ih, hs]
      simp only [mem_cons, exists_eq_or_imp, or_assoc]

end Split

section Lines

variable {l : List Char} {s : List Char}

/-- A terminated line is the first part. -/
lemma splitInclusive_append_cons {c : α} {l : List α} (hl : c ∉ l) (s : List α) :
    splitInclusive c (l ++ c :: s) = (l ++ [c]) :: splitInclusive c s := by
  induction l with
  | nil => simp [splitInclusive]
  | cons d l ih =>
    rw [mem_cons, not_or] at hl
    rw [cons_append, splitInclusive, if_neg (Ne.symm hl.1), ih hl.2]
    rfl

/-- A text without terminator is a single part. -/
lemma splitInclusive_of_notMem {c : α} {l : List α} (hl : c ∉ l) (hne : l ≠ []) :
    splitInclusive c l = [l] := by
  induction l with
  | nil => exact absurd rfl hne
  | cons d l ih =>
    rw [mem_cons, not_or] at hl
    rw [splitInclusive, if_neg (Ne.symm hl.1)]
    by_cases hl' : l = []
    · subst hl'; rfl
    · rw [ih hl.2 hl']

@[simp] lemma stripSuffixChar_append (c : α) (l : List α) :
    stripSuffixChar c (l ++ [c]) = some l := by simp [stripSuffixChar]

lemma stripEol_append_newline (l : List Char) : stripEol (l ++ ['\n']) = stripCr l := by
  simp [stripEol]

/-- The first line of a text. -/
lemma lines_append_cons (hl : '\n' ∉ l) (s : List Char) :
    lines (l ++ '\n' :: s) = stripCr l :: lines s := by
  rw [lines, splitInclusive_append_cons hl, map_cons, stripEol_append_newline]
  rfl

/-- A text without line end is a single line, carriage returns included. -/
lemma lines_of_notMem (hl : '\n' ∉ l) (hne : l ≠ []) : lines l = [l] := by
  have hlast : l.getLast? ≠ some '\n' := fun h => hl (mem_of_getLast? h)
  rw [lines, splitInclusive_of_notMem hl hne, map_singleton]
  simp [stripEol, stripSuffixChar, hlast]

/-- A part holds its terminator at most at its end. -/
lemma eq_of_mem_splitInclusive {c : α} {s p : List α} (h : p ∈ splitInclusive c s) :
    ∃ l, c ∉ l ∧ (p = l ∨ p = l ++ [c]) := by
  induction s generalizing p with
  | nil => simp [splitInclusive] at h
  | cons d s ih =>
    rw [splitInclusive] at h
    split_ifs at h with hd
    · rcases mem_cons.mp h with rfl | h
      · exact ⟨[], by simp, Or.inr (by simp [hd])⟩
      · exact ih h
    · split at h
      · cases mem_singleton.mp h
        exact ⟨[d], by simp [Ne.symm hd], Or.inl rfl⟩
      · next l ls hls =>
        rcases mem_cons.mp h with rfl | h
        · obtain ⟨m, hm, heq⟩ := ih (p := l) (by rw [hls]; exact mem_cons_self)
          refine ⟨d :: m, by simp [hm, Ne.symm hd], ?_⟩
          rcases heq with rfl | rfl
          · exact Or.inl rfl
          · exact Or.inr rfl
        · exact ih (by rw [hls]; exact mem_cons_of_mem _ h)

/-- Dropping a carriage return drops nothing else. -/
lemma stripCr_subset (l : List Char) : stripCr l ⊆ l := by
  unfold stripCr stripSuffixChar
  split_ifs
  · exact dropLast_subset l
  · exact fun _ h => h

/-- Lines hold no line ends. -/
lemma newline_notMem_of_mem_lines (h : l ∈ lines s) : '\n' ∉ l := by
  obtain ⟨p, hp, rfl⟩ := mem_map.mp h
  obtain ⟨m, hm, rfl | rfl⟩ := eq_of_mem_splitInclusive hp
  · have hlast : p.getLast? ≠ some '\n' := fun h => hm (mem_of_getLast? h)
    simpa [stripEol, stripSuffixChar, hlast] using hm
  · have heol : stripEol (m ++ ['\n']) = stripCr m := by simp [stripEol, stripSuffixChar]
    rw [heol]
    exact fun h => hm (stripCr_subset m h)

/-- A line that loses nothing does not end in a carriage return. -/
lemma getLast?_ne_of_stripCr_eq (h : stripCr l = l) : l.getLast? ≠ some '\r' := by
  intro hlast
  have hne : l ≠ [] := by rintro rfl; simp at hlast
  have hlen := congrArg length h
  simp only [stripCr, stripSuffixChar, hlast, if_true, Option.getD_some, length_dropLast] at hlen
  have := length_pos_of_ne_nil hne
  omega

lemma stripCr_of_getLast?_ne (h : l.getLast? ≠ some '\r') : stripCr l = l := by
  simp [stripCr, stripSuffixChar, h]

/-! ### Blocks of lines -/

/-- Every line followed by its line end. -/
def unlines (ls : List (List Char)) : List Char := ls.flatMap (· ++ ['\n'])

/-- The lines with line ends between them. -/
def joinLines : List (List Char) → List Char
  | [] => []
  | [l] => l
  | l :: ls => l ++ '\n' :: joinLines ls

@[simp] lemma unlines_cons (l : List Char) (ls : List (List Char)) :
    unlines (l :: ls) = l ++ '\n' :: unlines ls := by simp [unlines]

variable {ls : List (List Char)}

/-- The parts of a block are its lines with their line ends. -/
lemma splitInclusive_unlines (h : ∀ l ∈ ls, '\n' ∉ l) :
    splitInclusive '\n' (unlines ls) = ls.map (· ++ ['\n']) := by
  induction ls with
  | nil => rfl
  | cons l ls ih =>
    obtain ⟨hl, hls⟩ := forall_mem_cons.mp h
    rw [unlines_cons, splitInclusive_append_cons hl, ih hls, map_cons]

/-- The lines of a block, up to carriage returns. -/
lemma lines_unlines (h : ∀ l ∈ ls, '\n' ∉ l) : lines (unlines ls) = ls.map stripCr := by
  rw [lines, splitInclusive_unlines h, map_map]
  exact map_congr_left fun l _ => stripEol_append_newline l

/-- Only the last line end tells the two apart. -/
lemma joinLines_append_newline (hne : ls ≠ []) : joinLines ls ++ ['\n'] = unlines ls := by
  induction ls with
  | nil => exact absurd rfl hne
  | cons l ls ih =>
    cases ls with
    | nil => simp [joinLines, unlines]
    | cons l' ls =>
      rw [joinLines, unlines_cons, ← ih (by simp), append_assoc, cons_append]
      simp

/-- The blank line after a block of non-empty lines is where the block ends. -/
lemma splitOnce_unlines (hne : ls ≠ []) (hls : ∀ l ∈ ls, '\n' ∉ l ∧ l ≠ []) (s : List Char) :
    splitOnce ['\n', '\n'] (unlines ls ++ '\n' :: s) = some (joinLines ls, s) := by
  induction ls with
  | nil => exact absurd rfl hne
  | cons l ls ih =>
    have hl := hls l (by simp)
    rw [unlines_cons, append_assoc, splitOnce_append_of_notMem hl.1]
    cases ls with
    | nil =>
      have h := splitOnce_append (cons_ne_nil '\n' ['\n']) s
      simp only [cons_append, nil_append, unlines, flatMap_nil] at h ⊢
      rw [h]
      simp [joinLines]
    | cons l' ls =>
      -- The next line is not empty, so the line end before it does not start a blank line.
      have hrest := ih (by simp) (fun m hm => hls m (mem_cons_of_mem _ hm))
      obtain ⟨d, l', rfl⟩ := exists_cons_of_ne_nil (hls l' (by simp)).2
      have hd : '\n' ≠ d := fun h => (hls (d :: l') (by simp)).1 (h ▸ mem_cons_self)
      have hskip : stripPrefix ['\n', '\n'] ('\n' :: (unlines ((d :: l') :: ls) ++ '\n' :: s)) =
          none := by simp [stripPrefix, isPrefixOf?, hd]
      rw [cons_append, splitOnce, hskip, hrest]
      rfl

/-- The lines of a block. -/
lemma lines_joinLines (hls : ∀ l ∈ ls, '\n' ∉ l ∧ l ≠ []) :
    lines (joinLines ls) = ls.dropLast.map stripCr ++ ls.getLast?.toList := by
  induction ls with
  | nil => rfl
  | cons l ls ih =>
    have hl := hls l (by simp)
    cases ls with
    | nil => simpa [joinLines] using lines_of_notMem hl.1 hl.2
    | cons l' ls =>
      rw [joinLines, lines_append_cons hl.1, ih (fun m hm => hls m (mem_cons_of_mem _ hm))]
      · simp
      · simp

/-- A block whose lines keep their ends reads back as itself. -/
lemma lines_joinLines_eq (hls : ∀ l ∈ ls, '\n' ∉ l ∧ l ≠ [])
    (hcr : ∀ l ∈ ls.dropLast, l.getLast? ≠ some '\r') : lines (joinLines ls) = ls := by
  have hkeep : ls.dropLast.map stripCr = ls.dropLast := by
    rw [map_congr_left fun l hl => stripCr_of_getLast?_ne (hcr l hl), map_id']
  rw [lines_joinLines hls, hkeep]
  rcases eq_nil_or_concat ls with rfl | ⟨init, last, rfl⟩
  · rfl
  · simp

/-- Every entry of a list has a partner in a list that is related to it entry by entry. -/
lemma exists_mem_of_forall₂ {β γ : Type*} {R : β → γ → Prop} {xs : List β} {ys : List γ}
    (h : Forall₂ R xs ys) {x : β} (hx : x ∈ xs) : ∃ y ∈ ys, R x y := by
  induction h with
  | nil => simp at hx
  | cons hxy _ ih =>
    rcases mem_cons.mp hx with rfl | hx
    · exact ⟨_, mem_cons_self, hxy⟩
    · obtain ⟨y, hy, hR⟩ := ih hx
      exact ⟨y, mem_cons_of_mem _ hy, hR⟩

/-- A block that reads back as lines agreeing with its own keeps its line ends. -/
lemma forall_dropLast_of_forall₂ {R : List Char → List Char → Prop}
    (hls : ∀ l ∈ ls, '\n' ∉ l ∧ l ≠ []) (h : Forall₂ R ls (lines (joinLines ls))) :
    ∀ l ∈ ls.dropLast, R l (stripCr l) := by
  rw [lines_joinLines hls] at h
  clear hls
  induction ls with
  | nil => simp
  | cons l ls ih =>
    cases ls with
    | nil => simp
    | cons l' ls =>
      simp only [dropLast_cons_cons, map_cons, cons_append, forall₂_cons,
        getLast?_cons_cons, forall_mem_cons] at h ⊢
      exact ⟨h.1, ih h.2⟩

end Lines

/-! ## Trimming -/

/-- Rust's `char::is_whitespace`: the Unicode property `White_Space`. -/
def isWhitespace (c : Char) : Bool :=
  let n := c.toNat
  (0x09 ≤ n && n ≤ 0x0d) || n == 0x20 || n == 0x85 || n == 0xa0 || n == 0x1680 ||
    (0x2000 ≤ n && n ≤ 0x200a) || n == 0x2028 || n == 0x2029 || n == 0x202f || n == 0x205f ||
    n == 0x3000

/-- Rust's `str::trim_start`. -/
def trimStart (s : List Char) : List Char := s.dropWhile isWhitespace

/-- Rust's `str::trim_end`. -/
def trimEnd (s : List Char) : List Char := (s.reverse.dropWhile isWhitespace).reverse

/-- Rust's `str::trim`. -/
def trim (s : List Char) : List Char := trimEnd (trimStart s)

/-- Rust's `str::split_whitespace`. -/
def splitWhitespace (s : List Char) : List (List Char) :=
  (s.splitOnP isWhitespace).filter (· ≠ [])

/-- A list that was sorted with `Vec::sort` and `Vec::dedup`. -/
def sortDedup (l : List (List Char)) : List (List Char) :=
  (l.insertionSort (· ≤ ·)).destutter (· ≠ ·)

lemma dropWhile_eq_self {p : Char → Bool} {s : List Char}
    (hs : ∀ c, s.head? = some c → p c = false) : s.dropWhile p = s := by
  cases s with
  | nil => rfl
  | cons c s => rw [dropWhile_cons_of_neg (by rw [hs c rfl]; exact Bool.false_ne_true)]

/-- Trimming leaves a text as it is that neither starts nor ends with whitespace. -/
lemma trim_eq_self_of_ends {l : List Char}
    (hhead : ∀ c, l.head? = some c → isWhitespace c = false)
    (hlast : ∀ c, l.getLast? = some c → isWhitespace c = false) : trim l = l := by
  rw [trim, trimStart, dropWhile_eq_self hhead, trimEnd,
    dropWhile_eq_self (by simpa using hlast), reverse_reverse]

/-- Trimming leaves a text without whitespace as it is. -/
lemma trim_eq_self {l : List Char} (hl : ∀ c ∈ l, isWhitespace c = false) : trim l = l :=
  trim_eq_self_of_ends (fun c h => hl c (mem_of_mem_head? h))
    fun c h => hl c (mem_of_mem_getLast? h)

/-- Trimming takes whitespace off the front. -/
lemma trim_cons_space {c : Char} (hc : isWhitespace c = true) (l : List Char) :
    trim (c :: l) = trim l := by
  rw [trim, trimStart, dropWhile_cons_of_pos hc]
  rfl

/-- Trimming keeps the first character if it is not whitespace, and some of those after it. -/
lemma exists_trim_cons {c : Char} (hc : isWhitespace c = false) (l : List Char) :
    ∃ l', l' <+: l ∧ trim (c :: l) = c :: l' := by
  rw [trim, trimStart, dropWhile_cons_of_neg (by simp [hc]), trimEnd, reverse_cons,
    dropWhile_append]
  split_ifs with hempty
  · exact ⟨[], nil_prefix, by simp [hc]⟩
  · refine ⟨(l.reverse.dropWhile isWhitespace).reverse, ?_, by simp⟩
    rw [← reverse_suffix, reverse_reverse]
    exact dropWhile_suffix _

/-- Trimming takes whitespace off the end. -/
lemma trim_append_space {c : Char} (hc : isWhitespace c = true) (l : List Char) :
    trim (l ++ [c]) = trim l := by
  rw [trim, trim, trimStart, trimStart, dropWhile_append]
  split_ifs with hempty
  · rw [isEmpty_iff.mp hempty, dropWhile_cons_of_pos hc, dropWhile_nil]
  · rw [trimEnd, trimEnd, reverse_append, reverse_singleton, singleton_append,
      dropWhile_cons_of_pos hc]

lemma exists_trimStart_append (l : List Char) :
    ∃ front, (∀ c ∈ front, isWhitespace c = true) ∧ l = front ++ trimStart l :=
  ⟨l.takeWhile isWhitespace, fun _ hc => mem_takeWhile_imp hc, takeWhile_append_dropWhile.symm⟩

lemma exists_trim_append_back (l : List Char) :
    ∃ back, (∀ c ∈ back, isWhitespace c = true) ∧ trimStart l = trim l ++ back := by
  obtain ⟨back, hback, heq⟩ := exists_trimStart_append (trimStart l).reverse
  refine ⟨back.reverse, fun c hc => hback c (mem_reverse.mp hc), ?_⟩
  rw [← reverse_reverse (trimStart l), heq, reverse_append]
  rfl

/-- Trimming takes off whitespace only. -/
lemma exists_trim_append (l : List Char) :
    ∃ front back, (∀ c ∈ front, isWhitespace c = true) ∧ (∀ c ∈ back, isWhitespace c = true) ∧
      l = front ++ (trim l ++ back) := by
  obtain ⟨front, hfront, heq⟩ := exists_trimStart_append l
  obtain ⟨back, hback, hend⟩ := exists_trim_append_back l
  exact ⟨front, back, hfront, hback, hend ▸ heq⟩

lemma trim_subset (l : List Char) : trim l ⊆ l := by
  obtain ⟨front, back, -, -, heq⟩ := exists_trim_append l
  intro c hc
  rw [heq]
  simp [hc]

/-- A trimmed text does not start with whitespace. -/
lemma isWhitespace_head_trim {l : List Char} {c : Char} (h : (trim l).head? = some c) :
    isWhitespace c = false := by
  obtain ⟨back, -, hend⟩ := exists_trim_append_back l
  have hdrop := head?_dropWhile_not isWhitespace l
  rw [show l.dropWhile isWhitespace = trimStart l from rfl, hend, head?_append, h,
    Option.some_or] at hdrop
  simpa using hdrop

/-- A trimmed text does not end with whitespace. -/
lemma isWhitespace_getLast_trim {l : List Char} {c : Char} (h : (trim l).getLast? = some c) :
    isWhitespace c = false := by
  rw [trim, trimEnd, getLast?_reverse] at h
  have hdrop := head?_dropWhile_not isWhitespace (trimStart l).reverse
  rw [h] at hdrop
  simpa using hdrop

@[simp] lemma trim_trim (l : List Char) : trim (trim l) = trim l :=
  trim_eq_self_of_ends (fun _ => isWhitespace_head_trim) fun _ => isWhitespace_getLast_trim

/-! ## Numbers -/

/-- The value of a digit in a radix of at most ten. -/
def digitValue (radix : ℕ) (c : Char) : Option ℕ :=
  if '0'.toNat ≤ c.toNat ∧ c.toNat < '0'.toNat + radix then some (c.toNat - '0'.toNat) else none

/-- The value of a string of digits, continuing from the value read so far. -/
def digitsValue (radix : ℕ) : ℕ → List Char → Option ℕ
  | acc, [] => some acc
  | acc, c :: s => (digitValue radix c).bind fun d => digitsValue radix (acc * radix + d) s

/-- The value of a non-empty string of digits. -/
def parseDigits (radix : ℕ) (s : List Char) : Option ℕ :=
  if s = [] then none else digitsValue radix 0 s

/-- Rust's `from_str_radix` and `parse` of an unsigned integer type with the given maximum. -/
def parseUnsigned (radix max : ℕ) (s : List Char) : Option ℕ :=
  let digits := match s with
    | '+' :: rest => rest
    | s => s
  (parseDigits radix digits).filter (· ≤ max)

/-- Rust's `str::parse::<u32>`. -/
def parseU32 : List Char → Option ℕ := parseUnsigned 10 (2 ^ 32 - 1)

/-- Rust's `str::parse::<u64>`. -/
def parseU64 : List Char → Option ℕ := parseUnsigned 10 (2 ^ 64 - 1)

/-- Rust's `str::parse::<i64>`. -/
def parseI64 (s : List Char) : Option ℤ :=
  match s with
  | '-' :: rest => ((parseDigits 10 rest).filter (· ≤ 2 ^ 63)).map fun n => -(n : ℤ)
  | s => (parseUnsigned 10 (2 ^ 63 - 1) s).map fun n => (n : ℤ)

/-- The decimal digits that `Display` prints for an unsigned integer. -/
def ofNat (n : ℕ) : List Char := Nat.toDigits 10 n

/-- The decimal digits of a signed number. -/
def ofInt : ℤ → List Char
  | .ofNat n => ofNat n
  | .negSucc n => '-' :: ofNat (n + 1)

section Numbers

variable {n max acc : ℕ} {c : Char} {s : List Char}

/-- What a number is printed with are digits of its base. -/
lemma exists_of_mem_toDigits {b : ℕ} (hb : 1 < b) (h : c ∈ toDigits b n) :
    ∃ d < b, c = digitChar d := by
  induction n using Nat.strong_induction_on with
  | _ n ih =>
    rcases lt_or_ge n b with hn | hn
    · rw [toDigits_of_lt_base hn, mem_singleton] at h
      exact ⟨n, hn, h⟩
    · have hpos : 0 < n / b := div_pos hn (by omega)
      have hmod : n % b < b := mod_lt n (by omega)
      rw [← div_add_mod n b, ← toDigits_append_toDigits hb hpos hmod, mem_append] at h
      rcases h with h | h
      · exact ih (n / b) (div_lt_self (by omega) hb) h
      · rw [toDigits_of_lt_base hmod, mem_singleton] at h
        exact ⟨n % b, hmod, h⟩

lemma digitValue_eq_some {d : ℕ} :
    digitValue 10 c = some d ↔ c.isDigit = true ∧ d = c.toNat - '0'.toNat := by
  have hdigit : c.isDigit = true ↔ '0'.toNat ≤ c.toNat ∧ c.toNat < '0'.toNat + 10 := by
    rw [Char.isDigit_iff_toNat]
    exact and_congr_right fun _ => Nat.lt_succ_iff.symm
  rw [digitValue, hdigit]
  split_ifs with h
  · rw [Option.some.injEq, and_iff_right h, eq_comm]
  · exact ⟨nofun, fun hd => absurd hd.1 h⟩

/-- Decimal digits have the value that the library gives them. -/
lemma digitsValue_eq_some : digitsValue 10 acc s = some n ↔
    (∀ c ∈ s, c.isDigit = true) ∧ ofDigitChars 10 s acc = n := by
  induction s generalizing acc with
  | nil => simp [digitsValue]
  | cons c s ih =>
    rw [digitsValue, Option.bind_eq_some_iff, ofDigitChars_cons, mul_comm 10 acc]
    constructor
    · rintro ⟨d, hd, hs⟩
      obtain ⟨hc, rfl⟩ := digitValue_eq_some.mp hd
      obtain ⟨hdigits, hvalue⟩ := ih.mp hs
      exact ⟨forall_mem_cons.mpr ⟨hc, hdigits⟩, hvalue⟩
    · rintro ⟨hdigits, hvalue⟩
      obtain ⟨hc, hdigits⟩ := forall_mem_cons.mp hdigits
      exact ⟨_, digitValue_eq_some.mpr ⟨hc, rfl⟩, ih.mpr ⟨hdigits, hvalue⟩⟩

lemma parseDigits_eq_some : parseDigits 10 s = some n ↔
    s ≠ [] ∧ (∀ c ∈ s, c.isDigit = true) ∧ ofDigitChars 10 s 0 = n := by
  rw [parseDigits]
  split_ifs with hs
  · simp [hs]
  · simp [hs, digitsValue_eq_some]

/-- What an unsigned integer is parsed from: decimal digits after an optional sign. -/
lemma parseUnsigned_eq_some : parseUnsigned 10 max s = some n ↔ n ≤ max ∧
    ∃ digits, (s = digits ∨ s = '+' :: digits) ∧ digits ≠ [] ∧ (∀ c ∈ digits, c.isDigit = true) ∧
      ofDigitChars 10 digits 0 = n := by
  unfold parseUnsigned
  rw [Option.filter_eq_some_iff, parseDigits_eq_some, decide_eq_true_iff, and_comm]
  refine and_congr_right fun _ => ?_
  constructor
  · rintro h
    split at h
    · next rest => exact ⟨rest, .inr rfl, h⟩
    · exact ⟨s, .inl rfl, h⟩
  · rintro ⟨digits, hs, hdigits⟩
    split
    · next rest =>
      rcases hs with hs | hs
      · have hplus := hdigits.2.1 '+' (hs ▸ mem_cons_self)
        exact absurd hplus (by decide)
      · rw [(cons.inj hs).2]
        exact hdigits
    · next hno =>
      rcases hs with rfl | rfl
      · exact hdigits
      · exact absurd rfl (hno digits)

lemma isDigit_of_mem_ofNat (h : c ∈ ofNat n) : c.isDigit = true :=
  isDigit_of_mem_toDigits (by decide) (by decide) h

lemma ofDigitChars_ofNat (n : ℕ) : ofDigitChars 10 (ofNat n) 0 = n :=
  ofDigitChars_ten_toDigits

/-- A number is parsed from its digits. -/
lemma parseUnsigned_ofNat (h : n ≤ max) : parseUnsigned 10 max (ofNat n) = some n :=
  parseUnsigned_eq_some.mpr ⟨h, ofNat n, .inl rfl, toDigits_ne_nil,
    fun _ hc => isDigit_of_mem_ofNat hc, ofDigitChars_ofNat n⟩

lemma ofNat_ne_cons {a : Char} (ha : a.isDigit = false) (n : ℕ) (rest : List Char) :
    ofNat n ≠ a :: rest := by
  intro heq
  have hdigit := isDigit_of_mem_ofNat (heq ▸ mem_cons_self : a ∈ ofNat n)
  rw [ha] at hdigit
  cases hdigit

/-- A signed number is parsed from its digits. -/
lemma parseI64_ofInt {z : ℤ} (hlow : -2 ^ 63 ≤ z) (hhigh : z ≤ 2 ^ 63 - 1) :
    parseI64 (ofInt z) = some z := by
  cases z with
  | ofNat n =>
    rw [ofInt, parseI64.eq_def]
    split
    · exact absurd ‹_› (ofNat_ne_cons (by decide) n _)
    · rw [parseUnsigned_ofNat (by simp at hhigh; omega)]
      rfl
  | negSucc n =>
    have hdigits : parseDigits 10 (ofNat (n + 1)) = some (n + 1) :=
      parseDigits_eq_some.mpr ⟨toDigits_ne_nil, fun _ hc => isDigit_of_mem_ofNat hc,
        ofDigitChars_ofNat _⟩
    rw [ofInt, parseI64, hdigits, Option.filter_some, if_pos (by simp; omega)]
    rfl

lemma isWhitespace_of_isDigit (h : c.isDigit = true) : isWhitespace c = false := by
  rw [Char.isDigit_iff_toNat] at h
  have hzero : '0'.toNat = 48 := rfl
  have hnine : '9'.toNat = 57 := rfl
  unfold isWhitespace
  simp
  omega

lemma isWhitespace_of_mem_ofInt {z : ℤ} (h : c ∈ ofInt z) : isWhitespace c = false := by
  cases z with
  | ofNat n => exact isWhitespace_of_isDigit (isDigit_of_mem_ofNat h)
  | negSucc n =>
    rcases mem_cons.mp h with rfl | h
    · decide
    · exact isWhitespace_of_isDigit (isDigit_of_mem_ofNat h)

/-- Trimming leaves the digits of a number as they are. -/
lemma trim_ofNat (n : ℕ) : trim (ofNat n) = ofNat n :=
  trim_eq_self fun _ hc => isWhitespace_of_isDigit (isDigit_of_mem_ofNat hc)

lemma ofDigitChars_lt (hs : ∀ c ∈ s, c.isDigit = true) (acc : ℕ) :
    ofDigitChars 10 s acc < (acc + 1) * 10 ^ s.length := by
  induction s generalizing acc with
  | nil => simp
  | cons c s ih =>
    obtain ⟨hc, hs⟩ := forall_mem_cons.mp hs
    have hdigit : c.toNat - '0'.toNat < 10 := by
      have hle : c.toNat ≤ 57 := (Char.isDigit_iff_toNat.mp hc).2
      have hzero : '0'.toNat = 48 := rfl
      omega
    calc ofDigitChars 10 (c :: s) acc
      _ = ofDigitChars 10 s (10 * acc + (c.toNat - '0'.toNat)) := ofDigitChars_cons ..
      _ < (10 * acc + (c.toNat - '0'.toNat) + 1) * 10 ^ s.length := ih hs _
      _ ≤ (10 * (acc + 1)) * 10 ^ s.length := mul_le_mul_right _ (by omega)
      _ = (acc + 1) * 10 ^ (c :: s).length := by
        rw [length_cons, pow_succ]
        ring

/-- No spelling of a number is shorter than its digits. -/
lemma length_ofNat_le (h : parseUnsigned 10 max s = some n) : (ofNat n).length ≤ s.length := by
  obtain ⟨-, digits, hs, hne, hdigits, rfl⟩ := parseUnsigned_eq_some.mp h
  have hlt : ofDigitChars 10 digits 0 < 10 ^ digits.length := by
    have hbound := ofDigitChars_lt hdigits 0
    simpa using hbound
  have hlen : (ofNat (ofDigitChars 10 digits 0)).length ≤ digits.length :=
    (length_toDigits_le_iff (by decide) (length_pos_iff.mpr hne)).mpr hlt
  rcases hs with rfl | rfl
  · exact hlen
  · exact hlen.trans (le_succ _)

/-- Whether a number is written without a sign and without leading zeros. -/
def PlainNumber (s : List Char) : Prop := s.head? ≠ some '+' ∧ (s.head? = some '0' → s = ['0'])

instance (s : List Char) : Decidable (PlainNumber s) :=
  inferInstanceAs (Decidable (s.head? ≠ some '+' ∧ (s.head? = some '0' → s = ['0'])))

lemma exists_digitChar (h : c.isDigit = true) : ∃ d < 10, c = digitChar d := by
  obtain ⟨hlow, hhigh⟩ := Char.isDigit_iff_toNat.mp h
  have hlow' : 48 ≤ c.toNat := hlow
  have hhigh' : c.toNat ≤ 57 := hhigh
  refine ⟨c.toNat - 48, by omega, ?_⟩
  rw [← Char.ofNat_toNat c]
  generalize c.toNat = n at hlow' hhigh'
  interval_cases n <;> rfl

/-- Digits without leading zeros are the digits of their value. -/
lemma ofNat_ofDigitChars (hne : s ≠ []) (hs : ∀ c ∈ s, c.isDigit = true)
    (hzero : s.head? = some '0' → s = ['0']) : ofNat (ofDigitChars 10 s 0) = s := by
  induction s using reverseRecOn with
  | nil => exact absurd rfl hne
  | append_singleton s c ih =>
    obtain ⟨d, hd, rfl⟩ := exists_digitChar (hs c (by simp))
    rw [ofDigitChars_append, ofDigitChars_cons_digitChar_of_lt_ten hd, ofDigitChars_nil]
    by_cases hnil : s = []
    · rw [hnil, ofDigitChars_nil, mul_zero, zero_add]
      exact toDigits_of_lt_base hd
    · have hhead : s.head? ≠ some '0' := by
        intro hhead
        have hlen := congrArg length (hzero (by rw [head?_append, hhead]; rfl))
        have hpos := length_pos_iff.mpr hnil
        rw [length_append, length_singleton, length_singleton] at hlen
        omega
      have hs' := ih hnil (fun c hc => hs c (mem_append_left _ hc)) fun h => absurd h hhead
      have hpos : 0 < ofDigitChars 10 s 0 := by
        rw [pos_iff_ne_zero]
        intro hvalue
        rw [hvalue] at hs'
        exact hhead (by rw [← hs']; rfl)
      rw [ofNat, ← toDigits_append_toDigits (by decide) hpos hd, toDigits_of_lt_base hd]
      exact congrArg (· ++ _) hs'

/-- The digits of a number are its only spelling without a sign and without leading zeros. -/
lemma eq_ofNat_iff (h : parseUnsigned 10 max s = some n) : s = ofNat n ↔ PlainNumber s := by
  obtain ⟨-, digits, hs, hne, hdigits, rfl⟩ := parseUnsigned_eq_some.mp h
  constructor
  · intro heq
    rw [heq]
    generalize ofDigitChars 10 digits 0 = n
    refine ⟨fun hplus => ?_, fun hzero => ?_⟩
    · exact absurd (isDigit_of_mem_ofNat (mem_of_mem_head? hplus)) (by decide)
    · -- After a leading zero there would be a shorter spelling.
      obtain ⟨rest, hrest⟩ := head?_eq_some_iff.mp hzero
      by_contra hne'
      have hshort : parseUnsigned 10 n rest = some n := by
        refine parseUnsigned_eq_some.mpr ⟨le_refl _, rest, .inl rfl, ?_, fun c hc => ?_, ?_⟩
        · rintro rfl
          exact hne' hrest
        · exact isDigit_of_mem_ofNat (n := n) (hrest ▸ mem_cons_of_mem _ hc)
        · have hvalue := ofDigitChars_ofNat n
          rw [hrest] at hvalue
          exact hvalue
      have hlen := length_ofNat_le hshort
      rw [hrest, length_cons] at hlen
      omega
  · rintro ⟨hplus, hzero⟩
    rcases hs with rfl | rfl
    · exact (ofNat_ofDigitChars hne hdigits hzero).symm
    · exact absurd rfl hplus

end Numbers

end Text

end Gyt
