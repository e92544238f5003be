import Gyt.Metadata.Debug

/-!
# Writing metadata blobs

A metadata blob is written line by line: the header, an empty line, and a section for each event.
Lines with a word as key and a value without line ends are read back as they were written
(`scanLine_renderLine`), so that reading a document comes down to reading its header lines and the
lines of each event (`scanDocument_documentText`).
-/

namespace Gyt.Toml

open Text List

/-! ## Lines -/

def renderLine (l : Str × Str) : Str := l.1 ++ " = " ++ l.2

/-- The characters that keys are made of. -/
def keyChars : Str := "abcdefghijklmnopqrstuvwxyz_"

/-- Whether a text is a word that may stand as key. -/
def IsKey (k : Str) : Prop := k ≠ [] ∧ k.all (keyChars.contains ·) = true

instance (k : Str) : Decidable (IsKey k) := inferInstanceAs (Decidable (_ ∧ _))

/-- What holds for every value that is written: it has no line end and no whitespace around it. -/
structure IsValue (v : Str) : Prop where
  newline : '\n' ∉ v
  head : ∃ c, v.head? = some c ∧ isWhitespace c = false
  last : ∃ c, v.getLast? = some c ∧ isWhitespace c = false

/-- What holds for every line that is written. -/
structure Writable (l : Str × Str) : Prop where
  key : IsKey l.1
  value : IsValue l.2

section Values

variable {t : DebugTables} {s k v : Str}

@[simp] lemma writable_iff : Writable (k, v) ↔ IsKey k ∧ IsValue v :=
  ⟨fun h => ⟨h.key, h.value⟩, fun h => ⟨h.1, h.2⟩⟩

lemma isValue_bracketed {a b : Char} (ha : isWhitespace a = false) (hb : isWhitespace b = false)
    (hs : '\n' ∉ s) : IsValue (a :: s ++ [b]) := by
  refine ⟨?_, ⟨a, rfl, ha⟩, ⟨b, getLast?_bracketed a b s, hb⟩⟩
  have hne : ∀ c, isWhitespace c = false → '\n' ≠ c := by
    rintro c hc rfl
    exact absurd hc (by decide)
  simpa using ⟨hne a ha, hs, hne b hb⟩

lemma isValue_of_forall (hne : v ≠ []) (h : ∀ c ∈ v, isWhitespace c = false) : IsValue v := by
  refine ⟨fun hmem => absurd (h _ hmem) (by decide), ?_, ?_⟩
  · exact ⟨v.head hne, head?_eq_some_head hne, h _ (head_mem hne)⟩
  · exact ⟨v.getLast hne, getLast?_eq_some_getLast hne, h _ (getLast_mem hne)⟩

@[simp] lemma isValue_ofNat (n : ℕ) : IsValue (ofNat n) :=
  isValue_of_forall Nat.toDigits_ne_nil fun _ hc =>
    isWhitespace_of_isDigit (isDigit_of_mem_ofNat hc)

@[simp] lemma isValue_ofInt (z : ℤ) : IsValue (ofInt z) := by
  refine isValue_of_forall ?_ fun _ hc => isWhitespace_of_mem_ofInt hc
  cases z with
  | ofNat n => exact Nat.toDigits_ne_nil
  | negSucc n => exact cons_ne_nil _ _

lemma newline_notMem_flatMap (t : DebugTables) (s : Str) : '\n' ∉ s.flatMap (debugChar t) := by
  intro hmem
  obtain ⟨c, -, hc⟩ := mem_flatMap.mp hmem
  obtain ⟨heq, hesc⟩ := eq_of_mem_debugChar (by decide) (by decide) hc
  exact (ne_of_escapeLetter hesc).2.2.1 heq.symm

lemma newline_notMem_debugStr (t : DebugTables) (s : Str) : '\n' ∉ debugStr t s := by
  simpa [debugStr] using newline_notMem_flatMap t s

lemma newline_notMem_joined {α : Type} {f : α → Str} (h : ∀ x, '\n' ∉ f x) (xs : List α) :
    '\n' ∉ joined (xs.map f) := by
  induction xs with
  | nil => simp [joined]
  | cons x xs ih =>
    cases xs with
    | nil => simpa [joined_singleton] using h x
    | cons y ys => simpa [joined_cons_cons, h x] using ih

@[simp] lemma isValue_debugStr (t : DebugTables) (s : Str) : IsValue (debugStr t s) :=
  isValue_bracketed (by decide) (by decide) (newline_notMem_flatMap t s)

@[simp] lemma isValue_tomlStringArray (t : DebugTables) (xs : List Str) :
    IsValue (tomlStringArray t xs) := by
  unfold tomlStringArray
  split_ifs with hxs
  · exact isValue_of_forall (by decide) (by simpa using ⟨by decide, by decide⟩)
  · exact isValue_bracketed (by decide) (by decide)
      (newline_notMem_joined (newline_notMem_debugStr t) xs)

@[simp] lemma isValue_tomlU64Array (ns : List ℕ) : IsValue (tomlU64Array ns) := by
  unfold tomlU64Array
  split_ifs with hns
  · exact isValue_of_forall (by decide) (by simpa using ⟨by decide, by decide⟩)
  · exact isValue_bracketed (by decide) (by decide)
      (newline_notMem_joined (fun n => (isValue_ofNat n).newline) ns)

@[simp] lemma isValue_tomlStringMap (t : DebugTables) (m : List (Str × Str)) :
    IsValue (tomlStringMap t m) := by
  unfold tomlStringMap
  split_ifs with hm
  · exact isValue_of_forall (by decide) (by simpa using ⟨by decide, by decide⟩)
  · have hjoined : '\n' ∉ joined (m.map (entryText t)) := newline_notMem_joined (fun e => by
      simpa [entryText] using ⟨newline_notMem_debugStr t e.1, newline_notMem_debugStr t e.2⟩) m
    have hvalue : IsValue ('\x7b' :: (' ' :: joined (m.map (entryText t)) ++ [' ']) ++ ['\x7d']) :=
      isValue_bracketed (by decide) (by decide) (by simpa using hjoined)
    simpa using hvalue

end Values

/-! ## Documents -/

/-- The first line of every document. -/
def banner : Str := "# generated by gyt; canonical ordering matters"

/-- The lines of a document with the given header and events. -/
def documentLines (header : List (Str × Str)) (events : List (List (Str × Str))) : List Str :=
  banner :: header.map renderLine ++
    [] :: events.flatMap fun e => "[[event]]".toList :: e.map renderLine ++ [[]]

/-- How a document with the given header and events is written. -/
def documentText (header : List (Str × Str)) (events : List (List (Str × Str))) : Bytes :=
  Utf8.encode (unlines (documentLines header events))

section Documents

variable {H E : Type} {f : Format H E} {l : Str × Str} {header : List (Str × Str)}
  {events : List (List (Str × Str))} {st : Partial H E}

section

variable (h : Writable l)

include h

lemma Writable.of_mem_key {c : Char} (hc : c ∈ l.1) :
    c ≠ '\n' ∧ c ≠ '=' ∧ c ≠ '#' ∧ c ≠ '[' ∧ isWhitespace c = false := by
  have hall : (keyChars.all fun c => c ≠ '\n' ∧ c ≠ '=' ∧ c ≠ '#' ∧ c ≠ '[' ∧
      isWhitespace c = false) = true := by decide
  have hmem : c ∈ keyChars := by simpa using all_eq_true.mp h.key.2 c hc
  exact of_decide_eq_true (all_eq_true.mp hall c hmem)

lemma Writable.trim_value : trim l.2 = l.2 := by
  obtain ⟨a, ha, hhead⟩ := h.value.head
  obtain ⟨b, hb, hlast⟩ := h.value.last
  refine trim_eq_self_of_ends (fun c hc => ?_) fun c hc => ?_
  · rw [ha] at hc
    cases hc
    exact hhead
  · rw [hb] at hc
    cases hc
    exact hlast

lemma Writable.getLast?_renderLine :
    ∃ c, (renderLine l).getLast? = some c ∧ isWhitespace c = false := by
  obtain ⟨c, hc, hlast⟩ := h.value.last
  exact ⟨c, by rw [renderLine, getLast?_append, hc]; rfl, hlast⟩

/-- A line starts with the first letter of its key. -/
lemma Writable.exists_renderLine_eq_cons :
    ∃ c rest, renderLine l = c :: rest ∧ c ≠ '#' ∧ c ≠ '[' ∧ isWhitespace c = false := by
  obtain ⟨c, key, hkey⟩ := exists_cons_of_ne_nil h.key.1
  obtain ⟨-, -, hhash, hbracket, hspace⟩ := h.of_mem_key (hkey ▸ mem_cons_self : c ∈ l.1)
  refine ⟨c, key ++ " = " ++ l.2, ?_, hhash, hbracket, hspace⟩
  rw [renderLine, hkey]
  rfl

lemma Writable.trim_renderLine : trim (renderLine l) = renderLine l := by
  obtain ⟨c, rest, hcons, -, -, hspace⟩ := h.exists_renderLine_eq_cons
  obtain ⟨d, hlast, hd⟩ := h.getLast?_renderLine
  refine trim_eq_self_of_ends (fun c' hc' => ?_) fun c' hc' => ?_
  · rw [hcons] at hc'
    cases hc'
    exact hspace
  · rw [hlast] at hc'
    cases hc'
    exact hd

lemma Writable.splitOnce_renderLine :
    splitOnce ['='] (renderLine l) = some (l.1 ++ [' '], ' ' :: l.2) := by
  have htext : renderLine l = (l.1 ++ [' ']) ++ '=' :: ' ' :: l.2 := by simp [renderLine]
  have hnotMem : '=' ∉ l.1 ++ [' '] := by simpa using fun hmem => (h.of_mem_key hmem).2.1 rfl
  rw [htext, splitOnce_append_cons hnotMem]

lemma Writable.trim_key_append : trim (l.1 ++ [' ']) = l.1 := by
  rw [trim_append_space (by decide), trim_eq_self fun c hc => (h.of_mem_key hc).2.2.2.2]

lemma Writable.trim_cons_value : trim (' ' :: l.2) = l.2 := by
  rw [trim_cons_space (by decide), h.trim_value]

/-- A line is read as the key and the value that it was written with. -/
theorem scanLine_renderLine : scanLine f st (renderLine l) = match st.cur with
    | some e => (fun e => { st with cur := some e }) <$> f.setEvent e l.1 l.2
    | none => (fun h => { st with header := h }) <$> f.setHeader st.header l.1 l.2 := by
  obtain ⟨c, rest, hcons, hhash, hbracket, -⟩ := h.exists_renderLine_eq_cons
  have hline : ¬(renderLine l = [] ∨ (renderLine l).head? = some '#') := by simp [hcons, hhash]
  have hevent : renderLine l ≠ "[[event]]" := by
    rw [hcons]
    intro heq
    exact hbracket (cons.inj heq).1
  rw [scanLine, h.trim_renderLine]
  dsimp only
  rw [if_neg hline, if_neg hevent, h.splitOnce_renderLine, okOr, ok_bind]
  dsimp only
  rw [h.trim_key_append, h.trim_cons_value]
  cases st.cur with
  | some e => exact (map_eq_pure_bind _ _).symm
  | none => exact (map_eq_pure_bind _ _).symm

/-- A line has no line end, and nothing is stripped from its end. -/
lemma Writable.isLine : '\n' ∉ renderLine l ∧ stripCr (renderLine l) = renderLine l := by
  obtain ⟨c, hlast, hc⟩ := h.getLast?_renderLine
  constructor
  · have hkey : '\n' ∉ l.1 := fun hmem => (h.of_mem_key hmem).1 rfl
    simpa [renderLine, hkey] using h.value.newline
  · refine stripCr_of_getLast?_ne ?_
    rw [hlast]
    rintro ⟨⟩
    exact absurd hc (by decide)

end

def readHeader (f : Format H E) (init : H) (header : List (Str × Str)) : Result H :=
  header.foldlM (fun h l => f.setHeader h l.1 l.2) init

def readEvent (f : Format H E) (e : List (Str × Str)) : Result E :=
  e.foldlM (fun e l => f.setEvent e l.1 l.2) f.newEvent

/-- Lines that each set something in what was read so far. -/
lemma foldlM_lines {α : Type} (put : α → Partial H E) {set : α → Str → Str → Result α}
    (hset : ∀ a l, Writable l → scanLine f (put a) (renderLine l) = put <$> set a l.1 l.2)
    {ls : List (Str × Str)} (hls : ∀ l ∈ ls, Writable l) (a : α) :
    (ls.map renderLine).foldlM (scanLine f) (put a) =
      put <$> ls.foldlM (fun a l => set a l.1 l.2) a := by
  induction ls generalizing a with
  | nil => rfl
  | cons l ls ih =>
    obtain ⟨hl, hls⟩ := forall_mem_cons.mp hls
    rw [map_cons, foldlM_cons, hset a l hl, foldlM_cons]
    cases set a l.1 l.2 with
    | error e => rfl
    | ok a' => exact ih hls a'

lemma foldlM_header (hheader : ∀ l ∈ header, Writable l) (h : H) (es : List E) :
    (header.map renderLine).foldlM (scanLine f) ⟨h, es, none⟩ =
      (⟨·, es, none⟩) <$> readHeader f h header :=
  foldlM_lines (⟨·, es, none⟩) (fun _ _ => scanLine_renderLine) hheader h

lemma foldlM_event {e : List (Str × Str)} (he : ∀ l ∈ e, Writable l) (h : H) (es : List E)
    (cur : E) : (e.map renderLine).foldlM (scanLine f) ⟨h, es, some cur⟩ =
      (⟨h, es, some ·⟩) <$> e.foldlM (fun e l => f.setEvent e l.1 l.2) cur :=
  foldlM_lines (⟨h, es, some ·⟩) (fun _ _ => scanLine_renderLine) he cur

/-- The events of a document are read one after the other. -/
lemma foldlM_events (hevents : ∀ e ∈ events, ∀ l ∈ e, Writable l) (h : H) (es : List E)
    (cur : Option E) :
    ((events.flatMap fun e => "[[event]]".toList :: e.map renderLine ++ [[]]).foldlM (scanLine f)
        ⟨h, es, cur⟩ >>= fun st => pure (st.header, st.events ++ st.cur.toList)) =
      (fun es' => (h, es ++ cur.toList ++ es')) <$> events.mapM (readEvent f) := by
  induction events generalizing es cur with
  | nil => simp [pure, Except.pure, Functor.map, Except.map]
  | cons e events ih =>
    obtain ⟨he, hevents⟩ := forall_mem_cons.mp hevents
    have hstart : scanLine f ⟨h, es, cur⟩ "[[event]]" =
        .ok ⟨h, es ++ cur.toList, some f.newEvent⟩ := rfl
    rw [flatMap_cons, foldlM_append, cons_append, foldlM_cons, hstart, ok_bind,
      foldlM_append, foldlM_event he, mapM_cons, readEvent]
    cases e.foldlM (fun e l => f.setEvent e l.1 l.2) f.newEvent with
    | error e => rfl
    | ok cur' =>
      refine (ih hevents (es ++ cur.toList) (some cur')).trans ?_
      show _ = (fun es' => (h, es ++ cur.toList ++ es')) <$>
        (events.mapM (readEvent f) >>= fun es' => pure (cur' :: es'))
      cases events.mapM (readEvent f) with
      | error e => rfl
      | ok es' =>
        show Except.ok (h, es ++ cur.toList ++ [cur'] ++ es') =
          .ok (h, es ++ cur.toList ++ cur' :: es')
        rw [append_assoc (es ++ cur.toList), singleton_append]

section

variable (hheader : ∀ l ∈ header, Writable l) (hevents : ∀ e ∈ events, ∀ l ∈ e, Writable l)

include hheader hevents

/-- The lines of a document are read as they were written. -/
lemma lines_documentLines :
    lines (unlines (documentLines header events)) = documentLines header events := by
  have hall : ∀ s ∈ documentLines header events, '\n' ∉ s ∧ stripCr s = s := by
    intro s hs
    simp only [documentLines, cons_append, mem_cons, mem_append, mem_map,
      mem_flatMap, not_mem_nil, or_false] at hs
    rcases hs with rfl | ⟨l, hl, rfl⟩ | rfl | ⟨e, he, rfl | ⟨l, hl, rfl⟩ | rfl⟩
    · decide
    · exact (hheader l hl).isLine
    · decide
    · decide
    · exact (hevents e he l hl).isLine
    · decide
  rw [lines_unlines fun s hs => (hall s hs).1]
  exact (map_congr_left fun s hs => (hall s hs).2).trans (map_id _)

/-- A document is read as the header lines and the events that it was written with. -/
theorem scanDocument_documentText (init : H) : scanDocument f init (documentText header events) =
      (do
        let h ← readHeader f init header
        let es ← events.mapM (readEvent f)
        return (h, es)) := by
  have hbanner : scanLine f ⟨init, [], none⟩ banner = .ok ⟨init, [], none⟩ := by
    obtain ⟨s, -, htrim⟩ := exists_trim_cons (show isWhitespace '#' = false by decide)
      " generated by gyt; canonical ordering matters"
    rw [scanLine,
      show banner = '#' :: " generated by gyt; canonical ordering matters" from rfl, htrim]
    exact if_pos (.inr rfl)
  have hblank : ∀ st, scanLine f st [] = .ok st := fun st => rfl
  rw [scanDocument, documentText, Utf8.decode_encode, okOr, ok_bind,
    lines_documentLines hheader hevents, documentLines, cons_append, foldlM_cons, hbanner,
    ok_bind, foldlM_append, foldlM_header hheader]
  cases readHeader f init header with
  | error e => rfl
  | ok h =>
    rw [ok_bind]
    refine (foldlM_events hevents h [] none).trans ?_
    exact map_eq_pure_bind _ _

end

/-- If each event is read back under a condition on it, so is a list of events. -/
lemma mapM_readEvent {lines : E → List (Str × Str)} {P : E → Prop} {es rs : List E}
    (h : ∀ e ∈ es, ∀ r, readEvent f (lines e) = .ok r ↔ P e ∧ r = e) :
    (es.map lines).mapM (readEvent f) = .ok rs ↔ (∀ e ∈ es, P e) ∧ rs = es := by
  induction es generalizing rs with
  | nil => rw [map_nil, mapM_nil, pure_eq_ok, and_iff_right nofun, eq_comm]
  | cons e es ih =>
    obtain ⟨he, hes⟩ := forall_mem_cons.mp h
    simp only [map_cons, mapM_cons, bind_eq_ok, pure_eq_ok, he, ih hes, and_assoc,
      exists_and_left, exists_eq_left, forall_mem_cons, eq_comm (a := rs)]

/-- A check on all events of a list with their positions holds for each event at some position. -/
lemma exists_of_forM_zipIdx {check : E → ℕ → Result Unit} {es : List E} {e : E}
    (h : (es.zipIdx.forM fun (e, i) => check e i) = .ok ()) (he : e ∈ es) :
    ∃ i, check e i = .ok () := by
  rw [← zipIdx_map_fst 0 es] at he
  obtain ⟨⟨e, i⟩, hmem, rfl⟩ := mem_map.mp he
  exact ⟨i, forM_eq_ok.mp h (e, i) hmem⟩

end Documents

/-! ## Fields -/

section Fields

variable {t : DebugTables} {blob field kind : String} {s r : Str}

section

variable (h : (s.all fun c => 0x20 ≤ c.toNat && c.toNat < 0x7f) = true)

include h

/-- Printable ASCII characters are written as they are. -/
lemma plain_of_ascii : Plain t s := by
  intro c hc
  have hrange := all_eq_true.mp h c hc
  rw [Bool.and_eq_true, decide_eq_true_eq, decide_eq_true_eq] at hrange
  obtain ⟨hprint, hext⟩ := t.ascii c hrange.1 hrange.2
  rw [unicodeEscaped, hprint, hext]
  simp

lemma parseTomlString_ascii : parseTomlString blob (debugStr t s) = .ok s :=
  parseTomlString_debugStr.mpr ⟨plain_of_ascii h, rfl⟩

end

lemma parseU64Field_ofNat {n : ℕ} (h : n < 2 ^ 64) :
    parseU64Field blob field (ofNat n) = .ok n := by
  rw [parseU64Field, parseU64, parseUnsigned_ofNat (by omega), okOr]

lemma parseI64Field_ofInt {ts : ℤ} (h : tsMin ≤ ts ∧ ts ≤ tsMax) :
    parseI64Field blob field (ofInt ts) = .ok ts := by
  obtain ⟨hmin, hmax⟩ := h
  have hlow : -2 ^ 63 ≤ ts := by unfold tsMin at hmin; omega
  have hhigh : ts ≤ 2 ^ 63 - 1 := by unfold tsMax at hmax; omega
  rw [parseI64Field, parseI64_ofInt hlow hhigh, okOr]

end Fields

/-- How the values of a field are read and printed.  What is printed can stand in a line, and a
value that fits is read back exactly if it is plain. -/
structure Codec (V : Type) where
  parse : String → Str → Result V
  print : DebugTables → V → Str
  Fits : V → Prop := fun _ => True
  Plain : DebugTables → V → Prop := fun _ _ => True
  isValue : ∀ t v, IsValue (print t v)
  parse_print : ∀ {blob t v r}, Fits v → (parse blob (print t v) = .ok r ↔ Plain t v ∧ r = v)

namespace Codec

/-- The law for values that are plain in any case. -/
lemma iff_of_eq_ok {V : Type} {a : Result V} {v r : V} (h : a = .ok v) :
    a = .ok r ↔ True ∧ r = v := by
  rw [h, Except.ok.injEq, true_and, eq_comm]

@[simp] def text : Codec Str where
  parse := parseTomlString
  print := debugStr
  Plain := Toml.Plain
  isValue := isValue_debugStr
  parse_print _ := parseTomlString_debugStr

@[simp] def texts : Codec (List Str) where
  parse := parseTomlStringArray
  print := tomlStringArray
  Plain t xs := ∀ s ∈ xs, Toml.Plain t s
  isValue := isValue_tomlStringArray
  parse_print _ := parseTomlStringArray_eq_ok

/-- Tables of texts, in the order of the keys. -/
@[simp] def table : Codec (List (Str × Str)) where
  parse := parseTomlStringMap
  print := tomlStringMap
  Fits m := m.Pairwise fun a b => a.1 < b.1
  Plain t m := ∀ e ∈ m, PlainEntry t e
  isValue := isValue_tomlStringMap
  parse_print := parseTomlStringMap_eq_ok

@[simp] def time (field : String) : Codec ℤ where
  parse blob := parseI64Field blob field
  print _ := ofInt
  Fits ts := tsMin ≤ ts ∧ ts ≤ tsMax
  isValue _ := isValue_ofInt
  parse_print h := iff_of_eq_ok (parseI64Field_ofInt h)

@[simp] def number (field : String) : Codec ℕ where
  parse blob := parseU64Field blob field
  print _ := ofNat
  Fits n := n < 2 ^ 64
  isValue _ := isValue_ofNat
  parse_print h := iff_of_eq_ok (parseU64Field_ofNat h)

@[simp] def numbers : Codec (List ℕ) where
  parse := parseTomlU64Array
  print _ := tomlU64Array
  Fits ns := ∀ n ∈ ns, n < 2 ^ 64
  isValue _ := isValue_tomlU64Array
  parse_print h := iff_of_eq_ok (parseTomlU64Array_eq_ok h)

/-- The values of an enumeration, by their names. -/
@[simp] def choice {κ : Type} (name : κ → Str) (parse : Str → Result κ)
    (hname : ∀ k, ((name k).all fun c => 0x20 ≤ c.toNat && c.toNat < 0x7f) = true :=
      by rintro ⟨⟩ <;> decide)
    (hparse : ∀ k, parse (name k) = .ok k := by rintro ⟨⟩ <;> rfl) : Codec κ where
  parse blob val := do parse (← parseTomlString blob val)
  print t k := debugStr t (name k)
  isValue t k := isValue_debugStr t (name k)
  parse_print _ := by
    rw [parseTomlString_ascii (hname _), ok_bind]
    exact iff_of_eq_ok (hparse _)

/-- The schema version of a kind of documents. -/
@[simp] def schema (kind : String) : Codec Unit where
  parse blob := checkSchemaVersion blob kind
  print _ _ := ofNat schemaVersion
  isValue _ _ := isValue_ofNat _
  parse_print _ := iff_of_eq_ok rfl

/-- Tables for which every character is printable. -/
def plainTables : DebugTables := ⟨fun _ => true, fun _ => false, fun _ _ _ => ⟨rfl, rfl⟩⟩

/-- The kind of documents of which there is only one kind. -/
@[simp] def only (kind : String)
    (hkind : (kind.toList.all fun c => 0x20 ≤ c.toNat && c.toNat < 0x7f) = true := by decide)
    (hprint : debugStr plainTables kind = '"' :: (kind.toList ++ ['"']) := by decide +kernel) :
    Codec Unit where
  parse blob val := do
    let k ← parseTomlString blob val
    ensure (k = kind) (invalid blob ["kind must be \"", .lit kind, "\""])
  print _ _ := '"' :: (kind.toList ++ ['"'])
  isValue _ _ := hprint ▸ isValue_debugStr plainTables kind
  parse_print _ := by
    rw [← hprint, parseTomlString_ascii hkind, ok_bind, ensure, if_pos rfl]
    exact iff_of_eq_ok rfl

end Codec

/-- A field of a record of type `α`, which is read into a record of type `ρ`. -/
structure Field (ρ α : Type) where
  {V : Type}
  key : String
  codec : Codec V
  get : α → V
  set : V → ρ → ρ

section

variable {ρ α : Type}

/-- Reading a line into the field with its key; `unknown` is the message if there is none. -/
def setField (fields : List (Field ρ α)) (blob unknown : String) (r : ρ) (key val : Str) :
    Result ρ :=
  match fields.find? (·.key.toList = key) with
  | some f => (f.set · r) <$> f.codec.parse blob val
  | none => .error (invalid blob [.lit unknown, .str key])

/-- The lines of the fields of a record. -/
def fieldLines (t : DebugTables) (fields : List (Field ρ α)) (e : α) : List (Str × Str) :=
  fields.map fun f => (f.key, f.codec.print t (f.get e))

/-- The fields can be told apart by their keys. -/
def GoodKeys (fields : List (Field ρ α)) : Prop :=
  (∀ f ∈ fields, IsKey f.key) ∧ (fields.map (·.key)).Nodup

instance (fields : List (Field ρ α)) : Decidable (GoodKeys fields) :=
  inferInstanceAs (Decidable (_ ∧ _))

variable {t : DebugTables} {fields : List (Field ρ α)} {e : α} {blob unknown : String}

lemma GoodKeys.writable (h : GoodKeys fields) : ∀ l ∈ fieldLines t fields e, Writable l :=
  forall_mem_map.mpr fun f hf => ⟨h.1 f hf, f.codec.isValue t _⟩

lemma GoodKeys.find?_key (h : GoodKeys fields) {f : Field ρ α} (hf : f ∈ fields) :
    fields.find? (·.key.toList = f.key.toList) = some f := by
  have hnodup := h.2
  clear h
  induction fields with
  | nil => cases hf
  | cons g fields ih =>
    rw [map_cons, nodup_cons] at hnodup
    rcases mem_cons.mp hf with rfl | hf
    · simp
    · have hne : g.key ≠ f.key := fun heq => hnodup.1 (heq ▸ mem_map_of_mem hf)
      rw [find?_cons_of_neg (by simpa [String.toList_inj] using hne), ih hf hnodup.2]

/-- A record whose fields fit is read back exactly if they are plain. -/
lemma GoodKeys.foldlM_fieldLines {r r' : ρ} {fs : List (Field ρ α)} (h : GoodKeys fields)
    (hsub : fs ⊆ fields) (hfits : ∀ f ∈ fs, f.codec.Fits (f.get e)) :
    (fieldLines t fs e).foldlM (fun r l => setField fields blob unknown r l.1 l.2) r = .ok r' ↔
      (∀ f ∈ fs, f.codec.Plain t (f.get e)) ∧ r' = fs.foldl (fun r f => f.set (f.get e) r) r := by
  induction fs generalizing r with
  | nil =>
    rw [fieldLines, map_nil, foldlM_nil, pure_eq_ok]
    simp [eq_comm]
  | cons f fs ih =>
    obtain ⟨hf, hsub⟩ := cons_subset.mp hsub
    obtain ⟨hfit, hfits⟩ := forall_mem_cons.mp hfits
    rw [fieldLines, map_cons, foldlM_cons, setField, h.find?_key hf, forall_mem_cons, foldl_cons]
    simp only [bind_eq_ok, map_eq_ok, f.codec.parse_print hfit]
    constructor
    · rintro ⟨_, ⟨_, ⟨hplain, rfl⟩, rfl⟩, hrest⟩
      obtain ⟨hall, hr⟩ := (ih hsub hfits).mp hrest
      exact ⟨⟨hplain, hall⟩, hr⟩
    · rintro ⟨⟨hplain, hall⟩, hr⟩
      exact ⟨_, ⟨_, ⟨hplain, rfl⟩, rfl⟩, (ih hsub hfits).mpr ⟨hall, hr⟩⟩

/-- A document whose fields fit is read back exactly if they are plain. -/
lemma scanDocument_fieldLines {H D E : Type} {f : Format H E} {hfs : List (Field H D)}
    {efs : List (Field E E)} {unknown' : String} {init h : H} {d : D} {es rs : List E}
    (hset : f.setHeader = setField hfs blob unknown)
    (eset : f.setEvent = setField efs blob unknown') (hkeys : GoodKeys hfs) (ekeys : GoodKeys efs)
    (hfits : ∀ f ∈ hfs, f.codec.Fits (f.get d))
    (efits : ∀ e ∈ es, ∀ f ∈ efs, f.codec.Fits (f.get e))
    (hnew : ∀ e, efs.foldl (fun r f => f.set (f.get e) r) f.newEvent = e) :
    scanDocument f init (documentText (fieldLines t hfs d) (es.map (fieldLines t efs))) =
        .ok (h, rs) ↔
      ((∀ f ∈ hfs, f.codec.Plain t (f.get d)) ∧
          h = hfs.foldl (fun r f => f.set (f.get d) r) init) ∧
        (∀ e ∈ es, ∀ f ∈ efs, f.codec.Plain t (f.get e)) ∧ rs = es := by
  have hevent : ∀ e ∈ es, ∀ r, readEvent f (fieldLines t efs e) = .ok r ↔
      (∀ f ∈ efs, f.codec.Plain t (f.get e)) ∧ r = e := by
    intro e he r
    rw [readEvent, eset, ekeys.foldlM_fieldLines (Subset.refl _) (efits e he), hnew]
  rw [scanDocument_documentText hkeys.writable (forall_mem_map.mpr fun e _ => ekeys.writable)]
  simp only [bind_eq_ok, pure_eq_ok, mapM_readEvent hevent, readHeader, hset,
    hkeys.foldlM_fieldLines (Subset.refl _) hfits, Prod.mk.injEq]
  constructor
  · rintro ⟨_, hh, _, hes, rfl, rfl⟩
    exact ⟨hh, hes⟩
  · rintro ⟨hh, hes⟩
    exact ⟨_, hh, _, hes, rfl, rfl⟩

end

end Gyt.Toml
