import Gyt.Metadata.Issue

/-!
# The mentions in a text

`extract_mentions` of `issues.rs` against its grammar: a `#` that follows no word, and a run of
digits that no word follows.  The scanner takes runs of up to eleven digits (`mem_mentionsFrom`),
one more than its comment allows, so it is exact on the texts whose mentions of eleven digits are
also there in a shorter form (`extractMentions_exact_iff`).
-/

namespace Gyt.Issue

open List

/-- The decimal number of a run of digits. -/
def runValue (run : Bytes) : ℕ := Nat.ofDigitChars 10 (run.map fun d => Char.ofNat d.toNat) 0

/-- A text behind the byte `prev` mentions a number with a run of `k` digits. -/
def Mentions (k : ℕ) (prev : Option UInt8) (bytes : Bytes) (n : ℕ) : Prop :=
  ∃ pre run post, bytes = pre ++ 0x23 :: (run ++ post) ∧ run.length = k ∧ run.all isAsciiDigit ∧
    ¬ (pre.getLast?.or prev).any isWordChar ∧ ¬ post.head?.any isWordChar ∧ runValue run = n

/-- A text mentions a number with one to ten digits. -/
def Mentioned (text : Str) (n : ℕ) : Prop :=
  ∃ k, 1 ≤ k ∧ k ≤ 10 ∧ Mentions k none (Utf8.encode text) n

variable {k n : ℕ} {prev : Option UInt8} {b : UInt8} {rest : Bytes}

lemma mentions_cons : Mentions k prev (b :: rest) n ↔
    (b = 0x23 ∧ ¬ prev.any isWordChar ∧ ∃ run post, rest = run ++ post ∧ run.length = k ∧
      run.all isAsciiDigit ∧
      ¬ post.head?.any isWordChar ∧ runValue run = n) ∨ Mentions k (some b) rest n := by
  constructor
  · rintro ⟨pre, run, post, hsplit, hlen, hrun, hprev, hpost, hn⟩
    rcases pre with _ | ⟨p, pre⟩
    · obtain ⟨rfl, rfl⟩ := cons.inj hsplit
      exact .inl ⟨rfl, hprev, run, post, rfl, hlen, hrun, hpost, hn⟩
    · obtain ⟨rfl, rfl⟩ := cons.inj hsplit
      refine .inr ⟨pre, run, post, rfl, hlen, hrun, ?_, hpost, hn⟩
      cases hlast : pre.getLast? <;> simp_all [getLast?_cons]
  · rintro (⟨rfl, hprev, run, post, rfl, hlen, hrun, hpost, hn⟩ |
      ⟨pre, run, post, rfl, hlen, hrun, hprev, hpost, hn⟩)
    · exact ⟨[], run, post, rfl, hlen, hrun, hprev, hpost, hn⟩
    · refine ⟨b :: pre, run, post, rfl, hlen, hrun, ?_, hpost, hn⟩
      cases hlast : pre.getLast? <;> simp_all [getLast?_cons]

lemma parseU64_run {run : Bytes} (hne : run ≠ []) (hrun : run.all isAsciiDigit)
    (hlen : run.length ≤ 11) :
    Text.parseU64 (run.map fun d => Char.ofNat d.toNat) = some (runValue run) := by
  have hdigit : ∀ b, isAsciiDigit b = true → (Char.ofNat b.toNat).isDigit = true :=
    ObjectId.forall_byte (by decide +kernel)
  have hdigits : ∀ c ∈ run.map fun d => Char.ofNat d.toNat, c.isDigit = true := by
    rw [forall_mem_map]
    exact fun b hb => hdigit b (all_eq_true.mp hrun b hb)
  refine Text.parseUnsigned_eq_some.mpr ⟨?_, _, .inl rfl, by simpa using hne, hdigits, rfl⟩
  have hlt := Text.ofDigitChars_lt hdigits 0
  have hpow : 10 ^ (run.map fun d => Char.ofNat d.toNat).length ≤ 10 ^ 11 :=
    Nat.pow_le_pow_right (by decide) (by simpa using hlen)
  rw [runValue]
  omega

/-- A run with a boundary behind it is what the scanner takes. -/
lemma takeWhile_run {run post : Bytes} (hrun : run.all isAsciiDigit) (hlen : run.length ≤ 11)
    (hpost : ¬ post.head?.any isWordChar) :
    ((run ++ post).take 11).takeWhile isAsciiDigit = run := by
  have hword : ∀ b, isAsciiDigit b = true → isWordChar b = true :=
    ObjectId.forall_byte (by decide +kernel)
  rw [take_append, take_of_length_le hlen, takeWhile_append_of_pos (all_eq_true.mp hrun)]
  have hstop : (post.take (11 - run.length)).takeWhile isAsciiDigit = [] := by
    rcases post with _ | ⟨b, post⟩
    · simp
    · have hb : isAsciiDigit b = false := by
        rw [← Bool.not_eq_true]
        exact fun hdigit => hpost (hword b hdigit)
      cases 11 - run.length <;> simp [hb]
  rw [hstop, append_nil]

/-- The scan finds the mentions of up to eleven digits. -/
theorem mem_mentionsFrom {bytes : Bytes} :
    n ∈ mentionsFrom prev bytes ↔ ∃ k, 1 ≤ k ∧ k ≤ 11 ∧ Mentions k prev bytes n := by
  induction bytes generalizing prev with
  | nil => simp [mentionsFrom, Mentions]
  | cons b rest ih =>
    simp only [mentionsFrom, mem_append, ih, mentions_cons, and_or_left, exists_or]
    refine or_congr_left ?_
    set digits := (rest.take 11).takeWhile isAsciiDigit with hdigits
    constructor
    · intro h
      split_ifs at h with hsharp hend
      · cases h
      · simp only [Bool.and_eq_true, beq_iff_eq, Bool.not_eq_true'] at hsharp
        obtain ⟨⟨rfl, hprev⟩, hhead⟩ := hsharp
        have hstart := takeWhile_prefix (l := rest.take 11) isAsciiDigit
        obtain ⟨post, hpost⟩ := hstart.trans <| take_prefix 11 rest
        rw [← hdigits] at hpost
        have hne : digits ≠ [] := by
          rcases rest with _ | ⟨d, rest⟩
          · cases hhead
          · have hd : isAsciiDigit d = true := hhead
            simp [hdigits, hd]
        have hlen : digits.length ≤ 11 := hstart.length_le.trans (length_take_le 11 rest)
        have hrun : digits.all isAsciiDigit := all_takeWhile
        rw [← hpost, drop_left] at hend
        rw [parseU64_run hne hrun hlen, Option.mem_toList, Option.some_inj] at h
        exact ⟨_, length_pos_iff.mpr hne, hlen, rfl, by simp [hprev], digits, post, hpost.symm, rfl,
          hrun, hend, h⟩
      · cases h
    · rintro ⟨k, hpos, hk, rfl, hprev, run, post, rfl, hlen, hrun, hpost, hn⟩
      have hne : run ≠ [] := length_pos_iff.mp (hpos.trans_eq hlen.symm)
      rw [takeWhile_run hrun (hlen.trans_le hk) hpost] at hdigits
      rw [hdigits, drop_left, if_neg hpost, if_pos, parseU64_run hne hrun (hlen.trans_le hk), hn]
      · simp
      · obtain ⟨d, run, rfl⟩ := exists_cons_of_ne_nil hne
        simp_all

lemma mem_destutter {l : List ℕ} : n ∈ l.destutter (· ≠ ·) ↔ n ∈ l := by
  refine ⟨fun h => (destutter_sublist _ _).subset h, ?_⟩
  rcases l with _ | ⟨a, l⟩
  · exact id
  · rw [destutter_cons']
    induction l generalizing a with
    | nil => exact id
    | cons b l ih =>
      rw [destutter'_cons]
      split_ifs with hab
      · rintro (_ | ⟨_, hn⟩)
        · exact mem_cons_self
        · exact mem_cons_of_mem a (ih b hn)
      · obtain rfl := not_not.mp hab
        exact fun hn => ih a (by simpa using hn)

/-- The scanner is exact on a text if and only if what it mentions with eleven digits is also
mentioned with at most ten. -/
theorem extractMentions_exact_iff (text : Str) :
    ((extractMentions text).Pairwise (· < ·) ∧ ∀ n, n ∈ extractMentions text ↔ Mentioned text n) ↔
      ∀ n, Mentions 11 none (Utf8.encode text) n → Mentioned text n := by
  have hmem : ∀ n, n ∈ extractMentions text ↔ n ∈ mentionsFrom none (Utf8.encode text) := by
    intro n
    rw [extractMentions, mem_destutter, mem_mergeSort]
  have hle : (extractMentions text).Pairwise (· ≤ ·) :=
    (pairwise_mergeSort' (· ≤ ·) _).sublist (destutter_sublist _ _)
  have hsorted : (extractMentions text).Pairwise (· < ·) := by
    refine isChain_iff_pairwise.mp (isChain_iff_getElem.mpr fun i hi => ?_)
    exact lt_of_le_of_ne (pairwise_iff_getElem.mp hle i (i + 1) _ hi (Nat.lt_succ_self i))
      (isChain_iff_getElem.mp (isChain_destutter _ _) i hi)
  rw [and_iff_right hsorted]
  simp only [hmem, mem_mentionsFrom]
  constructor
  · intro h n hn
    exact (h n).mp ⟨11, by decide, le_rfl, hn⟩
  · rintro h n
    constructor
    · rintro ⟨k, hpos, hk, hn⟩
      rcases hk.lt_or_eq with hlt | rfl
      · exact ⟨k, hpos, Nat.le_of_lt_succ hlt, hn⟩
      · exact h n hn
    · rintro ⟨k, hpos, hk, hn⟩
      exact ⟨k, hpos, hk.trans (by decide), hn⟩

/-- A number of eleven digits is taken for a mention. -/
theorem eleven_digits_mentioned : 12345678901 ∈ extractMentions "#12345678901" ∧
    ¬ Mentioned "#12345678901" 12345678901 := by
  constructor
  · rw [extractMentions, mem_destutter, mem_mergeSort]
    decide +kernel
  · rintro ⟨k, -, hk, pre, run, post, hsplit, rfl, -, -, hpost, -⟩
    rcases pre with _ | ⟨p, pre⟩
    · have hpost' : post = (Utf8.encode "12345678901").drop run.length := by
        rw [← @drop_left _ run post]
        exact congrArg (drop run.length) (cons.inj hsplit).2.symm
      rw [hpost'] at hpost
      interval_cases run.length <;> revert hpost <;> decide +kernel
    · have hmem : 0x23 ∈ Utf8.encode "12345678901" := by
        rw [show Utf8.encode "12345678901" = _ from (cons.inj hsplit).2]
        exact mem_append_right pre mem_cons_self
      revert hmem
      decide +kernel

end Gyt.Issue
