import Gyt.Merge.Lines

/-!
# Runs of the line merge

When the loop of `merge_lines` ends, and what exchanging the two sides and rendering do.

The loop goes to the base lines that are `Met`: from a line without an edit to the next one, and
from an edit to the end of the lines that it deletes.  An edit that deletes no line does not move
it, so the merge ends if and only if it meets no such edit before the end of the base
(`mergeLines_terminates_iff`).  Everything that the loop does is the same for the two sides
(`mergeLines_swap`).  Rendering ends every line with a line end, also the last one
(`renderWithMarkers_oneSided_iff`).
-/

namespace Gyt.Merge3

open List Option Diff Relation

section Termination

variable {α : Type}

/-- The base lines at which the loop looks for edits, if every edit moves it. -/
inductive Met (oursEdits theirsEdits : List (Edit α)) : ℕ → Prop
  | start : Met oursEdits theirsEdits 0
  | next {i : ℕ} (h : Met oursEdits theirsEdits i) :
      Met oursEdits theirsEdits
        (i + max 1 (max (editAt oursEdits i).1 (editAt theirsEdits i).1))

/-- Lines are inserted in front of a base line, and neither side deletes a line there. -/
structure OnlyInserts (oursEdits theirsEdits : List (Edit α)) (i : ℕ) : Prop where
  changed : ¬ (editAt oursEdits i = (0, []) ∧ editAt theirsEdits i = (0, []))
  ours : (editAt oursEdits i).1 = 0
  theirs : (editAt theirsEdits i).1 = 0

variable [DecidableEq α] {base : List α} {oursEdits theirsEdits : List (Edit α)}
  {st st' r : MergeState α} {fuel : ℕ}

/-- Where an iteration goes. -/
lemma i_of_mergeStep (h : mergeStep base oursEdits theirsEdits st = some st') :
    st'.i = st.i + if editAt oursEdits st.i = (0, []) ∧ editAt theirsEdits st.i = (0, []) then 1
      else max (editAt oursEdits st.i).1 (editAt theirsEdits st.i).1 := by
  unfold mergeStep at h
  dsimp only at h
  split_ifs at h with hneither htheirs hours hsame hend
  · obtain ⟨line, -, hst⟩ := bind_eq_some_iff.mp h
    cases hst
    rw [if_pos hneither]
  all_goals
    cases h
    rw [if_neg hneither]

/-- At an edit that deletes nothing the loop stays for ever. -/
lemma mergeLoop_of_onlyInserts (hst : OnlyInserts oursEdits theirsEdits st.i)
    (hlt : st.i < base.length) : mergeLoop base oursEdits theirsEdits fuel st = none := by
  induction fuel generalizing st with
  | zero => rw [mergeLoop, if_pos hlt]
  | succ fuel ih =>
    rw [mergeLoop, if_pos hlt]
    cases hstep : mergeStep base oursEdits theirsEdits st with
    | none => rfl
    | some st' =>
      have hsame : st'.i = st.i := by
        rw [i_of_mergeStep hstep, if_neg hst.changed, hst.ours, hst.theirs]
        rfl
      exact ih (hsame ▸ hst) (hsame ▸ hlt)

/-- Any other iteration goes to the next line that is met. -/
lemma i_of_moves (hst : ¬ OnlyInserts oursEdits theirsEdits st.i)
    (h : mergeStep base oursEdits theirsEdits st = some st') :
    st'.i = st.i + max 1 (max (editAt oursEdits st.i).1 (editAt theirsEdits st.i).1) := by
  rw [i_of_mergeStep h]
  split_ifs with hneither
  · rw [hneither.1, hneither.2]
    rfl
  · have hpos : ¬ ((editAt oursEdits st.i).1 = 0 ∧ (editAt theirsEdits st.i).1 = 0) :=
      fun hzero => hst ⟨hneither, hzero.1, hzero.2⟩
    omega

omit [DecidableEq α] in
/-- No edit at a base line goes past the end of the base. -/
lemma Separated.editAt_le {edits : List (Edit α)} {n i : ℕ} (h : Separated edits n) (hi : i ≤ n) :
    i + (editAt edits i).1 ≤ n := by
  rcases Nat.eq_zero_or_pos (editAt edits i).1 with hzero | hpos
  · omega
  · obtain ⟨e, he, hstart, hdel⟩ := exists_of_editAt hpos
    have hend := h.end_le e he
    omega

section

variable (hours : Separated oursEdits base.length) (htheirs : Separated theirsEdits base.length)

include hours htheirs

/-- An iteration does not fail. -/
lemma exists_mergeStep (hlt : st.i < base.length) :
    ∃ st', mergeStep base oursEdits theirsEdits st = some st' := by
  have hend : st.i + max (editAt oursEdits st.i).1 (editAt theirsEdits st.i).1 ≤ base.length := by
    have hours' := hours.editAt_le hlt.le
    have htheirs' := htheirs.editAt_le hlt.le
    omega
  unfold mergeStep
  dsimp only
  rw [getElem?_eq_getElem hlt]
  split_ifs
  all_goals exact ⟨_, rfl⟩

/-- A loop that meets only edits that move it ends, after at most one iteration for every line. -/
lemma exists_mergeLoop_of_met (hmoves : ∀ i < base.length, Met oursEdits theirsEdits i →
      ¬ OnlyInserts oursEdits theirsEdits i)
    (hmet : Met oursEdits theirsEdits st.i) (hfuel : base.length ≤ st.i + fuel) :
    ∃ r, mergeLoop base oursEdits theirsEdits fuel st = some r := by
  induction fuel generalizing st with
  | zero =>
    have hend : ¬ st.i < base.length := by omega
    exact ⟨st, by rw [mergeLoop, if_neg hend]⟩
  | succ fuel ih =>
    rw [mergeLoop]
    split_ifs with hlt
    · obtain ⟨st', hstep⟩ := exists_mergeStep hours htheirs hlt
      have hi := i_of_moves (hmoves st.i hlt hmet) hstep
      have hmet' : Met oursEdits theirsEdits st'.i := hi ▸ hmet.next
      obtain ⟨r, hr⟩ := ih hmet' (by omega)
      exact ⟨r, by rw [hstep]; exact hr⟩
    · exact ⟨st, rfl⟩

end

/-- The edit at which a loop that ends arrives moves it. -/
lemma not_onlyInserts_of_mergeLoop (h : mergeLoop base oursEdits theirsEdits fuel st = some r)
    (hlt : st.i < base.length) : ¬ OnlyInserts oursEdits theirsEdits st.i := by
  intro hst
  rw [mergeLoop_of_onlyInserts hst hlt] at h
  cases h

/-- A loop that ends meets every line before the end of the base that is met. -/
lemma exists_reaches_of_met (hours : Separated oursEdits base.length)
    (htheirs : Separated theirsEdits base.length)
    (h : mergeLoop base oursEdits theirsEdits fuel mergeStart = some r) {i : ℕ}
    (hmet : Met oursEdits theirsEdits i) (hlt : i < base.length) :
    ∃ st, ReflTransGen (LoopStep base oursEdits theirsEdits) mergeStart st ∧ st.i = i := by
  induction hmet with
  | start => exact ⟨mergeStart, .refl, rfl⟩
  | next hmet ih =>
    obtain ⟨st, hreach, rfl⟩ := ih (by omega)
    have hlt' : st.i < base.length := by omega
    obtain ⟨st', hstep⟩ := exists_mergeStep hours htheirs hlt'
    obtain ⟨fuel', hloop⟩ := mergeLoop_of_reaches h hreach
    exact ⟨st', hreach.tail ⟨hlt', hstep⟩,
      i_of_moves (not_onlyInserts_of_mergeLoop hloop hlt') hstep⟩

/-- The states that a loop which ends goes through are at lines that are met. -/
lemma met_of_reaches (h : mergeLoop base oursEdits theirsEdits fuel mergeStart = some r)
    (hreach : ReflTransGen (LoopStep base oursEdits theirsEdits) mergeStart st) :
    Met oursEdits theirsEdits st.i := by
  induction hreach with
  | refl => exact .start
  | tail hreach hstep ih =>
    obtain ⟨fuel', hloop⟩ := mergeLoop_of_reaches h hreach
    rw [i_of_moves (not_onlyInserts_of_mergeLoop hloop hstep.1) hstep.2]
    exact ih.next

/-- The loop ends if and only if it meets only edits that move it. -/
lemma exists_mergeLoop_iff (hours : Separated oursEdits base.length)
    (htheirs : Separated theirsEdits base.length) :
    (∃ fuel r, mergeLoop base oursEdits theirsEdits fuel mergeStart = some r) ↔
      ∀ i < base.length, Met oursEdits theirsEdits i → ¬ OnlyInserts oursEdits theirsEdits i := by
  constructor
  · rintro ⟨fuel, r, h⟩ i hlt hmet
    obtain ⟨st, hreach, rfl⟩ := exists_reaches_of_met hours htheirs h hmet hlt
    obtain ⟨fuel', hloop⟩ := mergeLoop_of_reaches h hreach
    exact not_onlyInserts_of_mergeLoop hloop hlt
  · intro hmoves
    have hstart : Met oursEdits theirsEdits (mergeStart : MergeState α).i := .start
    have hfuel : base.length ≤ (mergeStart : MergeState α).i + base.length := Nat.le_add_left _ _
    obtain ⟨r, hr⟩ := exists_mergeLoop_of_met hours htheirs hmoves hstart hfuel
    exact ⟨base.length, r, hr⟩

lemma exists_editsOf (a b : List α) : ∃ edits, editsOf a b = some edits := by
  obtain ⟨ops, hops, -⟩ := myers_spec a b
  exact ⟨walkEdits ops, by rw [editsOf, hops]; rfl⟩

/-- Past the fast paths the merge is the loop and the lines at the end. -/
lemma mergeLineLists_eq {ours theirs : List α} (ho : editsOf base ours = some oursEdits)
    (ht : editsOf base theirs = some theirsEdits) : mergeLineLists fuel base ours theirs =
      (mergeLoop base oursEdits theirsEdits fuel mergeStart).map fun st =>
        mergeTail (editAt oursEdits base.length).2 (editAt theirsEdits base.length).2
          (flush st.chunks st.bufUnchanged) st.clean := by
  rw [mergeLineLists, ho, ht]
  exact map_eq_bind.symm

end Termination

/-- The two sides are different from one another and from the base. -/
structure PastFastPaths (base ours theirs : Bytes) : Prop where
  sides : ours ≠ theirs
  ours : base ≠ ours
  theirs : base ≠ theirs

lemma mergeLines_of_past {base ours theirs : Bytes} (h : PastFastPaths base ours theirs)
    (fuel : ℕ) : mergeLines fuel base ours theirs = mergeLineLists fuel (splitLines base)
      (splitLines ours) (splitLines theirs) := by
  rw [mergeLines, if_neg h.sides, if_neg h.ours, if_neg h.theirs]

/-- The merge of three files ends if and only if it is one of the fast paths or meets no edit before
the end of the base that only inserts lines. -/
theorem mergeLines_terminates_iff (base ours theirs : Bytes) :
    (∃ fuel m, mergeLines fuel base ours theirs = some m) ↔
      (PastFastPaths base ours theirs → ∀ oursEdits theirsEdits,
        editsOf (splitLines base) (splitLines ours) = some oursEdits →
        editsOf (splitLines base) (splitLines theirs) = some theirsEdits →
        ∀ i < (splitLines base).length, Met oursEdits theirsEdits i →
          ¬ OnlyInserts oursEdits theirsEdits i) := by
  by_cases hpast : PastFastPaths base ours theirs
  · obtain ⟨oursEdits, ho⟩ := exists_editsOf (splitLines base) (splitLines ours)
    obtain ⟨theirsEdits, ht⟩ := exists_editsOf (splitLines base) (splitLines theirs)
    have hloop := exists_mergeLoop_iff (separated_editsOf ho) (separated_editsOf ht)
    simp only [mergeLines_of_past hpast, mergeLineLists_eq ho ht, map_eq_some_iff]
    constructor
    · rintro ⟨fuel, m, st, hst, -⟩ - oursEdits' theirsEdits' ho' ht'
      cases ho.symm.trans ho'
      cases ht.symm.trans ht'
      exact hloop.mp ⟨fuel, st, hst⟩
    · intro hmoves
      obtain ⟨fuel, st, hst⟩ := hloop.mpr (hmoves hpast oursEdits theirsEdits ho ht)
      exact ⟨fuel, _, st, hst, rfl⟩
  · refine iff_of_true ?_ fun hpast' => absurd hpast' hpast
    refine ⟨0, ?_⟩
    unfold mergeLines
    split_ifs with hsides hours htheirs
    · exact ⟨_, rfl⟩
    · exact ⟨_, rfl⟩
    · exact ⟨_, rfl⟩
    · exact absurd ⟨hsides, hours, htheirs⟩ hpast

/-- Ours inserts a line in front of the only line of the base, and theirs after it: the merge does
not end. -/
theorem insertion_never_ends :
    ¬ ∃ fuel m, mergeLines fuel (textOf "a") (textOf "Xa") (textOf "aY") = some m := by
  rintro ⟨fuel, m, h⟩
  have hpast : PastFastPaths (textOf "a") (textOf "Xa") (textOf "aY") :=
    ⟨by decide, by decide, by decide⟩
  have ho : editsOf (splitLines (textOf "a")) (splitLines (textOf "Xa")) =
      some [⟨0, 0, [[88]]⟩] := by decide +kernel
  have ht : editsOf (splitLines (textOf "a")) (splitLines (textOf "aY")) =
      some [⟨1, 0, [[89]]⟩] := by decide +kernel
  rw [mergeLines_of_past hpast, mergeLineLists_eq ho ht, mergeLoop_of_onlyInserts] at h
  · cases h
  · exact ⟨by decide, by decide, by decide⟩
  · decide

/-! ## Exchanging the sides -/

section Swap

variable {α : Type}

def MergeChunk.swap : MergeChunk α → MergeChunk α
  | .unchanged lines => .unchanged lines
  | .conflict ours baseLines theirs => .conflict theirs baseLines ours

/-- A merge with the two sides of every conflict exchanged. -/
def LineMerge.swap (m : LineMerge α) : LineMerge α := ⟨m.chunks.map .swap, m.clean⟩

/-- The variables of the loop with the two sides of every conflict exchanged. -/
def MergeState.swap (st : MergeState α) : MergeState α :=
  ⟨st.i, st.chunks.map .swap, st.bufUnchanged, st.clean⟩

lemma flush_swap (chunks : List (MergeChunk α)) (buf : List α) :
    flush (chunks.map .swap) buf = (flush chunks buf).map .swap := by
  unfold flush
  split_ifs
  · rfl
  · simp [MergeChunk.swap]

variable [DecidableEq α] {base : List α} {oursEdits theirsEdits : List (Edit α)}

/-- An iteration does the same for the two sides. -/
lemma mergeStep_swap (st : MergeState α) : mergeStep base theirsEdits oursEdits st.swap =
    (mergeStep base oursEdits theirsEdits st).map .swap := by
  obtain ⟨i, chunks, buf, clean⟩ := st
  unfold mergeStep MergeState.swap
  dsimp only
  rw [flush_swap, Nat.max_comm]
  by_cases hours : editAt oursEdits i = (0, []) <;>
    by_cases htheirs : editAt theirsEdits i = (0, [])
  · -- Neither side has an edit, and the line is copied.
    rw [if_pos ⟨htheirs, hours⟩, if_pos ⟨hours, htheirs⟩]
    cases base[i]? <;> rfl
  · simp only [hours, htheirs, and_false, false_and, if_true, if_false]
    simp [MergeChunk.swap]
  · simp only [hours, htheirs, and_false, false_and, if_true, if_false]
    simp [MergeChunk.swap]
  · -- Both sides have one: it is the same, or this is a conflict.
    simp only [hours, htheirs, and_false, if_false]
    by_cases hsame : (editAt oursEdits i).2 = (editAt theirsEdits i).2 ∧
        (editAt oursEdits i).1 = (editAt theirsEdits i).1
    · rw [if_pos ⟨hsame.1.symm, hsame.2.symm⟩, if_pos hsame, hsame.1]
      simp [MergeChunk.swap]
    · rw [if_neg fun h => hsame ⟨h.1.symm, h.2.symm⟩, if_neg hsame]
      split_ifs
      · simp [MergeChunk.swap]
      · rfl

lemma mergeLoop_swap (fuel : ℕ) (st : MergeState α) :
    mergeLoop base theirsEdits oursEdits fuel st.swap =
      (mergeLoop base oursEdits theirsEdits fuel st).map .swap := by
  have hi : ∀ st : MergeState α, st.swap.i = st.i := fun _ => rfl
  induction fuel generalizing st with
  | zero =>
    rw [mergeLoop, mergeLoop, hi]
    split_ifs
    · rfl
    · rfl
  | succ fuel ih =>
    rw [mergeLoop, mergeLoop, hi, mergeStep_swap]
    split_ifs
    · cases mergeStep base oursEdits theirsEdits st with
      | none => rfl
      | some st' => exact ih st'
    · rfl

lemma mergeTail_swap (oursTail theirsTail : List α) (chunks : List (MergeChunk α)) (clean : Bool) :
    mergeTail theirsTail oursTail (chunks.map .swap) clean =
      (mergeTail oursTail theirsTail chunks clean).swap := by
  unfold mergeTail
  cases hours : oursTail.isEmpty <;> cases htheirs : theirsTail.isEmpty <;> dsimp only
  · by_cases hsame : oursTail = theirsTail
    · rw [if_pos hsame.symm, if_pos hsame, hsame]
      simp [LineMerge.swap, MergeChunk.swap]
    · rw [if_neg (Ne.symm hsame), if_neg hsame]
      simp [LineMerge.swap, MergeChunk.swap]
  all_goals simp [LineMerge.swap, MergeChunk.swap]

lemma mergeLineLists_swap (fuel : ℕ) (base ours theirs : List α) :
    mergeLineLists fuel base theirs ours = (mergeLineLists fuel base ours theirs).map .swap := by
  obtain ⟨oursEdits, ho⟩ := exists_editsOf base ours
  obtain ⟨theirsEdits, ht⟩ := exists_editsOf base theirs
  rw [mergeLineLists_eq ht ho, mergeLineLists_eq ho ht,
    show (mergeStart : MergeState α) = mergeStart.swap from rfl, mergeLoop_swap, Option.map_map,
    Option.map_map]
  refine congrArg (Option.map · _) (funext fun st => ?_)
  show mergeTail _ _ (flush (st.chunks.map .swap) st.bufUnchanged) st.clean = _
  rw [flush_swap, mergeTail_swap]
  rfl

end Swap

/-- Exchanging the two sides of a merge exchanges them in every conflict, and nothing else. -/
theorem mergeLines_swap (fuel : ℕ) (base ours theirs : Bytes) :
    mergeLines fuel base theirs ours = (mergeLines fuel base ours theirs).map LineMerge.swap := by
  unfold mergeLines
  by_cases hsides : ours = theirs
  · rw [if_pos hsides, if_pos hsides.symm, hsides]
    rfl
  rw [if_neg hsides, if_neg (Ne.symm hsides)]
  by_cases hours : base = ours
  · have htheirs : base ≠ theirs := fun h => hsides (hours.symm.trans h)
    rw [if_neg htheirs, if_pos hours, if_pos hours]
    rfl
  rw [if_neg hours, if_neg hours]
  by_cases htheirs : base = theirs
  · rw [if_pos htheirs, if_pos htheirs]
    rfl
  · rw [if_neg htheirs, if_neg htheirs, mergeLineLists_swap]

/-! ## Rendering -/

/-- A text whose last line is ended. -/
def terminated (text : Bytes) : Bytes :=
  if text = [] ∨ text.getLast? = some 0x0a then text else text ++ [0x0a]

lemma emitLine_of_notMem {line : Bytes} (h : 0x0a ∉ line) : emitLine line = line ++ [0x0a] := by
  rw [emitLine, if_neg]
  intro hlast
  exact h (mem_of_getLast? hlast)

lemma flatMap_emitLine_splitLinesLoop {cur : Bytes} (hcur : 0x0a ∉ cur) (rest : Bytes) :
    (splitLinesLoop cur rest).flatMap emitLine = terminated (cur ++ rest) := by
  induction rest generalizing cur with
  | nil =>
    rw [splitLinesLoop, append_nil, terminated]
    split_ifs with hnil hend hend
    · rw [hnil]
      rfl
    · exact absurd (.inl hnil) hend
    · exact absurd (mem_of_getLast? (hend.resolve_left hnil)) hcur
    · simp [emitLine_of_notMem hcur]
  | cons c rest ih =>
    rw [splitLinesLoop]
    split_ifs with hc
    · -- The line ends here, and the rest is a text of its own.
      rw [flatMap_cons, ih not_mem_nil, emitLine_of_notMem hcur, hc, nil_append]
      unfold terminated
      cases rest with
      | nil => simp
      | cons c' rest =>
        simp only [getLast?_append, getLast?_cons, reduceCtorEq, false_or,
          append_eq_nil_iff, and_false, some_or, getD_some]
        split_ifs
        · simp
        · simp
    · have hcur' : 0x0a ∉ cur ++ [c] := by
        rw [mem_append, mem_singleton, not_or]
        exact ⟨hcur, Ne.symm hc⟩
      rw [ih hcur', append_assoc]
      rfl

/-- The lines of a file, each with a line end. -/
lemma flatMap_emitLine_splitLines (text : Bytes) :
    (splitLines text).flatMap emitLine = terminated text :=
  flatMap_emitLine_splitLinesLoop not_mem_nil text

lemma terminated_eq_self_iff {text : Bytes} :
    terminated text = text ↔ text = [] ∨ text.getLast? = some 0x0a := by
  unfold terminated
  split_ifs with h
  · exact iff_of_true rfl h
  · exact iff_of_false (by simp) h

/-- The merges of a version with the base, on either side or on both, are all rendered as a text. -/
def RendersOneSided (fuel : ℕ) (base x : Bytes) (oursLabel theirsLabel : Str)
    (text : Bytes) : Prop :=
  (mergeLines fuel base base x).map (renderWithMarkers · oursLabel theirsLabel) = some text ∧
    (mergeLines fuel base x base).map (renderWithMarkers · oursLabel theirsLabel) = some text ∧
    (mergeLines fuel base x x).map (renderWithMarkers · oursLabel theirsLabel) = some text

/-- Merging gives the version that differs from the others, with a line end at its end. -/
lemma rendersOneSided_terminated (fuel : ℕ) (base x : Bytes) (oursLabel theirsLabel : Str) :
    RendersOneSided fuel base x oursLabel theirsLabel (terminated x) := by
  have hrender : ∀ clean, renderWithMarkers ⟨[.unchanged (splitLines x)], clean⟩ oursLabel
      theirsLabel = terminated x := by
    intro clean
    simp [renderWithMarkers, renderChunk, flatMap_emitLine_splitLines]
  refine ⟨?_, ?_, ?_⟩
  · unfold mergeLines
    split_ifs with hsame hbase
    · rw [map_some, hsame, hrender]
    · rw [map_some, hrender]
    · exact absurd rfl hbase
  · unfold mergeLines
    split_ifs with hsame hbase
    · rw [map_some, hrender]
    · rw [map_some, ← hbase]
      exact congrArg some (hbase ▸ hrender true)
    · rw [map_some, hrender]
    · exact absurd rfl ‹_›
  · rw [mergeLines, if_pos rfl, map_some, hrender]

/-- Merging gives the version that differs from the others byte for byte if and only if it is empty
or ends in a line end; otherwise it gives that version with one line end added. -/
theorem renderWithMarkers_oneSided_iff (fuel : ℕ) (base x : Bytes) (oursLabel theirsLabel : Str) :
    (RendersOneSided fuel base x oursLabel theirsLabel x ↔ x = [] ∨ x.getLast? = some 0x0a) ∧
      (¬ (x = [] ∨ x.getLast? = some 0x0a) →
        RendersOneSided fuel base x oursLabel theirsLabel (x ++ [0x0a])) := by
  have hterminated := rendersOneSided_terminated fuel base x oursLabel theirsLabel
  refine ⟨?_, fun hend => ?_⟩
  · obtain ⟨hours, htheirs, hboth⟩ := hterminated
    rw [RendersOneSided, hours, htheirs, hboth, some.injEq, and_self, and_self,
      terminated_eq_self_iff]
  · rwa [terminated, if_neg hend] at hterminated

/-- A file without a line end at its end gets one when the other side has not changed it. -/
theorem line_end_added :
    (mergeLines 0 [97, 10] [97, 10] [98]).map (renderWithMarkers · [] []) = some [98, 10] := by
  decide +kernel

end Gyt.Merge3
