import Gyt.Foundation.Patch
import Gyt.Diff.Minimal
import Gyt.Merge.LineRuns

/-!
# Edits as changes of the base

The edits of a side turn the base into that side (`applyEdits_editsOf`).  The merge of edits that
are apart from one another is the base with the edits of both sides made (`mergeLines_of_apart`);
the loop keeps the lines so far together with the edits that are ahead of it (`Merging`).

A conflict shows for each side the lines that its edit inserts, but it spans the lines that either
side deletes there.  So it shows what a side has in place of these lines if and only if both sides
delete the same number of them (`conflicts_show_sides_iff`).
-/

namespace Gyt.Merge3

open List Option Nat Diff Relation Patch

section Apply

variable {α : Type}

def Edit.toChange (e : Edit α) : Change α := ⟨e.start, e.del, e.ins⟩

/-- The lines of the base from position `pos` on, with edits applied. -/
def applyEdits (pos : ℕ) (rest : List α) (edits : List (Edit α)) : List α :=
  apply pos rest (edits.map Edit.toChange)

variable {pos n : ℕ} {rest : List α} {e : Edit α} {edits : List (Edit α)}

@[simp] lemma applyEdits_nil (pos : ℕ) (rest : List α) : applyEdits pos rest [] = rest := rfl

lemma applyEdits_of_start_eq (h : e.start = pos) :
    applyEdits pos rest (e :: edits) = e.ins ++ applyEdits (pos + e.del) (rest.drop e.del) edits :=
  apply_of_start_eq h

lemma applyEdits_append_of_le (xs : List α) (h : ∀ e ∈ edits, pos + xs.length ≤ e.start) :
    applyEdits pos (xs ++ rest) edits = xs ++ applyEdits (pos + xs.length) rest edits := by
  refine apply_append_of_le xs ?_
  intro c hc
  obtain ⟨e, he, rfl⟩ := mem_map.mp hc
  exact h e he

lemma applyEdits_cons_of_lt {x : α} (h : ∀ e ∈ edits, pos < e.start) :
    applyEdits pos (x :: rest) edits = x :: applyEdits (pos + 1) rest edits :=
  applyEdits_append_of_le [x] h

/-- The edits of the rest of a script turn its old lines into its new ones.  A run that is being
collected has passed the lines that it deletes. -/
lemma applyEdits_walkEditsLoop (run : Option (Edit α)) (pos : ℕ) (passed : List α)
    (ops : Script α) (hnone : run = none → passed = [])
    (hsome : ∀ e, run = some e → e.start + e.del = pos ∧ passed.length = e.del) :
    applyEdits (nextStart run pos) (passed ++ oldLines ops) (walkEditsLoop run pos ops) =
      run.elim [] Edit.ins ++ newLines ops := by
  induction ops generalizing run pos passed with
  | nil =>
    cases run with
    | none => rw [hnone rfl]; rfl
    | some e =>
      obtain ⟨-, hlen⟩ := hsome e rfl
      have hdrop : (passed ++ oldLines ([] : Script α)).drop e.del = [] := by
        rw [show oldLines ([] : Script α) = [] from rfl, append_nil,
          drop_eq_nil_of_le hlen.le]
      show applyEdits e.start _ [e] = e.ins ++ []
      rw [applyEdits_of_start_eq rfl, hdrop]
      rfl
  | cons op ops ih =>
    cases op with
    | equal l =>
      have hrest := ih none (pos + 1) [] (fun _ => rfl) (by simp)
      have hlater : ∀ e ∈ walkEditsLoop none (pos + 1) ops, pos < e.start :=
        (separated_walkEditsLoop none (pos + 1) (by simp) rfl).2
      have hkept : applyEdits pos (l :: oldLines ops) (walkEditsLoop none (pos + 1) ops) =
          l :: newLines ops := by
        rw [applyEdits_cons_of_lt hlater]
        exact congrArg (l :: ·) hrest
      cases run with
      | none =>
        rw [hnone rfl]
        exact hkept
      | some e =>
        -- The run ends, and the lines that it deletes are behind it.
        obtain ⟨hpos, hlen⟩ := hsome e rfl
        show applyEdits e.start _ (e :: _) = e.ins ++ _
        rw [applyEdits_of_start_eq rfl, drop_left' hlen, hpos]
        exact congrArg (e.ins ++ ·) hkept
    | delete l =>
      have hold : oldLines (.delete l :: ops) = [l] ++ oldLines ops := rfl
      cases run with
      | none =>
        rw [hnone rfl]
        exact ih (some ⟨pos, 1, []⟩) (pos + 1) [l] (by simp) (by simp)
      | some e =>
        obtain ⟨hpos, hlen⟩ := hsome e rfl
        rw [hold, ← append_assoc]
        refine ih (some { e with del := e.del + 1 }) (pos + 1) (passed ++ [l]) (by simp) ?_
        rintro e' ⟨⟩
        simp only [length_append, length_singleton]
        omega
    | insert l =>
      cases run with
      | none =>
        rw [hnone rfl]
        exact ih (some ⟨pos, 0, [l]⟩) pos [] (by simp) (by simp)
      | some e =>
        obtain ⟨hpos, hlen⟩ := hsome e rfl
        refine (ih (some { e with ins := e.ins ++ [l] }) pos passed (by simp) ?_).trans
          (append_assoc _ _ _)
        rintro e' ⟨⟩
        exact ⟨hpos, hlen⟩

/-- The edits of a side turn the base into that side. -/
theorem applyEdits_editsOf [DecidableEq α] {a b : List α} (h : editsOf a b = some edits) :
    applyEdits 0 a edits = b := by
  obtain ⟨ops, hops, hold, hnew⟩ := myers_spec a b
  rw [editsOf, hops, map_some, some.injEq] at h
  have hall := applyEdits_walkEditsLoop none 0 [] ops (fun _ => rfl) (by simp)
  rw [nil_append, hold, hnew] at hall
  rw [← h]
  exact hall

end Apply

/-! ## Edits that are apart -/

section Separate

variable {α : Type}

/-- The edits of the two sides of `n` base lines: those before the end delete something, no line is
deleted by both sides, and not both sides have lines after the end. -/
structure Apart (n : ℕ) (oursEdits theirsEdits : List (Edit α)) : Prop where
  deletes : ∀ e, e ∈ oursEdits ∨ e ∈ theirsEdits → e.start < n → 0 < e.del
  disjoint : ∀ e ∈ oursEdits, ∀ e' ∈ theirsEdits, ∀ x, e.start ≤ x → x < e.start + e.del →
    ¬ (e'.start ≤ x ∧ x < e'.start + e'.del)
  tail : ¬ ((∃ e ∈ oursEdits, e.start = n) ∧ ∃ e ∈ theirsEdits, e.start = n)

/-- The order of edits in the base. -/
def Edit.NotAfter (e e' : Edit α) : Prop := e.start ≤ e'.start

instance : DecidableRel (Edit.NotAfter (α := α)) := fun e e' => Nat.decLe e.start e'.start

instance : Std.Total (Edit.NotAfter (α := α)) := ⟨fun e e' => Nat.le_total e.start e'.start⟩

instance : IsTrans (Edit α) Edit.NotAfter := ⟨fun _ _ _ h h' => Nat.le_trans h h'⟩

/-- Edits in the order of the base. -/
def byStart (edits : List (Edit α)) : List (Edit α) := edits.insertionSort Edit.NotAfter

/-- An edit is before another one, and they have no line in common. -/
structure Edit.Before (e e' : Edit α) : Prop where
  start_lt : e.start < e'.start
  end_le : e.start + e.del ≤ e'.start

variable {n i : ℕ} {e : Edit α} {edits oursEdits theirsEdits all : List (Edit α)}

/-- The edits of the two sides, which are apart. -/
structure ApartSides (n : ℕ) (oursEdits theirsEdits : List (Edit α)) : Prop
    extends Apart n oursEdits theirsEdits where
  ours : Separated oursEdits n
  theirs : Separated theirsEdits n

lemma Separated.pairwise_before (h : Separated edits n) : edits.Pairwise Edit.Before := by
  refine h.pairwise.imp ?_
  intro e e' hlt
  exact ⟨by omega, by omega⟩

/-- Of an edit of ours and one of theirs, one is before the other. -/
lemma ApartSides.before {e' : Edit α} (h : ApartSides n oursEdits theirsEdits)
    (he : e ∈ oursEdits) (he' : e' ∈ theirsEdits) : e.Before e' ∨ e'.Before e := by
  have hend := h.ours.end_le e he
  have hend' := h.theirs.end_le e' he'
  have hdel := h.deletes e (.inl he)
  have hdel' := h.deletes e' (.inr he')
  by_cases htail : e.start = n
  · have hlt : e'.start ≠ n := fun htail' => h.tail ⟨⟨e, he, htail⟩, e', he', htail'⟩
    exact .inr ⟨by omega, by omega⟩
  by_cases htail' : e'.start = n
  · exact .inl ⟨by omega, by omega⟩
  rcases le_total e.start e'.start with hle | hle
  · have hstart := h.disjoint e he e' he' e'.start hle
    exact .inl ⟨by omega, by omega⟩
  · have hstart := h.disjoint e he e' he' e.start (le_refl _) (by omega)
    exact .inr ⟨by omega, by omega⟩

lemma ApartSides.start_ne {e' : Edit α} (h : ApartSides n oursEdits theirsEdits)
    (he : e ∈ oursEdits) (he' : e' ∈ theirsEdits) : e.start ≠ e'.start := by
  rcases h.before he he' with hbefore | hbefore
  · exact hbefore.start_lt.ne
  · exact hbefore.start_lt.ne'

/-- In the order of the base, each edit is before the next ones. -/
lemma ApartSides.pairwise_byStart (h : ApartSides n oursEdits theirsEdits) :
    (byStart (oursEdits ++ theirsEdits)).Pairwise Edit.Before := by
  have happend : (oursEdits ++ theirsEdits).Pairwise fun e e' => e.Before e' ∨ e'.Before e :=
    pairwise_append.mpr ⟨h.ours.pairwise_before.imp .inl, h.theirs.pairwise_before.imp .inl,
      fun e he e' he' => h.before he he'⟩
  have hperm := perm_insertionSort Edit.NotAfter (oursEdits ++ theirsEdits)
  have hsorted := pairwise_insertionSort Edit.NotAfter (oursEdits ++ theirsEdits)
  refine ((hperm.pairwise_iff fun hor => hor.symm).mpr happend |>.and hsorted).imp ?_
  rintro e e' ⟨hbefore | hafter, hle⟩
  · exact hbefore
  · exact absurd hle (not_le.mpr hafter.start_lt)

/-- There is only one order in which each edit is before the next ones. -/
lemma byStart_eq (hall : all.Perm edits) (hsorted : all.Pairwise Edit.Before)
    (hbyStart : (byStart edits).Pairwise Edit.Before) : byStart edits = all := by
  refine Perm.eq_of_pairwise ?_ hbyStart hsorted
    ((perm_insertionSort Edit.NotAfter edits).trans hall.symm)
  intro e e' _ _ hbefore hafter
  exact absurd hbefore.start_lt (lt_asymm hafter.start_lt)

/-- The edits that the loop has in front of it. -/
structure Ahead (oursEdits theirsEdits : List (Edit α)) (i : ℕ) (ahead : List (Edit α)) :
    Prop where
  pairwise : ahead.Pairwise Edit.Before
  le_start : ∀ e ∈ ahead, i ≤ e.start
  mem_iff : ∀ e, i ≤ e.start → (e ∈ ahead ↔ e ∈ oursEdits ∨ e ∈ theirsEdits)

lemma ApartSides.ahead_byStart (h : ApartSides n oursEdits theirsEdits) :
    Ahead oursEdits theirsEdits 0 (byStart (oursEdits ++ theirsEdits)) := by
  refine ⟨h.pairwise_byStart, fun e _ => zero_le _, ?_⟩
  intro e _
  rw [byStart, (perm_insertionSort Edit.NotAfter _).mem_iff, mem_append]

lemma editAt_of_no_start (h : ∀ e ∈ edits, e.start ≠ i) : editAt edits i = (0, []) := by
  have hfind : edits.find? (·.start == i) = none := by
    rw [find?_eq_none]
    intro e he
    simpa using h e he
  rw [editAt, hfind]

/-- No edit starts at the line. -/
lemma Ahead.editAt_of_lt {ahead : List (Edit α)} (h : Ahead oursEdits theirsEdits i ahead)
    (hlt : ∀ e ∈ ahead, i < e.start) :
    editAt oursEdits i = (0, []) ∧ editAt theirsEdits i = (0, []) := by
  have hnone : ∀ e, e ∈ oursEdits ∨ e ∈ theirsEdits → e.start ≠ i := by
    intro e he hstart
    have hmem := (h.mem_iff e hstart.ge).mpr he
    exact absurd (hlt e hmem) (by omega)
  exact ⟨editAt_of_no_start fun e he => hnone e (.inl he),
    editAt_of_no_start fun e he => hnone e (.inr he)⟩

/-- The two edits at a line where the next edit of one side starts: the edit is found, and the other
side has none. -/
structure OneSided (ours theirs : ℕ × List α) (e : Edit α) : Prop where
  none : ours = (0, []) ∨ theirs = (0, [])
  del : max ours.1 theirs.1 = e.del
  ins : ours.2 ++ theirs.2 = e.ins

lemma oneSided_editAt {ahead : List (Edit α)} (hapart : ApartSides n oursEdits theirsEdits)
    (h : Ahead oursEdits theirsEdits i (e :: ahead)) (hstart : e.start = i) :
    OneSided (editAt oursEdits i) (editAt theirsEdits i) e := by
  rcases (h.mem_iff e hstart.ge).mp mem_cons_self with he | he
  · have htheirs' : editAt theirsEdits i = (0, []) := editAt_of_no_start fun e' he' hstart' =>
      hapart.start_ne he he' (hstart.trans hstart'.symm)
    rw [← hstart, hapart.ours.editAt_start he, hstart, htheirs']
    exact ⟨.inr rfl, max_eq_left (zero_le _), append_nil _⟩
  · have hours' : editAt oursEdits i = (0, []) := editAt_of_no_start fun e' he' hstart' =>
      hapart.start_ne he' he (hstart'.trans hstart.symm)
    rw [← hstart, hapart.theirs.editAt_start he, hstart, hours']
    exact ⟨.inl rfl, max_eq_right (zero_le _), rfl⟩

/-- The edit that starts at the line is the first one ahead. -/
lemma Ahead.exists_head {ahead : List (Edit α)} (h : Ahead oursEdits theirsEdits i ahead)
    (hnext : ¬ ∀ e ∈ ahead, i < e.start) : ∃ e rest, ahead = e :: rest ∧ e.start = i := by
  obtain ⟨e', he', hle⟩ := not_forall₂.mp hnext
  obtain _ | ⟨e, rest⟩ := ahead
  · exact absurd he' not_mem_nil
  · have hge := h.le_start e mem_cons_self
    refine ⟨e, rest, rfl, ?_⟩
    rcases mem_cons.mp he' with rfl | hrest
    · omega
    · have hlt := ((pairwise_cons.mp h.pairwise).1 e' hrest).start_lt
      omega

/-- What is ahead after the next edit. -/
lemma Ahead.tail {ahead : List (Edit α)} (h : Ahead oursEdits theirsEdits i (e :: ahead))
    (hstart : e.start = i) (hdel : 0 < e.del) : Ahead oursEdits theirsEdits (i + e.del) ahead := by
  obtain ⟨hbefore, hpairwise⟩ := pairwise_cons.mp h.pairwise
  refine ⟨hpairwise, ?_, ?_⟩
  · intro e' he'
    rw [← hstart]
    exact (hbefore e' he').end_le
  · intro e' hle
    have hne : e' ≠ e := by
      rintro rfl
      omega
    rw [← h.mem_iff e' (by omega), mem_cons, or_iff_right hne]

def unchangedLines (chunks : List (MergeChunk α)) : List α :=
  chunks.flatMap fun
    | .unchanged lines => lines
    | .conflict _ _ _ => []

@[simp] lemma unchangedLines_append (chunks chunks' : List (MergeChunk α)) :
    unchangedLines (chunks ++ chunks') = unchangedLines chunks ++ unchangedLines chunks' :=
  flatMap_append

@[simp] lemma unchangedLines_unchanged (lines : List α) :
    unchangedLines [.unchanged lines] = lines := append_nil lines

lemma unchangedLines_flush (chunks : List (MergeChunk α)) (buf : List α) :
    unchangedLines (flush chunks buf) = unchangedLines chunks ++ buf := by
  unfold flush
  split_ifs with hnil
  · rw [hnil, append_nil]
  · simp

variable [DecidableEq α] {base : List α} {st : MergeState α}

lemma mergeStep_of_neither {line : α} {rest : List α} (hline : base.drop st.i = line :: rest)
    (h : editAt oursEdits st.i = (0, []) ∧ editAt theirsEdits st.i = (0, [])) :
    mergeStep base oursEdits theirsEdits st =
      some { st with bufUnchanged := st.bufUnchanged ++ [line], i := st.i + 1 } := by
  have hget : base[st.i]? = some line := by
    rw [← add_zero st.i, ← getElem?_drop, hline]
    rfl
  unfold mergeStep
  dsimp only
  rw [if_pos h, hget]
  rfl

lemma mergeStep_of_oneSided (h : OneSided (editAt oursEdits st.i) (editAt theirsEdits st.i) e)
    (hdel : 0 < e.del) : mergeStep base oursEdits theirsEdits st =
      some ⟨st.i + e.del, flush st.chunks st.bufUnchanged ++ [.unchanged e.ins], [], st.clean⟩ := by
  obtain ⟨hnone, hmax, hins⟩ := h
  have hneither : ¬ (editAt oursEdits st.i = (0, []) ∧ editAt theirsEdits st.i = (0, [])) := by
    rintro ⟨hours, htheirs⟩
    rw [hours, htheirs] at hmax
    exact absurd hmax hdel.ne
  unfold mergeStep
  dsimp only
  rw [if_neg hneither, hmax]
  by_cases htheirs : editAt theirsEdits st.i = (0, [])
  · rw [htheirs, append_nil] at hins
    rw [if_pos htheirs, hins]
  · have hours : editAt oursEdits st.i = (0, []) := hnone.resolve_right htheirs
    rw [hours, nil_append] at hins
    rw [if_neg htheirs, if_pos hours, hins]

/-- The state of a loop that meets only edits that are apart: nothing is in conflict, and the lines
so far with the rest of the base after the edits ahead are the merged lines. -/
structure Merging (base : List α) (oursEdits theirsEdits : List (Edit α)) (merged : List α)
    (st : MergeState α) : Prop where
  clean : st.clean = true
  le : st.i ≤ base.length
  lines : ∃ ahead, Ahead oursEdits theirsEdits st.i ahead ∧
    unchangedLines st.chunks ++ st.bufUnchanged ++ applyEdits st.i (base.drop st.i) ahead = merged

variable {merged : List α}

section

variable (hapart : ApartSides base.length oursEdits theirsEdits)
  (h : Merging base oursEdits theirsEdits merged st)

include hapart h

/-- An iteration goes on in this way. -/
theorem Merging.step (hlt : st.i < base.length) :
    ∃ st', mergeStep base oursEdits theirsEdits st = some st' ∧ st.i < st'.i ∧
      Merging base oursEdits theirsEdits merged st' := by
  obtain ⟨ahead, hahead, hmerged⟩ := h.lines
  by_cases hnext : ∀ e ∈ ahead, st.i < e.start
  · -- The line is in front of all edits, and it is copied.
    have hline := drop_eq_getElem_cons hlt
    refine ⟨_, mergeStep_of_neither hline (hahead.editAt_of_lt hnext), Nat.lt_succ_self _,
      h.clean, hlt,
      ahead, ⟨hahead.pairwise, hnext, fun e hle => hahead.mem_iff e (Nat.le_of_succ_le hle)⟩, ?_⟩
    rw [← hmerged, hline, applyEdits_cons_of_lt hnext]
    simp
  · -- The next edit starts here.
    obtain ⟨e, rest, rfl, hstart⟩ := hahead.exists_head hnext
    have hmem := (hahead.mem_iff e hstart.ge).mp mem_cons_self
    have hdel : 0 < e.del := hapart.deletes e hmem (by omega)
    have hend : e.start + e.del ≤ base.length := by
      rcases hmem with he | he
      · exact hapart.ours.end_le e he
      · exact hapart.theirs.end_le e he
    have hone := oneSided_editAt hapart hahead hstart
    refine ⟨_, mergeStep_of_oneSided hone hdel, Nat.lt_add_of_pos_right hdel, h.clean,
      hstart ▸ hend, rest, hahead.tail hstart hdel, ?_⟩
    rw [← hmerged, applyEdits_of_start_eq hstart, drop_drop, unchangedLines_append,
      unchangedLines_flush, unchangedLines_unchanged]
    simp

/-- The loop ends, and the merged lines are those so far with the lines at the end. -/
lemma Merging.loop {fuel : ℕ} (hfuel : base.length ≤ st.i + fuel) :
    ∃ r, mergeLoop base oursEdits theirsEdits fuel st = some r ∧ r.i = base.length ∧
      Merging base oursEdits theirsEdits merged r := by
  induction fuel generalizing st with
  | zero =>
    have hle := h.le
    refine ⟨st, ?_, by omega, h⟩
    rw [mergeLoop, if_neg (by omega)]
  | succ fuel ih =>
    rw [mergeLoop]
    split_ifs with hlt
    · obtain ⟨st', hstep, hi, h'⟩ := h.step hapart hlt
      rw [hstep]
      exact ih h' (by omega)
    · have hle := h.le
      exact ⟨st, rfl, by omega, h⟩

end

omit [DecidableEq α] in
/-- At the end of the base at most one edit is ahead, which inserts the lines of one side. -/
lemma Ahead.applyEdits_end (hapart : ApartSides n oursEdits theirsEdits) {ahead : List (Edit α)}
    (h : Ahead oursEdits theirsEdits n ahead) :
    (editAt oursEdits n = (0, []) ∨ editAt theirsEdits n = (0, [])) ∧
      applyEdits n [] ahead = (editAt oursEdits n).2 ++ (editAt theirsEdits n).2 := by
  have hend : ∀ e ∈ ahead, e.start + e.del ≤ n := by
    intro e he
    rcases (h.mem_iff e (h.le_start e he)).mp he with hmem | hmem
    · exact hapart.ours.end_le e hmem
    · exact hapart.theirs.end_le e hmem
  by_cases hnext : ∀ e ∈ ahead, n < e.start
  · have hnil : ahead = [] := by
      refine eq_nil_iff_forall_not_mem.mpr ?_
      intro e he
      have hlt := hnext e he
      have hle := hend e he
      omega
    obtain ⟨hnone, hnone'⟩ := h.editAt_of_lt hnext
    rw [hnone, hnone', hnil]
    exact ⟨.inl rfl, rfl⟩
  · obtain ⟨e, rest, rfl, hstart⟩ := h.exists_head hnext
    have hnil : rest = [] := by
      refine eq_nil_iff_forall_not_mem.mpr ?_
      intro e' he'
      have hlt := ((pairwise_cons.mp h.pairwise).1 e' he').start_lt
      have hle := hend e' (mem_cons_of_mem e he')
      omega
    have hone := oneSided_editAt hapart h hstart
    refine ⟨hone.none, ?_⟩
    rw [hone.ins, hnil, applyEdits_of_start_eq hstart, drop_nil, applyEdits_nil, append_nil]

/-- The lines at the end of a merge in which at most one side has some. -/
lemma mergeTail_of_oneSided {oursTail theirsTail : List α} (chunks : List (MergeChunk α))
    (clean : Bool) (h : oursTail = [] ∨ theirsTail = []) :
    (mergeTail oursTail theirsTail chunks clean).clean = clean ∧
      unchangedLines (mergeTail oursTail theirsTail chunks clean).chunks =
        unchangedLines chunks ++ (oursTail ++ theirsTail) := by
  unfold mergeTail
  rcases h with rfl | rfl
  · cases theirsTail with
    | nil => simp
    | cons line lines => simp
  · cases oursTail with
    | nil => simp
    | cons line lines => simp

/-- The merge of lists of lines with edits that are apart: no conflict, and both sides' edits in the
base. -/
lemma mergeLineLists_of_apart {ours theirs : List α} (ho : editsOf base ours = some oursEdits)
    (ht : editsOf base theirs = some theirsEdits)
    (hapart : ApartSides base.length oursEdits theirsEdits) :
    ∃ fuel m, mergeLineLists fuel base ours theirs = some m ∧ m.clean = true ∧
      unchangedLines m.chunks = applyEdits 0 base (byStart (oursEdits ++ theirsEdits)) := by
  have hstart : Merging base oursEdits theirsEdits
      (applyEdits 0 base (byStart (oursEdits ++ theirsEdits))) mergeStart :=
    ⟨rfl, zero_le _, _, hapart.ahead_byStart, rfl⟩
  obtain ⟨r, hr, hend, hmerging⟩ := hstart.loop hapart (le_add_left base.length mergeStart.i)
  obtain ⟨ahead, hahead, hlines⟩ := hmerging.lines
  rw [hend] at hahead hlines
  obtain ⟨hone, htail⟩ := hahead.applyEdits_end hapart
  have htails : (editAt oursEdits base.length).2 = [] ∨ (editAt theirsEdits base.length).2 = [] :=
    hone.imp (congrArg Prod.snd) (congrArg Prod.snd)
  obtain ⟨hclean, hchunks⟩ :=
    mergeTail_of_oneSided (flush r.chunks r.bufUnchanged) r.clean htails
  refine ⟨base.length, _, ?_, hclean.trans hmerging.clean, ?_⟩
  · rw [mergeLineLists_eq ho ht, hr, map_some]
  · rw [hchunks, unchangedLines_flush, ← htail, ← hlines, drop_length]

omit [DecidableEq α] in
/-- A script without changes has no edits. -/
lemma walkEditsLoop_of_changes (pos : ℕ) {ops : Script α} (h : changes ops = 0) :
    walkEditsLoop none pos ops = [] := by
  induction ops generalizing pos with
  | nil => rfl
  | cons op ops ih =>
    cases op with
    | equal l => exact ih (pos + 1) (by rwa [changes_equal] at h)
    | delete l => simp at h
    | insert l => simp at h

omit [DecidableEq α] in
lemma walkEditsLoop_delete_insert (e : Edit α) (pos : ℕ) (ls ls' : List α) :
    walkEditsLoop (some e) pos (ls.map .delete ++ ls'.map .insert) =
      [⟨e.start, e.del + ls.length, e.ins ++ ls'⟩] := by
  induction ls generalizing e pos with
  | nil =>
    rw [map_nil, nil_append]
    induction ls' generalizing e with
    | nil => rw [append_nil]; rfl
    | cons l ls' ih =>
      rw [map_cons, walkEditsLoop, ih]
      simp
  | cons l ls ih =>
    rw [map_cons, cons_append, walkEditsLoop, ih]
    simp only [length_cons]
    congr 2
    omega

/-- The edits of a difference of a list with itself: none, or above the limit one that replaces all
lines by themselves. -/
lemma editsOf_self (a : List α) :
    editsOf a a = some [] ∨ editsOf a a = some [⟨0, a.length, a⟩] ∧ 0 < a.length := by
  by_cases hmax : a.length + a.length ≤ maxDiffLines
  · obtain ⟨ops, hops, -, hchanges⟩ := myers_self hmax
    left
    rw [editsOf, hops, map_some, walkEdits, walkEditsLoop_of_changes 0 hchanges]
  · right
    obtain _ | ⟨l, ls⟩ := a
    · exact absurd (zero_le _) hmax
    · have hne : l :: ls ≠ [] := cons_ne_nil l ls
      refine ⟨?_, succ_pos _⟩
      rw [editsOf, myers, if_neg (fun h => hne h.1), if_neg hne, if_neg hne,
        if_pos (Nat.lt_of_not_le hmax), map_some, walkEdits, map_cons, cons_append,
        walkEditsLoop, walkEditsLoop_delete_insert]
      simp only [length_cons, nil_append, add_comm]

/-- If one side is the base, both sides' edits make the other side. -/
lemma applyEdits_of_self {side : List α} {selfEdits sideEdits : List (Edit α)}
    (hself : editsOf base base = some selfEdits) (hside : editsOf base side = some sideEdits)
    (hbefore : ∀ e ∈ selfEdits, ∀ e' ∈ sideEdits, e.Before e' ∨ e'.Before e)
    (hperm : (selfEdits ++ sideEdits).Perm all) (hall : (byStart all).Pairwise Edit.Before) :
    applyEdits 0 base (byStart all) = side := by
  have hsorted := (separated_editsOf hside).pairwise_before
  rw [← applyEdits_editsOf hside]
  rcases editsOf_self base with hnone | ⟨hone, hpos⟩
  · cases hself.symm.trans hnone
    rw [byStart_eq hperm hsorted hall]
    rfl
  · cases hself.symm.trans hone
    -- All lines are replaced by themselves, and the other side only inserts lines after the end.
    have hend : ∀ e ∈ sideEdits, (⟨0, base.length, base⟩ : Edit α).Before e := by
      intro e he
      rcases hbefore _ (mem_singleton.mpr rfl) e he with hbefore | hafter
      · exact hbefore
      · exact absurd hafter.start_lt (not_lt_zero _)
    have hcopy : applyEdits 0 (base ++ []) sideEdits =
        base ++ applyEdits (0 + base.length) [] sideEdits :=
      applyEdits_append_of_le base fun e he => (hend e he).end_le
    have hstart : (⟨0, base.length, base⟩ : Edit α).start = 0 := rfl
    rw [byStart_eq hperm (pairwise_cons.mpr ⟨hend, hsorted⟩) hall, singleton_append,
      applyEdits_of_start_eq hstart, drop_length, ← hcopy, append_nil]

/-- If the two sides are the same, edits that are apart are no edits. -/
lemma applyEdits_of_same {side : List α} (h : editsOf base side = some edits)
    (hapart : ApartSides base.length edits edits) :
    applyEdits 0 base (byStart (edits ++ edits)) = side := by
  have hnil : edits = [] := by
    refine eq_nil_iff_forall_not_mem.mpr ?_
    intro e he
    rcases hapart.before he he with hbefore | hbefore
    · exact absurd hbefore.start_lt (lt_irrefl _)
    · exact absurd hbefore.start_lt (lt_irrefl _)
  rw [← applyEdits_editsOf h, hnil]
  rfl

end Separate

/-- The merge of files whose edits are apart ends without a conflict, and its lines are those of the
base with the edits of both sides made. -/
theorem mergeLines_of_apart {base ours theirs : Bytes} {oursEdits theirsEdits : List (Edit Bytes)}
    (ho : editsOf (splitLines base) (splitLines ours) = some oursEdits)
    (ht : editsOf (splitLines base) (splitLines theirs) = some theirsEdits)
    (hapart : Apart (splitLines base).length oursEdits theirsEdits) :
    ∃ fuel m, mergeLines fuel base ours theirs = some m ∧ m.clean = true ∧
      unchangedLines m.chunks =
        applyEdits 0 (splitLines base) (byStart (oursEdits ++ theirsEdits)) := by
  have hsides : ApartSides _ oursEdits theirsEdits :=
    ⟨hapart, separated_editsOf ho, separated_editsOf ht⟩
  have hsorted := hsides.pairwise_byStart
  by_cases hsame : ours = theirs
  · refine ⟨0, _, if_pos hsame, rfl, ?_⟩
    rw [← hsame] at ht
    cases ho.symm.trans ht
    rw [applyEdits_of_same ho hsides, unchangedLines_unchanged]
  by_cases hbase : base = ours
  · refine ⟨0, _, (if_neg hsame).trans (if_pos hbase), rfl, ?_⟩
    rw [← hbase] at ho
    rw [unchangedLines_unchanged]
    exact (applyEdits_of_self ho ht (fun e he e' he' => hsides.before he he')
      (Perm.refl _) hsorted).symm
  by_cases hbase' : base = theirs
  · refine ⟨0, _, (if_neg hsame).trans ((if_neg hbase).trans (if_pos hbase')), rfl, ?_⟩
    rw [← hbase'] at ht
    rw [unchangedLines_unchanged]
    exact (applyEdits_of_self ht ho (fun e he e' he' => (hsides.before he' he).symm)
      perm_append_comm hsorted).symm
  · obtain ⟨fuel, m, hm, hrest⟩ := mergeLineLists_of_apart ho ht hsides
    exact ⟨fuel, m, (mergeLines_of_past ⟨hsame, hbase, hbase'⟩ fuel).trans hm, hrest⟩

/-- Ours changes the first of three lines, and theirs changes the last one and adds a line: all
changes are in the merge. -/
theorem mergeLines_of_apart_ends : ∃ fuel m,
    mergeLines fuel (textOf "abc") (textOf "Xbc") (textOf "abYZ") = some m ∧ m.clean = true ∧
    unchangedLines m.chunks = [[88], [98], [89], [90]] := by
  have ho : editsOf (splitLines (textOf "abc")) (splitLines (textOf "Xbc")) =
      some [⟨0, 1, [[88]]⟩] := by decide +kernel
  have ht : editsOf (splitLines (textOf "abc")) (splitLines (textOf "abYZ")) =
      some [⟨2, 1, [[89], [90]]⟩] := by decide +kernel
  have hapart : Apart (splitLines (textOf "abc")).length [(⟨0, 1, [[88]]⟩ : Edit Bytes)]
      [⟨2, 1, [[89], [90]]⟩] := by
    refine ⟨by simp, ?_, by decide⟩
    simp only [mem_singleton]
    rintro e rfl e' rfl x hle hlt
    simp only at hle hlt ⊢
    omega
  exact mergeLines_of_apart ho ht hapart

/-! ## What conflicts show -/

section Conflicts

variable {α : Type}

/-- What a side has in place of the base lines `i`, …, `j - 1`: its edits that start there are made,
and the other lines are kept. -/
def aligned (base : List α) (edits : List (Edit α)) (i j : ℕ) : List α :=
  applyEdits i ((base.drop i).take (j - i))
    (edits.filter fun e => i ≤ e.start ∧ (e.start < j ∨ e.start = i))

/-- What a side has in place of the base lines `i`, …, `j - 1` if it keeps the first of them. -/
def alignedKept (base : List α) (edits : List (Edit α)) (i j : ℕ) : List α :=
  applyEdits i ((base.drop i).take (j - i)) (edits.filter fun e => i < e.start ∧ e.start < j)

variable {base : List α} {edits : List (Edit α)} {i j : ℕ}

/-- The edits for lines at which an edit starts: that one, and those after its end. -/
lemma Separated.filter_of_start {e : Edit α} (h : Separated edits base.length) (he : e ∈ edits)
    (hstart : e.start = i) :
    edits.filter (fun e => i ≤ e.start ∧ (e.start < j ∨ e.start = i)) =
      e :: edits.filter fun e' => i + e.del < e'.start ∧ e'.start < j := by
  obtain ⟨pre, post, rfl⟩ := append_of_mem he
  obtain ⟨-, hcons, hpre⟩ := pairwise_append.mp h.pairwise
  have hpost := (pairwise_cons.mp hcons).1
  -- The edits before `e` end before the lines, and those after it start after its end.
  have hout : ∀ p : Edit α → Bool, (∀ e', p e' = true → i ≤ e'.start) → pre.filter p = [] := by
    intro p hp
    refine filter_eq_nil_iff.mpr ?_
    intro e' he' hpe'
    have hlt := hpre e' he' e mem_cons_self
    have hle := hp e' hpe'
    omega
  have hlater : post.filter (fun e => i ≤ e.start ∧ (e.start < j ∨ e.start = i)) =
      post.filter fun e' => i + e.del < e'.start ∧ e'.start < j := by
    refine filter_congr ?_
    intro e' he'
    have hlt := hpost e' he'
    simp only [decide_eq_decide]
    omega
  have hin : i ≤ e.start ∧ (e.start < j ∨ e.start = i) := ⟨hstart.ge, .inr hstart⟩
  have hnotIn : ¬ (i + e.del < e.start ∧ e.start < j) := by omega
  rw [filter_append, filter_append, hout, hout, nil_append, nil_append,
    filter_cons_of_pos (by simpa using hin), filter_cons_of_neg (by simpa using hnotIn),
    hlater]
  · intro e' he'
    simp only [decide_eq_true_eq] at he'
    omega
  · intro e' he'
    simp only [decide_eq_true_eq] at he'
    exact he'.1

/-- In place of lines where an edit starts, a side has first the lines that the edit inserts. -/
lemma aligned_eq (h : Separated edits base.length) : aligned base edits i j =
      (editAt edits i).2 ++ alignedKept base edits (i + (editAt edits i).1) j := by
  by_cases hnone : ∀ e ∈ edits, e.start ≠ i
  · have hfilter : edits.filter (fun e => i ≤ e.start ∧ (e.start < j ∨ e.start = i)) =
        edits.filter fun e => i < e.start ∧ e.start < j := by
      refine filter_congr ?_
      intro e he
      have hne := hnone e he
      simp only [decide_eq_decide]
      omega
    rw [editAt_of_no_start hnone, aligned, alignedKept, hfilter]
    rfl
  · obtain ⟨e, he, hstart⟩ := not_forall₂.mp hnone
    have hstart : e.start = i := Decidable.not_not.mp hstart
    have hat := h.editAt_start he
    rw [hstart] at hat
    rw [hat, aligned, alignedKept, h.filter_of_start he hstart, applyEdits_of_start_eq hstart,
      drop_take, drop_drop, Nat.sub_sub]

/-- There is nothing in place of lines, the first of which is kept, if and only if there are no
lines. -/
lemma alignedKept_eq_nil_iff (hij : i ≤ j) (hj : j ≤ base.length) :
    alignedKept base edits i j = [] ↔ i = j := by
  constructor
  · intro hnil
    by_contra hne
    have hlt : i < base.length := by omega
    have hlen : j - i = (j - i - 1) + 1 := by omega
    rw [alignedKept, drop_eq_getElem_cons hlt, hlen, take_succ_cons, applyEdits_cons_of_lt] at hnil
    · exact absurd hnil (cons_ne_nil _ _)
    · intro e he
      have hmem := (mem_filter.mp he).2
      simp only [decide_eq_true_eq] at hmem
      exact hmem.1
  · rintro rfl
    have hfilter : edits.filter (fun e => i < e.start ∧ e.start < i) = [] := by
      refine filter_eq_nil_iff.mpr ?_
      intro e _
      simp only [decide_eq_true_eq]
      omega
    rw [alignedKept, hfilter, Nat.sub_self, take_zero]
    rfl

/-- The inserted lines of an edit are all that a side has in place of lines, if and only if the edit
deletes all of them. -/
lemma aligned_eq_ins_iff (h : Separated edits base.length) (hij : i + (editAt edits i).1 ≤ j)
    (hj : j ≤ base.length) :
    (editAt edits i).2 = aligned base edits i j ↔ i + (editAt edits i).1 = j := by
  rw [aligned_eq h, self_eq_append_right, alignedKept_eq_nil_iff hij hj]

variable [DecidableEq α] {oursEdits theirsEdits : List (Edit α)} {st st' r : MergeState α}
  {c : MergeChunk α} {ours baseLines theirs : List α} {fuel : ℕ}

/-- What an iteration does to the chunks: nothing, a chunk of unchanged lines, or a conflict if both
sides have an edit and these are not the same. -/
lemma mergeStep_chunks (h : mergeStep base oursEdits theirsEdits st = some st') :
    (st'.chunks = st.chunks ∧ editAt oursEdits st.i = (0, [])) ∨
    (∃ lines, st'.chunks = flush st.chunks st.bufUnchanged ++ [.unchanged lines] ∧
      (editAt theirsEdits st.i = (0, []) ∨ editAt oursEdits st.i = (0, []) ∨
        editAt oursEdits st.i = editAt theirsEdits st.i)) ∨
    (∃ baseLines, st'.chunks = flush st.chunks st.bufUnchanged ++
        [.conflict (editAt oursEdits st.i).2 baseLines (editAt theirsEdits st.i).2] ∧
      editAt oursEdits st.i ≠ (0, []) ∧ editAt theirsEdits st.i ≠ (0, [])) := by
  unfold mergeStep at h
  dsimp only at h
  split_ifs at h with hneither htheirs hours hsame hend
  · obtain ⟨line, -, hst⟩ := bind_eq_some_iff.mp h
    cases hst
    exact .inl ⟨rfl, hneither.1⟩
  · cases h
    exact .inr (.inl ⟨_, rfl, .inl htheirs⟩)
  · cases h
    exact .inr (.inl ⟨_, rfl, .inr (.inl hours)⟩)
  · cases h
    exact .inr (.inl ⟨_, rfl, .inr (.inr (Prod.ext hsame.2 hsame.1))⟩)
  · cases h
    exact .inr (.inr ⟨_, rfl, hours, htheirs⟩)

/-- The chunks that the merge emits, with the range of base lines for which it does. -/
inductive Emits (base : List α) (oursEdits theirsEdits : List (Edit α)) :
    ℕ → ℕ → MergeChunk α → Prop
  | loop {st st' : MergeState α} {c : MergeChunk α}
      (hreach : ReflTransGen (LoopStep base oursEdits theirsEdits) mergeStart st)
      (hstep : LoopStep base oursEdits theirsEdits st st')
      (hchunks : st'.chunks = flush st.chunks st.bufUnchanged ++ [c]) :
      Emits base oursEdits theirsEdits st.i st'.i c
  | tail {c : MergeChunk α}
      (hchunks : (mergeTail (editAt oursEdits base.length).2 (editAt theirsEdits base.length).2 []
        true).chunks = [c]) :
      Emits base oursEdits theirsEdits base.length base.length c

omit [DecidableEq α] in
lemma mem_flush_iff {chunks : List (MergeChunk α)} {buf : List α} :
    .conflict ours baseLines theirs ∈ flush chunks buf ↔
      .conflict ours baseLines theirs ∈ chunks := by
  unfold flush
  split_ifs
  · rfl
  · simp

/-- A conflict is kept, and a new one is that of the iteration. -/
lemma conflict_mem_iff_of_step (h : mergeStep base oursEdits theirsEdits st = some st') :
    .conflict ours baseLines theirs ∈ st'.chunks ↔ .conflict ours baseLines theirs ∈ st.chunks ∨
        st'.chunks = flush st.chunks st.bufUnchanged ++ [.conflict ours baseLines theirs] := by
  constructor
  · intro hmem
    rcases mergeStep_chunks h with ⟨hchunks, -⟩ | ⟨lines, hchunks, -⟩ | ⟨baseLines', hchunks, -⟩
    · exact .inl (hchunks ▸ hmem)
    · rw [hchunks, mem_append, mem_flush_iff, mem_singleton] at hmem
      exact .inl (hmem.resolve_right fun h => by cases h)
    · rw [hchunks, mem_append, mem_flush_iff, mem_singleton] at hmem
      rcases hmem with hmem | hmem
      · exact .inl hmem
      · exact .inr (hmem ▸ hchunks)
  · rintro (hmem | hchunks)
    · rcases mergeStep_chunks h with ⟨hchunks, -⟩ | ⟨lines, hchunks, -⟩ | ⟨baseLines', hchunks, -⟩
      · rwa [hchunks]
      · rw [hchunks, mem_append, mem_flush_iff]
        exact .inl hmem
      · rw [hchunks, mem_append, mem_flush_iff]
        exact .inl hmem
    · rw [hchunks, mem_append]
      exact .inr (mem_singleton.mpr rfl)

/-- The sides of a conflict that an iteration emits are the inserted lines of the two edits. -/
lemma conflict_of_step (h : mergeStep base oursEdits theirsEdits st = some st')
    (hchunks : st'.chunks = flush st.chunks st.bufUnchanged ++ [.conflict ours baseLines theirs]) :
    ours = (editAt oursEdits st.i).2 ∧ theirs = (editAt theirsEdits st.i).2 ∧
      editAt oursEdits st.i ≠ (0, []) ∧ editAt theirsEdits st.i ≠ (0, []) := by
  rcases mergeStep_chunks h with ⟨hsame, -⟩ | ⟨lines, hlines, -⟩ | ⟨baseLines', hconflict, hedits⟩
  · -- The chunks have become more, so that they are not the same.
    have hlen := congrArg length (hsame.symm.trans hchunks)
    unfold flush at hlen
    split_ifs at hlen
    · simp at hlen
    · simp at hlen
  · have hlast := append_cancel_left (hlines.symm.trans hchunks)
    cases hlast
  · have hlast := append_cancel_left (hconflict.symm.trans hchunks)
    cases hlast
    exact ⟨rfl, rfl, hedits⟩

/-- A loop that ends reaches its last state. -/
lemma reaches_of_mergeLoop (h : mergeLoop base oursEdits theirsEdits fuel st = some r) :
    ReflTransGen (LoopStep base oursEdits theirsEdits) st r := by
  induction fuel generalizing st with
  | zero =>
    rw [mergeLoop] at h
    split_ifs at h
    cases h
    exact .refl
  | succ fuel ih =>
    rw [mergeLoop] at h
    split_ifs at h with hlt
    · obtain ⟨st', hstep, hloop⟩ := bind_eq_some_iff.mp h
      exact .head ⟨hlt, hstep⟩ (ih hloop)
    · cases h
      exact .refl

lemma conflict_mem_of_reaches (hreach : ReflTransGen (LoopStep base oursEdits theirsEdits) st st')
    (hmem : .conflict ours baseLines theirs ∈ st.chunks) :
    .conflict ours baseLines theirs ∈ st'.chunks := by
  induction hreach with
  | refl => exact hmem
  | tail _ hstep ih => exact (conflict_mem_iff_of_step hstep.2).mpr (.inl ih)

/-- The conflicts of a loop that ends are those of its iterations. -/
lemma conflict_mem_iff_of_loop (h : mergeLoop base oursEdits theirsEdits fuel mergeStart = some r) :
    .conflict ours baseLines theirs ∈ r.chunks ↔
      ∃ st st', ReflTransGen (LoopStep base oursEdits theirsEdits) mergeStart st ∧
        LoopStep base oursEdits theirsEdits st st' ∧
        st'.chunks = flush st.chunks st.bufUnchanged ++ [.conflict ours baseLines theirs] := by
  constructor
  · intro hmem
    have hreach := reaches_of_mergeLoop h
    clear h
    induction hreach with
    | refl => exact absurd hmem not_mem_nil
    | tail hreach hstep ih =>
      rcases (conflict_mem_iff_of_step hstep.2).mp hmem with hbefore | hchunks
      · exact ih hbefore
      · exact ⟨_, _, hreach, hstep, hchunks⟩
  · rintro ⟨st, st', hreach, hstep, hchunks⟩
    obtain ⟨fuel', hloop⟩ := mergeLoop_of_reaches h (hreach.tail hstep)
    refine conflict_mem_of_reaches (reaches_of_mergeLoop hloop) ?_
    exact (conflict_mem_iff_of_step hstep.2).mpr (.inr hchunks)

lemma mergeTail_chunks (oursTail theirsTail : List α) (chunks : List (MergeChunk α))
    (clean : Bool) : (mergeTail oursTail theirsTail chunks clean).chunks =
      chunks ++ (mergeTail oursTail theirsTail [] true).chunks := by
  unfold mergeTail
  cases oursTail.isEmpty <;> cases theirsTail.isEmpty
  · split_ifs
    · rfl
    · rfl
  · rfl
  · rfl
  · exact (append_nil chunks).symm

lemma mem_mergeTail_iff {oursTail theirsTail : List α} :
    c ∈ (mergeTail oursTail theirsTail [] true).chunks ↔
      (mergeTail oursTail theirsTail [] true).chunks = [c] := by
  unfold mergeTail
  cases oursTail.isEmpty <;> cases theirsTail.isEmpty
  · split_ifs
    · simp [eq_comm]
    · simp [eq_comm]
  · simp [eq_comm]
  · simp [eq_comm]
  · simp

/-- The conflicts of a merge past the fast paths are those that it emits. -/
lemma conflict_mem_iff {oursLines theirsLines : List α} {m : LineMerge α}
    (ho : editsOf base oursLines = some oursEdits)
    (ht : editsOf base theirsLines = some theirsEdits)
    (h : mergeLineLists fuel base oursLines theirsLines = some m) :
    .conflict ours baseLines theirs ∈ m.chunks ↔
      ∃ i j, Emits base oursEdits theirsEdits i j (.conflict ours baseLines theirs) := by
  rw [mergeLineLists_eq ho ht, map_eq_some_iff] at h
  obtain ⟨r, hr, rfl⟩ := h
  rw [mergeTail_chunks, mem_append, mem_flush_iff, conflict_mem_iff_of_loop hr, mem_mergeTail_iff]
  constructor
  · rintro (⟨st, st', hreach, hstep, hchunks⟩ | htail)
    · exact ⟨_, _, .loop hreach hstep hchunks⟩
    · exact ⟨_, _, .tail htail⟩
  · rintro ⟨i, j, hemits⟩
    cases hemits with
    | loop hreach hstep hchunks => exact .inl ⟨_, _, hreach, hstep, hchunks⟩
    | tail hchunks => exact .inr hchunks

/-- Every conflict shows what the two sides have in place of the base lines for which it is emitted.
-/
def ConflictsShowSides (base : List α) (oursEdits theirsEdits : List (Edit α)) : Prop :=
  ∀ i j ours baseLines theirs,
    Emits base oursEdits theirsEdits i j (.conflict ours baseLines theirs) →
    ours = aligned base oursEdits i j ∧ theirs = aligned base theirsEdits i j

/-- Where the loop meets edits of both sides, these delete the same number of lines. -/
def SameDeletions (n : ℕ) (oursEdits theirsEdits : List (Edit α)) : Prop :=
  ∀ i < n, Met oursEdits theirsEdits i → editAt oursEdits i ≠ (0, []) →
    editAt theirsEdits i ≠ (0, []) → (editAt oursEdits i).1 = (editAt theirsEdits i).1

lemma conflict_of_mergeTail {oursTail theirsTail : List α}
    (h : (mergeTail oursTail theirsTail [] true).chunks = [.conflict ours baseLines theirs]) :
    ours = oursTail ∧ theirs = theirsTail := by
  unfold mergeTail at h
  cases hours : oursTail.isEmpty <;> cases htheirs : theirsTail.isEmpty <;> rw [hours, htheirs] at h
  · dsimp only at h
    split_ifs at h
    · cases h
    · cases h
      exact ⟨rfl, rfl⟩
  · cases h
  · cases h
  · cases h

/-- The conflict of an iteration spans the lines that the larger edit deletes. -/
lemma i_of_conflict (h : mergeStep base oursEdits theirsEdits st = some st')
    (hours : editAt oursEdits st.i ≠ (0, [])) :
    st'.i = st.i + max (editAt oursEdits st.i).1 (editAt theirsEdits st.i).1 := by
  rw [i_of_mergeStep h, if_neg fun hneither => hours hneither.1]

/-- The conflicts of a loop that ends show the two sides if and only if the loop meets only edits
that delete the same number of lines. -/
lemma conflictsShowSides_iff (hours : Separated oursEdits base.length)
    (htheirs : Separated theirsEdits base.length)
    (h : mergeLoop base oursEdits theirsEdits fuel mergeStart = some r) :
    ConflictsShowSides base oursEdits theirsEdits ↔
      SameDeletions base.length oursEdits theirsEdits := by
  constructor
  · intro hshow i hlt hmet hours' htheirs'
    obtain ⟨st, hreach, rfl⟩ := exists_reaches_of_met hours htheirs h hmet hlt
    obtain ⟨st', hstep⟩ := exists_mergeStep hours htheirs hlt
    rcases mergeStep_chunks hstep with ⟨-, hnone⟩ | ⟨_, -, hagree⟩ | ⟨baseLines, hchunks, -⟩
    · exact absurd hnone hours'
    · rcases hagree with hnone | hnone | hboth
      · exact absurd hnone htheirs'
      · exact absurd hnone hours'
      · rw [hboth]
    · -- Each side shows all that it has for the lines, so its edit deletes all of them.
      have hi := i_of_conflict hstep hours'
      have hle := hours.editAt_le hlt.le
      have hle' := htheirs.editAt_le hlt.le
      obtain ⟨ho, ht⟩ := hshow _ _ _ _ _ (.loop hreach ⟨hlt, hstep⟩ hchunks)
      have hdel := (aligned_eq_ins_iff hours (by omega) (by omega)).mp ho
      have hdel' := (aligned_eq_ins_iff htheirs (by omega) (by omega)).mp ht
      omega
  · intro hsame i j o b t hemits
    cases hemits with
    | @loop st st' _ hreach hstep hchunks =>
      obtain ⟨rfl, rfl, hours', htheirs'⟩ := conflict_of_step hstep.2 hchunks
      have hdel := hsame st.i hstep.1 (met_of_reaches h hreach) hours' htheirs'
      have hi := i_of_conflict hstep.2 hours'
      have hle := hours.editAt_le hstep.1.le
      exact ⟨(aligned_eq_ins_iff hours (by omega) (by omega)).mpr (by omega),
        (aligned_eq_ins_iff htheirs (by omega) (by omega)).mpr (by omega)⟩
    | tail hchunks =>
      obtain ⟨rfl, rfl⟩ := conflict_of_mergeTail hchunks
      have hle := hours.editAt_le (le_refl _)
      have hle' := htheirs.editAt_le (le_refl _)
      exact ⟨(aligned_eq_ins_iff hours hle (le_refl _)).mpr (by omega),
        (aligned_eq_ins_iff htheirs hle' (le_refl _)).mpr (by omega)⟩

end Conflicts

/-- For files on which the merge ends: its conflicts are those that it emits past the fast paths,
and these show what the two sides have in place of their base lines if and only if the edits of the
two sides at a line that is met delete the same number of lines. -/
theorem conflicts_show_sides_iff {fuel : ℕ} {base ours theirs : Bytes} {m : LineMerge Bytes}
    {oursEdits theirsEdits : List (Edit Bytes)}
    (ho : editsOf (splitLines base) (splitLines ours) = some oursEdits)
    (ht : editsOf (splitLines base) (splitLines theirs) = some theirsEdits)
    (h : mergeLines fuel base ours theirs = some m) :
    (∀ o b t, .conflict o b t ∈ m.chunks ↔ PastFastPaths base ours theirs ∧
      ∃ i j, Emits (splitLines base) oursEdits theirsEdits i j (.conflict o b t)) ∧
    ((PastFastPaths base ours theirs →
        ConflictsShowSides (splitLines base) oursEdits theirsEdits) ↔
      (PastFastPaths base ours theirs →
        SameDeletions (splitLines base).length oursEdits theirsEdits)) := by
  by_cases hpast : PastFastPaths base ours theirs
  · rw [mergeLines_of_past hpast] at h
    refine ⟨fun o b t => ?_, imp_congr_right fun _ => ?_⟩
    · rw [conflict_mem_iff ho ht h, and_iff_right hpast]
    · rw [mergeLineLists_eq ho ht, map_eq_some_iff] at h
      obtain ⟨r, hr, -⟩ := h
      exact conflictsShowSides_iff (separated_editsOf ho) (separated_editsOf ht) hr
  · refine ⟨fun o b t => iff_of_false ?_ fun hand => hpast hand.1,
      iff_of_true (fun hpast' => absurd hpast' hpast) fun hpast' => absurd hpast' hpast⟩
    intro hmem
    unfold mergeLines at h
    split_ifs at h with hsides hours htheirs
    · cases h
      simp at hmem
    · cases h
      simp at hmem
    · cases h
      simp at hmem
    · exact hpast ⟨hsides, hours, htheirs⟩

/-- Both sides replace the first of two lines: the conflict shows both. -/
theorem conflicts_show_sides_first :
    mergeLines 2 (textOf "ac") (textOf "Xc") (textOf "Yc") =
      some ⟨[.conflict [[88]] [[97]] [[89]], .unchanged [[99]]], false⟩ ∧
    ConflictsShowSides (splitLines (textOf "ac")) [⟨0, 1, [[88]]⟩] [⟨0, 1, [[89]]⟩] := by
  have hmerge : mergeLines 2 (textOf "ac") (textOf "Xc") (textOf "Yc") =
      some ⟨[.conflict [[88]] [[97]] [[89]], .unchanged [[99]]], false⟩ := by decide +kernel
  have ho : editsOf (splitLines (textOf "ac")) (splitLines (textOf "Xc")) =
      some [⟨0, 1, [[88]]⟩] := by decide +kernel
  have ht : editsOf (splitLines (textOf "ac")) (splitLines (textOf "Yc")) =
      some [⟨0, 1, [[89]]⟩] := by decide +kernel
  refine ⟨hmerge, (conflicts_show_sides_iff ho ht hmerge).2.mpr (fun _ => ?_)
    ⟨by decide, by decide, by decide⟩⟩
  intro i hlt _ hours htheirs
  have hi : i < 2 := hlt
  interval_cases i
  · rfl
  · exact absurd rfl hours

/-- Ours replaces the first of the lines `a`, `b` and `c`, and theirs the first two: the conflict is
emitted for both, and on the side of ours it does not show that `b` is kept. -/
theorem kept_line_not_shown :
    mergeLines 2 (textOf "abc") (textOf "Xbc") (textOf "Yc") =
      some ⟨[.conflict [[88]] [[97], [98]] [[89]], .unchanged [[99]]], false⟩ ∧
    editsOf (splitLines (textOf "abc")) (splitLines (textOf "Xbc")) = some [⟨0, 1, [[88]]⟩] ∧
    editsOf (splitLines (textOf "abc")) (splitLines (textOf "Yc")) = some [⟨0, 2, [[89]]⟩] ∧
    aligned (splitLines (textOf "abc")) [⟨0, 1, [[88]]⟩] 0 2 = [[88], [98]] ∧
    ¬ ConflictsShowSides (splitLines (textOf "abc")) [⟨0, 1, [[88]]⟩] [⟨0, 2, [[89]]⟩] := by
  refine ⟨by decide +kernel, by decide +kernel, by decide +kernel, by decide +kernel, ?_⟩
  intro hshow
  have hemits : Emits (splitLines (textOf "abc")) [⟨0, 1, [[88]]⟩]
      [⟨0, 2, [[89]]⟩] 0 2 (.conflict [[88]] [[97], [98]] [[89]]) :=
    @Emits.loop Bytes _ _ _ _ mergeStart ⟨2, [.conflict [[88]] [[97], [98]] [[89]]], [],
      false⟩ _ .refl
      ⟨by decide, rfl⟩ rfl
  have hours := (hshow _ _ _ _ _ hemits).1
  exact absurd hours (by decide +kernel)

end Gyt.Merge3
