import Gyt.Diff.Myers

/-!
# Merging lines

The three-way merge of files line by line, `merge_lines` of `merge3.rs`.  Both sides are compared
with the base, the differences are grouped into edits of ranges of base lines, and the two lists of
edits are walked in parallel.

The walk does not move on at an edit that deletes no base line, so it is modelled with a bound on
its iterations: the source returns if some bound is enough.  `noEditLost_iff` says exactly when a
clean merge has lost no edit.
-/

namespace Gyt.Merge3

open List Option Diff Nat Relation

/-- A replacement of a range of base lines; an entry of the source's `EditMap`. -/
structure Edit (α : Type) where
  start : ℕ
  del : ℕ
  ins : List α
  deriving DecidableEq, Repr

variable {α : Type}

/-! ## Edits -/

/-- The loop of `walkEdits`: the run of changes that is being collected, the position in the base,
and the operations that are left. -/
def walkEditsLoop : Option (Edit α) → ℕ → Script α → List (Edit α)
  | none, _, [] => []
  | some e, _, [] => [e]
  | none, pos, .equal _ :: ops => walkEditsLoop none (pos + 1) ops
  | some e, pos, .equal _ :: ops => e :: walkEditsLoop none (pos + 1) ops
  | none, pos, .delete _ :: ops => walkEditsLoop (some ⟨pos, 1, []⟩) (pos + 1) ops
  | some e, pos, .delete _ :: ops => walkEditsLoop (some { e with del := e.del + 1 }) (pos + 1) ops
  | none, pos, .insert l :: ops => walkEditsLoop (some ⟨pos, 0, [l]⟩) pos ops
  | some e, pos, .insert l :: ops => walkEditsLoop (some { e with ins := e.ins ++ [l] }) pos ops

/-- The edits of a script, in the order of the base lines. -/
def walkEdits (ops : Script α) : List (Edit α) := walkEditsLoop none 0 ops

/-- The edit at a base line; lines without one have an edit that changes nothing. -/
def editAt (edits : List (Edit α)) (i : ℕ) : ℕ × List α :=
  match edits.find? (·.start == i) with
  | some e => (e.del, e.ins)
  | none => (0, [])

/-- What is known of the edits of a script for `n` base lines: they are apart from one another and
inside the base. -/
structure Separated (edits : List (Edit α)) (n : ℕ) : Prop where
  pairwise : edits.Pairwise fun e e' => e.start + e.del < e'.start
  end_le : ∀ e ∈ edits, e.start + e.del ≤ n

/-- An edit before edits that are apart from it. -/
lemma Separated.cons {e : Edit α} {edits : List (Edit α)} {n : ℕ} (h : Separated edits n)
    (hlater : ∀ e' ∈ edits, e.start + e.del < e'.start) (hend : e.start + e.del ≤ n) :
    Separated (e :: edits) n where
  pairwise := pairwise_cons.mpr ⟨hlater, h.pairwise⟩
  end_le := forall_mem_cons.mpr ⟨hend, h.end_le⟩

/-- Where the edits that are still to come start at the earliest. -/
def nextStart (run : Option (Edit α)) (pos : ℕ) : ℕ := run.elim pos Edit.start

/-- The edits of the rest of a script: the run that is being collected ends at the current
position, and the later ones start after a line that is kept. -/
lemma separated_walkEditsLoop (run : Option (Edit α)) (pos : ℕ) {n : ℕ} {ops : Script α}
    (hrun : ∀ e, run = some e → e.start + e.del = pos)
    (hn : pos + (oldLines ops).length = n) :
    Separated (walkEditsLoop run pos ops) n ∧
      ∀ e ∈ walkEditsLoop run pos ops, nextStart run pos ≤ e.start := by
  induction ops generalizing run pos with
  | nil =>
    cases run with
    | none => exact ⟨⟨Pairwise.nil, by simp [walkEditsLoop]⟩, by simp [walkEditsLoop]⟩
    | some e =>
      have hend := hrun e rfl
      have hpos : pos = n := by simpa [oldLines] using hn
      refine ⟨⟨pairwise_singleton _ _, ?_⟩, ?_⟩
      · simp only [walkEditsLoop, mem_singleton, forall_eq]
        omega
      · simp [walkEditsLoop, nextStart]
  | cons op ops ih =>
    cases op with
    | equal l =>
      have hn' : pos + 1 + (oldLines ops).length = n := by
        rw [← hn]
        simp only [oldLines, filterMap_cons, length_cons]
        omega
      obtain ⟨hsep, hstart⟩ := ih none (pos + 1) (by simp) hn'
      cases run with
      | none => exact ⟨hsep, fun e he => le_of_succ_le (hstart e he)⟩
      | some e =>
        -- A line is kept after the run, so that the later edits do not touch it.
        have hend := hrun e rfl
        have hlater : ∀ e' ∈ walkEditsLoop none (pos + 1) ops, e.start + e.del < e'.start := by
          intro e' he'
          have hnext : pos + 1 ≤ e'.start := hstart e' he'
          omega
        refine ⟨hsep.cons hlater (by omega), forall_mem_cons.mpr ⟨le_refl _, ?_⟩⟩
        exact fun e' he' => (le_add_right e.start e.del).trans (hlater e' he').le
    | delete l =>
      have hn' : pos + 1 + (oldLines ops).length = n := by
        rw [← hn]
        simp only [oldLines, filterMap_cons, length_cons]
        omega
      cases run with
      | none => exact ih (some ⟨pos, 1, []⟩) (pos + 1) (by rintro e ⟨⟩; rfl) hn'
      | some e =>
        have hend := hrun e rfl
        exact ih (some { e with del := e.del + 1 }) (pos + 1)
          (by rintro e' ⟨⟩; simp only; omega) hn'
    | insert l =>
      have hn' : pos + (oldLines ops).length = n := by
        rw [← hn]
        simp only [oldLines, filterMap_cons]
      cases run with
      | none => exact ih (some ⟨pos, 0, [l]⟩) pos (by rintro e ⟨⟩; rfl) hn'
      | some e =>
        have hend := hrun e rfl
        exact ih (some { e with ins := e.ins ++ [l] }) pos (by rintro e' ⟨⟩; exact hend) hn'

/-- The edits of the difference of two lists of lines. -/
def editsOf [DecidableEq α] (a b : List α) : Option (List (Edit α)) :=
  (myers a b).map walkEdits

/-- The edits of a difference are apart from one another and inside the base. -/
lemma separated_editsOf [DecidableEq α] {a b : List α} {edits : List (Edit α)}
    (h : editsOf a b = some edits) : Separated edits a.length := by
  obtain ⟨ops, hops, hold, -⟩ := myers_spec a b
  rw [editsOf, hops, map_some, some.injEq] at h
  have hlen : 0 + (oldLines ops).length = a.length := by rw [hold, zero_add]
  rw [← h]
  exact (separated_walkEditsLoop none 0 (by simp) hlen).1

section Lookup

variable {edits : List (Edit α)} {n i : ℕ} {e e' : Edit α}

section

variable (h : Separated edits n) (he : e ∈ edits)

include h he

/-- Two edits are the same or apart. -/
lemma Separated.eq_or_apart (he' : e' ∈ edits) :
    e = e' ∨ e.start + e.del < e'.start ∨ e'.start + e'.del < e.start :=
  Pairwise.forall_of_forall_of_flip
    (R := fun e e' => e = e' ∨ e.start + e.del < e'.start ∨ e'.start + e'.del < e.start)
    (fun _ _ => .inl rfl) (h.pairwise.imp fun hlt => .inr (.inl hlt))
    (h.pairwise.imp fun hlt => .inr (.inr hlt)) he he'

/-- Of two edits, the earlier one ends before the later one starts. -/
lemma Separated.end_lt (he' : e' ∈ edits)
    (hlt : e.start < e'.start) : e.start + e.del < e'.start := by
  rcases h.eq_or_apart he he' with rfl | hapart
  · omega
  · omega

/-- An edit is found at its start. -/
lemma Separated.editAt_start : editAt edits e.start = (e.del, e.ins) := by
  obtain ⟨e', hfind⟩ : ∃ e', edits.find? (·.start == e.start) = some e' :=
    isSome_iff_exists.mp (find?_isSome.mpr ⟨e, he, by simp⟩)
  have he' := mem_of_find?_eq_some hfind
  have hstart : e'.start = e.start := by simpa using find?_some hfind
  -- Two edits with the same start are the same, since different ones are apart.
  have heq : e' = e := (h.eq_or_apart he' he).resolve_right (by omega)
  rw [editAt, hfind, heq]

end

/-- What is found at a line where something is deleted is an edit. -/
lemma exists_of_editAt (h : 0 < (editAt edits i).1) :
    ∃ e ∈ edits, e.start = i ∧ e.del = (editAt edits i).1 := by
  unfold editAt at h ⊢
  cases hfind : edits.find? (·.start == i) with
  | none =>
    rw [hfind] at h
    exact absurd h (lt_irrefl 0)
  | some e =>
    have hstart : e.start = i := by simpa using find?_some hfind
    exact ⟨e, mem_of_find?_eq_some hfind, hstart, rfl⟩

end Lookup

/-! ## The merge -/

/-- A chunk of the merged output. -/
inductive MergeChunk (α : Type) where
  | unchanged (lines : List α)
  | conflict (ours baseLines theirs : List α)
  deriving DecidableEq, Repr

/-- The result of merging lines; `clean` says that there is no conflict. -/
structure LineMerge (α : Type) where
  chunks : List (MergeChunk α)
  clean : Bool
  deriving DecidableEq, Repr

/-- The variables of the loop of `mergeLines`. -/
structure MergeState (α : Type) where
  i : ℕ
  chunks : List (MergeChunk α)
  bufUnchanged : List α
  clean : Bool

/-- Appending the collected unchanged lines to the chunks. -/
def flush (chunks : List (MergeChunk α)) (buf : List α) : List (MergeChunk α) :=
  if buf = [] then chunks else chunks ++ [.unchanged buf]

variable [DecidableEq α]

/-- One iteration of the loop of `mergeLines`. -/
def mergeStep (base : List α) (oursEdits theirsEdits : List (Edit α)) (st : MergeState α) :
    Option (MergeState α) :=
  let ours := editAt oursEdits st.i
  let theirs := editAt theirsEdits st.i
  if ours = (0, []) ∧ theirs = (0, []) then do
    let line ← base[st.i]?
    some { st with bufUnchanged := st.bufUnchanged ++ [line], i := st.i + 1 }
  else
    let chunks := flush st.chunks st.bufUnchanged
    let del := max ours.1 theirs.1
    if theirs = (0, []) then some ⟨st.i + del, chunks ++ [.unchanged ours.2], [], st.clean⟩
    else if ours = (0, []) then some ⟨st.i + del, chunks ++ [.unchanged theirs.2], [], st.clean⟩
    else if ours.2 = theirs.2 ∧ ours.1 = theirs.1 then
      some ⟨st.i + del, chunks ++ [.unchanged ours.2], [], st.clean⟩
    else if st.i + del ≤ base.length then
      some ⟨st.i + del,
        chunks ++ [.conflict ours.2 ((base.drop st.i).take del) theirs.2], [], false⟩
    else none

/-- The loop of `mergeLines`, with a bound on its iterations. -/
def mergeLoop (base : List α) (oursEdits theirsEdits : List (Edit α)) :
    ℕ → MergeState α → Option (MergeState α)
  | 0, st => if st.i < base.length then none else some st
  | fuel + 1, st =>
    if st.i < base.length then do
      let st ← mergeStep base oursEdits theirsEdits st
      mergeLoop base oursEdits theirsEdits fuel st
    else some st

/-- The last part of `mergeLines`: lines that are inserted after the last base line. -/
def mergeTail (oursTail theirsTail : List α) (chunks : List (MergeChunk α)) (clean : Bool) :
    LineMerge α :=
  match oursTail.isEmpty, theirsTail.isEmpty with
  | true, true => ⟨chunks, clean⟩
  | false, true => ⟨chunks ++ [.unchanged oursTail], clean⟩
  | true, false => ⟨chunks ++ [.unchanged theirsTail], clean⟩
  | false, false =>
    if oursTail = theirsTail then ⟨chunks ++ [.unchanged oursTail], clean⟩
    else ⟨chunks ++ [.conflict oursTail [] theirsTail], false⟩

def mergeStart : MergeState α := ⟨0, [], [], true⟩

/-- The merge of three lists of lines, after the fast paths. -/
def mergeLineLists (fuel : ℕ) (base ours theirs : List α) : Option (LineMerge α) := do
  let oursEdits ← editsOf base ours
  let theirsEdits ← editsOf base theirs
  let st ← mergeLoop base oursEdits theirsEdits fuel mergeStart
  some (mergeTail (editAt oursEdits base.length).2 (editAt theirsEdits base.length).2
    (flush st.chunks st.bufUnchanged) st.clean)

/-- Three-way merge at the line level, with a bound on the iterations of its loop. -/
def mergeLines (fuel : ℕ) (base ours theirs : Bytes) : Option (LineMerge Bytes) :=
  if ours = theirs then some ⟨[.unchanged (splitLines ours)], true⟩
  else if base = ours then some ⟨[.unchanged (splitLines theirs)], true⟩
  else if base = theirs then some ⟨[.unchanged (splitLines ours)], true⟩
  else mergeLineLists fuel (splitLines base) (splitLines ours) (splitLines theirs)

def emitLine (line : Bytes) : Bytes := if line.getLast? = some 0x0a then line else line ++ [0x0a]

/-- The bytes of a chunk, with the two sides of a conflict between markers. -/
def renderChunk (oursLabel theirsLabel : Str) : MergeChunk Bytes → Bytes
  | .unchanged lines => lines.flatMap emitLine
  | .conflict ours _ theirs =>
    Utf8.encode ("<<<<<<< " ++ oursLabel ++ ['\n']) ++ ours.flatMap emitLine ++
      Utf8.encode "=======\n" ++ theirs.flatMap emitLine ++
      Utf8.encode (">>>>>>> " ++ theirsLabel ++ ['\n'])

def renderWithMarkers (merge : LineMerge Bytes) (oursLabel theirsLabel : Str) : Bytes :=
  merge.chunks.flatMap (renderChunk oursLabel theirsLabel)

/-! ## Runs of the loop -/

variable {base : List α} {oursEdits theirsEdits : List (Edit α)} {st st' r : MergeState α}
  {fuel x : ℕ} {e e' : Edit α}

/-- The loop goes from one state to the next. -/
def LoopStep (base : List α) (oursEdits theirsEdits : List (Edit α)) (st st' : MergeState α) :
    Prop :=
  st.i < base.length ∧ mergeStep base oursEdits theirsEdits st = some st'

/-- What an iteration without a conflict does: it copies a line that neither side edits, or it
takes the edit of one side, or the same edit of both. -/
structure CleanStep (oursEdits theirsEdits : List (Edit α)) (st st' : MergeState α) : Prop where
  clean : st.clean = true
  next : (editAt oursEdits st.i = (0, []) ∧ editAt theirsEdits st.i = (0, []) ∧
      st'.i = st.i + 1) ∨
    st'.i = st.i + max (editAt oursEdits st.i).1 (editAt theirsEdits st.i).1
  agree : editAt theirsEdits st.i = (0, []) ∨ editAt oursEdits st.i = (0, []) ∨
    editAt oursEdits st.i = editAt theirsEdits st.i

lemma cleanStep_of_mergeStep (h : mergeStep base oursEdits theirsEdits st = some st')
    (hclean : st'.clean = true) : CleanStep oursEdits theirsEdits st st' := by
  unfold mergeStep at h
  dsimp only at h
  split_ifs at h with hneither htheirs hours hsame hend
  · obtain ⟨line, -, hst⟩ := bind_eq_some_iff.mp h
    cases hst
    exact ⟨hclean, .inl ⟨hneither.1, hneither.2, rfl⟩, .inl hneither.2⟩
  · cases h
    exact ⟨hclean, .inr rfl, .inl htheirs⟩
  · cases h
    exact ⟨hclean, .inr rfl, .inr (.inl hours)⟩
  · cases h
    exact ⟨hclean, .inr rfl, .inr (.inr (Prod.ext hsame.2 hsame.1))⟩
  · -- The chunk is a conflict, and the merge is not clean.
    cases h
    cases hclean

omit [DecidableEq α] in
/-- The lines over which an iteration jumps are those of the edit at which it starts. -/
lemma CleanStep.exists_edit (h : CleanStep oursEdits theirsEdits st st') (hlt : st.i < x)
    (hx : x < st'.i) : ∃ f, (f ∈ oursEdits ∨ f ∈ theirsEdits) ∧ f.start = st.i ∧
      st'.i = f.start + f.del := by
  have hnext : st'.i = st.i + max (editAt oursEdits st.i).1 (editAt theirsEdits st.i).1 := by
    rcases h.next with ⟨-, -, hone⟩ | hmax
    · omega
    · exact hmax
  rcases le_total (editAt theirsEdits st.i).1 (editAt oursEdits st.i).1 with hle | hle
  · rw [max_eq_left hle] at hnext
    have hdel : 0 < (editAt oursEdits st.i).1 := by omega
    obtain ⟨f, hf, hstart, hdel⟩ := exists_of_editAt hdel
    exact ⟨f, .inl hf, hstart, by omega⟩
  · rw [max_eq_right hle] at hnext
    have hdel : 0 < (editAt theirsEdits st.i).1 := by omega
    obtain ⟨f, hf, hstart, hdel⟩ := exists_of_editAt hdel
    exact ⟨f, .inr hf, hstart, by omega⟩

omit [DecidableEq α] in
/-- An iteration that starts at an edit goes at least to the end of that edit. -/
lemma CleanStep.end_le {n : ℕ} (h : CleanStep oursEdits theirsEdits st st')
    (hours : Separated oursEdits n) (htheirs : Separated theirsEdits n)
    (he : e ∈ oursEdits ∨ e ∈ theirsEdits) (hstart : e.start = st.i) :
    e.start + e.del ≤ st'.i := by
  rcases he with he | he
  · have hat := hours.editAt_start he
    rw [hstart] at hat
    rcases h.next with ⟨hnone, -, hone⟩ | hmax
    · have hdel : e.del = 0 := congrArg Prod.fst (hat.symm.trans hnone)
      omega
    · rw [hat] at hmax
      omega
  · have hat := htheirs.editAt_start he
    rw [hstart] at hat
    rcases h.next with ⟨-, hnone, hone⟩ | hmax
    · have hdel : e.del = 0 := congrArg Prod.fst (hat.symm.trans hnone)
      omega
    · rw [hat] at hmax
      omega

/-- A loop that ends without a conflict met none before. -/
lemma clean_of_mergeLoop (h : mergeLoop base oursEdits theirsEdits fuel st = some r)
    (hr : r.clean = true) : st.clean = true := by
  induction fuel generalizing st with
  | zero =>
    unfold mergeLoop at h
    split_ifs at h
    cases h
    exact hr
  | succ fuel ih =>
    unfold mergeLoop at h
    split_ifs at h
    · obtain ⟨st₁, hstep, hloop⟩ := bind_eq_some_iff.mp h
      exact (cleanStep_of_mergeStep hstep (ih hloop)).clean
    · cases h
      exact hr

/-- A loop that ends goes on from every state that it reaches. -/
lemma mergeLoop_of_reaches (h : mergeLoop base oursEdits theirsEdits fuel st = some r)
    (hreach : ReflTransGen (LoopStep base oursEdits theirsEdits) st st') :
    ∃ fuel', mergeLoop base oursEdits theirsEdits fuel' st' = some r := by
  induction hreach with
  | refl => exact ⟨fuel, h⟩
  | tail _ hstep ih =>
    obtain ⟨fuel', hloop⟩ := ih
    obtain ⟨hlt, hstep⟩ := hstep
    cases fuel' with
    | zero =>
      unfold mergeLoop at hloop
      rw [if_pos hlt] at hloop
      cases hloop
    | succ fuel' =>
      unfold mergeLoop at hloop
      rw [if_pos hlt, hstep] at hloop
      exact ⟨fuel', hloop⟩

/-- Every iteration of a loop that ends without a conflict is without a conflict. -/
lemma cleanStep_of_reaches (h : mergeLoop base oursEdits theirsEdits fuel mergeStart = some r)
    (hr : r.clean = true)
    (hreach : ReflTransGen (LoopStep base oursEdits theirsEdits) mergeStart st)
    (hstep : LoopStep base oursEdits theirsEdits st st') :
    CleanStep oursEdits theirsEdits st st' := by
  obtain ⟨fuel', hloop⟩ := mergeLoop_of_reaches h (hreach.tail hstep)
  exact cleanStep_of_mergeStep hstep.2 (clean_of_mergeLoop hloop hr)

/-- A loop that ends passes every base line. -/
lemma exists_step_over (h : mergeLoop base oursEdits theirsEdits fuel st = some r)
    (hle : st.i ≤ x) (hx : x < base.length) :
    ∃ st₁ st₂, ReflTransGen (LoopStep base oursEdits theirsEdits) st st₁ ∧
      LoopStep base oursEdits theirsEdits st₁ st₂ ∧ st₁.i ≤ x ∧ x < st₂.i := by
  have hlt : st.i < base.length := lt_of_le_of_lt hle hx
  induction fuel generalizing st with
  | zero =>
    unfold mergeLoop at h
    rw [if_pos hlt] at h
    cases h
  | succ fuel ih =>
    unfold mergeLoop at h
    rw [if_pos hlt] at h
    obtain ⟨st₁, hstep, hloop⟩ := bind_eq_some_iff.mp h
    rcases lt_or_ge x st₁.i with hover | hbefore
    · exact ⟨st, st₁, .refl, ⟨hlt, hstep⟩, hle, hover⟩
    · obtain ⟨st₂, st₃, hreach, hstep', hover⟩ :=
        ih hloop hbefore (lt_of_le_of_lt hbefore hx)
      exact ⟨st₂, st₃, .head ⟨hlt, hstep⟩ hreach, hstep', hover⟩

/-! ## Lost edits -/

/-- No edit is lost: the two sides edit the same lines only where they make the same edit, and no
iteration jumps over the start of an edit. -/
structure NoEditLost (base : List α) (oursEdits theirsEdits : List (Edit α)) : Prop where
  overlap : ∀ e ∈ oursEdits, ∀ e' ∈ theirsEdits, ∀ x, e.start ≤ x → x < e.start + e.del →
    e'.start ≤ x → x < e'.start + e'.del → e = e'
  consumed : ∀ st st', ReflTransGen (LoopStep base oursEdits theirsEdits) mergeStart st →
    LoopStep base oursEdits theirsEdits st st' →
    ∀ e, e ∈ oursEdits ∨ e ∈ theirsEdits → st.i < e.start → st'.i ≤ e.start

/-- No edit starts strictly inside the lines of an edit of the other side. -/
def NoInnerStart (oursEdits theirsEdits : List (Edit α)) : Prop :=
  ∀ e ∈ oursEdits, ∀ e' ∈ theirsEdits,
    (e.start < e'.start → e.start + e.del ≤ e'.start) ∧
    (e'.start < e.start → e'.start + e'.del ≤ e.start)

omit [DecidableEq α] in
/-- In a loop without a conflict the edits of which none starts inside another one are all met at
their start. -/
lemma consumed_of_noInnerStart {n : ℕ} (hours : Separated oursEdits n)
    (htheirs : Separated theirsEdits n) (hinner : NoInnerStart oursEdits theirsEdits)
    (hstep : CleanStep oursEdits theirsEdits st st') (he : e ∈ oursEdits ∨ e ∈ theirsEdits)
    (hlt : st.i < e.start) : st'.i ≤ e.start := by
  by_contra hover
  obtain ⟨f, hf, hstart, hend⟩ := hstep.exists_edit hlt (Nat.lt_of_not_le hover)
  have hfe : f.start < e.start := by omega
  have hbefore : f.start + f.del ≤ e.start := by
    rcases hf with hf | hf <;> rcases he with he | he
    · exact le_of_lt (hours.end_lt hf he hfe)
    · exact (hinner f hf e he).1 hfe
    · exact (hinner e he f hf).2 hfe
    · exact le_of_lt (htheirs.end_lt hf he hfe)
  omega

/-- In a loop that ends, an edit that is not jumped over is met at its start. -/
lemma exists_step_at (h : mergeLoop base oursEdits theirsEdits fuel mergeStart = some r)
    (hconsumed : ∀ st st', ReflTransGen (LoopStep base oursEdits theirsEdits) mergeStart st →
      LoopStep base oursEdits theirsEdits st st' → st.i < x → st'.i ≤ x)
    (hx : x < base.length) :
    ∃ st st', ReflTransGen (LoopStep base oursEdits theirsEdits) mergeStart st ∧
      LoopStep base oursEdits theirsEdits st st' ∧ st.i = x := by
  obtain ⟨st, st', hreach, hstep, hle, hover⟩ := exists_step_over h (Nat.zero_le x) hx
  refine ⟨st, st', hreach, hstep, Nat.le_antisymm hle (Nat.le_of_not_lt fun hlt => ?_)⟩
  have hbefore := hconsumed st st' hreach hstep hlt
  omega

/-- Two edits at one line that a loop without a conflict takes are the same. -/
lemma CleanStep.edit_eq {n : ℕ} (h : CleanStep oursEdits theirsEdits st st')
    (hours : Separated oursEdits n) (htheirs : Separated theirsEdits n) (he : e ∈ oursEdits)
    (he' : e' ∈ theirsEdits) (hstart : e.start = st.i) (hstart' : e'.start = st.i)
    (hdel : 0 < e.del) (hdel' : 0 < e'.del) : e = e' := by
  have hat := hours.editAt_start he
  have hat' := htheirs.editAt_start he'
  rw [hstart] at hat
  rw [hstart'] at hat'
  have hsame : (e.del, e.ins) = (e'.del, e'.ins) := by
    rcases h.agree with hnone | hnone | hboth
    · have hzero : e'.del = 0 := congrArg Prod.fst (hat'.symm.trans hnone)
      omega
    · have hzero : e.del = 0 := congrArg Prod.fst (hat.symm.trans hnone)
      omega
    · rw [← hat, ← hat', hboth]
  obtain ⟨hd, hi⟩ := Prod.mk.inj hsame
  cases e
  cases e'
  simp_all

/-- The edits of two sides over the same base, and a loop that ends without a conflict: no edit is
lost if and only if none starts strictly inside one of the other side. -/
lemma noEditLost_iff_of_mergeLoop (hours : Separated oursEdits base.length)
    (htheirs : Separated theirsEdits base.length)
    (h : mergeLoop base oursEdits theirsEdits fuel mergeStart = some r) (hr : r.clean = true) :
    NoEditLost base oursEdits theirsEdits ↔ NoInnerStart oursEdits theirsEdits := by
  constructor
  · intro hlost
    -- The loop is at the start of the outer edit once, and from there it goes to its end.
    have hend : ∀ e, e ∈ oursEdits ∨ e ∈ theirsEdits → ∀ e', e' ∈ oursEdits ∨ e' ∈ theirsEdits →
        e'.start ≤ base.length → e.start < e'.start → e.start + e.del ≤ e'.start := by
      intro e he e' he' hle hlt
      obtain ⟨st, st', hreach, hstep, hst⟩ := exists_step_at h
        (fun st st' hreach hstep hlt => hlost.consumed st st' hreach hstep e he hlt)
        (lt_of_lt_of_le hlt hle)
      have hclean := cleanStep_of_reaches h hr hreach hstep
      have hbefore := hclean.end_le hours htheirs he hst.symm
      have hafter := hlost.consumed st st' hreach hstep e' he' (by omega)
      omega
    intro e he e' he'
    have hle := hours.end_le e he
    have hle' := htheirs.end_le e' he'
    exact ⟨hend e (.inl he) e' (.inr he') (by omega), hend e' (.inr he') e (.inl he) (by omega)⟩
  · intro hinner
    have hconsumed : ∀ e, e ∈ oursEdits ∨ e ∈ theirsEdits → ∀ st st',
        ReflTransGen (LoopStep base oursEdits theirsEdits) mergeStart st →
        LoopStep base oursEdits theirsEdits st st' → st.i < e.start → st'.i ≤ e.start :=
      fun e he st st' hreach hstep hlt => consumed_of_noInnerStart hours htheirs hinner
        (cleanStep_of_reaches h hr hreach hstep) he hlt
    refine ⟨fun e he e' he' x hle hlt hle' hlt' => ?_,
      fun st st' hreach hstep e he => hconsumed e he st st' hreach hstep⟩
    -- Edits with a line in common start at the same line, and the loop takes both there.
    have hstart : e'.start = e.start := by
      have hin := hinner e he e' he'
      omega
    have hend := hours.end_le e he
    obtain ⟨st, st', hreach, hstep, hst⟩ := exists_step_at h (hconsumed e (.inl he)) (by omega)
    exact (cleanStep_of_reaches h hr hreach hstep).edit_eq hours htheirs he he' hst.symm
      (hstart.trans hst.symm) (by omega) (by omega)

lemma clean_of_mergeTail {oursTail theirsTail : List α} {chunks : List (MergeChunk α)}
    {clean : Bool} (h : (mergeTail oursTail theirsTail chunks clean).clean = true) :
    clean = true := by
  unfold mergeTail at h
  split at h
  · exact h
  · exact h
  · exact h
  · split_ifs at h
    exact h

/-- A merge past the fast paths runs the loop on the edits of the two sides. -/
lemma exists_mergeLoop {base ours theirs : Bytes} {m : LineMerge Bytes} (hsides : ours ≠ theirs)
    (hours : base ≠ ours) (htheirs : base ≠ theirs)
    (h : mergeLines fuel base ours theirs = some m) (hclean : m.clean = true) :
    ∃ oursEdits theirsEdits r, editsOf (splitLines base) (splitLines ours) = some oursEdits ∧
      editsOf (splitLines base) (splitLines theirs) = some theirsEdits ∧
      mergeLoop (splitLines base) oursEdits theirsEdits fuel mergeStart = some r ∧
      r.clean = true := by
  rw [mergeLines, if_neg hsides, if_neg hours, if_neg htheirs] at h
  obtain ⟨oursEdits, ho, h⟩ := bind_eq_some_iff.mp h
  obtain ⟨theirsEdits, ht, h⟩ := bind_eq_some_iff.mp h
  obtain ⟨r, hr, h⟩ := bind_eq_some_iff.mp h
  cases h
  exact ⟨oursEdits, theirsEdits, r, ho, ht, hr, clean_of_mergeTail hclean⟩

/-- A clean merge of files past the fast paths loses no edit if and only if no edit of one side
starts strictly inside the lines of an edit of the other. -/
theorem noEditLost_iff {base ours theirs : Bytes} {m : LineMerge Bytes}
    {oursEdits theirsEdits : List (Edit Bytes)} (hsides : ours ≠ theirs) (hours : base ≠ ours)
    (htheirs : base ≠ theirs) (h : mergeLines fuel base ours theirs = some m)
    (hclean : m.clean = true)
    (ho : editsOf (splitLines base) (splitLines ours) = some oursEdits)
    (ht : editsOf (splitLines base) (splitLines theirs) = some theirsEdits) :
    NoEditLost (splitLines base) oursEdits theirsEdits ↔
      NoInnerStart oursEdits theirsEdits := by
  obtain ⟨oursEdits', theirsEdits', r, ho', ht', hloop, hr⟩ :=
    exists_mergeLoop hsides hours htheirs h hclean
  cases ho.symm.trans ho'
  cases ht.symm.trans ht'
  exact noEditLost_iff_of_mergeLoop (separated_editsOf ho) (separated_editsOf ht) hloop hr

/-- The text whose lines are the given characters. -/
def textOf (lines : String) : Bytes := lines.toList.flatMap fun c => [c.toNat.toUInt8, 10]

/-- Ours edits the first of three lines and theirs the last one: both edits are in the clean
merge. -/
theorem noEditLost_iff_disjoint :
    mergeLines 4 (textOf "abc") (textOf "Xbc") (textOf "abY") =
      some ⟨[.unchanged [[88]], .unchanged [[98]], .unchanged [[89]]], true⟩ ∧
    NoEditLost (splitLines (textOf "abc")) [⟨0, 1, [[88]]⟩] [⟨2, 1, [[89]]⟩] := by
  have hmerge : mergeLines 4 (textOf "abc") (textOf "Xbc") (textOf "abY") =
      some ⟨[.unchanged [[88]], .unchanged [[98]], .unchanged [[89]]], true⟩ := by decide +kernel
  have hours : editsOf (splitLines (textOf "abc")) (splitLines (textOf "Xbc")) =
      some [⟨0, 1, [[88]]⟩] := by decide +kernel
  have htheirs : editsOf (splitLines (textOf "abc")) (splitLines (textOf "abY")) =
      some [⟨2, 1, [[89]]⟩] := by decide +kernel
  refine ⟨hmerge, (noEditLost_iff (by decide) (by decide) (by decide) hmerge rfl hours
    htheirs).mpr ?_⟩
  unfold NoInnerStart
  decide

/-- Ours replaces both lines `a` and `b` of a file by `X`, and theirs replaces `b` by `B`: the
merge is reported as clean, and `B` is lost. -/
theorem inner_edit_lost :
    mergeLines 2 (textOf "ab") (textOf "X") (textOf "aB") = some ⟨[.unchanged [[88]]], true⟩ ∧
    editsOf (splitLines (textOf "ab")) (splitLines (textOf "X")) = some [⟨0, 2, [[88]]⟩] ∧
    editsOf (splitLines (textOf "ab")) (splitLines (textOf "aB")) = some [⟨1, 1, [[66]]⟩] ∧
    ¬ NoEditLost (splitLines (textOf "ab")) [⟨0, 2, [[88]]⟩] [⟨1, 1, [[66]]⟩] := by
  refine ⟨by decide +kernel, by decide +kernel, by decide +kernel, fun h => ?_⟩
  have heq := h.overlap _ (mem_singleton.mpr rfl) _ (mem_singleton.mpr rfl) 1
    (by decide) (by decide) (by decide) (by decide)
  cases heq

end Gyt.Merge3
