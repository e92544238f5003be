import Gyt.Foundation.EditGraph
import Gyt.Errors

/-!
# Line differences

The splitting of a file into lines and the greedy difference algorithm, `diff.rs`.  The algorithm is
modelled with the array and the indices of the source: an index out of range, which panics there,
gives `none` here.  `myers_spec` shows that this never happens and that the script is valid.

Lines are compared as values, so the algorithm is stated for lists over any type with decidable
equality.
-/

namespace Gyt

open List Option

/-- One operation of an edit script. -/
inductive DiffOp (α : Type) where
  /-- A line of both lists. -/
  | equal (line : α)
  /-- A line of the first list only. -/
  | delete (line : α)
  /-- A line of the second list only. -/
  | insert (line : α)
  deriving DecidableEq, Repr

/-- Edit scripts. -/
abbrev Script (α : Type) := List (DiffOp α)

namespace Diff

/-- The loop of `splitLines`; `cur` holds the bytes since the last line end. -/
def splitLinesLoop : Bytes → Bytes → List Bytes
  | cur, [] => if cur = [] then [] else [cur]
  | cur, c :: rest =>
    if c = 0x0a then cur :: splitLinesLoop [] rest else splitLinesLoop (cur ++ [c]) rest

/-- Splitting a buffer at its line ends; an unterminated last line is included. -/
def splitLines (buf : Bytes) : List Bytes := splitLinesLoop [] buf

/-- The number of lines above which the difference is not computed, `MAX_DIFF_LINES`. -/
def maxDiffLines : ℕ := 50000

/-! ## Indices -/

section Indices

variable {β : Type}

/-- Indexing with a signed index that is cast to an unsigned one. -/
def getAt (l : List β) (i : ℤ) : Option β := if 0 ≤ i then l[i.toNat]? else none

/-- Assigning to a signed index. -/
def setAt (l : List β) (i : ℤ) (x : β) : Option (List β) :=
  if 0 ≤ i ∧ i < l.length then some (l.set i.toNat x) else none

end Indices

variable {α : Type}

/-! ## Scripts -/

/-- The lines of the first list in a script. -/
def oldLines (ops : Script α) : List α :=
  ops.filterMap fun
    | .equal l => some l
    | .delete l => some l
    | .insert _ => none

/-- The lines of the second list in a script. -/
def newLines (ops : Script α) : List α :=
  ops.filterMap fun
    | .equal l => some l
    | .delete _ => none
    | .insert l => some l

/-- The number of lines that a script deletes or inserts. -/
def changes (ops : Script α) : ℕ :=
  ops.countP fun
    | .equal _ => false
    | .delete _ => true
    | .insert _ => true

@[simp] lemma oldLines_append (ops ops' : Script α) :
    oldLines (ops ++ ops') = oldLines ops ++ oldLines ops' := filterMap_append

@[simp] lemma newLines_append (ops ops' : Script α) :
    newLines (ops ++ ops') = newLines ops ++ newLines ops' := filterMap_append

@[simp] lemma oldLines_map_equal (ls : List α) : oldLines (ls.map .equal) = ls := by
  simp [oldLines, filterMap_map]

@[simp] lemma newLines_map_equal (ls : List α) : newLines (ls.map .equal) = ls := by
  simp [newLines, filterMap_map]

@[simp] lemma oldLines_map_delete (ls : List α) : oldLines (ls.map .delete) = ls := by
  simp [oldLines, filterMap_map]

@[simp] lemma newLines_map_delete (ls : List α) : newLines (ls.map .delete) = [] := by
  simp [newLines, filterMap_map]

@[simp] lemma oldLines_map_insert (ls : List α) : oldLines (ls.map .insert) = [] := by
  simp [oldLines, filterMap_map]

@[simp] lemma newLines_map_insert (ls : List α) : newLines (ls.map .insert) = ls := by
  simp [newLines, filterMap_map]

@[simp] lemma changes_equal (l : α) (ops : Script α) :
    changes (.equal l :: ops) = changes ops := countP_cons_of_neg (by simp)

@[simp] lemma changes_delete (l : α) (ops : Script α) :
    changes (.delete l :: ops) = changes ops + 1 := countP_cons_of_pos rfl

@[simp] lemma changes_insert (l : α) (ops : Script α) :
    changes (.insert l :: ops) = changes ops + 1 := countP_cons_of_pos rfl

@[simp] lemma changes_append (ops ops' : Script α) :
    changes (ops ++ ops') = changes ops + changes ops' := countP_append

@[simp] lemma changes_map_equal (ls : List α) : changes (ls.map .equal) = 0 := by simp [changes]

variable [DecidableEq α]

/-! ## The forward search -/

/-- Following a diagonal: `while x < n && y < m && a[x] == b[y]`.  The first argument bounds the
iterations by the lines that are left of `a`. -/
def snakeLoop (a b : List α) : ℕ → ℤ → ℤ → Option (ℤ × ℤ)
  | 0, x, y => some (x, y)
  | fuel + 1, x, y =>
    if x < a.length ∧ y < b.length then do
      let l ← getAt a x
      let r ← getAt b y
      if l = r then snakeLoop a b fuel (x + 1) (y + 1) else some (x, y)
    else some (x, y)

/-- The end of the diagonal run from a point. -/
def snake (a b : List α) (x y : ℤ) : Option (ℤ × ℤ) := snakeLoop a b (a.length - x).toNat x y

/-- Whether diagonal `k` of row `d` is entered from above. -/
def goesDown (offset : ℕ) (v : List ℤ) (d k : ℤ) : Option Bool :=
  if k = -d then some true
  else if k ≠ d then do
    let left ← getAt v (k - 1 + offset)
    let right ← getAt v (k + 1 + offset)
    some (decide (left < right))
  else some false

/-- Where diagonal `k` of row `d` is entered. -/
def enter (offset : ℕ) (v : List ℤ) (d k : ℤ) : Option ℤ := do
  let down ← goesDown offset v d k
  if down then getAt v (k + 1 + offset) else (getAt v (k - 1 + offset)).map (· + 1)

/-- The furthest point on diagonal `k` of row `d`. -/
def furthest (a b : List α) (offset : ℕ) (v : List ℤ) (d k : ℤ) : Option (ℤ × ℤ) := do
  let x ← enter offset v d k
  snake a b x (x - k)

/-- One row of the search, from diagonal `k` on, with the number of diagonals that are left.  The
flag says whether both ends were passed, which stops the search. -/
def rowLoop (a b : List α) (offset : ℕ) (d : ℤ) : ℕ → ℤ → List ℤ → Option (List ℤ × Bool)
  | 0, _, v => some (v, false)
  | count + 1, k, v => do
    let p ← furthest a b offset v d k
    let v ← setAt v (k + offset) p.1
    if (a.length : ℤ) ≤ p.1 ∧ (b.length : ℤ) ≤ p.2 then some (v, true)
    else rowLoop a b offset d count (k + 2) v

/-- The rows of the search, with the number of rows that are left; `trace` collects the array after
every row. -/
def forwardLoop (a b : List α) (offset : ℕ) :
    ℕ → ℕ → List ℤ → List (List ℤ) → Option (List (List ℤ))
  | 0, _, _, trace => some trace
  | count + 1, d, v, trace => do
    let row ← rowLoop a b offset d (d + 1) (-d) v
    if row.2 then some (trace ++ [row.1])
    else forwardLoop a b offset count (d + 1) row.1 (trace ++ [row.1])

/-! ## The way back -/

/-- Walking a diagonal back to the point where it was entered. -/
def diagonalBack (a : List α) (prevX prevY : ℤ) :
    ℕ → ℤ → ℤ → Script α → Option (ℤ × ℤ × Script α)
  | 0, x, y, ops => some (x, y, ops)
  | fuel + 1, x, y, ops =>
    if prevX < x ∧ prevY < y then do
      let l ← getAt a (x - 1)
      diagonalBack a prevX prevY fuel (x - 1) (y - 1) (.equal l :: ops)
    else some (x, y, ops)

/-- The way back through the rows, last row first.  Operations are collected from the end of the
script to its beginning. -/
def backLoop (a b : List α) (offset : ℕ) :
    List (List ℤ × ℕ) → ℤ → ℤ → Script α → Option (Script α)
  | [], _, _, ops => some ops
  | (v, d) :: rows, x, y, ops => do
    let k := x - y
    let down ← goesDown offset v d k
    let prevK := if down then k + 1 else k - 1
    let prevX ← getAt v (prevK + offset)
    let prevY := prevX - prevK
    let p ← diagonalBack a prevX prevY (x - prevX).toNat x y ops
    if 0 < d then
      if p.1 = prevX then do
        let l ← getAt b prevY
        backLoop a b offset rows prevX prevY (.insert l :: p.2.2)
      else do
        let l ← getAt a prevX
        backLoop a b offset rows prevX prevY (.delete l :: p.2.2)
    else backLoop a b offset rows p.1 p.2.1 p.2.2

/-- The difference of two lists of lines. -/
def myers (a b : List α) : Option (Script α) :=
  if a = [] ∧ b = [] then some []
  else if a = [] then some (b.map .insert)
  else if b = [] then some (a.map .delete)
  else if maxDiffLines < a.length + b.length then some (a.map .delete ++ b.map .insert)
  else do
    let max := a.length + b.length
    let trace ← forwardLoop a b max (max + 1) 0 (List.replicate (2 * max + 1) 0) []
    backLoop a b max trace.zipIdx.reverse a.length b.length []

/-! ## The forward search computes the furthest reaching points -/

section Indices

variable {β : Type} {l : List β} {i j : ℤ} {x : β}

/-- An index in range finds the element between the two halves of the list. -/
lemma exists_getAt (hlow : 0 ≤ i) (hhigh : i < l.length) :
    ∃ x, getAt l i = some x ∧ l.drop i.toNat = x :: l.drop (i + 1).toNat ∧
      l.take (i + 1).toNat = l.take i.toNat ++ [x] := by
  have hlt : i.toNat < l.length := by omega
  have hsucc : (i + 1).toNat = i.toNat + 1 := by omega
  refine ⟨l[i.toNat], ?_, ?_, ?_⟩
  · rw [getAt, if_pos hlow, getElem?_eq_getElem hlt]
  · rw [hsucc]
    exact drop_eq_getElem_cons hlt
  · rw [hsucc]
    exact take_succ_eq_append_getElem hlt

/-- Reading after an assignment. -/
lemma getAt_set (hlow : 0 ≤ i) (hhigh : i < l.length) :
    getAt (l.set i.toNat x) j = if j = i then some x else getAt l j := by
  by_cases hj : 0 ≤ j
  · rw [getAt, getAt, if_pos hj, if_pos hj, getElem?_set]
    by_cases hij : j = i
    · subst hij
      rw [if_pos rfl, if_pos rfl, if_pos (by omega)]
    · rw [if_neg (by omega), if_neg hij]
  · have hne : j ≠ i := by omega
    rw [getAt, getAt, if_neg hj, if_neg hne, if_neg hj]

end Indices

section Forward

open EditGraph

variable {a b : List α} {offset d : ℕ} {v : List ℤ} {k : ℤ}

lemma matchLen_nil_right (xs : List α) : matchLen xs [] = 0 := by
  cases xs <;> rfl

lemma snakeLoop_eq {fuel : ℕ} {x y : ℤ} (hx : 0 ≤ x) (hy : 0 ≤ y)
    (hfuel : (a.length - x).toNat = fuel) :
    snakeLoop a b fuel x y = some (x + run a b x y, y + run a b x y) := by
  induction fuel generalizing x y with
  | zero =>
    have hdrop : a.drop x.toNat = [] := drop_eq_nil_of_le (by omega)
    simp [snakeLoop, run, hdrop, matchLen]
  | succ fuel ih =>
    rw [snakeLoop]
    by_cases hin : x < a.length ∧ y < b.length
    · obtain ⟨l, hl, hdropl, -⟩ := exists_getAt hx hin.1
      obtain ⟨r, hr, hdropr, -⟩ := exists_getAt hy hin.2
      have hrun : run a b x y = if l = r then run a b (x + 1) (y + 1) + 1 else 0 := by
        rw [run, hdropl, hdropr, matchLen, run]
      simp only [if_pos hin, hl, hr, bind_eq_bind, bind_some, hrun]
      by_cases hlr : l = r
      · rw [if_pos hlr, if_pos hlr, ih (by omega) (by omega) (by omega)]
        push_cast
        congr 2 <;> omega
      · rw [if_neg hlr, if_neg hlr]
        simp
    · have hdrop : b.drop y.toNat = [] := drop_eq_nil_of_le (by omega)
      rw [if_neg hin, run, hdrop, matchLen_nil_right]
      simp

lemma snake_eq {x y : ℤ} (hx : 0 ≤ x) (hy : 0 ≤ y) :
    snake a b x y = some (x + run a b x y, y + run a b x y) :=
  snakeLoop_eq hx hy rfl

/-- Whether row `d` reads the entry of diagonal `k`: it is on the row before or, for the first row,
next to the start. -/
def Reads (d : ℕ) (k : ℤ) : Prop := (d = 0 ∧ k = 1) ∨ ∃ d', d = d' + 1 ∧ OnRow d' k

/-- Whether the array has what row `d` reads. -/
structure Ready (a b : List α) (offset d : ℕ) (v : List ℤ) : Prop where
  length_eq : v.length = 2 * offset + 1
  getAt_eq : ∀ k, Reads d k → getAt v (k + offset) = some (prevRow a b d k)

/-- A diagonal that is entered from above reads its right neighbour. -/
lemma reads_of_down {f : ℤ → ℤ} (hk : OnRow d k) (hdown : Down f d k) : Reads d (k + 1) := by
  cases d with
  | zero =>
    obtain ⟨hlow, hhigh, -⟩ := hk
    exact Or.inl ⟨rfl, by omega⟩
  | succ d => exact Or.inr ⟨d, rfl, onRow_of_down hk hdown⟩

/-- A diagonal that is entered from the left reads its left neighbour. -/
lemma reads_of_not_down {f : ℤ → ℤ} (hk : OnRow d k) (hdown : ¬ Down f d k) :
    Reads d (k - 1) := by
  cases d with
  | zero =>
    obtain ⟨hlow, hhigh, -⟩ := hk
    exact absurd (Or.inl (by omega)) hdown
  | succ d => exact Or.inr ⟨d, rfl, onRow_of_not_down hk hdown⟩

/-- The comparison of the neighbours is made on the row before. -/
lemma goesDown_eq (hv : Ready a b offset d v) (hk : OnRow d k) :
    goesDown offset v d k = some (decide (Down (prevRow a b d) d k)) := by
  unfold goesDown
  by_cases hleft : k = -d
  · have hdown : Down (prevRow a b d) d k := Or.inl hleft
    rw [if_pos hleft, decide_eq_true hdown]
  rw [if_neg hleft]
  by_cases hright : k = d
  · have hdown : ¬ Down (prevRow a b d) d k := by
      rintro (h | ⟨h, -⟩)
      · exact hleft h
      · exact h hright
    rw [if_neg (not_not.mpr hright), decide_eq_false hdown]
  · have hdown : Down (prevRow a b d) d k ↔ prevRow a b d (k - 1) < prevRow a b d (k + 1) := by
      simp [Down, hleft, hright]
    obtain ⟨hlow, hhigh, hpar⟩ := hk
    have hread : ∀ k', OnRow (d - 1) k' → Reads d k' :=
      fun k' hk' => Or.inr ⟨d - 1, by omega, hk'⟩
    have hl := hv.getAt_eq (k - 1) (hread _ (by unfold OnRow; omega))
    have hr := hv.getAt_eq (k + 1) (hread _ (by unfold OnRow; omega))
    rw [if_pos hright, hl, hr]
    simp [hdown]

/-- The search finds the furthest point of a diagonal. -/
lemma furthest_eq (hv : Ready a b offset d v) (hk : OnRow d k) :
    furthest a b offset v d k = some (reach a b d k, reach a b d k - k) := by
  have hnonneg := entry_prevRow_nonneg (a := a) (b := b) hk
  have hstart : enter offset v d k = some (entry (prevRow a b d) d k) := by
    rw [enter, goesDown_eq hv hk, bind_eq_bind, bind_some, entry]
    by_cases hdown : Down (prevRow a b d) d k
    · rw [if_pos (decide_eq_true hdown), if_pos hdown, hv.getAt_eq _ (reads_of_down hk hdown)]
    · rw [if_neg (by simpa using hdown), if_neg hdown,
        hv.getAt_eq _ (reads_of_not_down hk hdown), map_some]
  rw [furthest, hstart, bind_eq_bind, bind_some, snake_eq hnonneg.1 hnonneg.2, reach_eq_entry hk]
  congr 2
  omega

/-- Storing a point of row `d` leaves what row `d` reads. -/
lemma Ready.set (hv : Ready a b offset d v) (hd : d ≤ offset) (hk : OnRow d k) (x : ℤ) :
    ∃ v', setAt v (k + offset) x = some v' ∧ Ready a b offset d v' ∧
      ∀ k', getAt v' (k' + offset) = if k' = k then some x else getAt v (k' + offset) := by
  obtain ⟨hlow, hhigh, hpar⟩ := hk
  have hlen := hv.length_eq
  have hin : 0 ≤ k + (offset : ℤ) ∧ k + (offset : ℤ) < v.length := by omega
  have hget : ∀ k' : ℤ, getAt (v.set (k + (offset : ℤ)).toNat x) (k' + offset) =
      if k' = k then some x else getAt v (k' + offset) := by
    intro k'
    rw [getAt_set hin.1 hin.2]
    by_cases hkk : k' = k
    · rw [if_pos (by omega), if_pos hkk]
    · rw [if_neg (by omega), if_neg hkk]
  refine ⟨v.set (k + (offset : ℤ)).toNat x, if_pos hin, ⟨?_, ?_⟩, hget⟩
  · rw [length_set, hlen]
  · intro k' hk'
    -- What the row reads has the other parity.
    have hne : k' ≠ k := by
      rcases hk' with ⟨rfl, rfl⟩ | ⟨d', rfl, hrow⟩
      · omega
      · obtain ⟨-, -, hpar'⟩ := hrow
        omega
    rw [hget, if_neg hne, hv.getAt_eq k' hk']

/-- What one row of the search does, from diagonal `k` on. -/
structure RowDone (a b : List α) (offset d : ℕ) (k : ℤ) (v v' : List ℤ) (found : Bool) :
    Prop where
  ready : Ready a b offset d v'
  /-- The diagonals before `k` are left alone. -/
  before : ∀ k' < k, getAt v' (k' + offset) = getAt v (k' + offset)
  past : found = true → ∃ k', OnRow d k' ∧ Past a b d k'
  stored : found = false → ∀ k', OnRow d k' → k ≤ k' →
    getAt v' (k' + offset) = some (reach a b d k') ∧ ¬ Past a b d k'

lemma rowLoop_spec (count : ℕ) (hv : Ready a b offset d v) (hd : d ≤ offset)
    (hk : k = (d : ℤ) + 2 - 2 * count) (hcount : count ≤ d + 1) :
    ∃ v' found, rowLoop a b offset d count k v = some (v', found) ∧
      RowDone a b offset d k v v' found := by
  induction count generalizing k v with
  | zero =>
    refine ⟨v, false, rfl, hv, fun _ _ => rfl, by simp, ?_⟩
    intro _ k' hk' hle
    obtain ⟨-, hhigh, -⟩ := hk'
    omega
  | succ count ih =>
    have hrow : OnRow d k := by unfold OnRow; omega
    obtain ⟨v₁, hset, hv₁, hget⟩ := hv.set hd hrow (reach a b d k)
    rw [rowLoop, furthest_eq hv hrow, bind_eq_bind, bind_some]
    simp only
    rw [hset, bind_eq_bind, bind_some]
    have hbefore : ∀ k' < k, getAt v₁ (k' + offset) = getAt v (k' + offset) := by
      intro k' hlt
      rw [hget, if_neg (by omega)]
    by_cases hpast : (a.length : ℤ) ≤ reach a b d k ∧ (b.length : ℤ) ≤ reach a b d k - k
    · rw [if_pos hpast]
      exact ⟨v₁, true, rfl, hv₁, hbefore, fun _ => ⟨k, hrow, hpast⟩, by simp⟩
    · rw [if_neg hpast]
      obtain ⟨v', found, hrun, hdone⟩ := ih (k := k + 2) hv₁ (by omega) (by omega)
      refine ⟨v', found, hrun, hdone.ready, ?_, hdone.past, ?_⟩
      · intro k' hlt
        rw [hdone.before k' (by omega), hbefore k' hlt]
      · intro hfound k' hk' hle
        by_cases hkk : k' = k
        · subst hkk
          rw [hdone.before k' (by omega), hget, if_pos rfl]
          exact ⟨rfl, hpast⟩
        · have hpar := hk'.2.2
          have hpar' := hrow.2.2
          exact hdone.stored hfound k' hk' (by omega)

/-- What the search has found when it ends: the arrays of the rows up to the first one that passes
the corner. -/
structure SearchDone (a b : List α) (offset d : ℕ) (rows : List (List ℤ)) : Prop where
  ready : ∀ j v, rows[j]? = some v → Ready a b offset j v
  length_eq : rows.length = d + 1
  past : ∃ k, OnRow d k ∧ Past a b d k
  first : ∀ d' < d, ∀ k, OnRow d' k → ¬ Past a b d' k

lemma forwardLoop_spec {count : ℕ} {rows : List (List ℤ)} (hoffset : offset = a.length + b.length)
    (hcount : count + d = offset + 1) (hv : Ready a b offset d v)
    (hready : ∀ j v, rows[j]? = some v → Ready a b offset j v) (hlen : rows.length = d)
    (hfirst : ∀ d' < d, ∀ k, OnRow d' k → ¬ Past a b d' k) :
    ∃ rows' d', forwardLoop a b offset count d v rows = some rows' ∧
      SearchDone a b offset d' rows' := by
  induction count generalizing d v rows with
  | zero =>
    -- The row with as many steps as there are lines has passed the corner.
    have hpast := past_length_add (a := a) (b := b)
    exact absurd hpast.2 (hfirst _ (by omega) _ hpast.1)
  | succ count ih =>
    obtain ⟨v', found, hrow, hdone⟩ :=
      rowLoop_spec (k := -(d : ℤ)) (d + 1) hv (by omega) (by push_cast; omega) (by omega)
    have hready' : ∀ j w, (rows ++ [v'])[j]? = some w → Ready a b offset j w := by
      intro j w hw
      rw [getElem?_append] at hw
      split at hw
      · exact hready j w hw
      · next hge =>
        have hj : j = d := by
          have hlt := (List.getElem?_eq_some_iff.mp hw).1
          simp at hlt
          omega
        subst hj
        rw [hlen, Nat.sub_self] at hw
        cases hw
        exact hdone.ready
    have hlen' : (rows ++ [v']).length = d + 1 := by simp [hlen]
    rw [forwardLoop, hrow, bind_eq_bind, bind_some]
    cases found with
    | true => exact ⟨_, d, rfl, hready', hlen', hdone.past rfl, hfirst⟩
    | false =>
      have hrowd : ∀ k, OnRow d k → getAt v' (k + offset) = some (reach a b d k) ∧ ¬ Past a b d k :=
        fun k hk => hdone.stored rfl k hk hk.1
      have hnext : Ready a b offset (d + 1) v' := by
        refine ⟨hdone.ready.length_eq, ?_⟩
        rintro k (⟨h, -⟩ | ⟨d', h, hk⟩)
        · omega
        · obtain rfl : d' = d := by omega
          exact (hrowd k hk).1
      refine ih (by omega) hnext hready' hlen' ?_
      intro d' hd' k hk
      rcases Nat.lt_succ_iff_lt_or_eq.mp hd' with hlt | rfl
      · exact hfirst d' hlt k hk
      · exact (hrowd k hk).2

end Forward

/-! ## The way back gives a valid script -/

section Back

open EditGraph

variable {a b : List α} {offset d : ℕ} {k : ℤ}

omit [DecidableEq α] in
/-- The diagonal is walked back to the point `(x₀, y₀)` where it was entered. -/
lemma diagonalBack_eq {prevX prevY x₀ y₀ x y : ℤ} {fuel : ℕ} {ops : Script α}
    (hx₀ : 0 ≤ x₀) (hle : x₀ ≤ x) (hlen : x ≤ a.length) (hdiag : x - y = x₀ - y₀)
    (hprevX : prevX ≤ x₀) (hprevY : prevY ≤ y₀) (hstop : prevX = x₀ ∨ prevY = y₀)
    (hfuel : (x - x₀).toNat ≤ fuel) :
    diagonalBack a prevX prevY fuel x y ops =
      some (x₀, y₀, ((a.drop x₀.toNat).take (x - x₀).toNat).map .equal ++ ops) := by
  induction fuel generalizing x y ops with
  | zero =>
    obtain rfl : x = x₀ := by omega
    obtain rfl : y = y₀ := by omega
    simp [diagonalBack]
  | succ fuel ih =>
    rw [diagonalBack]
    by_cases hx : x = x₀
    · subst hx
      obtain rfl : y = y₀ := by omega
      rw [if_neg (by omega)]
      simp
    · obtain ⟨l, hl, hdrop, -⟩ := exists_getAt (l := a) (i := x - 1) (by omega) (by omega)
      rw [if_pos (by omega), hl, bind_eq_bind, bind_some,
        ih (by omega) (by omega) (by omega) (by omega)]
      have htake : (a.drop x₀.toNat).take (x - x₀).toNat =
          (a.drop x₀.toNat).take (x - 1 - x₀).toNat ++ [l] := by
        obtain ⟨r, hr⟩ : ∃ r : ℕ, x - 1 - x₀ = r := ⟨(x - 1 - x₀).toNat, by omega⟩
        have hsplit : (a.drop x₀.toNat).drop r = l :: a.drop (x - 1 + 1).toNat := by
          rw [drop_drop, ← hdrop]
          congr 1
          omega
        have hsucc : (x - x₀).toNat = r + 1 := by omega
        have hpred : (x - 1 - x₀).toNat = r := by omega
        rw [hsucc, hpred, take_add, hsplit]
        rfl
      rw [htake]
      simp

/-- The arrays of the rows `d, d - 1, …, 0`. -/
def BackRows (a b : List α) (offset : ℕ) : ℕ → List (List ℤ × ℕ) → Prop
  | 0, rows => ∃ v, rows = [(v, 0)] ∧ Ready a b offset 0 v
  | d + 1, rows => ∃ v rest, rows = (v, d + 1) :: rest ∧ Ready a b offset (d + 1) v ∧
    BackRows a b offset d rest

lemma backRows_of_ready {rows : List (List ℤ)} (hlen : rows.length = d + 1)
    (hready : ∀ j v, rows[j]? = some v → Ready a b offset j v) :
    BackRows a b offset d rows.zipIdx.reverse := by
  induction d generalizing rows with
  | zero =>
    obtain ⟨v, rfl⟩ := length_eq_one_iff.mp hlen
    exact ⟨v, rfl, hready 0 v rfl⟩
  | succ d ih =>
    obtain ⟨init, v, rfl⟩ : ∃ init v, rows = init ++ [v] :=
      ⟨rows.dropLast, rows.getLast (by rintro rfl; simp at hlen), (dropLast_append_getLast _).symm⟩
    have hinit : init.length = d + 1 := by simpa using hlen
    refine ⟨v, init.zipIdx.reverse, ?_, ?_, ?_⟩
    · simp [zipIdx_append, hinit]
    · exact hready (d + 1) v (by simp [← hinit])
    · refine ih hinit fun j w hw => hready j w ?_
      rw [List.getElem?_append_left (List.getElem?_eq_some_iff.mp hw).1]
      exact hw

/-- The end of a diagonal run keeps what was before it and adds the lines of the run. -/
lemma take_run {x y : ℤ} (hx : 0 ≤ x) (hy : 0 ≤ y) :
    a.take (x + run a b x y).toNat = a.take x.toNat ++ (a.drop x.toNat).take (run a b x y) ∧
      b.take (y + run a b x y).toNat = b.take y.toNat ++ (a.drop x.toNat).take (run a b x y) := by
  have hmatch := take_matchLen (a.drop x.toNat) (b.drop y.toNat)
  have hx' : (x + run a b x y).toNat = x.toNat + run a b x y := by omega
  have hy' : (y + run a b x y).toNat = y.toNat + run a b x y := by omega
  rw [hx', hy', take_add, take_add]
  exact ⟨rfl, by rw [run, hmatch]⟩

/-- One row of the way back: the diagonal run is collected, and then the step that led to it. -/
lemma backLoop_row {v : List ℤ} {rest : List (List ℤ × ℕ)} {ops ops' : Script α} {x y : ℤ}
    (hv : Ready a b offset d v) (hk : OnRow d k) (hlen : reach a b d k ≤ a.length)
    (hx : x = entry (prevRow a b d) d k) (hy : y = x - k)
    (hops : ops' = ((a.drop x.toNat).take (run a b x y)).map .equal ++ ops) :
    backLoop a b offset ((v, d) :: rest) (reach a b d k) (reach a b d k - k) ops = if 0 < d then
        if Down (prevRow a b d) d k then
          (getAt b (y - 1)).bind fun l =>
            backLoop a b offset rest x (y - 1) (.insert l :: ops')
        else
          (getAt a (x - 1)).bind fun l =>
            backLoop a b offset rest (x - 1) y (.delete l :: ops')
      else backLoop a b offset rest x y ops' := by
  have hnonneg := entry_prevRow_nonneg (a := a) (b := b) hk
  have hreach := reach_eq_entry (a := a) (b := b) hk
  rw [← hx] at hnonneg hreach
  rw [← hy] at hreach
  have hdiag : reach a b d k - (reach a b d k - k) = k := by omega
  have hrun : (reach a b d k - x).toNat = run a b x y := by omega
  -- The step into the diagonal starts at `(prevX, prevY)`.
  have hback : ∀ prevX prevY : ℤ, prevX ≤ x → prevY ≤ y → prevX = x ∨ prevY = y →
      diagonalBack a prevX prevY (reach a b d k - prevX).toNat (reach a b d k)
        (reach a b d k - k) ops = some (x, y, ops') := by
    intro prevX prevY hprevX hprevY hstop
    rw [hops, ← hrun]
    exact diagonalBack_eq (by omega) (by omega) hlen (by omega) hprevX hprevY hstop (by omega)
  rw [backLoop]
  simp only [hdiag, goesDown_eq hv hk, bind_eq_bind, bind_some]
  by_cases hdown : Down (prevRow a b d) d k
  · have hentry : prevRow a b d (k + 1) = x := by rw [hx, entry, if_pos hdown]
    have hget := hv.getAt_eq (k + 1) (reads_of_down hk hdown)
    simp only [decide_eq_true hdown, if_pos, hget, hentry, bind_some,
      hback x (x - (k + 1)) (Int.le_refl x) (by omega) (Or.inl rfl), if_pos hdown]
    rw [show x - (k + 1) = y - 1 by omega]
  · have hentry : prevRow a b d (k - 1) = x - 1 := by
      rw [hx, entry, if_neg hdown]
      omega
    have hget := hv.getAt_eq (k - 1) (reads_of_not_down hk hdown)
    simp only [decide_eq_false hdown, Bool.false_eq_true, if_false, hget, hentry, bind_some,
      hback (x - 1) (x - 1 - (k - 1)) (by omega) (by omega) (Or.inr (by omega)), if_neg hdown,
      if_neg (show ¬ x = x - 1 by omega)]
    rw [show x - 1 - (k - 1) = y by omega]

/-- From a furthest reaching point inside the rectangle, the way back collects a script for the
lines before the point, with one change for every row. -/
lemma backLoop_spec {rows : List (List ℤ × ℕ)} (hrows : BackRows a b offset d rows)
    (hk : OnRow d k) (hx : reach a b d k ≤ a.length) (hy : reach a b d k - k ≤ b.length)
    (ops : Script α) :
    ∃ pre, backLoop a b offset rows (reach a b d k) (reach a b d k - k) ops = some (pre ++ ops) ∧
      oldLines pre = a.take (reach a b d k).toNat ∧
      newLines pre = b.take (reach a b d k - k).toNat ∧ changes pre = d := by
  induction d generalizing rows k ops with
  | zero =>
    obtain ⟨v, rfl, hv⟩ := hrows
    obtain rfl : k = 0 := by obtain ⟨hlow, hhigh, -⟩ := hk; omega
    have hentry : (0 : ℤ) = entry (prevRow a b 0) (0 : ℕ) 0 := (if_pos (Or.inl rfl)).symm
    have htake := take_run (a := a) (b := b) (Int.le_refl 0) (Int.le_refl 0)
    rw [Int.zero_add, Int.toNat_zero, take_zero, nil_append, take_zero, nil_append] at htake
    refine ⟨((a.drop 0).take (run a b 0 0)).map .equal, ?_, ?_, ?_, changes_map_equal _⟩
    · rw [backLoop_row hv hk hx hentry rfl rfl]
      rfl
    · rw [oldLines_map_equal, ← htake.1]
      rfl
    · rw [newLines_map_equal, ← htake.2, Int.sub_zero]
      rfl
  | succ d ih =>
    obtain ⟨v, rest, rfl, hv, hrest⟩ := hrows
    obtain ⟨x, hx₀⟩ : ∃ x, x = entry (reach a b d) (d + 1) k := ⟨_, rfl⟩
    have hnonneg := entry_nonneg (fun _ => reach_nonneg (a := a) (b := b)) hk
    have hreach := reach_succ (a := a) (b := b) (d := d) (k := k)
    rw [← hx₀] at hnonneg hreach
    have htake := take_run (a := a) (b := b) hnonneg.1 hnonneg.2
    rw [← hreach, show x - k + run a b x (x - k) = reach a b (d + 1) k - k by omega] at htake
    rw [backLoop_row hv hk hx hx₀ rfl rfl, if_pos (Nat.succ_pos d), htake.1, htake.2]
    by_cases hdown : Down (prevRow a b (d + 1)) (d + 1 : ℕ) k
    · -- The diagonal was entered from above, by an insertion.
      have hprev : reach a b d (k + 1) = x := hx₀.trans (if_pos hdown) |>.symm
      have hrow := onRow_of_down hk hdown
      have hnonneg' := reach_nonneg (a := a) (b := b) hrow
      obtain ⟨l, hl, -, hsnoc⟩ := exists_getAt (l := b) (i := x - k - 1) (by omega) (by omega)
      obtain ⟨pre, hpre, hold, hnew, hchanges⟩ := ih hrest hrow (by omega) (by omega)
        (.insert l :: (((a.drop x.toNat).take (run a b x (x - k))).map .equal ++ ops))
      rw [hprev, show x - (k + 1) = x - k - 1 by omega] at hpre hnew
      rw [hprev] at hold
      refine ⟨pre ++ .insert l :: ((a.drop x.toNat).take (run a b x (x - k))).map .equal, ?_,
        ?_, ?_, ?_⟩
      · rw [if_pos hdown, hl, bind_some, hpre]
        simp
      · rw [oldLines_append, hold]
        exact congrArg _ (oldLines_map_equal _)
      · rw [newLines_append, hnew]
        rw [show x - k - 1 + 1 = x - k by omega] at hsnoc
        rw [hsnoc, append_assoc]
        exact congrArg (b.take (x - k - 1).toNat ++ l :: ·) (newLines_map_equal _)
      · rw [changes_append, hchanges, changes_insert, changes_map_equal]
    · -- The diagonal was entered from the left, by a deletion.
      have hstart : x = reach a b d (k - 1) + 1 := hx₀.trans (if_neg hdown)
      have hprev : reach a b d (k - 1) = x - 1 := by omega
      have hrow := onRow_of_not_down hk hdown
      have hnonneg' := reach_nonneg (a := a) (b := b) hrow
      obtain ⟨l, hl, -, hsnoc⟩ := exists_getAt (l := a) (i := x - 1) (by omega) (by omega)
      obtain ⟨pre, hpre, hold, hnew, hchanges⟩ := ih hrest hrow (by omega) (by omega)
        (.delete l :: (((a.drop x.toNat).take (run a b x (x - k))).map .equal ++ ops))
      rw [hprev, show x - 1 - (k - 1) = x - k by omega] at hpre hnew
      rw [hprev] at hold
      refine ⟨pre ++ .delete l :: ((a.drop x.toNat).take (run a b x (x - k))).map .equal, ?_,
        ?_, ?_, ?_⟩
      · rw [if_neg hdown, hl, bind_some, hpre]
        simp
      · rw [oldLines_append, hold]
        rw [show x - 1 + 1 = x by omega] at hsnoc
        rw [hsnoc, append_assoc]
        exact congrArg (a.take (x - 1).toNat ++ l :: ·) (oldLines_map_equal _)
      · rw [newLines_append, hnew]
        exact congrArg _ (newLines_map_equal _)
      · rw [changes_append, hchanges, changes_delete, changes_map_equal]

end Back

/-- Up to the limit, the script of two lists that are not empty is valid, and it has as many changes
as the first row of the search that gets to the corner. -/
lemma myers_of_search {a b : List α} (ha : a ≠ []) (hb : b ≠ [])
    (hmax : a.length + b.length ≤ maxDiffLines) :
    ∃ ops, myers a b = some ops ∧ oldLines ops = a ∧ newLines ops = b ∧
      ∀ d < changes ops, ∀ k, EditGraph.OnRow d k → ¬ EditGraph.Past a b d k := by
  have hpos : 0 < a.length := length_pos_iff.mpr ha
  -- At the start the array is zero, which is all that the first row reads.
  have hstart : Ready a b (a.length + b.length) 0
      (replicate (2 * (a.length + b.length) + 1) 0) := by
    refine ⟨length_replicate, ?_⟩
    rintro k (⟨-, rfl⟩ | ⟨d', h, -⟩)
    · rw [getAt, if_pos (by omega), getElem?_replicate, if_pos (by omega)]
      rfl
    · omega
  have hsearch : ∃ rows d, forwardLoop a b (a.length + b.length) (a.length + b.length + 1) 0
      (replicate (2 * (a.length + b.length) + 1) 0) [] = some rows ∧
        SearchDone a b (a.length + b.length) d rows :=
    forwardLoop_spec rfl rfl hstart (by simp) rfl (by omega)
  obtain ⟨rows, d, hrows, hdone⟩ := hsearch
  obtain ⟨k, hk, hpast⟩ := hdone.past
  obtain ⟨hx, hy⟩ := EditGraph.reach_eq_of_first hk hpast hdone.first
  obtain ⟨pre, hpre, hold, hnew, hchanges⟩ :=
    backLoop_spec (backRows_of_ready hdone.length_eq hdone.ready) hk (by omega) (by omega) []
  rw [hy, hx] at hpre
  rw [hx] at hold
  rw [hy] at hnew
  refine ⟨pre, ?_, ?_, ?_, hchanges ▸ hdone.first⟩
  · rw [myers, if_neg (fun h => ha h.1), if_neg ha, if_neg hb, if_neg (Nat.not_lt.mpr hmax)]
    simp only [hrows, bind_eq_bind, bind_some, hpre, append_nil]
  · rw [hold]
    simp
  · rw [hnew]
    simp

/-- The difference of two lists of lines is always computed, and its script reads as the first list
on one side and as the second list on the other. -/
theorem myers_spec (a b : List α) :
    ∃ ops, myers a b = some ops ∧ oldLines ops = a ∧ newLines ops = b := by
  by_cases ha : a = []
  · rw [ha]
    by_cases hb : b = []
    · rw [hb]
      exact ⟨[], rfl, rfl, rfl⟩
    · refine ⟨b.map .insert, ?_, oldLines_map_insert b, newLines_map_insert b⟩
      rw [myers, if_neg (fun h => hb h.2), if_pos rfl]
  by_cases hb : b = []
  · refine ⟨a.map .delete, ?_, oldLines_map_delete a, hb ▸ newLines_map_delete a⟩
    rw [myers, if_neg (fun h => ha h.1), if_neg ha, if_pos hb]
  by_cases hmax : a.length + b.length ≤ maxDiffLines
  · obtain ⟨ops, hops, hold, hnew, -⟩ := myers_of_search ha hb hmax
    exact ⟨ops, hops, hold, hnew⟩
  · refine ⟨a.map .delete ++ b.map .insert, ?_, by simp, by simp⟩
    rw [myers, if_neg (fun h => ha h.1), if_neg ha, if_neg hb, if_pos (Nat.lt_of_not_le hmax)]

example : myers [1, 2, 3] [2, 3, 4] = some [.delete 1, .equal 2, .equal 3, .insert 4] := by
  decide +kernel

end Diff

end Gyt
