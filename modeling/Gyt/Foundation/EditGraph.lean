import Mathlib

/-!
# Furthest reaching points of an edit graph

The edit graph of two lists `a` and `b` has the points `(x, y)`; a step to the right deletes `a[x]`,
a step down inserts `b[y]`, and a diagonal step keeps an element on which the lists agree.  The
greedy algorithm computes, row by row in the number `d` of non-diagonal steps, how far each diagonal
`k = x - y` can be followed: `reach a b d k` is the `x` of that point.

The points may overshoot the rectangle by one side, but `reach_eq_of_first` shows that the first row
that gets past both sides hits the corner exactly, and `past_length_add` that some row does.  No
path with `d` non-diagonal steps gets further than row `d` (`Path.le_reach`), so that the first row
at the corner is the smallest number of such steps.
-/

namespace Gyt.EditGraph

open List Int

variable {α : Type*} [DecidableEq α]

/-! ## Diagonal runs -/

/-- The length of the longest common prefix of two lists. -/
def matchLen : List α → List α → ℕ
  | x :: xs, y :: ys => if x = y then matchLen xs ys + 1 else 0
  | _, _ => 0

lemma matchLen_le (xs ys : List α) : matchLen xs ys ≤ xs.length ∧ matchLen xs ys ≤ ys.length := by
  induction xs generalizing ys with
  | nil => simp [matchLen]
  | cons x xs ih =>
    cases ys with
    | nil => simp [matchLen]
    | cons y ys =>
      rw [matchLen]
      split
      · simpa using ih ys
      · simp

/-- The lists agree on their common prefix. -/
lemma take_matchLen (xs ys : List α) : xs.take (matchLen xs ys) = ys.take (matchLen xs ys) := by
  induction xs generalizing ys with
  | nil => simp [matchLen]
  | cons x xs ih =>
    cases ys with
    | nil => simp [matchLen]
    | cons y ys =>
      rw [matchLen]
      split
      · next hxy => rw [take_succ_cons, take_succ_cons, hxy, ih ys]
      · simp

/-- The lists do not agree after their common prefix. -/
lemma getElem?_matchLen {xs ys : List α} {l : α} (hx : xs[matchLen xs ys]? = some l) :
    ys[matchLen xs ys]? ≠ some l := by
  induction xs generalizing ys with
  | nil => simp [matchLen] at hx
  | cons x xs ih =>
    cases ys with
    | nil => simp [matchLen]
    | cons y ys =>
      rw [matchLen] at hx ⊢
      split_ifs at hx ⊢ with hxy
      · exact ih hx
      · rw [getElem?_cons_zero, Option.some.injEq] at hx
        rw [getElem?_cons_zero, ← hx]
        exact fun h => hxy (Option.some.inj h).symm

variable (a b : List α)

/-- How far the diagonal can be followed from the point `(x, y)`. -/
def run (x y : ℤ) : ℕ := matchLen (a.drop x.toNat) (b.drop y.toNat)

variable {a b}

/-- A diagonal run that is not empty stays inside the rectangle. -/
lemma run_le {x y : ℤ} (hx : 0 ≤ x) (hy : 0 ≤ y) (hrun : 0 < run a b x y) :
    x + run a b x y ≤ a.length ∧ y + run a b x y ≤ b.length := by
  obtain ⟨hleft, hright⟩ := matchLen_le (a.drop x.toNat) (b.drop y.toNat)
  rw [length_drop] at hleft hright
  unfold run at hrun ⊢
  omega

/-! ## Rows -/

/-- The diagonals that `d` non-diagonal steps can lead to. -/
def OnRow (d : ℕ) (k : ℤ) : Prop := -(d : ℤ) ≤ k ∧ k ≤ d ∧ (k + d) % 2 = 0

/-- Whether diagonal `k` of row `d` is entered from above, given the row before. -/
def Down (f : ℤ → ℤ) (d k : ℤ) : Prop := k = -d ∨ (k ≠ d ∧ f (k - 1) < f (k + 1))

instance (f : ℤ → ℤ) (d k : ℤ) : Decidable (Down f d k) := by
  unfold Down
  infer_instance

/-- Where diagonal `k` of row `d` is entered, given the row before. -/
def entry (f : ℤ → ℤ) (d k : ℤ) : ℤ := if Down f d k then f (k + 1) else f (k - 1) + 1

variable (a b)

/-- The furthest `x` on diagonal `k` with `d` non-diagonal steps. -/
def reach : ℕ → ℤ → ℤ
  | 0, k => run a b 0 (-k)
  | d + 1, k =>
    let x := entry (reach d) (d + 1) k
    x + run a b x (x - k)

variable {a b} {d : ℕ} {k : ℤ}

lemma reach_succ : reach a b (d + 1) k = entry (reach a b d) (d + 1) k +
      run a b (entry (reach a b d) (d + 1) k) (entry (reach a b d) (d + 1) k - k) := rfl

variable (a b) in
/-- The row before row `d`; before the first one all is zero. -/
def prevRow : ℕ → ℤ → ℤ
  | 0 => fun _ => 0
  | d + 1 => reach a b d

/-- Every point of a row is the end of the diagonal run from where its diagonal is entered. -/
lemma reach_eq_entry (hk : OnRow d k) : reach a b d k = entry (prevRow a b d) d k +
      run a b (entry (prevRow a b d) d k) (entry (prevRow a b d) d k - k) := by
  cases d with
  | zero =>
    obtain ⟨hlow, hhigh, -⟩ := hk
    have hzero : k = 0 := by omega
    subst hzero
    have hentry : entry (prevRow a b 0) 0 0 = 0 := if_pos (Or.inl rfl)
    rw [show ((0 : ℕ) : ℤ) = 0 from rfl, hentry]
    simp [reach]
  | succ d => exact reach_succ

/-- A diagonal that is entered from above has its neighbour to the right in the row before. -/
lemma onRow_of_down {f : ℤ → ℤ} (hk : OnRow (d + 1) k) (hdown : Down f (d + 1) k) :
    OnRow d (k + 1) := by
  obtain ⟨hlow, hhigh, hpar⟩ := hk
  unfold OnRow
  rcases hdown with hleft | ⟨hright, -⟩ <;> omega

/-- A diagonal that is entered from the left has its neighbour to the left in the row before. -/
lemma onRow_of_not_down {f : ℤ → ℤ} (hk : OnRow (d + 1) k) (hdown : ¬ Down f (d + 1) k) :
    OnRow d (k - 1) := by
  obtain ⟨hlow, hhigh, hpar⟩ := hk
  have hleft : k ≠ -(d + 1) := fun h => hdown (Or.inl h)
  unfold OnRow
  omega

/-- If the points of a row have coordinates that are not negative, so have the points where the
diagonals of the next row are entered. -/
lemma entry_nonneg {row : ℤ → ℤ} (hrow : ∀ k, OnRow d k → 0 ≤ row k ∧ 0 ≤ row k - k)
    (hk : OnRow (d + 1) k) : 0 ≤ entry row (d + 1) k ∧ 0 ≤ entry row (d + 1) k - k := by
  by_cases hdown : Down row (d + 1) k
  · have hprev := hrow _ (onRow_of_down hk hdown)
    rw [entry, if_pos hdown]
    omega
  · have hprev := hrow _ (onRow_of_not_down hk hdown)
    rw [entry, if_neg hdown]
    omega

/-- The points of a row have coordinates that are not negative. -/
lemma reach_nonneg (hk : OnRow d k) : 0 ≤ reach a b d k ∧ 0 ≤ reach a b d k - k := by
  induction d generalizing k with
  | zero =>
    obtain ⟨hlow, hhigh, -⟩ := hk
    have hzero : k = 0 := by omega
    subst hzero
    simp [reach]
  | succ d ih =>
    have hentry := entry_nonneg (fun _ => ih) hk
    rw [reach_succ]
    omega

/-- Every non-diagonal step makes progress. -/
lemma le_reach_add (hk : OnRow d k) : (d : ℤ) ≤ reach a b d k + (reach a b d k - k) := by
  induction d generalizing k with
  | zero =>
    have hnonneg := reach_nonneg (a := a) (b := b) hk
    push_cast
    omega
  | succ d ih =>
    rw [reach_succ]
    by_cases hdown : Down (reach a b d) (d + 1) k
    · have hprev := ih (onRow_of_down hk hdown)
      rw [entry, if_pos hdown]
      push_cast
      omega
    · have hprev := ih (onRow_of_not_down hk hdown)
      rw [entry, if_neg hdown]
      push_cast
      omega

/-- The point where a diagonal is entered has coordinates that are not negative. -/
lemma entry_prevRow_nonneg (hk : OnRow d k) :
    0 ≤ entry (prevRow a b d) d k ∧ 0 ≤ entry (prevRow a b d) d k - k := by
  cases d with
  | zero =>
    obtain ⟨hlow, hhigh, -⟩ := hk
    have hentry : entry (prevRow a b 0) (0 : ℕ) k = 0 := if_pos (Or.inl (by omega))
    rw [hentry]
    omega
  | succ d => exact entry_nonneg (fun _ => reach_nonneg) hk

/-! ## Overshooting -/

/-- A row is at least as far as a step to the right from the row before. -/
lemma reach_pred_lt (hprev : OnRow d (k - 1)) :
    reach a b d (k - 1) + 1 ≤ reach a b (d + 1) k := by
  have hentry : reach a b d (k - 1) + 1 ≤ entry (reach a b d) (d + 1) k := by
    by_cases hdown : Down (reach a b d) (d + 1) k
    · rw [entry, if_pos hdown]
      rcases hdown with hleft | ⟨-, hlt⟩
      · -- The leftmost diagonal has no neighbour to its left.
        obtain ⟨hlow, -, -⟩ := hprev
        omega
      · omega
    · exact le_of_eq (if_neg hdown).symm
  rw [reach_succ]
  omega

/-- A row is at least as far as a step down from the row before. -/
lemma reach_succ_le (hnext : OnRow d (k + 1)) : reach a b d (k + 1) ≤ reach a b (d + 1) k := by
  have hentry : reach a b d (k + 1) ≤ entry (reach a b d) (d + 1) k := by
    by_cases hdown : Down (reach a b d) (d + 1) k
    · exact le_of_eq (if_pos hdown).symm
    · rw [entry, if_neg hdown]
      obtain ⟨-, hhigh, -⟩ := hnext
      have hright : k ≠ d + 1 := by omega
      have hge : ¬ reach a b d (k - 1) < reach a b d (k + 1) :=
        fun hlt => hdown (Or.inr ⟨hright, hlt⟩)
      omega
  rw [reach_succ]
  omega

/-- Outside of the rectangle there is no diagonal to follow. -/
lemma reach_eq_entry_of_lt (hk : OnRow (d + 1) k) (hout : (a.length : ℤ) < reach a b (d + 1) k ∨
      (b.length : ℤ) < reach a b (d + 1) k - k) :
    reach a b (d + 1) k = entry (reach a b d) (d + 1) k := by
  have hentry := entry_nonneg (fun _ => reach_nonneg (a := a) (b := b)) hk
  rw [reach_succ] at hout ⊢
  by_contra hpos
  have hle := run_le (a := a) (b := b) hentry.1 hentry.2 (by omega)
  omega

/-- A point below the rectangle is no further to the right than the next diagonal was one row
before. -/
lemma overshoot_below (hk : OnRow d k) (hy : (b.length : ℤ) < reach a b d k - k) :
    ∃ d', d = d' + 1 ∧ OnRow d' (k + 1) ∧ reach a b d k ≤ reach a b d' (k + 1) := by
  induction d generalizing k with
  | zero =>
    have hzero : k = 0 := by obtain ⟨hlow, hhigh, -⟩ := hk; omega
    subst hzero
    have hle := (matchLen_le (a.drop 0) (b.drop 0)).2
    simp only [reach, run, drop_zero, neg_zero, toNat_zero] at hy hle
    omega
  | succ d ih =>
    refine ⟨d, rfl, ?_⟩
    have hend := reach_eq_entry_of_lt hk (.inr hy)
    rw [hend] at hy ⊢
    by_cases hdown : Down (reach a b d) (d + 1) k
    · rw [entry, if_pos hdown]
      exact ⟨onRow_of_down hk hdown, by omega⟩
    · exfalso
      rw [entry, if_neg hdown] at hy
      have hprev := onRow_of_not_down hk hdown
      obtain ⟨d', rfl, hrow, hle⟩ := ih hprev (by omega)
      rw [sub_add_cancel] at hrow hle
      have hlt : reach a b d' (k + 1 - 1) + 1 ≤ reach a b (d' + 1) (k + 1) :=
        reach_pred_lt (by rwa [Int.add_sub_cancel])
      rw [Int.add_sub_cancel] at hlt
      obtain ⟨-, hhigh, -⟩ := hrow
      exact hdown (Or.inr ⟨by push_cast; omega, by omega⟩)

/-- A point to the right of the rectangle is no further down than the previous diagonal was one row
before. -/
lemma overshoot_right (hk : OnRow d k) (hx : (a.length : ℤ) < reach a b d k) :
    ∃ d', d = d' + 1 ∧ OnRow d' (k - 1) ∧ reach a b d k ≤ reach a b d' (k - 1) + 1 := by
  induction d generalizing k with
  | zero =>
    have hle := (matchLen_le (a.drop 0) (b.drop (-k).toNat)).1
    simp only [reach, run, drop_zero, toNat_zero] at hx hle
    omega
  | succ d ih =>
    refine ⟨d, rfl, ?_⟩
    have hend := reach_eq_entry_of_lt hk (.inl hx)
    rw [hend] at hx ⊢
    by_cases hdown : Down (reach a b d) (d + 1) k
    · rw [entry, if_pos hdown] at hx ⊢
      obtain ⟨d', rfl, hrow, hle⟩ := ih (onRow_of_down hk hdown) (by omega)
      rw [Int.add_sub_cancel] at hrow hle
      have hrow' : OnRow (d' + 1) (k - 1) := by
        obtain ⟨hlow, hhigh, hpar⟩ := hrow
        unfold OnRow
        push_cast
        omega
      have hle' : reach a b d' (k - 1 + 1) ≤ reach a b (d' + 1) (k - 1) :=
        reach_succ_le (by rwa [sub_add_cancel])
      rw [sub_add_cancel] at hle'
      exact ⟨hrow', by omega⟩
    · rw [entry, if_neg hdown]
      exact ⟨onRow_of_not_down hk hdown, by omega⟩

/-! ## The corner -/

variable (a b) in
/-- Whether diagonal `k` of row `d` gets past both sides of the rectangle. -/
def Past (d : ℕ) (k : ℤ) : Prop :=
  (a.length : ℤ) ≤ reach a b d k ∧ (b.length : ℤ) ≤ reach a b d k - k

/-- The first row that gets past both sides of the rectangle hits its corner. -/
theorem reach_eq_of_first (hk : OnRow d k) (hpast : Past a b d k)
    (hfirst : ∀ d' < d, ∀ k', OnRow d' k' → ¬ Past a b d' k') :
    reach a b d k = a.length ∧ reach a b d k - k = b.length := by
  obtain ⟨hx, hy⟩ := hpast
  have hx' : reach a b d k ≤ a.length := by
    by_contra hlt
    obtain ⟨d', rfl, hrow, hle⟩ := overshoot_right hk (not_le.mp hlt)
    exact hfirst d' (by omega) (k - 1) hrow ⟨by omega, by omega⟩
  have hy' : reach a b d k - k ≤ b.length := by
    by_contra hlt
    obtain ⟨d', rfl, hrow, hle⟩ := overshoot_below hk (not_le.mp hlt)
    exact hfirst d' (by omega) (k + 1) hrow ⟨by omega, by omega⟩
  exact ⟨by omega, by omega⟩

/-- With as many steps as the lists have elements, the corner is passed. -/
theorem past_length_add : OnRow (a.length + b.length) (a.length - b.length) ∧
      Past a b (a.length + b.length) (a.length - b.length) := by
  have hrow : OnRow (a.length + b.length) ((a.length : ℤ) - b.length) := by
    unfold OnRow
    push_cast
    omega
  have hle := le_reach_add (a := a) (b := b) hrow
  push_cast at hle
  exact ⟨hrow, by omega, by omega⟩

/-! ## Paths -/

variable (a b) in
/-- The points to which paths from the origin lead, with the number of their non-diagonal steps. -/
inductive Path : ℕ → ℕ → ℕ → Prop
  | start : Path 0 0 0
  | right {d x y : ℕ} (h : Path d x y) : Path (d + 1) (x + 1) y
  | down {d x y : ℕ} (h : Path d x y) : Path (d + 1) x (y + 1)
  | diagonal {d x y : ℕ} {l : α} (h : Path d x y) (hx : a[x]? = some l) (hy : b[y]? = some l) :
      Path d (x + 1) (y + 1)

/-- A diagonal cannot be followed beyond the furthest point. -/
lemma getElem?_reach {x y : ℕ} {l : α} (hk : OnRow d k) (hreach : reach a b d k = x)
    (hy : (x : ℤ) - y = k) (hx : a[x]? = some l) : b[y]? ≠ some l := by
  have hentry := reach_eq_entry (a := a) (b := b) hk
  have hnonneg := entry_prevRow_nonneg (a := a) (b := b) hk
  obtain ⟨e, he⟩ : ∃ e, e = entry (prevRow a b d) d k := ⟨_, rfl⟩
  rw [← he] at hentry hnonneg
  have hxe : x = e.toNat + run a b e (e - k) := by omega
  have hye : y = (e - k).toNat + run a b e (e - k) := by omega
  rw [hxe, ← getElem?_drop] at hx
  rw [hye, ← getElem?_drop]
  exact getElem?_matchLen hx

/-- No path gets further than the row of its number of non-diagonal steps. -/
theorem Path.le_reach {x y : ℕ} (h : Path a b d x y) :
    OnRow d (x - y) ∧ (x : ℤ) ≤ reach a b d (x - y) := by
  induction h with
  | start => exact ⟨⟨by simp, by simp, rfl⟩, (reach_nonneg ⟨by simp, by simp, rfl⟩).1⟩
  | @right d x y _ ih =>
    obtain ⟨hrow, hle⟩ := ih
    have hk : ((x + 1 : ℕ) : ℤ) - y - 1 = x - y := by omega
    have hstep : reach a b d (((x + 1 : ℕ) : ℤ) - y - 1) + 1 ≤ _ := reach_pred_lt (hk ▸ hrow)
    rw [hk] at hstep
    refine ⟨?_, by omega⟩
    obtain ⟨hlow, hhigh, hpar⟩ := hrow
    unfold OnRow
    omega
  | @down d x y _ ih =>
    obtain ⟨hrow, hle⟩ := ih
    have hk : (x : ℤ) - (y + 1 : ℕ) + 1 = x - y := by omega
    have hstep : reach a b d ((x : ℤ) - (y + 1 : ℕ) + 1) ≤ _ := reach_succ_le (hk ▸ hrow)
    rw [hk] at hstep
    refine ⟨?_, by omega⟩
    obtain ⟨hlow, hhigh, hpar⟩ := hrow
    unfold OnRow
    omega
  | @diagonal d x y l _ hx hy ih =>
    obtain ⟨hrow, hle⟩ := ih
    have hk : ((x + 1 : ℕ) : ℤ) - (y + 1 : ℕ) = x - y := by omega
    rw [hk]
    refine ⟨hrow, ?_⟩
    rcases hle.eq_or_lt with heq | hlt
    · exact absurd hy (getElem?_reach hrow heq.symm rfl hx)
    · omega

/-- The row of a path to the corner gets there too. -/
lemma Path.past (h : Path a b d a.length b.length) :
    OnRow d (a.length - b.length) ∧ Past a b d (a.length - b.length) := by
  obtain ⟨hrow, hle⟩ := h.le_reach
  exact ⟨hrow, hle, by omega⟩

end Gyt.EditGraph
