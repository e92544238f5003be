import Mathlib

/-!
# Applying changes to a list

A change replaces a range of a list by other elements.  `apply` goes through a list of changes in
the order of their ranges and copies what is between them; the positions are those of the old list.

`apply_cons_of_lt` and `apply_of_start_eq` are the two steps: copying an element that comes before
all changes, and making the change that starts at the current position.
-/

namespace Gyt.Patch

open List

variable {α : Type*}

/-- The replacement of `del` elements from position `start` on. -/
structure Change (α : Type*) where
  start : ℕ
  del : ℕ
  ins : List α
  deriving DecidableEq, Repr

/-- Applying changes to the rest of a list, of which `pos` elements are in front. -/
def apply : ℕ → List α → List (Change α) → List α
  | _, rest, [] => rest
  | pos, rest, c :: cs =>
    rest.take (c.start - pos) ++ c.ins ++
      apply (c.start + c.del) (rest.drop (c.start + c.del - pos)) cs

@[simp] lemma apply_nil (pos : ℕ) (rest : List α) : apply pos rest [] = rest := rfl

variable {pos : ℕ} {rest : List α} {c : Change α} {cs : List (Change α)} {x : α}

/-- The first change starts where the rest of the list does. -/
theorem apply_of_start_eq (h : c.start = pos) :
    apply pos rest (c :: cs) = c.ins ++ apply (pos + c.del) (rest.drop c.del) cs := by
  rw [apply, h, Nat.sub_self, take_zero, nil_append, Nat.add_sub_cancel_left]

/-- The first element is in front of all changes. -/
theorem apply_cons_of_lt (h : ∀ c ∈ cs, pos < c.start) :
    apply pos (x :: rest) cs = x :: apply (pos + 1) rest cs := by
  cases cs with
  | nil => rfl
  | cons c cs =>
    have hlt := h c mem_cons_self
    have hstart : c.start - pos = c.start - (pos + 1) + 1 := by omega
    have hend : c.start + c.del - pos = c.start + c.del - (pos + 1) + 1 := by omega
    rw [apply, apply, hstart, hend, take_succ_cons, drop_succ_cons]
    rfl

/-- What is in front of all changes is copied. -/
lemma apply_append_of_le (xs : List α) (h : ∀ c ∈ cs, pos + xs.length ≤ c.start) :
    apply pos (xs ++ rest) cs = xs ++ apply (pos + xs.length) rest cs := by
  induction xs generalizing pos with
  | nil => rfl
  | cons x xs ih =>
    have hlen : pos + (x :: xs).length = pos + 1 + xs.length := by
      rw [length_cons]
      omega
    rw [hlen] at h ⊢
    rw [cons_append, apply_cons_of_lt, ih h, cons_append]
    intro c hc
    have hle := h c hc
    omega

end Gyt.Patch
