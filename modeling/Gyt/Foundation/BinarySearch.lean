import Mathlib

/-!
# Binary search

The search for a key in an increasing sequence of keys that is given by its values.  The loop halves
a half-open interval; `search_eq_some` says that it finds the position of the key in the interval.
-/

namespace Gyt.BinarySearch

variable {α : Type} [LE α] [LT α] [DecidableLT α]

/-- The loop on the interval from `lo` to `hi`, for at most the given number of rounds. -/
def search (key : ℕ → α) (target : α) : ℕ → ℕ → ℕ → Option ℕ
  | 0, _, _ => none
  | rounds + 1, lo, hi =>
    if lo < hi then
      let mid := (lo + hi) / 2
      if key mid < target then search key target rounds (mid + 1) hi
      else if target < key mid then search key target rounds lo mid
      else some mid
    else none

variable [Std.IsLinearOrder α] [Std.LawfulOrderLT α]

omit [DecidableLT α] in
/-- The order of the keys is that of their positions. -/
lemma lt_of_key_lt {key : ℕ → α} {hi i j : ℕ} (hkey : ∀ i j, i < j → j < hi → key i < key j)
    (hi' : i < hi) (h : key i < key j) : i < j := by
  rcases lt_trichotomy i j with hlt | rfl | hgt
  · exact hlt
  · exact absurd h Std.lt_irrefl
  · exact absurd (Std.lt_trans h (hkey j i hgt hi')) Std.lt_irrefl

/-- A key is found exactly where it is, if the keys increase and the loop has enough rounds. -/
theorem search_eq_some {key : ℕ → α} {target : α} {rounds lo hi i : ℕ}
    (hkey : ∀ i j, i < j → j < hi → key i < key j) (hrounds : hi - lo ≤ rounds) :
    search key target rounds lo hi = some i ↔ lo ≤ i ∧ i < hi ∧ key i = target := by
  induction rounds generalizing lo hi with
  | zero =>
    rw [search]
    exact ⟨nofun, fun h => absurd h.2.1 (by omega)⟩
  | succ rounds ih =>
    rw [search]
    by_cases hlt : lo < hi
    · rw [if_pos hlt]
      have hmid : (lo + hi) / 2 < hi := by omega
      have hlo : lo ≤ (lo + hi) / 2 := by omega
      generalize (lo + hi) / 2 = mid at hmid hlo
      dsimp only
      split_ifs with hless hgreater
      · rw [ih hkey (by omega)]
        refine ⟨fun h => ⟨by omega, h.2⟩, fun h => ⟨?_, h.2⟩⟩
        rw [← h.2.2] at hless
        exact lt_of_key_lt hkey hmid hless
      · rw [ih (fun i j hij hj => hkey i j hij (hj.trans hmid)) (by omega)]
        refine ⟨fun h => ⟨h.1, h.2.1.trans hmid, h.2.2⟩, fun h => ⟨h.1, ?_, h.2.2⟩⟩
        rw [← h.2.2] at hgreater
        exact lt_of_key_lt hkey h.2.1 hgreater
      · have heq : key mid = target :=
          Std.le_antisymm (Std.not_lt.mp hgreater) (Std.not_lt.mp hless)
        refine ⟨fun h => ?_, fun h => congrArg some ?_⟩
        · cases h
          exact ⟨hlo, hmid, heq⟩
        · -- No key occurs twice.
          by_contra hne
          rcases Nat.lt_or_gt_of_ne hne with hlt' | hgt
          · exact Std.lt_irrefl (heq.trans h.2.2.symm ▸ hkey mid i hlt' h.2.1)
          · exact Std.lt_irrefl (heq.trans h.2.2.symm ▸ hkey i mid hgt hmid)
    · rw [if_neg hlt]
      exact ⟨nofun, fun h => absurd h.2.1 (by omega)⟩

end Gyt.BinarySearch
