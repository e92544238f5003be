import Mathlib

/-!
# Work-list loops

The loop `while let Some(x) = work.pop() { body }` over a pending list, for an arbitrary loop body
that updates a state, asks for further items to be pushed, or leaves the loop early with a value.

`PopLoop.run` is the loop with a bound on the number of iterations; `run_invariant` and
`run_error_invariant` are its invariant rules, and `run_isSome` is the termination rule: a loop
whose pushes are paid for by a decreasing measure never runs out of iterations.

The second half treats bodies that visit every key once (`VisitsOnce`).  For these
`mem_seen_iff_reachable` identifies the final set of visited keys with the set of keys reachable
from the initial work list by steps that avoid the excluded keys.
-/

namespace Gyt

open List

/-- How newly pushed items join the pending ones; only their order is up to the discipline. -/
structure PushDiscipline (α : Type*) where
  /-- The pending list after pushing the second argument, the first entry being popped next. -/
  push : List α → List α → List α
  /-- Nothing is dropped, duplicated or invented. -/
  perm : ∀ work next, (push work next).Perm (next ++ work)

namespace PushDiscipline

/-- A stack: the item pushed last is popped first. -/
def stack (α : Type*) : PushDiscipline α where
  push work next := next.reverse ++ work
  perm _ next := (List.reverse_perm next).append_right _

/-- A queue: items leave in the order in which they were pushed. -/
def queue (α : Type*) : PushDiscipline α where
  push work next := work ++ next
  perm _ _ := List.perm_append_comm

variable {α : Type*} (D : PushDiscipline α) {work next : List α} {x : α}

/-- The pending items after a push are the pushed and the old ones. -/
@[simp] lemma mem_push : x ∈ D.push work next ↔ x ∈ next ∨ x ∈ work := by
  rw [(D.perm work next).mem_iff, mem_append]

/-- A push adds up the two lengths. -/
@[simp] lemma length_push : (D.push work next).length = next.length + work.length := by
  rw [(D.perm work next).length_eq, length_append]

end PushDiscipline

namespace PopLoop

variable {α σ β : Type*}

/-- The loop that pops an item, runs `body` on it and pushes what `body` asks for, until nothing
is pending or `body` leaves the loop.  The first argument bounds the iterations; `none` means that
the bound was hit. -/
def run (D : PushDiscipline α) (body : σ → α → Except β (σ × List α)) :
    ℕ → List α → σ → Option (Except β σ)
  | _, [], s => some (.ok s)
  | 0, _ :: _, _ => none
  | n + 1, x :: work, s =>
      match body s x with
      | .error b => some (.error b)
      | .ok (s', next) => run D body n (D.push work next) s'

variable {D : PushDiscipline α} {body : σ → α → Except β (σ × List α)}

@[simp] lemma run_nil (n : ℕ) (s : σ) : run D body n [] s = some (.ok s) := by
  cases n <;> rfl

lemma run_cons (n : ℕ) (x : α) (work : List α) (s : σ) : run D body (n + 1) (x :: work) s =
      match body s x with
      | .error b => some (.error b)
      | .ok (s', next) => run D body n (D.push work next) s' := rfl

variable {n : ℕ} {x : α} {work next : List α} {s s' t : σ} {b : β}

section Invariant

variable (Inv : List α → σ → Prop)
  (hstep : ∀ x work s s' next, Inv (x :: work) s → body s x = .ok (s', next) →
    Inv (D.push work next) s')

include hstep

lemma run_result {r : Except β σ} (hs : Inv work s) (hrun : run D body n work s = some r) :
    match (motive := Except β σ → Prop) r with
    | .ok t => Inv [] t
    | .error b => ∃ x work' s', Inv (x :: work') s' ∧ body s' x = .error b := by
  induction n generalizing work s with
  | zero =>
    cases work with
    | nil => cases hrun; exact hs
    | cons x work => cases hrun
  | succ n ih =>
    cases work with
    | nil => cases hrun; exact hs
    | cons x work =>
      rw [run_cons] at hrun
      split at hrun
      · next b' hbody =>
        cases hrun
        exact ⟨x, work, s, hs, hbody⟩
      · next s' next hbody => exact ih (hstep x work s s' next hs hbody) hrun

/-- Invariant rule for a loop that ends with nothing pending. -/
theorem run_invariant (hs : Inv work s) (hrun : run D body n work s = some (.ok t)) : Inv [] t :=
  run_result Inv hstep hs hrun

/-- Invariant rule for a loop that is left early: the invariant holds at the iteration that
leaves. -/
theorem run_error_invariant (hs : Inv work s) (hrun : run D body n work s = some (.error b)) :
    ∃ x work' s', Inv (x :: work') s' ∧ body s' x = .error b :=
  run_result Inv hstep hs hrun

end Invariant

/-- The bound on the iterations does not matter if it is not hit. -/
lemma run_unique {n' : ℕ} {r r' : Except β σ}
    (h : run D body n work s = some r) (h' : run D body n' work s = some r') : r = r' := by
  induction n generalizing n' work s with
  | zero =>
    cases work with
    | nil =>
      rw [run_nil] at h h'
      exact Option.some.inj (h.symm.trans h')
    | cons x work => cases h
  | succ n ih =>
    cases work with
    | nil =>
      rw [run_nil] at h h'
      exact Option.some.inj (h.symm.trans h')
    | cons x work =>
      cases n' with
      | zero => cases h'
      | succ n' =>
        rw [run_cons] at h h'
        split at h
        · next b hbody =>
          rw [hbody] at h'
          exact Option.some.inj (h.symm.trans h')
        · next s' next hbody =>
          rw [hbody] at h'
          exact ih h h'

/-- Termination rule: if every push is paid for by the measure `μ`, then as many iterations as
there are pending items plus the initial measure are enough. -/
theorem run_isSome {μ : σ → ℕ}
    (hμ : ∀ s x s' next, body s x = .ok (s', next) → μ s' + next.length ≤ μ s)
    (hn : work.length + μ s ≤ n) : (run D body n work s).isSome := by
  induction n generalizing work s with
  | zero =>
    cases work with
    | nil => rfl
    | cons x work => simp at hn
  | succ n ih =>
    cases work with
    | nil => rfl
    | cons x work =>
      rw [run_cons]
      split
      · rfl
      · next s' next hbody =>
        have hpaid := hμ s x s' next hbody
        refine ih ?_
        rw [D.length_push]
        rw [length_cons] at hn
        omega

/-! ## Bodies that visit every key once -/

section VisitsOnce

variable {κ : Type*}

/-- A body that passes over items whose key is excluded or already seen, and otherwise marks the
key as seen and pushes one item for each of its successors. -/
def VisitsOnce (key : α → κ) (seen : σ → List κ) (excluded : κ → Prop) (succ : κ → List κ)
    (body : σ → α → Except β (σ × List α)) : Prop :=
  ∀ s x s' next, body s x = .ok (s', next) →
    ((excluded (key x) ∨ key x ∈ seen s) ∧ s' = s ∧ next = []) ∨
    (¬ excluded (key x) ∧ key x ∉ seen s ∧ seen s' = key x :: seen s ∧
      next.map key = succ (key x))

/-- `y` can be reached from one of the `roots` by successor steps through keys that are not
excluded. -/
def Reachable (excluded : κ → Prop) (succ : κ → List κ) (roots : List κ) (y : κ) : Prop :=
  ∃ r ∈ roots, ¬ excluded r ∧
    Relation.ReflTransGen (fun u v => v ∈ succ u ∧ ¬ excluded v) r y

/-- What holds at every iteration of a visit-once loop started on `roots`: the pending and the
seen keys together cover the roots and the successors of every seen key, and nothing but reachable
keys is seen or, unless it is excluded, pending. -/
structure VisitInv (key : α → κ) (seen : σ → List κ) (excluded : κ → Prop) (succ : κ → List κ)
    (roots : List κ) (work : List α) (s : σ) : Prop where
  roots_covered : ∀ r ∈ roots, excluded r ∨ r ∈ seen s ∨ r ∈ work.map key
  succ_covered : ∀ y ∈ seen s, ∀ z ∈ succ y, excluded z ∨ z ∈ seen s ∨ z ∈ work.map key
  seen_reachable : ∀ y ∈ seen s, Reachable excluded succ roots y
  work_reachable : ∀ y ∈ work.map key, excluded y ∨ Reachable excluded succ roots y

variable {key : α → κ} {seen : σ → List κ} {excluded : κ → Prop} {succ : κ → List κ}
  {roots : List κ}

/-- One more successor step keeps a key reachable. -/
theorem Reachable.step {y z : κ} (hy : Reachable excluded succ roots y) (hz : z ∈ succ y)
    (hne : ¬ excluded z) : Reachable excluded succ roots z := by
  obtain ⟨r, hr, hrne, hpath⟩ := hy
  exact ⟨r, hr, hrne, hpath.tail ⟨hz, hne⟩⟩

/-- The invariant holds when the loop starts with the roots pending and nothing seen. -/
lemma VisitInv.init (hwork : work.map key = roots) (hseen : seen s = []) :
    VisitInv key seen excluded succ roots work s where
  roots_covered r hr := Or.inr (Or.inr (hwork ▸ hr))
  succ_covered y hy := by simp [hseen] at hy
  seen_reachable y hy := by simp [hseen] at hy
  work_reachable y hy := by
    by_cases hy' : excluded y
    · exact Or.inl hy'
    · exact Or.inr ⟨y, hwork ▸ hy, hy', .refl⟩

/-- One iteration of a visit-once loop keeps the invariant. -/
theorem VisitInv.step (hbody : VisitsOnce key seen excluded succ body)
    (hinv : VisitInv key seen excluded succ roots (x :: work) s)
    (hx : body s x = .ok (s', next)) :
    VisitInv key seen excluded succ roots (D.push work next) s' := by
  have hpush : ∀ y, y ∈ (D.push work next).map key ↔ y ∈ next.map key ∨ y ∈ work.map key := by
    intro y
    simp only [mem_map, D.mem_push, or_and_right, exists_or]
  -- The popped key is covered without being pending, so it may leave the work list.
  have hstay : excluded (key x) ∨ key x ∈ seen s' → seen s ⊆ seen s' → ∀ y,
      excluded y ∨ y ∈ seen s ∨ y ∈ (x :: work).map key →
        excluded y ∨ y ∈ seen s' ∨ y ∈ (D.push work next).map key := by
    intro hkey hsub y hy
    rw [hpush]
    rcases hy with hy | hy | hy
    · exact Or.inl hy
    · exact Or.inr (Or.inl (hsub hy))
    · rw [map_cons, mem_cons] at hy
      rcases hy with rfl | hy
      · exact hkey.imp_right Or.inl
      · exact Or.inr (Or.inr (Or.inr hy))
  rcases hbody s x s' next hx with ⟨hskip, rfl, rfl⟩ | ⟨hne, hnew, hseen, hnext⟩
  · have hleave := hstay hskip (Subset.refl _)
    refine ⟨fun r hr => hleave r (hinv.roots_covered r hr),
      fun y hy z hz => hleave z (hinv.succ_covered y hy z hz), hinv.seen_reachable, ?_⟩
    intro y hy
    rw [hpush] at hy
    rcases hy with hy | hy
    · simp at hy
    · exact hinv.work_reachable y (mem_cons_of_mem _ hy)
  · -- The popped key becomes seen and its successors become pending.
    have hreach : Reachable excluded succ roots (key x) :=
      (hinv.work_reachable (key x) (by simp)).resolve_left hne
    have hstay := hstay (Or.inr (hseen ▸ mem_cons_self)) (hseen ▸ subset_cons_self _ _)
    refine ⟨fun r hr => hstay r (hinv.roots_covered r hr), ?_, ?_, ?_⟩
    · intro y hy z hz
      rw [hseen, mem_cons] at hy
      rcases hy with rfl | hy
      · exact Or.inr (Or.inr ((hpush z).mpr (Or.inl (hnext ▸ hz))))
      · exact hstay z (hinv.succ_covered y hy z hz)
    · intro y hy
      rw [hseen, mem_cons] at hy
      rcases hy with rfl | hy
      · exact hreach
      · exact hinv.seen_reachable y hy
    · intro y hy
      rw [hpush, hnext] at hy
      rcases hy with hy | hy
      · by_cases hy' : excluded y
        · exact Or.inl hy'
        · exact Or.inr (hreach.step hy hy')
      · exact hinv.work_reachable y (mem_cons_of_mem _ hy)

/-- With nothing pending, the seen keys are exactly the reachable ones. -/
lemma VisitInv.mem_seen_iff (hinv : VisitInv key seen excluded succ roots ([] : List α) s)
    (y : κ) : y ∈ seen s ↔ Reachable excluded succ roots y := by
  refine ⟨hinv.seen_reachable y, ?_⟩
  rintro ⟨r, hr, hrne, hpath⟩
  induction hpath with
  | refl => simpa [hrne] using hinv.roots_covered r hr
  | tail _ hstep ih => simpa [hstep.2] using hinv.succ_covered _ ih _ hstep.1

section Visits

variable (hbody : VisitsOnce key seen excluded succ body)

include hbody

/-- A visit-once loop that ends with nothing pending has seen exactly the keys reachable from the
items it started with. -/
theorem mem_seen_iff_reachable (hseen : seen s = [])
    (hrun : run D body n work s = some (.ok t)) (y : κ) :
    y ∈ seen t ↔ Reachable excluded succ (work.map key) y :=
  (run_invariant (VisitInv key seen excluded succ (work.map key))
    (fun _ _ _ _ _ hinv hx => hinv.step hbody hx) (.init rfl hseen) hrun).mem_seen_iff y

/-- A visit-once loop marks no key twice. -/
lemma VisitsOnce.nodup_step (hnodup : (seen s).Nodup) (hx : body s x = .ok (s', next)) :
    (seen s').Nodup := by
  rcases hbody s x s' next hx with ⟨-, rfl, -⟩ | ⟨-, hnew, hseen, -⟩
  · exact hnodup
  · rw [hseen]
    exact nodup_cons.mpr ⟨hnew, hnodup⟩

lemma nodup_seen {t : σ} (hseen : seen s = []) (hrun : run D body n work s = some (.ok t)) :
    (seen t).Nodup :=
  run_invariant (fun _ s => (seen s).Nodup) (fun _ _ _ _ _ hnodup hx => hbody.nodup_step hnodup hx)
    (hseen ▸ nodup_nil) hrun

/-- A visit-once loop that is left early is left at an item whose key is excluded or reachable,
after distinct reachable keys. -/
lemma exists_reachable_of_error (hseen : seen s = [])
    (hrun : run D body n work s = some (.error b)) :
    ∃ s' x, body s' x = .error b ∧
      (excluded (key x) ∨ Reachable excluded succ (work.map key) (key x)) ∧ (seen s').Nodup ∧
      ∀ y ∈ seen s', Reachable excluded succ (work.map key) y := by
  obtain ⟨x, work', s', ⟨hinv, hnodup⟩, hx⟩ := run_error_invariant
    (fun work' s => VisitInv key seen excluded succ (work.map key) work' s ∧ (seen s).Nodup)
    (fun _ _ _ _ _ hinv hx => ⟨hinv.1.step hbody hx, hbody.nodup_step hinv.2 hx⟩)
    ⟨.init rfl hseen, hseen ▸ nodup_nil⟩ hrun
  exact ⟨s', x, hx, hinv.work_reachable (key x) (by simp), hnodup, hinv.seen_reachable⟩

end Visits

variable [DecidableEq κ]

section Search

variable {stop : List κ → κ → Option β} {D : PushDiscipline κ} {seen : List κ} {x : κ}

/-- The body of a search: it passes over the keys that it has seen, and leaves the loop at the first
other one at which `stop` has a value. -/
def searchStep (succ : κ → List κ) (stop : List κ → κ → Option β) (seen : List κ) (x : κ) :
    Except β (List κ × List κ) :=
  if x ∈ seen then .ok (seen, [])
  else
    match stop seen x with
    | some b => .error b
    | none => .ok (x :: seen, succ x)

lemma searchStep_eq_ok {seen' next : List κ} (h : searchStep succ stop seen x = .ok (seen', next)) :
    (x ∈ seen ∧ seen' = seen ∧ next = []) ∨
      (x ∉ seen ∧ stop seen x = none ∧ seen' = x :: seen ∧ next = succ x) := by
  rw [searchStep] at h
  split_ifs at h with hseen
  · cases h
    exact .inl ⟨hseen, rfl, rfl⟩
  · split at h
    · cases h
    · next hstop =>
      cases h
      exact .inr ⟨hseen, hstop, rfl, rfl⟩

lemma visitsOnce_searchStep : VisitsOnce id id (fun _ => False) succ (searchStep succ stop) := by
  intro seen x seen' next h
  rcases searchStep_eq_ok h with ⟨hseen, hrest⟩ | ⟨hseen, -, hcons, hnext⟩
  · exact .inl ⟨.inr hseen, hrest⟩
  · exact .inr ⟨not_false, hseen, hcons, hnext ▸ map_id _⟩

/-- A search that is left early is left at a reachable key, after distinct reachable keys. -/
lemma exists_stop_of_run (h : run D (searchStep succ stop) n roots [] = some (.error b)) :
    ∃ seen x, x ∉ seen ∧ stop seen x = some b ∧ Reachable (fun _ => False) succ roots x ∧
      seen.Nodup ∧ ∀ y ∈ seen, Reachable (fun _ => False) succ roots y := by
  obtain ⟨seen, x, hx, hreach, hrest⟩ := exists_reachable_of_error visitsOnce_searchStep rfl h
  rw [map_id] at hreach hrest
  rw [searchStep] at hx
  split_ifs at hx with hmem
  split at hx
  · next hstop =>
    cases hx
    exact ⟨seen, x, hmem, hstop, hreach.resolve_left id, hrest⟩
  · cases hx

/-- A search that ends with nothing pending has reached no key at which it would be left. -/
lemma not_reachable_of_run {a : κ} {t : List κ} (hstop : ∀ seen, stop seen a ≠ none)
    (h : run D (searchStep succ stop) n roots [] = some (.ok t)) :
    ¬ Reachable (fun _ => False) succ roots a := by
  have hnot : a ∉ t := by
    refine run_invariant (fun _ seen => a ∉ seen) (fun x work seen seen' next hinv hx => ?_)
      not_mem_nil h
    rcases searchStep_eq_ok hx with ⟨-, rfl, -⟩ | ⟨-, hnone, rfl, -⟩
    · exact hinv
    · rw [mem_cons, not_or]
      exact ⟨fun heq => hstop seen (heq ▸ hnone), hinv⟩
  have hseen := mem_seen_iff_reachable visitsOnce_searchStep rfl h a
  rw [map_id] at hseen
  exact fun hreach => hnot (hseen.mpr hreach)

end Search

/-- The number of successor links of the keys of `univ` that are not in `done`. -/
def linksLeft (succ : κ → List κ) (univ done : List κ) : ℕ :=
  (univ.map fun y => if y ∈ done then 0 else (succ y).length).sum

/-- Marking a key cannot add links. -/
lemma linksLeft_cons_le (succ : κ → List κ) (univ done : List κ) (y : κ) :
    linksLeft succ univ (y :: done) ≤ linksLeft succ univ done := by
  induction univ with
  | nil => exact Nat.le_refl _
  | cons z univ ih =>
    simp only [linksLeft, map_cons, sum_cons, mem_cons] at ih ⊢
    grind

/-- Marking a key uses up its own links. -/
lemma linksLeft_cons_add_le {univ done : List κ} {y : κ} (hy : y ∉ done)
    (huniv : succ y ≠ [] → y ∈ univ) :
    linksLeft succ univ (y :: done) + (succ y).length ≤ linksLeft succ univ done := by
  by_cases hlinks : succ y = []
  · simpa [hlinks] using linksLeft_cons_le succ univ done y
  · have hmem := huniv hlinks
    clear huniv
    induction univ with
    | nil => simp at hmem
    | cons z univ ih =>
      by_cases hz : z = y
      · -- The links of `y` are counted here, and the rest of the sum does not grow.
        have hrest := linksLeft_cons_le succ univ done y
        simp only [linksLeft, map_cons, sum_cons, hz, hy, mem_cons, true_or,
          if_true, if_false] at hrest ⊢
        omega
      · have hmem' : y ∈ univ := by simpa [Ne.symm hz] using hmem
        have hrest := ih hmem'
        simp only [linksLeft, map_cons, sum_cons, mem_cons, hz, false_or] at hrest ⊢
        omega

/-- A visit-once loop over a graph with finitely many links never runs out of iterations. -/
lemma run_isSome_of_visitsOnce (hbody : VisitsOnce key seen excluded succ body)
    (univ : List κ) (huniv : ∀ y, succ y ≠ [] → y ∈ univ)
    (hn : work.length + linksLeft succ univ (seen s) ≤ n) :
    (run D body n work s).isSome := by
  refine run_isSome (μ := fun s => linksLeft succ univ (seen s)) ?_ hn
  intro s x s' next hx
  rcases hbody s x s' next hx with ⟨-, rfl, rfl⟩ | ⟨-, hnew, hseen, hnext⟩
  · simp
  · have hlen : next.length = (succ (key x)).length := by rw [← hnext, length_map]
    rw [hseen, hlen]
    exact linksLeft_cons_add_le hnew (huniv _)

end VisitsOnce

end PopLoop

end Gyt
