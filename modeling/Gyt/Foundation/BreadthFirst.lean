import Gyt.Foundation.PopLoop

/-!
# Breadth-first search

The search that takes keys from a queue, passes over those that it has met, and ends at the first
one with a property.  `generation` is the list of the keys at the ends of all paths of a given
length, in the order of the paths.  The search ends at the first key with the property in the
sequence of the generations (`run_find_iff`): what it passes over are keys that came earlier in that
sequence, and their successors came earlier as well (`Thin`).
-/

namespace Gyt.PopLoop

open List

variable {κ : Type*}

/-- The keys at the ends of the paths of a length from a root, in the order of the paths. -/
def generation (succ : κ → List κ) (root : κ) : ℕ → List κ
  | 0 => [root]
  | n + 1 => (generation succ root n).flatMap succ

/-- What is reached is in some generation. -/
lemma exists_mem_generation {succ : κ → List κ} {root y : κ}
    (h : Relation.ReflTransGen (fun u v => v ∈ succ u) root y) :
    ∃ n, y ∈ generation succ root n := by
  induction h with
  | refl => exact ⟨0, mem_singleton_self root⟩
  | tail _ hstep ih =>
    obtain ⟨n, hn⟩ := ih
    exact ⟨n + 1, mem_flatMap.mpr ⟨_, hn, hstep⟩⟩

/-- A list without some elements that come earlier in it, or are in a given set. -/
inductive Thin : Set κ → List κ → List κ → Prop
  | nil {E : Set κ} : Thin E [] []
  | keep {E : Set κ} {x : κ} {l l' : List κ} (h : Thin (insert x E) l l') :
      Thin E (x :: l) (x :: l')
  | drop {E : Set κ} {x : κ} {l l' : List κ} (hx : x ∈ E) (h : Thin E l l') : Thin E (x :: l) l'

namespace Thin

variable {E : Set κ} {l l' : List κ}

lemma sublist (h : Thin E l l') : l'.Sublist l := by
  induction h with
  | nil => exact .slnil
  | keep _ ih => exact ih.cons_cons _
  | drop _ _ ih => exact ih.cons _

/-- The first element with a property is not left out. -/
lemma find?_eq {p : κ → Bool} (h : Thin E l l') (hE : ∀ x ∈ E, p x = false) :
    l'.find? p = l.find? p := by
  induction h with
  | nil => rfl
  | @keep E x l l' _ ih =>
    rcases hp : p x with _ | _
    · rw [find?_cons_of_neg (by simp [hp]), find?_cons_of_neg (by simp [hp])]
      refine ih fun y hy => ?_
      rcases hy with rfl | hy
      · exact hp
      · exact hE y hy
    · rw [find?_cons_of_pos hp, find?_cons_of_pos hp]
  | drop hx _ ih => rw [ih hE, find?_cons_of_neg (by simp [hE _ hx])]

lemma append_keep {a : List κ} (h : Thin (E ∪ {z | z ∈ a}) l l') : Thin E (a ++ l) (a ++ l') := by
  induction a generalizing E with
  | nil => simpa using h
  | cons x a ih =>
    refine .keep (ih ?_)
    convert h using 1
    ext z
    simp [or_assoc, or_left_comm]

lemma append_drop {a : List κ} (ha : ∀ z ∈ a, z ∈ E) (h : Thin E l l') : Thin E (a ++ l) l' := by
  induction a with
  | nil => exact h
  | cons x a ih =>
    obtain ⟨hx, ha⟩ := forall_mem_cons.mp ha
    exact .drop hx (ih ha)

end Thin

section Search

variable [DecidableEq κ] (succ : κ → List κ) (p : κ → Bool)

/-- One iteration of the search, which leaves the loop at the first key with the property. -/
def findStep (seen : List κ) (x : κ) : Except κ (List κ × List κ) :=
  searchStep succ (fun _ x => if p x then some x else none) seen x

/-- The elements of a list that were not met before, each of them once. -/
def fresh (seen : List κ) : List κ → List κ
  | [] => []
  | x :: l => if x ∈ seen then fresh seen l else x :: fresh (x :: seen) l

/-- The queue and the keys that were met when a generation is done. -/
def pending (root : κ) : ℕ → List κ × List κ
  | 0 => ([root], [])
  | n + 1 =>
    let (work, seen) := pending root n
    ((fresh seen work).flatMap succ, (fresh seen work).reverse ++ seen)

variable {succ p} {root : κ}

lemma mem_of_mem_fresh {seen l : List κ} {x : κ} (h : x ∈ fresh seen l) : x ∈ l := by
  induction l generalizing seen with
  | nil => cases h
  | cons y l ih =>
    rw [fresh] at h
    split_ifs at h
    · exact mem_cons_of_mem _ (ih h)
    · rcases mem_cons.mp h with rfl | h
      · exact mem_cons_self
      · exact mem_cons_of_mem _ (ih h)

/-- The successors of what is left of a list, if no key is met twice. -/
lemma Thin.flatMap_fresh {E F : Set κ} {l l' seen : List κ} (h : Thin E l l')
    (hF : ∀ x ∈ E, ∀ z ∈ succ x, z ∈ F) (hseen : ∀ x ∈ seen, x ∈ E) :
    Thin F (l.flatMap succ) ((fresh seen l').flatMap succ) := by
  induction h generalizing F seen with
  | nil => exact .nil
  | @keep E x l l' _ ih =>
    rw [fresh, flatMap_cons]
    split_ifs with hx
    · -- A key that was met before: its successors came earlier.
      refine .append_drop (hF x (hseen x hx)) (ih (fun y hy => ?_) fun y hy => .inr (hseen y hy))
      rcases hy with rfl | hy
      · exact hF y (hseen y hx)
      · exact hF y hy
    · rw [flatMap_cons]
      refine .append_keep (ih (fun y hy z hz => ?_) fun y hy => ?_)
      · rcases hy with rfl | hy
        · exact .inr hz
        · exact .inl (hF y hy z hz)
      · rcases mem_cons.mp hy with rfl | hy
        · exact .inl rfl
        · exact .inr (hseen y hy)
  | drop hx _ ih =>
    rw [flatMap_cons]
    exact .append_drop (hF _ hx) (ih hF hseen)

/-- The queue is a generation without keys that came earlier. -/
lemma thin_pending (succ : κ → List κ) (root : κ) (n : ℕ) :
    Thin {x | ∃ j < n, x ∈ generation succ root j} (generation succ root n)
      (pending succ root n).1 ∧
      ∀ x ∈ (pending succ root n).2, ∃ j < n, x ∈ generation succ root j := by
  induction n with
  | zero => exact ⟨.keep .nil, fun x hx => absurd hx not_mem_nil⟩
  | succ n ih =>
    obtain ⟨hthin, hseen⟩ := ih
    refine ⟨hthin.flatMap_fresh ?_ hseen, fun x hx => ?_⟩
    · rintro x ⟨j, hj, hx⟩ z hz
      exact ⟨j + 1, Nat.succ_lt_succ hj, mem_flatMap.mpr ⟨x, hx, hz⟩⟩
    · rcases mem_append.mp hx with hx | hx
      · have hwork := mem_of_mem_fresh (mem_reverse.mp hx)
        exact ⟨n, Nat.lt_succ_self n, hthin.sublist.subset hwork⟩
      · obtain ⟨j, hj, hx⟩ := hseen x hx
        exact ⟨j, Nat.lt_succ_of_lt hj, hx⟩

/-- Keys without the property are taken from the front of the queue. -/
lemma run_findStep_append (succ : κ → List κ) (n : ℕ) (work next seen : List κ)
    (h : ∀ x ∈ work, p x = false) :
    run (.queue κ) (findStep succ p) (n + work.length) (work ++ next) seen =
      run (.queue κ) (findStep succ p) n (next ++ (fresh seen work).flatMap succ)
        ((fresh seen work).reverse ++ seen) := by
  induction work generalizing next seen with
  | nil => simp [fresh]
  | cons x work ih =>
    obtain ⟨hx, hwork⟩ := forall_mem_cons.mp h
    have hlength : n + (x :: work).length = n + work.length + 1 := by
      rw [length_cons, Nat.add_assoc]
    rw [hlength, cons_append, run_cons, findStep, searchStep, fresh]
    by_cases hseen : x ∈ seen
    · rw [if_pos hseen, if_pos hseen]
      show run _ _ _ (work ++ next ++ []) seen = _
      rw [append_nil, ih next seen hwork]
    · rw [if_neg hseen, if_neg hseen, if_neg (by simp [hx])]
      show run _ _ _ (work ++ next ++ succ x) (x :: seen) = _
      rw [append_assoc, ih (next ++ succ x) (x :: seen) hwork]
      simp

/-- The first key with the property in the queue is found. -/
lemma run_findStep_of_find? (succ : κ → List κ) (n : ℕ) (work next seen : List κ) {m : κ}
    (h : work.find? p = some m) (hseen : ∀ x ∈ seen, p x = false) :
    run (.queue κ) (findStep succ p) (n + work.length) (work ++ next) seen = some (.error m) := by
  obtain ⟨hm, before, after, rfl, hbefore⟩ := find?_eq_some_iff_append.mp h
  have hbefore : ∀ x ∈ before, p x = false := fun x hx => by simpa using hbefore x hx
  have hnew : m ∉ (fresh seen before).reverse ++ seen := by
    intro hmem
    rcases mem_append.mp hmem with hmem | hmem
    · cases hm.symm.trans (hbefore m (mem_of_mem_fresh (mem_reverse.mp hmem)))
    · cases hm.symm.trans (hseen m hmem)
  have hlength : n + (before ++ m :: after).length = n + after.length + 1 + before.length := by
    rw [length_append, length_cons]
    omega
  rw [hlength, append_assoc, run_findStep_append _ _ _ _ _ hbefore, cons_append,
    cons_append, run_cons, findStep, searchStep, if_neg hnew, if_pos hm]

/-- The search comes to a generation if no key of the earlier ones has the property. -/
lemma exists_run_eq_pending (k n : ℕ) (h : ∀ j < k, ∀ x ∈ generation succ root j, p x = false) :
    ∃ N, run (.queue κ) (findStep succ p) N [root] [] =
      run (.queue κ) (findStep succ p) n (pending succ root k).1 (pending succ root k).2 := by
  induction k generalizing n with
  | zero => exact ⟨n, rfl⟩
  | succ k ih =>
    have hwork : ∀ x ∈ (pending succ root k).1, p x = false := fun x hx =>
      h k (Nat.lt_succ_self k) x ((thin_pending succ root k).1.sublist.subset hx)
    obtain ⟨N, hN⟩ := ih (n + (pending succ root k).1.length) fun j hj => h j (Nat.lt_succ_of_lt hj)
    have hstep := run_findStep_append succ n _ [] (pending succ root k).2 hwork
    rw [append_nil] at hstep
    exact ⟨N, hN.trans hstep⟩

/-- The search ends at the first key with the property in the sequence of the generations. -/
theorem run_find_iff {n : ℕ} {r : Except κ (List κ)} {m : κ}
    (hrun : run (.queue κ) (findStep succ p) n [root] [] = some r) :
    r = .error m ↔ ∃ k, (∀ j < k, ∀ x ∈ generation succ root j, p x = false) ∧
      (generation succ root k).find? p = some m := by
  have hfound : ∀ k m, (∀ j < k, ∀ x ∈ generation succ root j, p x = false) →
      (generation succ root k).find? p = some m → r = .error m := by
    intro k m hbefore hm
    obtain ⟨hthin, hseen⟩ := thin_pending succ root k
    have hE : ∀ x ∈ {x | ∃ j < k, x ∈ generation succ root j}, p x = false := by
      rintro x ⟨j, hj, hx⟩
      exact hbefore j hj x hx
    rw [← hthin.find?_eq hE] at hm
    have herror := run_findStep_of_find? succ 0 _ [] _ hm fun x hx => hE x (hseen x hx)
    rw [append_nil] at herror
    obtain ⟨N, hN⟩ := exists_run_eq_pending k (0 + (pending succ root k).1.length) hbefore
    exact run_unique hrun (hN.trans herror)
  refine ⟨fun hr => ?_, fun ⟨k, hbefore, hm⟩ => hfound k m hbefore hm⟩
  -- Something with the property is reached, so there is a first generation that has it.
  subst hr
  have hexists : ∃ k, ∃ x ∈ generation succ root k, p x = true := by
    obtain ⟨seen, x, -, hx, ⟨r, hr, -, hpath⟩, -⟩ := exists_stop_of_run hrun
    have hp : p x = true := (Option.ite_none_right_eq_some.mp hx).1
    obtain rfl := mem_singleton.mp hr
    obtain ⟨k, hk⟩ := exists_mem_generation
      (Relation.ReflTransGen.mono (fun _ _ hstep => hstep.1) _ _ hpath)
    exact ⟨k, x, hk, hp⟩
  classical
  obtain ⟨x, hx, hp⟩ := Nat.find_spec hexists
  have hbefore : ∀ j < Nat.find hexists, ∀ x ∈ generation succ root j, p x = false := by
    intro j hj x hx
    by_contra hp
    exact Nat.find_min hexists hj ⟨x, hx, Bool.eq_true_of_not_eq_false hp⟩
  obtain ⟨m', hm'⟩ := Option.isSome_iff_exists.mp (find?_isSome.mpr ⟨x, hx, hp⟩)
  cases hfound _ m' hbefore hm'
  exact ⟨_, hbefore, hm'⟩

end Search

end Gyt.PopLoop
