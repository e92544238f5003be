import Mathlib

/-!
# Machines with events

A machine is a partial step function: in a state, an event is possible or not, and if it is, it
leads to one next state.  The events of several parties in one sequence are an interleaving of what
these parties do.

`run_invariant` is the invariant rule for runs all of whose events meet a condition in the state in
which they occur; `trace_isChain` says how successive states of such a run are related.  A run that
does not end is a sequence of states and events, `Endless`.
-/

namespace Gyt.Machine

open List Option

variable {σ α : Type*} (step : σ → α → Option σ)

/-- The state after a sequence of events; none if one of them is not possible. -/
def run : σ → List α → Option σ
  | s, [] => some s
  | s, a :: as => (step s a).bind fun s' => run s' as

/-- The states of a run, up to an event that is not possible. -/
def trace : σ → List α → List σ
  | s, [] => [s]
  | s, a :: as => s :: ((step s a).map fun s' => trace s' as).getD []

/-- Whether every event of a run meets a condition in the state in which it occurs. -/
def Always (P : σ → α → Prop) : σ → List α → Prop
  | _, [] => True
  | s, a :: as => P s a ∧ ∀ s', step s a = some s' → Always P s' as

/-- Conditions on the events of a run can be checked by following it. -/
instance decidableAlways (P : σ → α → Prop) [∀ s a, Decidable (P s a)] :
    (s : σ) → (as : List α) → Decidable (Always step P s as)
  | _, [] => isTrue trivial
  | s, a :: as =>
    match hs : step s a with
    | none => decidable_of_iff (P s a)
        ⟨fun h => ⟨h, fun _ hs' => absurd (hs.symm.trans hs') nofun⟩, fun h => h.1⟩
    | some s' =>
      have := decidableAlways P s' as
      decidable_of_iff (P s a ∧ Always step P s' as)
        ⟨fun h => ⟨h.1, fun _ hs'' => Option.some.inj (hs.symm.trans hs'') ▸ h.2⟩,
          fun h => ⟨h.1, h.2 s' hs⟩⟩

variable {step} {P : σ → α → Prop} {Inv : σ → Prop} {s s' : σ} {as : List α}

lemma always_true (s : σ) (as : List α) : Always step (fun _ _ => True) s as := by
  induction as generalizing s with
  | nil => trivial
  | cons a as ih => exact ⟨trivial, fun s' _ => ih s'⟩

/-- A run can be continued by a run from its last state. -/
lemma run_append {bs : List α} (h : run step s as = some s') :
    run step s (as ++ bs) = run step s' bs := by
  induction as generalizing s with
  | nil =>
    cases h
    rfl
  | cons a as ih =>
    obtain ⟨s₁, hs₁, hrest⟩ := bind_eq_some_iff.mp h
    rw [cons_append, run, hs₁, bind_some, ih hrest]

/-- An invariant that the events of a run keep holds after the run. -/
theorem run_invariant (hstep : ∀ s a s', Inv s → P s a → step s a = some s' → Inv s')
    (halways : Always step P s as) (hrun : run step s as = some s') (hinv : Inv s) : Inv s' := by
  induction as generalizing s with
  | nil =>
    cases hrun
    exact hinv
  | cons a as ih =>
    obtain ⟨s₁, hs₁, hrest⟩ := bind_eq_some_iff.mp hrun
    exact ih (halways.2 s₁ hs₁) hrest (hstep s a s₁ hinv halways.1 hs₁)

lemma self_mem_trace (s : σ) (as : List α) : s ∈ trace step s as := by
  cases as <;> exact mem_cons_self

/-- An invariant that the events of a run keep holds in all its states, and successive states are
related as the events relate them; `Q` is what is known of every state of the run. -/
theorem trace_isChain {Q : σ → Prop} {R : σ → σ → Prop}
    (hstep : ∀ s a s', Inv s → P s a → step s a = some s' → Q s' → Inv s' ∧ R s s')
    (halways : Always step P s as) (hQ : ∀ s' ∈ trace step s as, Q s') (hinv : Inv s) :
    (∀ s' ∈ trace step s as, Inv s') ∧ (trace step s as).IsChain R := by
  induction as generalizing s with
  | nil =>
    rw [trace, forall_mem_singleton]
    exact ⟨hinv, .singleton s⟩
  | cons a as ih =>
    cases hs : step s a with
    | none =>
      rw [trace, hs, map_none, getD_none, forall_mem_singleton]
      exact ⟨hinv, .singleton s⟩
    | some s₁ =>
      rw [trace, hs, map_some, getD_some] at hQ ⊢
      obtain ⟨-, hQ⟩ := forall_mem_cons.mp hQ
      obtain ⟨rest, htrace⟩ : ∃ rest, trace step s₁ as = s₁ :: rest := by
        cases as <;> exact ⟨_, rfl⟩
      obtain ⟨hinv₁, hrel⟩ := hstep s a s₁ hinv halways.1 hs (hQ s₁ (self_mem_trace s₁ as))
      obtain ⟨hall, hchain⟩ := ih (halways.2 s₁ hs) hQ hinv₁
      refine ⟨forall_mem_cons.mpr ⟨hinv, hall⟩, ?_⟩
      rw [htrace] at hchain ⊢
      exact hchain.cons_cons hrel

/-- The state after a run is one of its states. -/
lemma mem_trace_of_run (h : run step s as = some s') : s' ∈ trace step s as := by
  induction as generalizing s with
  | nil =>
    cases h
    exact mem_singleton.mpr rfl
  | cons a as ih =>
    obtain ⟨s₁, hs₁, hrest⟩ := bind_eq_some_iff.mp h
    rw [trace, hs₁]
    exact mem_cons_of_mem _ (ih hrest)

/-- A run from a state that does not end. -/
structure Endless (step : σ → α → Option σ) (s : σ) (states : ℕ → σ) (events : ℕ → α) : Prop where
  start : states 0 = s
  next : ∀ k, step (states k) (events k) = some (states (k + 1))

/-- Invariant rule for the states of a run that does not end, up to the first event that fails a
condition. -/
lemma Endless.invariant {states : ℕ → σ} {events : ℕ → α} {C : α → Prop}
    (h : Endless step s states events)
    (hstep : ∀ s a s', Inv s → C a → step s a = some s' → Inv s') (hinv : Inv s) {k : ℕ}
    (hk : ∀ i < k, C (events i)) : Inv (states k) := by
  induction k with
  | zero =>
    rw [h.start]
    exact hinv
  | succ k ih =>
    have hprev : Inv (states k) := ih fun i hi => hk i (hi.trans (Nat.lt_succ_self k))
    exact hstep _ _ _ hprev (hk k (Nat.lt_succ_self k)) (h.next k)

end Gyt.Machine
