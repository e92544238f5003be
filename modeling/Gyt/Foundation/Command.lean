import Mathlib

/-!
# Commands

Computations over a state that can fail and that need not end.  A command that fails keeps what it
has done to the state so far, as a program that returns an error in the middle of its work does.

`Within R x` says that a command leaves a state only in one that is related to it by `R`, whether it
succeeds or fails.  For a preorder this is preserved by all ways to compose commands, so that it is
enough to look at the basic ones.  `Returns x P` says that what a command returns has a property.
-/

/-- A computation over states `σ` with errors `ε`; running it gives `none` if it does not end. -/
structure Command (σ ε α : Type) where
  run : σ → Option (Except ε α × σ)

namespace Command

variable {σ τ ε α β : Type}

/-- Going on with the result of a command, if it has one. -/
def bind (x : Command σ ε α) (f : α → Command σ ε β) : Command σ ε β where
  run s :=
    match x.run s with
    | some (.ok a, s') => (f a).run s'
    | some (.error e, s') => some (.error e, s')
    | none => none

instance : Monad (Command σ ε) where
  pure a := ⟨fun s => some (.ok a, s)⟩
  bind := bind

def fail (e : ε) : Command σ ε α := ⟨fun s => some (.error e, s)⟩

/-- The result of a computation that does not touch the state. -/
def lift (x : Except ε α) : Command σ ε α := ⟨fun s => some (x, s)⟩

/-- The result of a computation that does not touch the state and may not end. -/
def await (x : Option (Except ε α)) : Command σ ε α := ⟨fun s => x.map (·, s)⟩

/-- What a function reads from the state. -/
def gets (f : σ → α) : Command σ ε α := ⟨fun s => some (.ok (f s), s)⟩

/-- A basic change of the state with its result. -/
def act (f : σ → Except ε α × σ) : Command σ ε α := ⟨fun s => some (f s)⟩

/-- A command whose failure is seen by the program. -/
def attempt (x : Command σ ε α) : Command σ ε (Except ε α) where
  run s := (x.run s).map fun (r, s') => (.ok r, s')

/-- A command with a local variable, and the last value of that variable. -/
def withLocal (init : τ) (x : Command (σ × τ) ε α) : Command σ ε (α × τ) where
  run s := (x.run (s, init)).map fun (r, s', t) => (r.map (·, t), s')

/-- A command that does not use the local variable. -/
def outer (x : Command σ ε α) : Command (σ × τ) ε α where
  run := fun (s, t) => (x.run s).map fun (r, s') => (r, s', t)

variable {s s' : σ} {x : Command σ ε α} {f : α → Command σ ε β} {a : α} {b : β} {e : ε}

/-! ## How commands end -/

@[simp] lemma run_pure : (pure a : Command σ ε α).run s = some (.ok a, s) := rfl

@[simp] lemma run_fail : (fail e : Command σ ε α).run s = some (.error e, s) := rfl

@[simp] lemma run_lift {r : Except ε α} : (lift r : Command σ ε α).run s = some (r, s) := rfl

@[simp] lemma run_gets {g : σ → α} : (gets g : Command σ ε α).run s = some (.ok (g s), s) := rfl

@[simp] lemma run_act {g : σ → Except ε α × σ} : (act g).run s = some (g s) := rfl

lemma run_bind : (x >>= f).run s = (bind x f).run s := rfl

/-- A command goes on after a part that succeeds. -/
lemma run_bind_of_ok (h : x.run s = some (.ok a, s')) : (x >>= f).run s = (f a).run s' := by
  rw [run_bind, bind]
  dsimp only
  rw [h]

/-- A command ends with a part that fails. -/
lemma run_bind_of_error (h : x.run s = some (.error e, s')) :
    (x >>= f).run s = some (.error e, s') := by
  rw [run_bind, bind]
  dsimp only
  rw [h]

@[simp] lemma run_lift_ok_bind : ((lift (.ok a) : Command σ ε α) >>= f).run s = (f a).run s := rfl

@[simp] lemma run_lift_error_bind :
    ((lift (.error e) : Command σ ε α) >>= f).run s = some (.error e, s) := rfl

@[simp] lemma run_gets_bind {g : σ → α} :
    ((gets g : Command σ ε α) >>= f).run s = (f (g s)).run s := rfl

/-- Two commands in sequence succeed if both do. -/
lemma seq_eq_ok : (x >>= f).run s = some (.ok b, s') ↔
    ∃ a s₁, x.run s = some (.ok a, s₁) ∧ (f a).run s₁ = some (.ok b, s') := by
  rw [run_bind, bind]
  dsimp only
  split
  · next a s₁ hx => simp [hx, and_assoc]
  · next e s₁ hx => simp [hx]
  · next hx => simp [hx]

/-- Two commands in sequence fail if the first one fails, or else the second one. -/
lemma seq_eq_error : (x >>= f).run s = some (.error e, s') ↔ x.run s = some (.error e, s') ∨
      ∃ a s₁, x.run s = some (.ok a, s₁) ∧ (f a).run s₁ = some (.error e, s') := by
  rw [run_bind, bind]
  dsimp only
  split
  · next a s₁ hx => simp [hx, and_assoc]
  · next e s₁ hx => simp [hx]
  · next hx => simp [hx]

/-- A command whose result is changed at its end. -/
lemma exists_of_bind_pure {g : α → β} {r : Except ε β}
    (h : (x >>= fun a => pure (g a)).run s = some (r, s')) :
    ∃ r₀, x.run s = some (r₀, s') ∧ r = r₀.map g := by
  cases r with
  | ok b =>
    obtain ⟨a, s₁, hx, hpure⟩ := seq_eq_ok.mp h
    cases hpure
    exact ⟨.ok a, hx, rfl⟩
  | error e =>
    rcases seq_eq_error.mp h with hx | ⟨a, s₁, hx, hpure⟩
    · exact ⟨.error e, hx, rfl⟩
    · cases hpure

lemma lift_eq_ok {r : Except ε α} :
    (lift r : Command σ ε α).run s = some (.ok a, s') ↔ r = .ok a ∧ s' = s := by simp [eq_comm]

lemma lift_bind_eq_ok {r : Except ε α} :
    ((lift r : Command σ ε α) >>= f).run s = some (.ok b, s') ↔
      ∃ a, r = .ok a ∧ (f a).run s = some (.ok b, s') := by simp [seq_eq_ok, and_assoc]

lemma lift_eq_error {r : Except ε α} :
    (lift r : Command σ ε α).run s = some (.error e, s') ↔ r = .error e ∧ s' = s := by
  simp [eq_comm]

lemma await_eq_some {r : Option (Except ε α)} {r' : Except ε α} :
    (await r : Command σ ε α).run s = some (r', s') ↔ r = some r' ∧ s' = s := by
  cases r <;> simp [await, eq_comm]

lemma gets_eq_ok {g : σ → α} :
    (gets g : Command σ ε α).run s = some (.ok a, s') ↔ a = g s ∧ s' = s := by simp [eq_comm]

lemma attempt_eq_some {r : Except ε (Except ε α)} :
    (attempt x).run s = some (r, s') ↔ ∃ r', x.run s = some (r', s') ∧ r = .ok r' := by
  simp only [attempt, Option.map_eq_some_iff, Prod.exists, Prod.mk.injEq]
  constructor
  · rintro ⟨r', _, hx, rfl, rfl⟩
    exact ⟨r', hx, rfl⟩
  · rintro ⟨r', hx, rfl⟩
    exact ⟨r', s', hx, rfl, rfl⟩

lemma withLocal_eq_ok {y : Command (σ × τ) ε α} {init t : τ} :
    (withLocal init y).run s = some (.ok (a, t), s') ↔ y.run (s, init) = some (.ok a, s', t) := by
  simp only [withLocal, Option.map_eq_some_iff, Prod.exists, Prod.mk.injEq]
  constructor
  · rintro ⟨r, _, t', hy, hr, rfl⟩
    cases r with
    | error e => cases hr
    | ok a =>
      cases hr
      exact hy
  · intro hy
    exact ⟨.ok a, s', t, hy, rfl, rfl⟩

lemma ext {y : Command σ ε α} (h : ∀ s, x.run s = y.run s) : x = y := by
  cases x
  cases y
  exact congrArg mk (funext h)

instance : LawfulMonad (Command σ ε) := LawfulMonad.mk' _
  (fun x => by
    refine ext fun s => ?_
    show (bind x pure).run s = x.run s
    rw [bind]
    dsimp only
    split <;> simp_all)
  (fun a f => rfl)
  (fun x f g => by
    refine ext fun s => ?_
    show (bind (bind x f) g).run s = (bind x fun a => bind (f a) g).run s
    simp only [bind]
    cases x.run s with
    | none => rfl
    | some p =>
      obtain ⟨r, s'⟩ := p
      cases r <;> rfl)

/-- The state that a command leaves; the old one if it does not end. -/
def after (x : Command σ ε α) (s : σ) : σ := ((x.run s).map (·.2)).getD s

/-- How a command ends is known from its result alone. -/
lemma run_eq_after (h : (x.run s).map (·.1.toOption) = some (some a)) :
    x.run s = some (.ok a, x.after s) := by
  obtain ⟨⟨r, s'⟩, hrun, hr⟩ := Option.map_eq_some_iff.mp h
  cases r with
  | error e => cases hr
  | ok b =>
    cases hr
    rw [after, hrun]
    rfl

/-! ## What commands do to the state -/

/-- Every state in which the command ends is related to the one it starts in. -/
def Within (R : σ → σ → Prop) (x : Command σ ε α) : Prop :=
  ∀ s r s', x.run s = some (r, s') → R s s'

/-- A relation of states, for states with a local variable. -/
def OnFst (R : σ → σ → Prop) (p q : σ × τ) : Prop := R p.1 q.1

section Within

variable {R : σ → σ → Prop}

instance [Std.Refl R] : Std.Refl (OnFst R : σ × τ → σ × τ → Prop) := ⟨fun p => Std.Refl.refl p.1⟩

instance [IsTrans σ R] : IsTrans (σ × τ) (OnFst R) :=
  ⟨fun p q r => IsTrans.trans p.1 q.1 r.1⟩

lemma Within.mono {R' : σ → σ → Prop} (hx : Within R x) (h : ∀ s s', R s s' → R' s s') :
    Within R' x := by
  intro s r s' hend
  exact h s s' (hx s r s' hend)

lemma within_act {g : σ → Except ε α × σ} (h : ∀ s, R s (g s).2) : Within R (act g) := by
  intro s r s' hend
  have hg : g s = (r, s') := Option.some.inj hend
  rw [show s' = (g s).2 by rw [hg]]
  exact h s

lemma Within.attempt (hx : Within R x) : Within R (attempt x) := by
  intro s r s' hend
  obtain ⟨r', hx', -⟩ := attempt_eq_some.mp hend
  exact hx s r' s' hx'

lemma Within.outer (hx : Within R x) : Within (OnFst R) (outer x : Command (σ × τ) ε α) := by
  rintro ⟨s, t⟩ r ⟨s', t'⟩ hend
  obtain ⟨⟨r', s''⟩, hx', heq⟩ := Option.map_eq_some_iff.mp hend
  obtain ⟨-, hs, -⟩ : r' = r ∧ s'' = s' ∧ t = t' := by simpa using heq
  exact hs ▸ hx s r' s'' hx'

lemma Within.withLocal {y : Command (σ × τ) ε α} {init : τ}
    (hy : Within (OnFst R) y) : Within R (withLocal init y) := by
  intro s r s' hend
  obtain ⟨⟨r', s'', t⟩, hy', heq⟩ := Option.map_eq_some_iff.mp hend
  obtain ⟨-, hs⟩ : r'.map (·, t) = r ∧ s'' = s' := by simpa using heq
  exact hs ▸ hy (s, init) r' (s'', t) hy'

lemma Within.bind [IsTrans σ R] (hx : Within R x) (hf : ∀ a, Within R (f a)) :
    Within R (x >>= f) := by
  intro s r s' hend
  cases r with
  | ok b =>
    obtain ⟨a, s₁, hx', hf'⟩ := seq_eq_ok.mp hend
    exact IsTrans.trans s s₁ s' (hx s _ s₁ hx') (hf a s₁ _ s' hf')
  | error e =>
    rcases seq_eq_error.mp hend with hx' | ⟨a, s₁, hx', hf'⟩
    · exact hx s _ s' hx'
    · exact IsTrans.trans s s₁ s' (hx s _ s₁ hx') (hf a s₁ _ s' hf')

variable [Std.Refl R]

lemma within_pure (a : α) : Within R (pure a : Command σ ε α) := by
  intro s r s' hend
  cases hend
  exact Std.Refl.refl s

lemma within_fail (e : ε) : Within R (fail e : Command σ ε α) := by
  intro s r s' hend
  cases hend
  exact Std.Refl.refl s

lemma within_lift (r : Except ε α) : Within R (lift r : Command σ ε α) := by
  intro s r s' hend
  cases hend
  exact Std.Refl.refl s

/-- The rest of a command knows the value that it was given. -/
lemma within_lift_bind {r : Except ε α} (h : ∀ a, r = .ok a → Within R (f a)) :
    Within R (lift r >>= f) := by
  intro s r' s' hend
  cases r with
  | error e =>
    cases hend
    exact Std.Refl.refl s
  | ok a => exact h a rfl s r' s' hend

lemma within_await (r : Option (Except ε α)) : Within R (await r : Command σ ε α) := by
  intro s r s' hend
  obtain ⟨-, rfl⟩ := await_eq_some.mp hend
  exact Std.Refl.refl s'

lemma within_gets (g : σ → α) : Within R (gets g : Command σ ε α) := by
  intro s r s' hend
  cases hend
  exact Std.Refl.refl s

variable [IsTrans σ R]

lemma within_forM_of_mem {l : List β} {g : β → Command σ ε PUnit}
    (h : ∀ b ∈ l, Within R (g b)) : Within R (l.forM g) := by
  induction l with
  | nil => exact within_pure _
  | cons b l ih =>
    exact (h b List.mem_cons_self).bind fun _ => ih fun b' hb' => h b' (List.mem_cons_of_mem b hb')

lemma within_forM {l : List β} {g : β → Command σ ε PUnit} (h : ∀ b, Within R (g b)) :
    Within R (l.forM g) := within_forM_of_mem fun b _ => h b

lemma within_mapM {l : List β} {g : β → Command σ ε α} (h : ∀ b, Within R (g b)) :
    Within R (l.mapM g) := by
  induction l with
  | nil => exact within_pure _
  | cons b l ih =>
    rw [List.mapM_cons]
    exact (h b).bind fun _ => ih.bind fun _ => within_pure _

lemma within_foldlM_of_mem {l : List β} {g : α → β → Command σ ε α}
    (h : ∀ a, ∀ b ∈ l, Within R (g a b)) (a : α) : Within R (l.foldlM g a) := by
  induction l generalizing a with
  | nil => exact within_pure _
  | cons b l ih =>
    exact (h a b List.mem_cons_self).bind (ih fun a' b' hb' => h a' b' (List.mem_cons_of_mem b hb'))

lemma within_foldlM {l : List β} {g : α → β → Command σ ε α} (h : ∀ a b, Within R (g a b))
    (a : α) : Within R (l.foldlM g a) := within_foldlM_of_mem (fun a b _ => h a b) a

end Within

/-! ## What commands return -/

/-- Every result of the command has a property. -/
def Returns (x : Command σ ε α) (P : α → Prop) : Prop :=
  ∀ s a s', x.run s = some (.ok a, s') → P a

section Returns

variable {P : α → Prop} {Q : β → Prop}

lemma returns_pure (h : P a) : Returns (pure a : Command σ ε α) P := by
  intro s b s' hend
  cases hend
  exact h

lemma returns_gets {g : σ → α} (h : ∀ s, P (g s)) : Returns (gets g : Command σ ε α) P := by
  intro s a s' hend
  rw [(gets_eq_ok.mp hend).1]
  exact h s

/-- Any command returns something. -/
lemma returns_true (x : Command σ ε α) : Returns x fun _ => True := fun _ _ _ _ => trivial

lemma Returns.bind (hx : Returns x P) (hf : ∀ a, P a → Returns (f a) Q) :
    Returns (x >>= f) Q := by
  intro s b s' hend
  obtain ⟨a, s₁, hx', hf'⟩ := seq_eq_ok.mp hend
  exact hf a (hx s a s₁ hx') s₁ b s' hf'

lemma returns_mapM {l : List β} {g : β → Command σ ε α} (h : ∀ b, Returns (g b) P) :
    Returns (l.mapM g) fun as => ∀ a ∈ as, P a := by
  induction l with
  | nil => exact returns_pure (by simp)
  | cons b l ih =>
    rw [List.mapM_cons]
    exact (h b).bind fun a ha => ih.bind fun as has =>
      returns_pure (List.forall_mem_cons.mpr ⟨ha, has⟩)

lemma returns_foldlM {l : List β} {g : α → β → Command σ ε α}
    (h : ∀ a, ∀ b ∈ l, P a → Returns (g a b) P) (ha : P a) : Returns (l.foldlM g a) P := by
  induction l generalizing a with
  | nil => exact returns_pure ha
  | cons b l ih =>
    exact (h a b List.mem_cons_self ha).bind fun a' ha' =>
      ih (fun a b hb => h a b (List.mem_cons_of_mem _ hb)) ha'

end Returns

/-! ## Loops -/

section Loops

variable {l : List β} {g : β → Command σ ε PUnit}

/-- In a loop that succeeds every iteration succeeds. -/
lemma exists_run_of_forM {u : PUnit} (h : (l.forM g).run s = some (.ok u, s')) {b : β}
    (hb : b ∈ l) : ∃ s₁ s₂, (g b).run s₁ = some (.ok (), s₂) := by
  induction l generalizing s with
  | nil => cases hb
  | cons b' l ih =>
    obtain ⟨_, s₁, hhead, htail⟩ := seq_eq_ok.mp h
    rcases List.mem_cons.mp hb with rfl | hb
    · exact ⟨s, s₁, hhead⟩
    · exact ih htail hb

/-- A loop of checks that do not touch the state passes if all of them do. -/
lemma forM_check {p : β → σ → Prop} [∀ b s, Decidable (p b s)] {e : β → ε}
    (hg : ∀ b s, (g b).run s = some (if p b s then (.error (e b), s) else (.ok (), s))) :
    (∀ b ∈ l, ¬ p b s) ∧ (l.forM g).run s = some (.ok (), s) ∨
      (∃ b ∈ l, p b s ∧ (l.forM g).run s = some (.error (e b), s)) := by
  induction l with
  | nil => exact .inl ⟨nofun, rfl⟩
  | cons b l ih =>
    by_cases hb : p b s
    · exact .inr ⟨b, List.mem_cons_self, hb, run_bind_of_error ((hg b s).trans (by rw [if_pos hb]))⟩
    · have hrun : ((b :: l).forM g).run s = (l.forM g).run s :=
        run_bind_of_ok ((hg b s).trans (by rw [if_neg hb]))
      rw [hrun]
      rcases ih with ⟨hall, hok⟩ | ⟨b', hb', hp, herror⟩
      · exact .inl ⟨List.forall_mem_cons.mpr ⟨hb, hall⟩, hok⟩
      · exact .inr ⟨b', List.mem_cons_of_mem _ hb', hp, herror⟩

/-- Invariant rule for a loop that succeeds; the invariant also sees the items already processed. -/
lemma foldlM_run_invariant {g : α → β → Command σ ε α} {I : List β → α → σ → Prop}
    (hstep : ∀ done b a s a' s', I done a s → (g a b).run s = some (.ok a', s') →
      I (done ++ [b]) a' s')
    {a' : α} (h : (l.foldlM g a).run s = some (.ok a', s')) (hI : I [] a s) : I l a' s' := by
  suffices hgeneral : ∀ done, I done a s → I (done ++ l) a' s' from hgeneral [] hI
  clear hI
  induction l generalizing a s with
  | nil =>
    cases h
    exact fun done hI => (List.append_nil done).symm ▸ hI
  | cons b l ih =>
    rw [List.foldlM_cons] at h
    obtain ⟨a₁, s₁, hhead, htail⟩ := seq_eq_ok.mp h
    intro done hI
    have hrest := ih htail _ (hstep done b a s a₁ s₁ hI hhead)
    rwa [List.append_assoc] at hrest

end Loops

end Command
