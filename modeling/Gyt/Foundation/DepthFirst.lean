import Gyt.Foundation.PopLoop

/-!
# Depth-first search

The loop that takes keys from a stack and visits every key once, as a relation: `Dfs` visits a list
of keys one after the other, each with all that is reached from it, and puts what it visits in front
of the keys that were visited before.  `exists_dfs_of_run` says that the loop does so.

In a graph without cycles, a key is visited before its successors exactly if the search meets no key
by one successor that has a predecessor which it meets only later, by a successor that it takes
later (`pairwise_dfs_iff`).
-/

namespace Gyt.PopLoop

open List Relation

variable {κ : Type*} (excluded : κ → Prop) (succ : κ → List κ)

/-- A step of a search: to a successor that is not excluded. -/
def Link (u v : κ) : Prop := v ∈ succ u ∧ ¬ excluded v

/-- The search from a list of keys: the keys that were visited before, and those that were visited
after, the last one first. -/
inductive Dfs : List κ → List κ → List κ → Prop
  | nil {s : List κ} : Dfs [] s s
  | skip {x : κ} {ws s s' : List κ} (hx : excluded x ∨ x ∈ s) (h : Dfs ws s s') : Dfs (x :: ws) s s'
  | visit {x : κ} {ws s s₁ s' : List κ} (hx : ¬ excluded x) (hnew : x ∉ s)
      (hsub : Dfs (succ x).reverse (x :: s) s₁) (h : Dfs ws s₁ s') : Dfs (x :: ws) s s'

variable {excluded succ} {ws s s' : List κ} {x y z : κ}

/-- A loop over a stack that visits every key once is a depth-first search. -/
theorem exists_dfs_of_run {β : Type*} {body : List κ → κ → Except β (List κ × List κ)}
    (hbody : VisitsOnce id id excluded succ body) {n : ℕ} (ws rest : List κ) {t : List κ}
    (h : run (.stack κ) body n (ws ++ rest) s = some (.ok t)) :
    ∃ s', Dfs excluded succ ws s s' ∧ ∃ n' ≤ n, run (.stack κ) body n' rest s' = some (.ok t) := by
  induction n using Nat.strong_induction_on generalizing ws rest s with
  | _ n ih =>
    cases ws with
    | nil => exact ⟨s, .nil, n, le_rfl, h⟩
    | cons x ws =>
      cases n with
      | zero => cases h
      | succ n =>
        rw [cons_append, run_cons] at h
        split at h
        · cases h
        next s₀ next hx =>
        rcases hbody s x s₀ next hx with ⟨hskip, rfl, rfl⟩ | ⟨hne, hnew, hseen, hnext⟩
        · have h : run (.stack κ) body n (ws ++ rest) s₀ = some (.ok t) := h
          obtain ⟨s', hdfs, n', hn', hrun⟩ := ih n (Nat.lt_succ_self n) ws rest h
          exact ⟨s', .skip hskip hdfs, n', hn'.trans (Nat.le_succ n), hrun⟩
        · obtain rfl : s₀ = x :: s := hseen
          obtain rfl : next = succ x := (map_id _).symm.trans hnext
          obtain ⟨s₁, hsub, n₁, hn₁, hrun₁⟩ := ih n (Nat.lt_succ_self n) _ _ h
          obtain ⟨s', hdfs, n', hn', hrun⟩ := ih n₁ (Nat.lt_succ_of_le hn₁) ws rest hrun₁
          exact ⟨s', .visit hne hnew hsub hdfs, n', hn'.trans (hn₁.trans (Nat.le_succ n)), hrun⟩

/-! ## What is visited -/

lemma reachable_cons : Reachable excluded succ (x :: ws) y ↔
    ¬ excluded x ∧ ReflTransGen (Link excluded succ) x y ∨ Reachable excluded succ ws y := by
  simp only [Reachable, mem_cons, or_and_right, exists_or, exists_eq_left]
  rfl

lemma Reachable.of_subset {ws' : List κ} (hsub : ws ⊆ ws') (h : Reachable excluded succ ws y) :
    Reachable excluded succ ws' y := by
  obtain ⟨r, hr, hpath⟩ := h
  exact ⟨r, hsub hr, hpath⟩

lemma Reachable.trans (h : Reachable excluded succ ws y)
    (hpath : ReflTransGen (Link excluded succ) y z) : Reachable excluded succ ws z := by
  obtain ⟨r, hr, hne, hy⟩ := h
  exact ⟨r, hr, hne, ReflTransGen.trans hy hpath⟩

lemma reachable_reverse : Reachable excluded succ ws.reverse y ↔ Reachable excluded succ ws y := by
  simp only [Reachable, mem_reverse]

/-- What is reached from a key is the key itself, or reached from its successors. -/
lemma eq_or_reachable_succ (h : ReflTransGen (Link excluded succ) x y) :
    x = y ∨ Reachable excluded succ (succ x) y := by
  rcases h.cases_head with heq | ⟨v, hv, hpath⟩
  · exact .inl heq
  · exact .inr ⟨v, hv.1, hv.2, hpath⟩

lemma reflTransGen_of_reachable (h : Reachable excluded succ (succ x) y) :
    ReflTransGen (Link excluded succ) x y := by
  obtain ⟨v, hv, hne, hpath⟩ := h
  exact .head ⟨hv, hne⟩ hpath

namespace Dfs

lemma suffix (h : Dfs excluded succ ws s s') : s <:+ s' := by
  induction h with
  | nil => exact suffix_rfl
  | skip _ _ ih => exact ih
  | visit _ _ _ _ ih₁ ih₂ => exact ((suffix_cons _ _).trans ih₁).trans ih₂

lemma mem_or_reachable (h : Dfs excluded succ ws s s') (hy : y ∈ s') :
    y ∈ s ∨ Reachable excluded succ ws y := by
  induction h with
  | nil => exact .inl hy
  | skip _ _ ih => exact (ih hy).imp_right (.of_subset (subset_cons_self _ _))
  | visit hx _ _ _ ih₁ ih₂ =>
    rcases ih₂ hy with hs₁ | hws
    · rcases ih₁ hs₁ with hs | hsub
      · rcases mem_cons.mp hs with rfl | hs
        · exact .inr (reachable_cons.mpr (.inl ⟨hx, .refl⟩))
        · exact .inl hs
      · rw [reachable_reverse] at hsub
        exact .inr (reachable_cons.mpr (.inl ⟨hx, reflTransGen_of_reachable hsub⟩))
    · exact .inr (hws.of_subset (subset_cons_self _ _))

lemma append_iff {ws' : List κ} : Dfs excluded succ (ws ++ ws') s s' ↔
    ∃ m, Dfs excluded succ ws s m ∧ Dfs excluded succ ws' m s' := by
  constructor
  · intro h
    induction ws generalizing s with
    | nil => exact ⟨s, .nil, h⟩
    | cons x ws ih =>
      cases h with
      | skip hx h =>
        obtain ⟨m, hm, hrest⟩ := ih h
        exact ⟨m, .skip hx hm, hrest⟩
      | visit hx hnew hsub h =>
        obtain ⟨m, hm, hrest⟩ := ih h
        exact ⟨m, .visit hx hnew hsub hm, hrest⟩
  · rintro ⟨m, hm, hrest⟩
    induction hm with
    | nil => exact hrest
    | skip hx _ ih => exact .skip hx (ih hrest)
    | visit hx hnew hsub _ _ ih => exact .visit hx hnew hsub (ih hrest)

/-- The search from a key that was visited. -/
lemma exists_visit (h : Dfs excluded succ ws s s') (hx : x ∈ s') (hnew : x ∉ s) :
    ∃ s₀ s₁, x ∉ s₀ ∧ Dfs excluded succ (succ x).reverse (x :: s₀) s₁ ∧ s₁ <:+ s' := by
  induction h with
  | nil => exact absurd hx hnew
  | skip _ _ ih => exact ih hx hnew
  | @visit y ws s s₁ s' hy hynew hsub h ih₁ ih₂ =>
    by_cases hxs₁ : x ∈ s₁
    · by_cases hxy : x = y
      · subst hxy
        exact ⟨s, s₁, hynew, hsub, h.suffix⟩
      · obtain ⟨t, t₁, ht, hdfs, hsuffix⟩ := ih₁ hxs₁ (by simp [hxy, hnew])
        exact ⟨t, t₁, ht, hdfs, hsuffix.trans h.suffix⟩
    · exact ih₂ hx hxs₁

end Dfs

/-! ## Graphs without cycles -/

/-- What was visited of the keys to come was visited with all that is reached from it. -/
def Settled (excluded : κ → Prop) (succ : κ → List κ) (ws s : List κ) : Prop :=
  ∀ y ∈ s, Reachable excluded succ ws y →
    ∀ z, Relation.ReflTransGen (Link excluded succ) y z → z ∈ s

section Acyclic

variable
  (hacyclic : ∀ u v, Link excluded succ u v → ¬ Relation.ReflTransGen (Link excluded succ) v u)

include hacyclic

lemma not_reachable_succ_self : ¬ Reachable excluded succ (succ x) x := by
  rintro ⟨v, hv, hne, hpath⟩
  exact hacyclic x v ⟨hv, hne⟩ hpath

/-- Before the search from the successors of a key. -/
lemma Settled.visit (h : Settled excluded succ (x :: ws) s) (hx : ¬ excluded x) :
    Settled excluded succ (succ x).reverse (x :: s) := by
  intro y hy hreach z hpath
  rw [reachable_reverse] at hreach
  rcases mem_cons.mp hy with rfl | hy
  · exact absurd hreach (not_reachable_succ_self hacyclic)
  · refine mem_cons_of_mem _ (h y hy ?_ z hpath)
    exact reachable_cons.mpr (.inl ⟨hx, reflTransGen_of_reachable hreach⟩)

omit hacyclic in
/-- After a search that has visited all that is reached from the successors of a key. -/
lemma Settled.rest {s₁ : List κ} (h : Settled excluded succ (x :: ws) s)
    (hsub : Dfs excluded succ (succ x).reverse (x :: s) s₁)
    (hsucc : ∀ z, Reachable excluded succ (succ x).reverse z → z ∈ s₁) :
    Settled excluded succ ws s₁ ∧ ∀ z, ReflTransGen (Link excluded succ) x z → z ∈ s₁ := by
  have hself : ∀ z, ReflTransGen (Link excluded succ) x z → z ∈ s₁ := by
    intro z hpath
    rcases eq_or_reachable_succ hpath with rfl | hreach
    · exact hsub.suffix.subset mem_cons_self
    · exact hsucc z (reachable_reverse.mpr hreach)
  refine ⟨fun y hy hreach z hpath => ?_, hself⟩
  rcases hsub.mem_or_reachable hy with hy | hy
  · rcases mem_cons.mp hy with rfl | hy
    · exact hself z hpath
    · refine hsub.suffix.subset (mem_cons_of_mem _ (h y hy ?_ z hpath))
      exact hreach.of_subset (subset_cons_self _ _)
  · exact hsucc z (hy.trans hpath)

/-- A search visits all that is reached. -/
lemma Dfs.mem_of_reachable (h : Dfs excluded succ ws s s') (hsettled : Settled excluded succ ws s)
    (hz : Reachable excluded succ ws z) : z ∈ s' := by
  induction h generalizing z with
  | nil =>
    obtain ⟨r, hr, -⟩ := hz
    cases hr
  | @skip x ws s s' hx h ih =>
    rcases reachable_cons.mp hz with ⟨hne, hpath⟩ | hz
    · have hxs := hx.resolve_left hne
      exact h.suffix.subset (hsettled x hxs (reachable_cons.mpr (.inl ⟨hne, .refl⟩)) z hpath)
    · exact ih (fun y hy hreach => hsettled y hy (hreach.of_subset (subset_cons_self _ _))) hz
  | visit hx _ hsub h ih₁ ih₂ =>
    obtain ⟨hrest, hself⟩ := hsettled.rest hsub fun z => ih₁ (hsettled.visit hacyclic hx)
    rcases reachable_cons.mp hz with ⟨-, hpath⟩ | hz
    · exact h.suffix.subset (hself z hpath)
    · exact ih₂ hrest hz

end Acyclic

/-! ## The order of the visits -/

section Order

variable (excluded succ) (keep : κ → Prop) (root : κ)

/-- No key that is met by later successors of a key, which the search takes first, has a predecessor
that is met only by the earlier ones. -/
def NoLateJoin : Prop :=
  ∀ x, Reachable excluded succ [root] x → ∀ l, l <:+ succ x →
    ∀ c, Relation.ReflTransGen (Link excluded succ) x c → c ≠ x → ¬ Reachable excluded succ l c →
      ∀ p ∈ succ c, keep p → ¬ Reachable excluded succ l p

/-- The keys that are not visited yet have no successors among those that are visited next, unless
they are met there themselves. -/
def Safe (ws s : List κ) : Prop :=
  ∀ w, w <+: ws → ∀ d, Reachable excluded succ [root] d → d ∉ s → ¬ Reachable excluded succ w d →
    ∀ p ∈ succ d, keep p → ¬ Reachable excluded succ w p

/-- Keys are visited before their successors. -/
structure InOrder (s : List κ) : Prop where
  up : ∀ d, Reachable excluded succ [root] d → ∀ p ∈ succ d, keep p → p ∈ s → d ∈ s
  pairwise : s.Pairwise fun c p => ¬ (p ∈ succ c ∧ keep p)

variable {excluded succ keep root}
variable
  (hacyclic : ∀ u v, Link excluded succ u v → ¬ Relation.ReflTransGen (Link excluded succ) v u)

section

variable (h : Safe excluded succ keep root (x :: ws) s)

include h

lemma Safe.skip (hsettled : Settled excluded succ (x :: ws) s) (hx : excluded x ∨ x ∈ s) :
    Safe excluded succ keep root ws s := by
  intro w hw d hd hds hnot p hp hkeep hreach
  refine h (x :: w) (cons_prefix_cons.mpr ⟨rfl, hw⟩) d hd hds (fun hxw => ?_) p hp hkeep
    (hreach.of_subset (subset_cons_self _ _))
  rcases reachable_cons.mp hxw with ⟨hne, hpath⟩ | hw
  · exact hds (hsettled x (hx.resolve_left hne) (reachable_cons.mpr (.inl ⟨hne, .refl⟩)) d hpath)
  · exact hnot hw

lemma Safe.visit
    (hjoin : NoLateJoin excluded succ keep root) (hroot : Reachable excluded succ [root] x)
    (hx : ¬ excluded x) : Safe excluded succ keep root (succ x).reverse (x :: s) := by
  intro w hw d hd hds hnot p hp hkeep hreach
  rw [mem_cons, not_or] at hds
  obtain ⟨hdx, hds⟩ := hds
  rw [← reachable_reverse] at hnot hreach
  have hl : w.reverse <:+ succ x := by
    have hrev := reverse_suffix.mpr hw
    rwa [reverse_reverse] at hrev
  by_cases hpath : ReflTransGen (Link excluded succ) x d
  · exact hjoin x hroot w.reverse hl d hpath hdx hnot p hp hkeep hreach
  · -- What is not met from the key at all is dealt with further up.
    have hnotx : ¬ Reachable excluded succ [x] d := by
      rw [reachable_cons, not_or]
      exact ⟨fun h => hpath h.2, fun ⟨r, hr, _⟩ => absurd hr not_mem_nil⟩
    refine h [x] (by simp) d hd hds hnotx p hp hkeep ?_
    exact reachable_cons.mpr (.inl ⟨hx, reflTransGen_of_reachable (hreach.of_subset hl.subset)⟩)

lemma Safe.rest {s₁ : List κ} (hsub : s <:+ s₁)
    (hself : ∀ z, ReflTransGen (Link excluded succ) x z → z ∈ s₁) :
    Safe excluded succ keep root ws s₁ := by
  intro w hw d hd hds hnot p hp hkeep hreach
  refine h (x :: w) (cons_prefix_cons.mpr ⟨rfl, hw⟩) d hd (fun hmem => hds (hsub.subset hmem))
    (fun hxw => ?_) p hp hkeep (hreach.of_subset (subset_cons_self _ _))
  rcases reachable_cons.mp hxw with ⟨-, hpath⟩ | hw
  · exact hds (hself d hpath)
  · exact hnot hw

end

include hacyclic in
/-- Visiting a key keeps the order. -/
lemma InOrder.visit (h : InOrder excluded succ keep root s)
    (hsafe : Safe excluded succ keep root (x :: ws) s) (hroot : Reachable excluded succ [root] x)
    (hx : ¬ excluded x) (hnew : x ∉ s) : InOrder excluded succ keep root (x :: s) := by
  refine ⟨fun d hd p hp hkeep hps => ?_, pairwise_cons.mpr ⟨?_, h.pairwise⟩⟩
  · rcases mem_cons.mp hps with rfl | hps
    · by_contra hds
      rw [mem_cons, not_or] at hds
      have hself : Reachable excluded succ [p] p := reachable_cons.mpr (.inl ⟨hx, .refl⟩)
      refine hsafe [p] (by simp) d hd hds.2 (fun hreach => ?_) p hp hkeep hself
      rcases reachable_cons.mp hreach with ⟨-, hpath⟩ | ⟨r, hr, -⟩
      · exact hacyclic d p ⟨hp, hx⟩ hpath
      · cases hr
    · exact mem_cons_of_mem _ (h.up d hd p hp hkeep hps)
  · rintro p hps ⟨hp, hkeep⟩
    exact hnew (h.up x hroot p hp hkeep hps)

include hacyclic in
/-- A search keeps the order. -/
lemma InOrder.dfs (hjoin : NoLateJoin excluded succ keep root) (hdfs : Dfs excluded succ ws s s')
    (hsettled : Settled excluded succ ws s) (hsafe : Safe excluded succ keep root ws s)
    (hroot : ∀ y, Reachable excluded succ ws y → Reachable excluded succ [root] y)
    (h : InOrder excluded succ keep root s) : InOrder excluded succ keep root s' := by
  induction hdfs with
  | nil => exact h
  | skip hx _ ih =>
    refine ih (fun y hy hreach => hsettled y hy (hreach.of_subset (subset_cons_self _ _)))
      (hsafe.skip hsettled hx) (fun y hy => hroot y (hy.of_subset (subset_cons_self _ _))) h
  | @visit x ws s s₁ s' hx hnew hsub _ ih₁ ih₂ =>
    have hxroot := hroot x (reachable_cons.mpr (.inl ⟨hx, .refl⟩))
    have hsettled₁ := hsettled.visit hacyclic hx
    have hs₁ := ih₁ hsettled₁ (hsafe.visit hjoin hxroot hx)
      (fun y hy => hxroot.trans (reflTransGen_of_reachable (reachable_reverse.mp hy)))
      (h.visit hacyclic hsafe hxroot hx hnew)
    obtain ⟨hrest, hself⟩ := hsettled.rest hsub fun z => hsub.mem_of_reachable hacyclic hsettled₁
    exact ih₂ hrest (hsafe.rest ((suffix_cons x s).trans hsub.suffix) hself)
      (fun y hy => hroot y (hy.of_subset (subset_cons_self _ _))) hs₁

/-- In a list in order, what leads to a key is visited before it. -/
lemma mem_of_path {t : List κ} (hleaf : ∀ y, ¬ keep y → succ y = [])
    (h : s.Pairwise fun c p => ¬ (p ∈ succ c ∧ keep p)) (ht : t <:+ s)
    (hclosed : ∀ u ∈ s, ∀ v, Link excluded succ u v → v ∈ s) (hx : x ∈ s) (hy : y ∈ t)
    (hkeep : keep y) (hpath : ReflTransGen (Link excluded succ) x y) : x ∈ t := by
  induction hpath using ReflTransGen.head_induction_on with
  | refl => exact hy
  | @head u v huv hvy ih =>
    have hv := ih (hclosed u hx v huv)
    obtain ⟨a, rfl⟩ := ht
    rcases mem_append.mp hx with hua | hut
    · exfalso
      have hkv : keep v := by
        rcases hvy.cases_head with rfl | ⟨w, hw, -⟩
        · exact hkeep
        · by_contra hnot
          rw [Link, hleaf v hnot] at hw
          exact absurd hw.1 not_mem_nil
      exact (pairwise_append.mp h).2.2 u hua v hv ⟨huv.1, hkv⟩
    · exact hut

include hacyclic in
/-- The keys that a search visits come before their successors exactly if no key joins late. -/
theorem pairwise_dfs_iff (hleaf : ∀ y, ¬ keep y → succ y = []) (h : Dfs excluded succ [root] [] s) :
    (s.Pairwise fun c p => ¬ (p ∈ succ c ∧ keep p)) ↔ NoLateJoin excluded succ keep root := by
  have hsettled : Settled excluded succ [root] [] := fun y hy => absurd hy not_mem_nil
  have hmem : ∀ y, Reachable excluded succ [root] y → y ∈ s := fun y hy =>
    h.mem_of_reachable hacyclic hsettled hy
  have hreach : ∀ y ∈ s, Reachable excluded succ [root] y := fun y hy =>
    (h.mem_or_reachable hy).resolve_left not_mem_nil
  constructor
  · intro horder x hroot l hl c hpath hcx hnot p hp hkeep hpl
    have hclosed : ∀ u ∈ s, ∀ v, Link excluded succ u v → v ∈ s := fun u hu v huv =>
      hmem v ((hreach u hu).trans (.single huv))
    obtain ⟨s₀, s₁, hx₀, hsub, hs₁⟩ := h.exists_visit (hmem x hroot) not_mem_nil
    obtain ⟨l₁, hl₁⟩ := hl
    rw [← hl₁, reverse_append, Dfs.append_iff] at hsub
    obtain ⟨m, hm, hrest⟩ := hsub
    have hms : m <:+ s := hrest.suffix.trans hs₁
    have hs₀ : s₀ <:+ s := ((suffix_cons x s₀).trans hm.suffix).trans hms
    have hck : keep c := by
      by_contra hnot
      rw [hleaf c hnot] at hp
      cases hp
    -- Nothing that is met from the key was visited before it.
    have hbefore : ∀ y, ReflTransGen (Link excluded succ) x y → keep y → y ∉ s₀ :=
      fun y hy hk hys => hx₀ (mem_of_path hleaf horder hs₀ hclosed (hmem x hroot) hys hk hy)
    have hsettled' : Settled excluded succ l.reverse (x :: s₀) := by
      intro y hy hyl z hpath
      rw [reachable_reverse] at hyl
      have hxl : Reachable excluded succ (succ x) y :=
        hyl.of_subset (by rw [← hl₁]; exact subset_append_right _ _)
      rcases mem_cons.mp hy with rfl | hy
      · exact absurd hxl (not_reachable_succ_self hacyclic)
      · have hnk : ¬ keep y := fun hk => hbefore y (reflTransGen_of_reachable hxl) hk hy
        rcases hpath.cases_head with rfl | ⟨w, hw, -⟩
        · exact mem_cons_of_mem _ hy
        · rw [Link, hleaf y hnk] at hw
          exact absurd hw.1 not_mem_nil
    have hpm : p ∈ m := hm.mem_of_reachable hacyclic hsettled' (reachable_reverse.mpr hpl)
    have hcm : c ∉ m := by
      intro hcm
      rcases hm.mem_or_reachable hcm with hc | hc
      · rcases mem_cons.mp hc with heq | hc
        · exact hcx heq
        · exact hbefore c hpath hck hc
      · exact hnot (reachable_reverse.mp hc)
    have hpe : ¬ excluded p := by
      obtain ⟨r, -, hr, hpr⟩ := hpl
      rcases hpr.cases_tail with rfl | ⟨w, -, hw⟩
      · exact hr
      · exact hw.2
    exact hcm (mem_of_path hleaf horder hms hclosed (hmem c (hroot.trans hpath)) hpm hkeep
      (.single ⟨hp, hpe⟩))
  · intro hjoin
    refine (InOrder.dfs hacyclic hjoin h hsettled ?_ (fun y hy => hy)
      ⟨fun d _ p _ _ hp => absurd hp not_mem_nil, .nil⟩).pairwise
    intro w hw d hd _ hnot p _ _ hp
    rcases prefix_cons_iff.mp hw with rfl | ⟨w', rfl, hw'⟩
    · obtain ⟨r, hr, -⟩ := hp
      cases hr
    · rw [prefix_nil.mp hw'] at hnot
      exact hnot hd

/-- A list without repetitions in which no element is related to a later one. -/
lemma pairwise_not_iff_idxOf [DecidableEq κ] {r : κ → κ → Prop} (hnodup : s.Nodup)
    (hirrefl : ∀ x, ¬ r x x) : (s.Pairwise fun c p => ¬ r c p) ↔
      ∀ c ∈ s, ∀ p ∈ s, r c p → s.idxOf p < s.idxOf c := by
  rw [pairwise_iff_getElem]
  constructor
  · intro h c hc p hp hr
    by_contra hle
    rcases Nat.lt_or_eq_of_le (Nat.not_lt.mp hle) with hlt | heq
    · have hnot := h _ _ (idxOf_lt_length_iff.mpr hc) (idxOf_lt_length_iff.mpr hp) hlt
      rw [getElem_idxOf, getElem_idxOf] at hnot
      exact hnot hr
    · rw [idxOf_inj hc] at heq
      exact hirrefl c (heq ▸ hr)
  · intro h i j hi hj hij hr
    have hlt := h _ (getElem_mem hi) _ (getElem_mem hj) hr
    rw [hnodup.idxOf_getElem, hnodup.idxOf_getElem] at hlt
    exact absurd hij (Nat.not_lt.mpr hlt.le)

end Order

end Gyt.PopLoop
