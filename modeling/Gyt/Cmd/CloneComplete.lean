import Gyt.Net.WireCodecs
import Gyt.Object.Closure

/-!
# Completeness of the transfer

After a transfer that succeeds the client has all objects that the advertised references need, if
the server sends what it is asked for.  Objects that were there before, without what they mention,
make no difference: an identifier of the queue is walked whether it was on disk or was just
received.

The queue forgets what was in it, so the invariant `Walking` carries a set of identifiers that were
put into it at some time.  Each of them is still waiting or has been walked (`Settled`): it is on
disk, and what it mentions is in the set too.  A depth is recorded for an identifier only when it is
put into the queue, so that skipping an identifier because of its depth loses nothing.
-/

namespace Gyt

open Command Wire List Option WalkState Store

namespace Store

variable {s : Store} {id : ObjectId} {o : Object}

section

variable (hget : s.get? id = some o)

include hget

lemma mentions_of_commit {c : Commit} (hkind : o.kind = .commit)
    (hdec : Commit.decode o.payload = .ok c) : s.mentions id = c.tree :: c.parents := by
  obtain ⟨kind, payload⟩ := o
  cases hkind
  exact mentions_of_commitRead (commitRead_eq_ok.mpr ⟨payload, hget, hdec⟩)

lemma mentions_of_tree {entries : List TreeEntry}
    (hkind : o.kind = .tree) (hdec : Tree.decode o.payload = .ok entries) :
    s.mentions id = entries.map (·.hash) := by
  obtain ⟨kind, payload⟩ := o
  cases hkind
  exact mentions_of_treeRead (Tree.read_eq_ok.mpr ⟨payload, hget, hdec⟩)

lemma mentions_of_tag {g : Tag} (hkind : o.kind = .tag)
    (hdec : Tag.decode o.payload = .ok g) : s.mentions id = [g.target] := by
  obtain ⟨kind, payload⟩ := o
  cases hkind
  exact mentions_of_tagRead (tagRead_eq_ok.mpr ⟨payload, hget, hdec⟩)

lemma mentions_of_blob (hkind : o.kind = .blob) : s.mentions id = [] := by
  obtain ⟨kind, payload⟩ := o
  cases hkind
  rw [mentions, hget]

end

end Store

/-! ## The invariant -/

/-- An identifier has been walked, as far as the server knows it: the object is on disk, and what it
mentions has been put into the queue. -/
def Settled (served : Store) (queued : Set ObjectId) (w : WalkState) (id : ObjectId) : Prop :=
  ∀ o, served.get? id = some o → w.objects.get? id = some o ∧ ∀ y ∈ served.mentions id, y ∈ queued

/-- The state of a transfer from a server with some objects: the identifiers that were put into the
queue so far, and those of the current round that are still to be walked. -/
structure Walking (served : Store) (queued : Set ObjectId) (pending : List ObjectId)
    (w : WalkState) : Prop where
  handled : ∀ id ∈ queued, id ∈ w.wants ∨ id ∈ pending ∨ Settled served queued w id
  fetched : ∀ id ∈ pending, id ∈ w.downloaded ∨ served.get? id = none
  depth : ∀ id, (w.commitDepth.lookup id).isSome → id ∈ queued
  walked : ∀ id, (w.walkedAt.lookup id).isSome → Settled served queued w id
  onDisk : ∀ id ∈ w.downloaded, (w.objects.get? id).isSome
  agrees : ∀ id o o', w.objects.get? id = some o → served.get? id = some o' → o = o'
  payloads : ∀ id payload o', w.commitPayloads.lookup id = some payload →
    served.get? id = some o' → o' = ⟨.commit, payload⟩

variable {served : Store} {queued queued' : Set ObjectId} {pending : List ObjectId}
  {w w' : WalkState} {id : ObjectId}

lemma Settled.mono (h : Settled served queued w id) (hqueued : queued ⊆ queued')
    (hobjects : w.Grows w') : Settled served queued' w' id := by
  intro o hget
  obtain ⟨hdisk, hmentions⟩ := h o hget
  exact ⟨hobjects id o hdisk, fun y hy => hqueued (hmentions y hy)⟩

/-- What is walked with the result that its mentions are in the queue is no longer pending. -/
lemma Walking.settle (h : Walking served queued (id :: pending) w)
    (hsettled : Settled served queued w id) : Walking served queued pending w where
  handled x hx := by
    rcases h.handled x hx with hwants | hpending | hx'
    · exact .inl hwants
    · rcases mem_cons.mp hpending with rfl | hpending
      · exact .inr (.inr hsettled)
      · exact .inr (.inl hpending)
    · exact .inr (.inr hx')
  fetched x hx := h.fetched x (mem_cons_of_mem id hx)
  depth := h.depth
  walked := h.walked
  onDisk := h.onDisk
  agrees := h.agrees
  payloads := h.payloads

section

variable (h : Walking served queued pending w)

include h

/-- Marking a commit as walked. -/
lemma Walking.mark (hsettled : Settled served queued w id)
    (d : ℕ) : Walking served queued pending { w with walkedAt := (id, d) :: w.walkedAt } where
  handled := h.handled
  fetched := h.fetched
  depth := h.depth
  walked x hx := by
    by_cases hxid : x = id
    · rw [hxid]
      exact hsettled
    · rw [lookup_cons, beq_false_of_ne hxid] at hx
      exact h.walked x hx
  onDisk := h.onDisk
  agrees := h.agrees
  payloads := h.payloads

/-- Putting an identifier into the queue, with a depth recorded for at most this identifier. -/
lemma Walking.enqueue (id : ObjectId) (depths : List (ObjectId × ℕ))
    (hdepths : ∀ x, (depths.lookup x).isSome → x = id ∨ (w.commitDepth.lookup x).isSome) :
    Walking served (insert id queued) pending
      ({ w with commitDepth := depths }.enqueueForFetch id) := by
  have hsub : queued ⊆ insert id queued := Set.subset_insert id queued
  have hsettled : ∀ x, Settled served queued w x →
      Settled served (insert id queued) ({ w with commitDepth := depths }.enqueueForFetch id) x :=
    fun x hx => hx.mono hsub (.refl w.objects)
  have hdownloaded : ∀ x ∈ w.downloaded,
      x ∈ ({ w with commitDepth := depths }.enqueueForFetch id).downloaded := by
    intro x hx
    unfold enqueueForFetch
    dsimp only
    split_ifs
    · exact mem_cons_of_mem id hx
    · exact hx
  constructor
  · rintro x (rfl | hx)
    · exact .inl (mem_append_right _ (mem_singleton.mpr rfl))
    · rcases h.handled x hx with hwants | hpending | hx'
      · exact .inl (mem_append_left _ hwants)
      · exact .inr (.inl hpending)
      · exact .inr (.inr (hsettled x hx'))
  · exact fun x hx => (h.fetched x hx).imp_left (hdownloaded x)
  · intro x hx
    rcases hdepths x hx with rfl | hold
    · exact Set.mem_insert x queued
    · exact hsub (h.depth x hold)
  · exact fun x hx => hsettled x (h.walked x hx)
  · intro x hx
    unfold enqueueForFetch at hx
    dsimp only at hx
    split_ifs at hx with hnew
    · rcases mem_cons.mp hx with rfl | hx
      · exact (Bool.and_eq_true_iff.mp hnew).2
      · exact h.onDisk x hx
    · exact h.onDisk x hx
  · exact h.agrees
  · exact h.payloads

/-- The queue after an identifier was put into it at some depth, or passed over because of a shorter
path to it: then it was in the queue before. -/
lemma Walking.enqueueParent (nextD : ℕ) (p : ObjectId) :
    ∃ queued', queued ⊆ queued' ∧ {p} ⊆ queued' ∧
      Walking served queued' pending (w.enqueueParent nextD p) := by
  unfold WalkState.enqueueParent
  by_cases hshorter : (w.commitDepth.lookup p).all (nextD < ·)
  · rw [if_pos hshorter]
    refine ⟨insert p queued, Set.subset_insert p queued, ?_, ?_⟩
    · exact Set.singleton_subset_iff.mpr (Set.mem_insert p queued)
    · apply h.enqueue p
      intro x hx
      by_cases hxp : x = p
      · exact .inl hxp
      · rw [lookup_cons, beq_false_of_ne hxp] at hx
        exact .inr hx
  · rw [if_neg hshorter]
    refine ⟨queued, Set.Subset.rfl, Set.singleton_subset_iff.mpr (h.depth p ?_), h⟩
    by_contra hnone
    rw [not_isSome_iff_eq_none.mp hnone] at hshorter
    exact hshorter rfl

end

/-- The queue after a loop that puts some identifiers into it at each step. -/
lemma Walking.foldl {α : Type} {f : WalkState → α → WalkState} (ids : α → Set ObjectId)
    (hf : ∀ queued w a, Walking served queued pending w →
      ∃ queued', queued ⊆ queued' ∧ ids a ⊆ queued' ∧ Walking served queued' pending (f w a))
    (l : List α) (h : Walking served queued pending w) :
    ∃ queued', queued ⊆ queued' ∧ (∀ a ∈ l, ids a ⊆ queued') ∧
      Walking served queued' pending (l.foldl f w) := by
  induction l generalizing queued w with
  | nil => exact ⟨queued, Set.Subset.rfl, fun a ha => absurd ha not_mem_nil, h⟩
  | cons a l ih =>
    obtain ⟨first, hfirst, ha, hstep⟩ := hf queued w a h
    obtain ⟨last, hlast, hl, hrest⟩ := ih hstep
    refine ⟨last, hfirst.trans hlast, ?_, hrest⟩
    intro b hb
    rcases mem_cons.mp hb with rfl | hb
    · exact ha.trans hlast
    · exact hl b hb

lemma Walking.enqueueForFetch (h : Walking served queued pending w) (id : ObjectId) :
    Walking served (insert id queued) pending (w.enqueueForFetch id) :=
  h.enqueue id w.commitDepth fun _ hx => .inr hx

lemma Walking.enqueueCommit (h : Walking served queued pending w) (d : ℕ) (c : Commit) :
    ∃ queued', queued ⊆ queued' ∧ (∀ y ∈ c.tree :: c.parents, y ∈ queued') ∧
      Walking served queued' pending (w.enqueueCommit d c) := by
  obtain ⟨queued', hqueued, hparents, hwalking⟩ := (h.enqueueForFetch c.tree).foldl
    (fun p => {p}) (fun _ _ p hw => hw.enqueueParent (min (d + 1) (2 ^ 32 - 1)) p) c.parents
  refine ⟨queued', (Set.subset_insert c.tree queued).trans hqueued, ?_, hwalking⟩
  intro y hy
  rcases mem_cons.mp hy with rfl | hy
  · exact hqueued (Set.mem_insert _ queued)
  · exact Set.singleton_subset_iff.mp (hparents y hy)

/-! ## The rounds -/

/-- Putting the tree and the parents of a commit into the queue does not look at the commits that
were walked. -/
lemma WalkState.enqueueCommit_walkedAt (w : WalkState) (marks : List (ObjectId × ℕ)) (d : ℕ)
    (c : Commit) : { w with walkedAt := marks }.enqueueCommit d c =
      { w.enqueueCommit d c with walkedAt := marks } := by
  let mark (w : WalkState) : WalkState := { w with walkedAt := marks }
  have hparent : ∀ w p, (mark w).enqueueParent (min (d + 1) (2 ^ 32 - 1)) p =
      mark (w.enqueueParent (min (d + 1) (2 ^ 32 - 1)) p) := by
    intro w p
    unfold mark enqueueParent
    dsimp only
    split_ifs <;> rfl
  have hfold : c.parents.foldl (enqueueParent (min (d + 1) (2 ^ 32 - 1)))
      (mark (w.enqueueForFetch c.tree)) = mark (w.enqueueCommit d c) := foldl_hom mark hparent
  exact hfold

/-- What walking an object does to the queue. -/
lemma walkOne_eq_ok (hrun : (walkOne id).run w = some (.ok (), w')) :
    ∃ o, walkedObject id w = .ok o ∧ ((o.kind = .blob ∧ w' = w) ∨
        (∃ entries, o.kind = .tree ∧ Tree.decode o.payload = .ok entries ∧
          w' = entries.foldl (fun w e => w.enqueueForFetch e.hash) w) ∨
        (∃ t, o.kind = .tag ∧ Tag.decode o.payload = .ok t ∧ w' = w.enqueueTarget t.target) ∨
        ((w.walkedAt.lookup id).isSome ∧ w' = w) ∨
        ∃ c d, o.kind = .commit ∧ Commit.decode o.payload = .ok c ∧
          w' = { w.enqueueCommit d c with walkedAt := (id, d) :: w.walkedAt }) := by
  unfold walkOne at hrun
  rw [run_gets_bind] at hrun
  obtain ⟨o, hread, h⟩ := lift_bind_eq_ok.mp hrun
  refine ⟨o, hread, ?_⟩
  split at h
  · rename_i hkind
    cases h
    exact .inl ⟨hkind, rfl⟩
  · rename_i hkind
    obtain ⟨entries, hdec, hact⟩ := lift_bind_eq_ok.mp h
    cases hact
    exact .inr (.inl ⟨entries, hkind, hdec, rfl⟩)
  · rename_i hkind
    obtain ⟨t, hdec, hact⟩ := lift_bind_eq_ok.mp h
    cases hact
    exact .inr (.inr (.inl ⟨t, hkind, hdec, rfl⟩))
  · rename_i hkind
    rw [run_gets_bind, run_gets_bind] at h
    split_ifs at h with hwalked
    · cases h
      refine .inr (.inr (.inr (.inl ⟨?_, rfl⟩)))
      by_contra hnone
      rw [not_isSome_iff_eq_none.mp hnone] at hwalked
      exact absurd hwalked Bool.false_ne_true
    · rw [run_bind_of_ok rfl] at h
      obtain ⟨c, hdec, hact⟩ := lift_bind_eq_ok.mp h
      cases hact
      exact .inr (.inr (.inr (.inr ⟨c, _, hkind, hdec, enqueueCommit_walkedAt _ _ _ c⟩)))

lemma Walking.walkedObject_eq {o o' : Object} (h : Walking served queued pending w)
    (hdownloaded : id ∈ w.downloaded) (hread : walkedObject id w = .ok o)
    (hget : served.get? id = some o') : w.objects.get? id = some o' ∧ o = o' := by
  obtain ⟨disk, hdisk⟩ := isSome_iff_exists.mp (h.onDisk id hdownloaded)
  have hsame : disk = o' := h.agrees id disk o' hdisk hget
  subst hsame
  refine ⟨hdisk, ?_⟩
  unfold walkedObject at hread
  split at hread
  · rename_i payload hpayload
    rw [h.payloads id payload disk hpayload hget]
    exact (Except.ok.inj hread).symm
  · have hdisk' := read_eq_ok.mp hread
    rw [hdisk] at hdisk'
    exact (some.inj hdisk').symm

/-- Walking an identifier of the round settles it. -/
lemma Walking.walkOne (h : Walking served queued (id :: pending) w)
    (hdownloaded : id ∈ w.downloaded) (hrun : (walkOne id).run w = some (.ok (), w')) :
    ∃ queued', queued ⊆ queued' ∧ Walking served queued' pending w' := by
  have hgrows : w.Grows w' := within_walkOne id w _ w' hrun
  obtain ⟨o, hread, hcases⟩ := walkOne_eq_ok hrun
  -- it is settled in a state with the same objects or more, once what it mentions is in the queue
  have hsettled : ∀ {queued'}, (∀ o', served.get? id = some o' → o = o' →
      ∀ y ∈ served.mentions id, y ∈ queued') → Settled served queued' w' id := by
    intro queued' hmentions o' hget
    obtain ⟨hdisk, heq⟩ := h.walkedObject_eq hdownloaded hread hget
    exact ⟨hgrows id o' hdisk, hmentions o' hget heq⟩
  rcases hcases with ⟨hkind, rfl⟩ | ⟨entries, hkind, hdec, rfl⟩ | ⟨t, hkind, hdec, rfl⟩ |
    ⟨hwalked, rfl⟩ | ⟨c, d, hkind, hdec, rfl⟩
  · refine ⟨queued, Set.Subset.rfl, h.settle (hsettled ?_)⟩
    rintro o' hget rfl y hy
    rw [mentions_of_blob hget hkind] at hy
    exact absurd hy not_mem_nil
  · obtain ⟨queued', hqueued, hentries, hwalking⟩ := h.foldl (fun e : TreeEntry => {e.hash})
      (fun queued w e hw => ⟨insert e.hash queued, Set.subset_insert e.hash queued,
        Set.singleton_subset_iff.mpr (Set.mem_insert e.hash queued), hw.enqueueForFetch e.hash⟩)
      entries
    refine ⟨queued', hqueued, hwalking.settle (hsettled ?_)⟩
    rintro o' hget rfl y hy
    rw [mentions_of_tree hget hkind hdec] at hy
    obtain ⟨e, he, rfl⟩ := mem_map.mp hy
    exact Set.singleton_subset_iff.mp (hentries e he)
  · obtain ⟨queued', hqueued, htarget, hwalking⟩ := h.enqueueParent 0 t.target
    refine ⟨queued', hqueued, Walking.settle hwalking (hsettled ?_)⟩
    rintro o' hget rfl y hy
    rw [mentions_of_tag hget hkind hdec] at hy
    rw [mem_singleton.mp hy]
    exact Set.singleton_subset_iff.mp htarget
  · exact ⟨queued, Set.Subset.rfl, h.settle (h.walked id hwalked)⟩
  · obtain ⟨queued', hqueued, hmentioned, hwalking⟩ := h.enqueueCommit d c
    have hid : Settled served queued' { w.enqueueCommit d c with walkedAt :=
      (id, d) :: w.walkedAt } id := by
      apply hsettled
      rintro o' hget rfl y hy
      rw [mentions_of_commit hget hkind hdec] at hy
      exact hmentioned y hy
    have hmarks : (w.enqueueCommit d c).walkedAt = w.walkedAt := by
      have hkept := congrArg walkedAt (w.enqueueCommit_walkedAt w.walkedAt d c)
      exact hkept
    refine ⟨queued', hqueued, ?_⟩
    rw [← hmarks] at hid ⊢
    exact (hwalking.settle hid).mark hid d

/-- The objects after one was received: it is new, or there was one of this identifier. -/
lemma WalkState.get?_receive (w : WalkState) (id x : ObjectId) (o : Object) :
    (w.receive id o).objects.get? x = (w.objects.get? x).or (if x = id then some o else none) := by
  unfold receive
  dsimp only
  by_cases hknown : (w.objects.get? id).isSome
  · rw [if_pos hknown]
    by_cases hx : x = id
    · obtain ⟨disk, hdisk⟩ := isSome_iff_exists.mp hknown
      rw [hx, hdisk, some_or]
    · rw [if_neg hx, or_none]
  · rw [if_neg hknown, get?, lookup_append]
    by_cases hx : x = id
    · rw [hx, if_pos rfl, lookup_cons_self, get?]
    · rw [if_neg hx, lookup_cons, beq_false_of_ne hx, get?, lookup_nil]

lemma Walking.receive {o : Object} (h : Walking served queued pending w)
    (hsame : ∀ o', served.get? id = some o' → o = o') :
    Walking served queued pending (w.receive id o) where
  handled x hx := by
    rcases h.handled x hx with hwants | hpending | hx'
    · exact .inl hwants
    · exact .inr (.inl hpending)
    · exact .inr (.inr (hx'.mono Set.Subset.rfl (w.grows_receive id o)))
  fetched x hx := (h.fetched x hx).imp_left (mem_cons_of_mem id)
  depth := h.depth
  walked x hx := (h.walked x hx).mono Set.Subset.rfl (w.grows_receive id o)
  onDisk x hx := by
    rw [w.get?_receive]
    rcases mem_cons.mp hx with rfl | hx
    · rw [if_pos rfl, isSome_or, isSome_some, Bool.or_true]
    · rw [isSome_or, h.onDisk x hx, Bool.true_or]
  agrees x o₁ o' hget hserved := by
    rw [w.get?_receive] at hget
    rcases or_eq_some_iff.mp hget with hdisk | ⟨-, hnew⟩
    · exact h.agrees x o₁ o' hdisk hserved
    · obtain ⟨rfl, rfl⟩ : x = id ∧ o = o₁ := by simpa using hnew
      exact hsame o' hserved
  payloads x payload o' hlookup hserved := by
    unfold WalkState.receive at hlookup
    dsimp only at hlookup
    by_cases hcommit : o.kind = .commit ∧ x = id
    · obtain ⟨hkind, rfl⟩ := hcommit
      rw [if_pos hkind, lookup_cons_self] at hlookup
      rw [← hsame o' hserved, ← hkind, ← some.inj hlookup]
    · apply h.payloads x payload o' _ hserved
      split_ifs at hlookup with hkind
      · rw [lookup_cons, beq_false_of_ne fun hx => hcommit ⟨hkind, hx⟩] at hlookup
        exact hlookup
      · exact hlookup

section Transfer

variable {hashBytes : Hash} {xz : Xz} {server : WireServer} {entries : List PackEntry}
  {requested : List ObjectId}

/-- What storing an entry does. -/
lemma receiveEntry_eq_ok {entry : PackEntry}
    (hrun : (receiveEntry hashBytes xz requested entry).run w = some (.ok (), w')) :
    ∃ raw o, Compress.decode xz entry.bytes = .ok raw ∧ parseRaw raw = .ok o ∧
      w' = w.receive (hashBytes raw) o := by
  unfold receiveEntry at hrun
  obtain ⟨raw, hraw, hrun₁⟩ := lift_bind_eq_ok.mp hrun
  obtain ⟨_, -, hrun₂⟩ := lift_bind_eq_ok.mp hrun₁
  obtain ⟨o, hparse, hrun₃⟩ := lift_bind_eq_ok.mp hrun₂
  obtain ⟨_, -, hrun₄⟩ := lift_bind_eq_ok.mp hrun₃
  cases hrun₄
  exact ⟨raw, o, hraw, hparse, rfl⟩

/-- The entries of an answer are objects of the server, where it has objects of their identifiers.
-/
def Genuine (hashBytes : Hash) (xz : Xz) (served : Store) (entries : List PackEntry) : Prop :=
  ∀ e ∈ entries, ∀ raw, Compress.decode xz e.bytes = .ok raw →
    ∀ o, served.get? (hashBytes raw) = some o → parseRaw raw = .ok o

/-- An answer has an entry for every object of the server that was asked for. -/
def Covers (hashBytes : Hash) (xz : Xz) (served : Store) (ids : List ObjectId)
    (entries : List PackEntry) : Prop :=
  ∀ id ∈ ids, (served.get? id).isSome →
    ∃ e ∈ entries, ∃ raw, Compress.decode xz e.bytes = .ok raw ∧ hashBytes raw = id

/-- Storing the entries of an answer. -/
lemma Walking.receiveEntries (h : Walking served queued pending w)
    (hgenuine : Genuine hashBytes xz served entries)
    (hrun : (entries.forM (receiveEntry hashBytes xz requested)).run w = some (.ok (), w')) :
    Walking served queued pending w' ∧ w'.wants = w.wants ∧ w.downloaded ⊆ w'.downloaded ∧
      ∀ e ∈ entries, ∀ raw, Compress.decode xz e.bytes = .ok raw →
        hashBytes raw ∈ w'.downloaded := by
  induction entries generalizing w with
  | nil =>
    cases hrun
    exact ⟨h, rfl, Subset.refl _, fun e he => absurd he not_mem_nil⟩
  | cons e entries ih =>
    obtain ⟨_, w₁, hentry, hrest⟩ := seq_eq_ok.mp hrun
    obtain ⟨raw, o, hraw, hparse, rfl⟩ := receiveEntry_eq_ok hentry
    have hsame : ∀ o', served.get? (hashBytes raw) = some o' → o = o' := by
      intro o' hget
      have hparse' := hgenuine e mem_cons_self raw hraw o' hget
      rw [hparse] at hparse'
      exact Except.ok.inj hparse'
    obtain ⟨hwalking, hwants, hdownloaded, hentries⟩ :=
      ih (h.receive hsame) (fun e' he' => hgenuine e' (mem_cons_of_mem e he')) hrest
    refine ⟨hwalking, hwants, fun x hx => hdownloaded (mem_cons_of_mem _ hx), ?_⟩
    intro e' he' raw' hraw'
    rcases mem_cons.mp he' with rfl | he'
    · rw [hraw] at hraw'
      cases hraw'
      exact hdownloaded mem_cons_self
    · exact hentries e' he' raw' hraw'

/-- A server that has some objects and answers each request with those of them that it asks for. -/
structure AnswersFrom (hashBytes : Hash) (xz : Xz) (server : WireServer) (served : Store) :
    Prop where
  genuine : ∀ n ids reason body entries,
    server.objectsWant n (encodeWants ids) = .ok (200, reason, body) →
    parsePackfile xz body = .ok entries → Genuine hashBytes xz served entries
  covers : ∀ n ids reason body entries,
    server.objectsWant n (encodeWants ids) = .ok (200, reason, body) →
    parsePackfile xz body = .ok entries → Covers hashBytes xz served ids entries

/-- After the request of a round, what is in the queue is on disk, if the server has it. -/
lemma Walking.fetchWants (h : Walking served queued [] w)
    (hanswers : AnswersFrom hashBytes xz server served)
    (hrun : (fetchWants hashBytes xz server).run w = some (.ok (), w')) :
    Walking served queued [] w' ∧ ∀ id ∈ w'.wants, id ∈ w'.downloaded ∨ served.get? id = none := by
  unfold Gyt.fetchWants at hrun
  rw [run_gets_bind] at hrun
  have hmem : ∀ id ∈ w.wants, id ∈ w.downloaded ∨
      id ∈ (w.wants.filter (!w.downloaded.contains ·)).eraseDups := by
    intro id hid
    by_cases hdown : id ∈ w.downloaded
    · exact .inl hdown
    · refine .inr (mem_eraseDups.mpr (mem_filter.mpr ⟨hid, ?_⟩))
      rw [Bool.not_eq_true', contains_eq_mem, decide_eq_false hdown]
  split_ifs at hrun with hnone
  · cases hrun
    refine ⟨h, fun id hid => .inl ((hmem id hid).resolve_right ?_)⟩
    rw [hnone]
    exact not_mem_nil
  · obtain ⟨⟨status, reason, body⟩, w₁, hact, hrun₁⟩ := seq_eq_ok.mp hrun
    obtain ⟨_, hstatus, hrun₂⟩ := lift_bind_eq_ok.mp hrun₁
    obtain ⟨entries, hentries, hrun₃⟩ := lift_bind_eq_ok.mp hrun₂
    obtain rfl : status = 200 := ensure_eq_ok.mp hstatus
    obtain ⟨hanswer, rfl⟩ := Prod.mk.inj (some.inj hact)
    have hw₁ : Walking served queued [] { w with requests := w.requests + 1 } :=
      ⟨h.handled, h.fetched, h.depth, h.walked, h.onDisk, h.agrees, h.payloads⟩
    obtain ⟨hwalking, hwants, hdownloaded, hreceived⟩ := hw₁.receiveEntries
      (hanswers.genuine _ _ _ _ _ hanswer hentries) hrun₃
    refine ⟨hwalking, fun id hid => ?_⟩
    rw [hwants] at hid
    rcases hmem id hid with hdown | hasked
    · exact .inl (hdownloaded hdown)
    · by_cases hserved : (served.get? id).isSome
      · obtain ⟨e, he, raw, hraw, rfl⟩ :=
          hanswers.covers _ _ _ _ _ hanswer hentries id hasked hserved
        exact .inl (hreceived e he raw hraw)
      · exact .inr (not_isSome_iff_eq_none.mp hserved)

/-- Walking an identifier of the round, or passing it over if the server has no object for it. -/
lemma Walking.walkWant (h : Walking served queued (id :: pending) w)
    (hrun : (walkWant id).run w = some (.ok (), w')) :
    ∃ queued', queued ⊆ queued' ∧ Walking served queued' pending w' := by
  unfold Gyt.walkWant at hrun
  rw [run_gets_bind] at hrun
  split_ifs at hrun with hdownloaded
  · exact h.walkOne (contains_iff_mem.mp hdownloaded) hrun
  · cases hrun
    have hnone : served.get? id = none := by
      apply (h.fetched id mem_cons_self).resolve_left
      exact fun hmem => hdownloaded (contains_iff_mem.mpr hmem)
    refine ⟨queued, Set.Subset.rfl, h.settle ?_⟩
    intro o hget
    rw [hnone] at hget
    cases hget

lemma Walking.walkBatch {batch : List ObjectId} (h : Walking served queued batch w)
    (hrun : (batch.forM Gyt.walkWant).run w = some (.ok (), w')) :
    ∃ queued', queued ⊆ queued' ∧ Walking served queued' [] w' := by
  induction batch generalizing queued w with
  | nil =>
    cases hrun
    exact ⟨queued, Set.Subset.rfl, h⟩
  | cons id batch ih =>
    obtain ⟨_, w₁, hfirst, hrest⟩ := seq_eq_ok.mp hrun
    obtain ⟨first, hsub, hwalking⟩ := h.walkWant hfirst
    obtain ⟨last, hsub', hwalking'⟩ := ih hwalking hrest
    exact ⟨last, hsub.trans hsub', hwalking'⟩

/-- The rounds end when all that was put into the queue has been walked. -/
lemma Walking.walkRounds {fuel : ℕ} (h : Walking served queued [] w)
    (hanswers : AnswersFrom hashBytes xz server served)
    (hrun : (walkRounds hashBytes xz server fuel).run w = some (.ok (), w')) :
    ∃ queued', queued ⊆ queued' ∧ ∀ id ∈ queued', Settled served queued' w' id := by
  induction fuel generalizing queued w with
  | zero => cases hrun
  | succ fuel ih =>
    unfold Gyt.walkRounds at hrun
    rw [run_gets_bind] at hrun
    split_ifs at hrun with hempty
    · cases hrun
      refine ⟨queued, Set.Subset.rfl, fun id hid => ?_⟩
      rcases h.handled id hid with hwants | hpending | hsettled
      · rw [hempty] at hwants
        exact absurd hwants not_mem_nil
      · exact absurd hpending not_mem_nil
      · exact hsettled
    · obtain ⟨_, w₁, hfetch, hrun₁⟩ := seq_eq_ok.mp hrun
      obtain ⟨hwalking, hfetched⟩ := h.fetchWants hanswers hfetch
      rw [run_bind_of_ok rfl] at hrun₁
      -- the queue becomes the list of identifiers that this round walks
      have hbatch : Walking served queued w₁.wants { w₁ with wants := [] } := by
        refine ⟨fun id hid => ?_, hfetched, hwalking.depth, hwalking.walked, hwalking.onDisk,
          hwalking.agrees, hwalking.payloads⟩
        rcases hwalking.handled id hid with hwants | hpending | hsettled
        · exact .inr (.inl hwants)
        · exact absurd hpending not_mem_nil
        · exact .inr (.inr hsettled)
      obtain ⟨_, w₂, hwalk, hrun₂⟩ := seq_eq_ok.mp hrun₁
      obtain ⟨next, hsub, hnext⟩ := hbatch.walkBatch hwalk
      obtain ⟨last, hsub', hlast⟩ := ih hnext hrun₂
      exact ⟨last, hsub.trans hsub', hlast⟩

/-- Before the first round the values of the references are in the queue. -/
lemma walking_start {s : Store}
    (hagree : ∀ id o o', s.get? id = some o → served.get? id = some o' → o = o')
    (serverRefs : List RefEntry) :
    ∃ queued, (∀ r ∈ serverRefs, isUserVisibleRef r.name → r.id ∈ queued) ∧
      Walking served queued [] (.start s serverRefs) := by
  have hempty : Walking served ∅ [] ⟨s, [], [], [], [], [], 0, 0⟩ :=
    ⟨nofun, nofun, nofun, nofun, nofun, hagree, nofun⟩
  have hseed : ∀ queued w (r : RefEntry), Walking served queued [] w →
      ∃ queued', queued ⊆ queued' ∧ {x | isUserVisibleRef r.name ∧ x = r.id} ⊆ queued' ∧
        Walking served queued' [] (w.seedRef r) := by
    intro queued w r hw
    unfold seedRef
    by_cases hvisible : isUserVisibleRef r.name
    · rw [if_pos hvisible]
      refine ⟨insert r.id queued, Set.subset_insert r.id queued, ?_, hw.enqueue r.id _ ?_⟩
      · rintro x ⟨-, rfl⟩
        exact Set.mem_insert r.id queued
      · intro x hx
        by_cases hxr : x = r.id
        · exact .inl hxr
        · split_ifs at hx
          · exact .inr hx
          · rw [lookup_cons, beq_false_of_ne hxr] at hx
            exact .inr hx
    · rw [if_neg hvisible]
      exact ⟨queued, Set.Subset.rfl, fun x hx => absurd hx.1 hvisible, hw⟩
  obtain ⟨queued, -, hrefs, hwalking⟩ := hempty.foldl _ hseed serverRefs
  exact ⟨queued, fun r hr hvisible => hrefs r hr ⟨hvisible, rfl⟩, hwalking⟩

/-- After a successful transfer from a server with a closed set of objects, the client has all
objects that the references which it transfers need.  The objects that it had before may be any part
of those of the server, besides others. -/
theorem walkAndFetch_complete {s s' : Store} {fuel n : ℕ} {serverRefs : List RefEntry}
    (hclosed : served.Closed) (hanswers : AnswersFrom hashBytes xz server served)
    (hrefs : ∀ r ∈ serverRefs, isUserVisibleRef r.name → r.id ∈ served.ids)
    (hagree : ∀ id o o', s.get? id = some o → served.get? id = some o' → o = o')
    (hrun : walkAndFetch hashBytes xz server fuel serverRefs s = some (.ok n, s')) :
    ∀ r ∈ serverRefs, isUserVisibleRef r.name → ∀ id, served.Needs r.id id →
      ∃ o, served.get? id = some o ∧ s'.get? id = some o := by
  intro r hr hvisible id hneeds
  obtain ⟨queued, hqueued, hstart⟩ := walking_start hagree serverRefs
  unfold walkAndFetch at hrun
  obtain ⟨⟨result, w⟩, hrounds, hresult⟩ := map_eq_some_iff.mp hrun
  obtain ⟨hok, rfl⟩ := Prod.mk.inj hresult
  cases result with
  | error e => cases hok
  | ok u =>
    obtain ⟨last, hlast, hsettled⟩ := hstart.walkRounds hanswers hrounds
    have hmem : id ∈ last ∧ id ∈ served.ids := by
      induction hneeds with
      | refl => exact ⟨hlast (hqueued r hr hvisible), hrefs r hr hvisible⟩
      | tail _ hstep ih =>
        obtain ⟨o, hget⟩ := isSome_iff_exists.mp (Store.mem_ids_iff.mp ih.2)
        exact ⟨(hsettled _ ih.1 o hget).2 _ hstep, hclosed _ ih.2 _ hstep⟩
    obtain ⟨o, hget⟩ := isSome_iff_exists.mp (Store.mem_ids_iff.mp hmem.2)
    exact ⟨o, hget, (hsettled id hmem.1 o hget).1⟩

end Transfer

/-! ## A small transfer -/

/-- A list of wanted objects can be read back. -/
lemma encodeWants_injective : Function.Injective encodeWants := by
  intro ids ids' h
  have hread := parseWants_encodeWants ids
  rw [h, parseWants_encodeWants] at hread
  exact (Except.ok.inj hread).symm

/-- The identifier of an object, for the hash of the samples. -/
def sampleIdOf (o : Object) : ObjectId := sampleHash (buildRaw o.kind o.payload)

def sampleLeaf : Object := ⟨.blob, [7]⟩

/-- A tree with the file. -/
def sampleListing : Object := ⟨.tree, Tree.encode [⟨modeFile, [0x61], sampleIdOf sampleLeaf⟩]⟩

/-- A commit of the tree. -/
def sampleTip : Object where
  kind := .commit
  payload := Commit.encode
    { tree := sampleIdOf sampleListing, parents := [], authors := [['a']], committer := ['a'],
      aiAssists := [], reviewers := [], signature := none, message := ['m'] }

def sampleServed (objects : List Object) : Store := ⟨objects.map fun o => (sampleIdOf o, o)⟩

/-- The objects of the commit without the file. -/
def samplePartial : Store := sampleServed [sampleTip, sampleListing]

def sampleFull : Store := sampleServed [sampleTip, sampleListing, sampleLeaf]

/-- The branch at the commit. -/
def sampleHeads : List RefEntry := [⟨"refs/heads/main", sampleIdOf sampleTip⟩]

/-- The file as an entry of an answer. -/
def sampleSent : PackEntry := ⟨.zero, Compress.encode plainXz (buildRaw .blob [7])⟩

/-- The answer with the file. -/
def sampleAnswer : Bytes :=
  packfileVersionRaw :: (Index.toLeBytes 4 sampleSent.bytes.length ++ sampleSent.bytes)

/-- A server that answers the request for the file only. -/
def sampleWire : WireServer where
  infoRefs := .error (.net [])
  objectsWant _ body :=
    if body = encodeWants [sampleIdOf sampleLeaf] then .ok (200, [], sampleAnswer)
    else .error (.net [])

lemma answersFrom_sampleWire : AnswersFrom sampleHash plainXz sampleWire sampleFull := by
  have hanswer : ∀ {n ids reason body entries},
      sampleWire.objectsWant n (encodeWants ids) = .ok (200, reason, body) →
      parsePackfile plainXz body = .ok entries →
      ids = [sampleIdOf sampleLeaf] ∧ entries = [sampleSent] := by
    intro n ids reason body entries hresponse hparse
    unfold sampleWire at hresponse
    dsimp only at hresponse
    split_ifs at hresponse with hasked
    cases hresponse
    refine ⟨encodeWants_injective hasked, ?_⟩
    have hbody : parsePackfile plainXz sampleAnswer = .ok [sampleSent] := by decide +kernel
    rw [hbody] at hparse
    exact (Except.ok.inj hparse).symm
  have hdecode : Compress.decode plainXz sampleSent.bytes = .ok (buildRaw .blob [7]) := by
    decide +kernel
  constructor
  · intro n ids reason body entries hresponse hparse e he raw hraw o hget
    obtain ⟨-, rfl⟩ := hanswer hresponse hparse
    rw [mem_singleton.mp he, hdecode] at hraw
    cases hraw
    have hleaf : sampleFull.get? (sampleHash (buildRaw .blob [7])) = some sampleLeaf := by
      decide +kernel
    rw [hleaf] at hget
    cases hget
    decide +kernel
  · intro n ids reason body entries hresponse hparse id hid _
    obtain ⟨rfl, rfl⟩ := hanswer hresponse hparse
    exact ⟨sampleSent, mem_singleton.mpr rfl, _, hdecode, (mem_singleton.mp hid).symm⟩

/-- An earlier transfer left the commit and its tree but not the file; the next one gets the file.
-/
theorem walkAndFetch_complete_partial :
    samplePartial.get? (sampleIdOf sampleLeaf) = none ∧
      ∃ n s', walkAndFetch sampleHash plainXz sampleWire 4 sampleHeads samplePartial =
          some (.ok n, s') ∧
        ∃ o, sampleFull.get? (sampleIdOf sampleLeaf) = some o ∧
          s'.get? (sampleIdOf sampleLeaf) = some o := by
  have hsome : ∃ p ∈ walkAndFetch sampleHash plainXz sampleWire 4 sampleHeads samplePartial,
      p.1.toOption.isSome := by decide +kernel
  obtain ⟨⟨result, s'⟩, hrun, hresult⟩ := hsome
  cases result with
  | error e => cases hresult
  | ok n =>
    have hextends : samplePartial.Extends sampleFull :=
      Store.extends_append _ [(sampleIdOf sampleLeaf, sampleLeaf)]
    have hneeds : sampleFull.Needs (sampleIdOf sampleTip) (sampleIdOf sampleLeaf) := by
      apply Relation.ReflTransGen.tail
      · apply Relation.ReflTransGen.single
        show sampleIdOf sampleListing ∈ _
        decide +kernel
      · decide +kernel
    refine ⟨by decide +kernel, n, s', hrun, ?_⟩
    apply walkAndFetch_complete (by decide +kernel) answersFrom_sampleWire _ _ hrun
      ⟨"refs/heads/main", sampleIdOf sampleTip⟩ (mem_singleton.mpr rfl) (by decide) _ hneeds
    · decide +kernel
    · intro id o o' hlocal hserved
      rw [hextends id o hlocal] at hserved
      exact some.inj hserved

end Gyt
