import Gyt.Net.UpdateBatches

/-!
# Runs of the server

The server as a state machine whose steps are uploads of objects, accepted requests to update
references, and the single writes of such a request.  Uploads may come at any time; requests are
serialised by the lock on the references.

`reaches_wireRefsUpdate` connects the machine to the handler.  A run invariant is shown for the
history of metadata (`document_kept`).
-/

namespace Gyt

open RefsPolicy Relation MetaKind

/-- The objects, the references, and the updates of the current request that are still to be
written. -/
structure ServerState where
  store : Store
  refs : RefFiles
  pending : List RefUpdate

section Machine

variable {K : Type} (verifyStrict : K → Bytes → Bytes → Bool) (cfg : ServerConfig K)
  (Allowed : Store → RefFiles → List RefUpdate → Prop)

/-- One step of a server all of whose accepted batches meet the condition `Allowed` in the state in
which they are judged.  A refused request changes nothing and is no step. -/
inductive ServerStep : ServerState → ServerState → Prop where
  | upload {st : ServerState} {store : Store} (h : st.store.Extends store) :
    ServerStep st { st with store := store }
  | request {st : ServerState} {rawQuery : Option Str} {body : Bytes} {us : List RefUpdate}
    (hidle : st.pending = []) (hbody : parseRefUpdates body = .ok us)
    (haccepted : BatchAccepted verifyStrict cfg st.store st.refs rawQuery us)
    (hallowed : Allowed st.store st.refs us) :
    ServerStep st { st with pending := us }
  | write {st : ServerState} {u : RefUpdate} {rest : List RefUpdate}
    (hpending : st.pending = u :: rest) :
    ServerStep st { st with refs := st.refs.applyUpdate u, pending := rest }

/-- The states that a server passes through. -/
abbrev ServerReaches : ServerState → ServerState → Prop :=
  ReflTransGen (ServerStep verifyStrict cfg Allowed)

/-- An update of a batch that was accepted on the way from one state to another. -/
def AcceptedBetween (st st' : ServerState) (u : RefUpdate) : Prop :=
  ∃ st₁ rawQuery us, ServerReaches verifyStrict cfg Allowed st st₁ ∧
    ServerReaches verifyStrict cfg Allowed st₁ st' ∧
    BatchAccepted verifyStrict cfg st₁.store st₁.refs rawQuery us ∧ u ∈ us

variable {verifyStrict cfg Allowed} {s : Store} {fs : RefFiles} {st st' st'' : ServerState}
  {u : RefUpdate}

/-- Pending updates can be written one after the other. -/
lemma reaches_applyUpdates (us : List RefUpdate) :
    ServerReaches verifyStrict cfg Allowed ⟨s, fs, us⟩ ⟨s, fs.applyUpdates us, []⟩ := by
  induction us generalizing fs with
  | nil => exact .refl
  | cons u us ih => exact .head (.write rfl) ih

/-- A request of the handler is a run of the machine. -/
theorem reaches_wireRefsUpdate {rawQuery : Option Str} {body : Bytes}
    (hallowed : ∀ us, parseRefUpdates body = .ok us → Allowed s fs us) :
    ServerReaches verifyStrict cfg Allowed ⟨s, fs, []⟩
      ⟨s, (wireRefsUpdate verifyStrict cfg s fs rawQuery body).2, []⟩ := by
  rcases wireRefsUpdate_cases verifyStrict cfg s fs rawQuery body with
    ⟨-, us, hus, haccepted, hfs⟩ | ⟨-, hfs⟩
  · rw [hfs]
    exact .head (.request rfl hus haccepted (hallowed us hus)) (reaches_applyUpdates us)
  · rw [hfs]

/-- An accepted update stays accepted. -/
theorem AcceptedBetween.step (h : AcceptedBetween verifyStrict cfg Allowed st st' u)
    (hstep : ServerStep verifyStrict cfg Allowed st' st'') :
    AcceptedBetween verifyStrict cfg Allowed st st'' u := by
  obtain ⟨st₁, rawQuery, us, hbefore, hafter, haccepted⟩ := h
  exact ⟨st₁, rawQuery, us, hbefore, hafter.tail hstep, haccepted⟩

/-- An update is accepted before it is written. -/
lemma acceptedBetween_of_pending (hidle : st.pending = [])
    (hrun : ServerReaches verifyStrict cfg Allowed st st') (hu : u ∈ st'.pending) :
    AcceptedBetween verifyStrict cfg Allowed st st' u := by
  induction hrun with
  | refl => simp [hidle] at hu
  | tail hrun hstep ih =>
    cases hstep with
    | upload hext => exact (ih hu).step (.upload hext)
    | request hnone hbody haccepted hallowed =>
      exact ⟨_, _, _, hrun, .single (.request hnone hbody haccepted hallowed), haccepted, hu⟩
    | write hpending => exact (ih (hpending ▸ List.mem_cons_of_mem _ hu)).step (.write hpending)

/-- A run invents no value: what a reference holds after it, it held before, or an update of this
reference that was accepted in the run has brought it. -/
theorem refValue_of_reaches (hidle : st.pending = [])
    (hrun : ServerReaches verifyStrict cfg Allowed st st') {name : Str} {v : ObjectId}
    (hv : refValue st'.refs name = some v) : refValue st.refs name = some v ∨
      ∃ u, AcceptedBetween verifyStrict cfg Allowed st st' u ∧ u.name = name ∧ u.new = v := by
  induction hrun with
  | refl => exact .inl hv
  | tail hrun hstep ih =>
    have hlater := fun h => (ih h).imp_right (Exists.imp fun u => And.imp_left (·.step hstep))
    cases hstep with
    | upload hext => exact hlater hv
    | request => exact hlater hv
    | write hpending =>
      obtain ⟨_, _, _, hbefore, hafter, haccepted, hu⟩ :=
        acceptedBetween_of_pending hidle hrun (hpending ▸ List.mem_cons_self)
      rcases RefFiles.refValue_applyUpdate _ name (haccepted _ hu).name_valid with
        ⟨hname, -, hnew⟩ | hsame
      · -- The written update is the one that the reference now holds.
        exact .inr ⟨_, ⟨_, _, _, hbefore, hafter.tail (.write hpending), haccepted, hu⟩,
          hname.symm, Option.some.inj (hnew.symm.trans hv)⟩
      · exact hlater (hsame ▸ hv)

end Machine

/-! ## The history of metadata -/

/-- Whether both identifiers name documents, and the second keeps what the first has. -/
def Store.DocumentKeeps (s : Store) (k : MetaKind) (old new : ObjectId) : Prop :=
  ∃ d d', s.document k old = some d ∧ s.document k new = some d' ∧ d.Keeps d'

lemma Store.DocumentStep.keeps {s : Store} {k : MetaKind} {old new : ObjectId}
    (h : s.DocumentStep k old new) : s.DocumentKeeps k old new := by
  obtain ⟨d, d', hd, hd', hext⟩ := h
  exact ⟨d, d', hd, hd', hext.keeps⟩

lemma Store.DocumentKeeps.trans {s : Store} {k : MetaKind} {a b c : ObjectId}
    (hab : s.DocumentKeeps k a b) (hbc : s.DocumentKeeps k b c) : s.DocumentKeeps k a c := by
  obtain ⟨d, d', hd, hd', hkeep⟩ := hab
  obtain ⟨d₁, d'', hd₁, hd'', hkeep'⟩ := hbc
  cases hd'.symm.trans hd₁
  exact ⟨d, d'', hd, hd'', hkeep.trans hkeep'⟩

lemma Store.Extends.documentKeeps {s t : Store} {k : MetaKind} {old new : ObjectId}
    (h : s.Extends t) (hkeep : s.DocumentKeeps k old new) : t.DocumentKeeps k old new := by
  obtain ⟨d, d', hd, hd', hkeep⟩ := hkeep
  exact ⟨d, d', h.document hd, h.document hd', hkeep⟩

/-- The batches that keep the history of metadata: the updates of one document extend one another,
and the all-zero identifier is sent only for documents that do not exist. -/
structure MetadataSafe (s : Store) (fs : RefFiles) (us : List RefUpdate) : Prop where
  repeated : ∀ pre u mid u' post k, us = pre ++ u :: (mid ++ u' :: post) → u.name = u'.name →
    (∀ w ∈ mid, w.name ≠ u'.name) → metadataKind u'.name = some k →
      s.DocumentStep k u.new u'.new
  null : ∀ u ∈ us, (metadataKind u.name).isSome → u.new = .zero → refValue fs u.name = none

/-- What holds between the steps of a run: the first pending update of a document keeps what is on
disk, and each later one keeps what the one before it has. -/
structure PendingKeeps (st : ServerState) : Prop where
  valid : ∀ u ∈ st.pending, validateRefName u.name = .ok ()
  first : ∀ pre u post k, st.pending = pre ++ u :: post → (∀ w ∈ pre, w.name ≠ u.name) →
    metadataKind u.name = some k → ∀ v, refValue st.refs u.name = some v →
      st.store.DocumentKeeps k v u.new
  repeated : ∀ pre u mid u' post k, st.pending = pre ++ u :: (mid ++ u' :: post) →
    u.name = u'.name → (∀ w ∈ mid, w.name ≠ u'.name) → metadataKind u'.name = some k →
      st.store.DocumentKeeps k u.new u'.new

section Runs

variable {K : Type} {verifyStrict : K → Bytes → Bytes → Bool} {cfg : ServerConfig K}
  {st st' st₀ st₁ st₂ : ServerState}

/-- Nothing is promised while nothing is pending. -/
lemma PendingKeeps.of_idle (h : st.pending = []) : PendingKeeps st := by
  constructor
  · simp [h]
  · intro pre u post k hp
    simp [h] at hp
  · intro pre u mid u' post k hp
    simp [h] at hp

/-- A write keeps the promise: the written update was the first of its document. -/
lemma PendingKeeps.write (h : PendingKeeps st) {u : RefUpdate} {rest : List RefUpdate}
    (hpending : st.pending = u :: rest) :
    PendingKeeps { st with refs := st.refs.applyUpdate u, pending := rest } := by
  have hvalid : validateRefName u.name = .ok () := h.valid u (by simp [hpending])
  refine ⟨fun w hw => h.valid w (by simp [hpending, hw]), ?_, ?_⟩
  · intro pre u' post k hrest hpre hk v hv
    dsimp only at hrest hv
    subst hrest
    rcases RefFiles.refValue_applyUpdate st.refs u'.name hvalid with
      ⟨hname, -, hvalue⟩ | hsame
    · cases hvalue.symm.trans hv
      exact h.repeated [] u pre u' post k hpending hname.symm hpre hk
    · rw [hsame] at hv
      by_cases hname : u.name = u'.name
      · -- The write failed, so the next update has to keep what is still on disk.
        have hfirst := h.first [] u (pre ++ u' :: post) k hpending (by simp) (hname ▸ hk) v
          (hname ▸ hv)
        exact hfirst.trans (h.repeated [] u pre u' post k hpending hname hpre hk)
      · exact h.first (u :: pre) u' post k (by simp [hpending])
          (List.forall_mem_cons.mpr ⟨hname, hpre⟩) hk v hv
  · intro pre w mid w' post k hrest
    dsimp only at hrest
    exact h.repeated (u :: pre) w mid w' post k (by simp [hpending, hrest])

/-- Every step keeps the promise. -/
theorem PendingKeeps.step (h : PendingKeeps st)
    (hstep : ServerStep verifyStrict cfg MetadataSafe st st') : PendingKeeps st' := by
  cases hstep with
  | upload hext =>
    exact ⟨h.valid,
      fun pre u post k hp hpre hk v hv => hext.documentKeeps (h.first pre u post k hp hpre hk v hv),
      fun pre u mid u' post k hp hn hm hk =>
        hext.documentKeeps (h.repeated pre u mid u' post k hp hn hm hk)⟩
  | request hidle hbody haccepted hsafe =>
    refine ⟨fun u hu => (haccepted u hu).name_valid, fun pre u post k hp hpre hk v hv => ?_,
      fun pre u mid u' post k hp hn hm hk => (hsafe.repeated pre u mid u' post k hp hn hm hk).keeps⟩
    dsimp only at hp hv
    have hu : u ∈ pre ++ u :: post := by simp
    rw [← hp] at hu
    rcases (haccepted u hu).metadata k hk with hzero | ⟨d, hd, hold⟩
    · rw [hsafe.null u hu (by simp [hk]) hzero] at hv
      cases hv
    · obtain ⟨d', hd', hext⟩ := hold v hv
      exact ⟨d', d, hd', hd, hext.keeps⟩
  | write hpending => exact h.write hpending

lemma PendingKeeps.of_reaches (hidle : st.pending = [])
    (hrun : ServerReaches verifyStrict cfg MetadataSafe st st') : PendingKeeps st' := by
  induction hrun with
  | refl => exact .of_idle hidle
  | tail _ hstep ih => exact ih.step hstep

lemma documentKept_step (h : PendingKeeps st)
    (hstep : ServerStep verifyStrict cfg MetadataSafe st st') {k : MetaKind} {name : Str}
    {v : ObjectId} {d : Document} (hk : metadataKind name = some k)
    (hv : refValue st.refs name = some v) (hd : st.store.document k v = some d) :
    ∃ v' d', refValue st'.refs name = some v' ∧ st'.store.document k v' = some d' ∧ d.Keeps d' := by
  cases hstep with
  | upload hext => exact ⟨v, d, hv, hext.document hd, .refl d⟩
  | request _ _ _ _ => exact ⟨v, d, hv, hd, .refl d⟩
  | @write u rest hpending =>
    have hvalid : validateRefName u.name = .ok () := h.valid u (by simp [hpending])
    rcases RefFiles.refValue_applyUpdate st.refs name hvalid with
      ⟨rfl, -, hvalue⟩ | hsame
    · obtain ⟨d₁, d', hd₁, hd', hkeep⟩ := h.first [] u rest k hpending (by simp) hk v hv
      cases hd.symm.trans hd₁
      exact ⟨u.new, d', hvalue, hd', hkeep⟩
    · exact ⟨v, d, hsame.trans hv, hd, .refl d⟩

/-- The history of metadata is only ever appended to: in a run whose batches are all safe, every
later value of a reference keeps the document that the reference held. -/
theorem document_kept (hidle : st₀.pending = [])
    (hbefore : ServerReaches verifyStrict cfg MetadataSafe st₀ st₁)
    (hafter : ServerReaches verifyStrict cfg MetadataSafe st₁ st₂) {k : MetaKind} {name : Str}
    {v : ObjectId} {d : Document} (hk : metadataKind name = some k)
    (hv : refValue st₁.refs name = some v) (hd : st₁.store.document k v = some d) :
    ∃ v' d', refValue st₂.refs name = some v' ∧ st₂.store.document k v' = some d' ∧
      d.Keeps d' := by
  have hinv := PendingKeeps.of_reaches hidle hbefore
  suffices h : PendingKeeps st₂ ∧ ∃ v' d', refValue st₂.refs name = some v' ∧
      st₂.store.document k v' = some d' ∧ d.Keeps d' from h.2
  induction hafter with
  | refl => exact ⟨hinv, v, d, hv, hd, .refl d⟩
  | tail _ hstep ih =>
    obtain ⟨hinv', v', d', hv', hd', hkeep⟩ := ih
    obtain ⟨v'', d'', hv'', hd'', hkeep'⟩ := documentKept_step hinv' hstep hk hv' hd'
    exact ⟨hinv'.step hstep, v'', d'', hv'', hd'', hkeep.trans hkeep'⟩

/-- A batch of one update is safe unless it sends the all-zero identifier. -/
lemma metadataSafe_singleton {s : Store} {fs : RefFiles} {u : RefUpdate} (h : u.new ≠ .zero) :
    MetadataSafe s fs [u] := by
  refine ⟨fun pre w mid w' post k hsplit => ?_, fun w hw _ hzero => ?_⟩
  · have hlen := congrArg List.length hsplit
    simp at hlen
    omega
  · exact absurd (List.mem_singleton.mp hw ▸ hzero) h

end Runs

/-- The references with issue 99 at the given identifier. -/
def issueRefs (id : ObjectId) : RefFiles := ⟨[(MetaKind.issue.refName 99, refContent id)], []⟩

/-- Sending an identifier for issue 99 to a server that has the issue stores the identifier. -/
lemma wireRefsUpdate_issue : (wireRefsUpdate noVerify sampleConfig issueStore ⟨[], []⟩ none
        (encodeRefUpdates [⟨none, .fill 7, issue.refName 99⟩])).2 = issueRefs (.fill 7) ∧
      (wireRefsUpdate noVerify sampleConfig issueStore (issueRefs (.fill 7)) none
        (encodeRefUpdates [⟨none, .zero, issue.refName 99⟩])).2 = issueRefs .zero := by
  decide +kernel

/-- The value of issue 99, in the run that stores it, comes from an accepted update. -/
theorem refValue_of_reaches_issue :
    ∃ u, AcceptedBetween noVerify sampleConfig (fun _ _ _ => True) ⟨issueStore, ⟨[], []⟩, []⟩
      ⟨issueStore, issueRefs (.fill 7), []⟩ u ∧ u.name = MetaKind.issue.refName 99 ∧
        u.new = .fill 7 := by
  have hrun : ServerReaches noVerify sampleConfig (fun _ _ _ => True) ⟨issueStore, ⟨[], []⟩, []⟩
      ⟨issueStore, issueRefs (.fill 7), []⟩ :=
    wireRefsUpdate_issue.1 ▸ reaches_wireRefsUpdate fun _ _ => trivial
  exact (refValue_of_reaches rfl hrun (by decide +kernel)).resolve_left (by decide +kernel)

/-- Storing an issue and then sending the all-zero identifier erases the issue. -/
theorem null_update_erases_issue :
    ServerReaches noVerify sampleConfig (fun _ _ _ => True) ⟨issueStore, ⟨[], []⟩, []⟩
        ⟨issueStore, issueRefs (.fill 7), []⟩ ∧
      ServerReaches noVerify sampleConfig (fun _ _ _ => True)
        ⟨issueStore, issueRefs (.fill 7), []⟩ ⟨issueStore, issueRefs .zero, []⟩ ∧
      refValue (issueRefs (.fill 7)) (MetaKind.issue.refName 99) = some (.fill 7) ∧
      (issueStore.document .issue (.fill 7)).isSome ∧
      refValue (issueRefs .zero) (MetaKind.issue.refName 99) = some .zero ∧
      issueStore.document .issue .zero = none := by
  refine ⟨?_, ?_, by decide +kernel⟩
  · rw [← wireRefsUpdate_issue.1]
    exact reaches_wireRefsUpdate fun _ _ => trivial
  · rw [← wireRefsUpdate_issue.2]
    exact reaches_wireRefsUpdate fun _ _ => trivial

/-- A store with the issue and the issue with two comments. -/
def commentStore : Store :=
  ⟨[(.fill 7, ⟨.blob, issueBlob⟩), (.fill 8, ⟨.blob, issueBlob ++ Utf8.encode
    "[[event]]\nauthor = \"a\"\n[[event]]\nbody = \"b\"\nts = 3\nadd = [\"c\"]\n"⟩)]⟩

/-- Sending first the issue and then the one with the comments stores each of them. -/
lemma wireRefsUpdate_comment : ∀ p ∈ [((⟨[], []⟩ : RefFiles), ObjectId.fill 7),
    (issueRefs (.fill 7), .fill 8)], (wireRefsUpdate noVerify sampleConfig commentStore p.1 none
      (encodeRefUpdates [⟨none, p.2, issue.refName 99⟩])).2 = issueRefs p.2 ∧
    parseRefUpdates (encodeRefUpdates [⟨none, p.2, issue.refName 99⟩]) =
      .ok [⟨none, p.2, issue.refName 99⟩] ∧ p.2 ≠ .zero := by decide +kernel

/-- The invariant at the run that stores issue 99 and then the issue with two comments. -/
theorem document_kept_comment :
    ∃ v d, refValue (issueRefs (.fill 8)) (MetaKind.issue.refName 99) = some v ∧
      commentStore.document .issue v = some d ∧
      ((commentStore.document .issue (.fill 7)).get (by decide +kernel)).Keeps d := by
  have hstep : ∀ p ∈ [((⟨[], []⟩ : RefFiles), ObjectId.fill 7), (issueRefs (.fill 7), .fill 8)],
      ServerReaches noVerify sampleConfig MetadataSafe ⟨commentStore, p.1, []⟩
        ⟨commentStore, issueRefs p.2, []⟩ := by
    intro p hp
    obtain ⟨hupdate, hparse, hne⟩ := wireRefsUpdate_comment p hp
    rw [← hupdate]
    refine reaches_wireRefsUpdate fun us hus => ?_
    cases hparse.symm.trans hus
    exact metadataSafe_singleton hne
  exact document_kept rfl (hstep _ List.mem_cons_self) (hstep _ (List.mem_cons_of_mem _
    List.mem_cons_self)) (metadataKind_refName .issue 99) (by decide +kernel)
    (Option.some_get _).symm

end Gyt
