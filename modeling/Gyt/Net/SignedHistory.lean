import Gyt.Net.ServerRuns
import Gyt.Object.Tag

/-!
# Signed histories

What the signature check of the policy guarantees when a server requires signatures: of one update
of a tag, and of the branches along a whole run of the server.

The check walks from the new value of a reference and passes over what the old value reaches.  It
is inductive along a run as long as the values of the branches are commits that can be read.
-/

namespace Gyt

open RefsPolicy PopLoop List

section Histories

variable {K : Type} (verifyStrict : K → Bytes → Bytes → Bool)

/-- Whether everything that is reached from an object along parent links is a signed commit. -/
def SignedHistory (s : Store) (allowed : List K) (id : ObjectId) : Prop :=
  ∀ y, s.Reaches id y → SignedCommit verifyStrict s allowed y

variable {verifyStrict} {s t : Store} {fs : RefFiles} {mode : Mode} {signRequired : Bool}
  {allowed : List K} {u : RefUpdate} {old : Option ObjectId} {new y : ObjectId}

/-- What is reached from a new value is reached from the old one, or without passing through
anything that is. -/
lemma reachedFrom_or_reachable (h : s.Reaches new y) :
    ReachedFrom s old y ∨ Reachable (ReachedFrom s old) s.parents [new] y := by
  induction h with
  | refl =>
    by_cases hnew : ReachedFrom s old new
    · exact .inl hnew
    · exact .inr ⟨new, mem_singleton_self new, hnew, .refl⟩
  | @tail y z _ hz ih =>
    by_cases hold : ReachedFrom s old z
    · exact .inl hold
    · rcases ih with ⟨o, ho, hreach⟩ | hreach
      · exact .inl ⟨o, ho, hreach.tail hz⟩
      · exact .inr (hreach.step hz hold)

/-- An accepted update brings in signed commits only. -/
lemma RefsPolicy.CommitRefAccepted.signedCommit
    (h : CommitRefAccepted verifyStrict s fs mode true allowed u) (hreach : s.Reaches u.new y)
    (hnew : ¬ ReachedFrom s (refValue fs u.name) y) (hread : s.Readable y) :
    SignedCommit verifyStrict s allowed y := by
  obtain ⟨-, ids, hids, hsigned⟩ := h.signed rfl
  exact hsigned y (((commitsNewSince_spec hids).1 y).mpr
    ⟨(reachedFrom_or_reachable hreach).resolve_left hnew, hread⟩)

/-- An accepted update to a readable commit continues a signed history. -/
lemma RefsPolicy.CommitRefAccepted.signedHistory
    (h : CommitRefAccepted verifyStrict s fs mode true allowed u) (hread : s.Readable u.new)
    (hold : ∀ v, refValue fs u.name = some v → SignedHistory verifyStrict s allowed v) :
    SignedHistory verifyStrict s allowed u.new := by
  intro y hy
  by_cases hfrom : ReachedFrom s (refValue fs u.name) y
  · obtain ⟨o, ho, hreach⟩ := hfrom
    exact hold o ho y hreach
  · obtain ⟨-, ids, hids, -⟩ := h.signed rfl
    have hreach := (reachedFrom_or_reachable hy).resolve_left hfrom
    refine h.signedCommit hy hfrom ?_
    rcases (commitsNewSince_spec hids).2 y hreach with hy' | rfl
    · exact hy'
    · exact hread

/-- A signed history stays as it is when the store grows. -/
lemma SignedHistory.extends (h : SignedHistory verifyStrict s allowed new) (hext : s.Extends t) :
    SignedHistory verifyStrict t allowed new := by
  intro y hy
  have hreach : s.Reaches new y := by
    induction hy with
    | refl => exact .refl
    | @tail y z _ hz ih =>
      obtain ⟨c, hc, -⟩ := h y ih
      exact ih.tail (hext.parents_eq ⟨c, hc⟩ ▸ hz)
  obtain ⟨c, hc, hsigned⟩ := h y hreach
  exact ⟨c, hext.commitRead hc, hsigned⟩

/-! ## Tags -/

lemma metadataKind_of_tags {name : Str} (h : inNamespace "refs/tags/" name = true) :
    metadataKind name = none := by
  obtain ⟨rest, rfl⟩ := isPrefixOf_iff_prefix.mp h
  rfl

lemma metadataKind_of_heads {name : Str} (h : inNamespace "refs/heads/" name = true) :
    metadataKind name = none := by
  obtain ⟨rest, rfl⟩ := isPrefixOf_iff_prefix.mp h
  rfl

/-- The walk over the new commits finds nothing at an object that is not a commit. -/
lemma commitsNewSince_of_not_readable {ids : List ObjectId} (hnew : ¬ s.Readable new)
    (h : commitsNewSince s old new = .ok ids) : ids = [] := by
  refine eq_nil_iff_forall_not_mem.mpr fun y hy => ?_
  obtain ⟨⟨r, hr, -, hpath⟩, hread⟩ := ((commitsNewSince_spec h).1 y).mp hy
  obtain rfl := mem_singleton.mp hr
  rcases hpath.cases_head with rfl | ⟨z, ⟨hz, -⟩, -⟩
  · exact hnew hread
  · exact hnew (Store.readable_of_parents_ne_nil (ne_nil_of_mem hz))

lemma not_readable_of_tag {payload : Bytes} (h : s.get? new = some ⟨.tag, payload⟩) :
    ¬ s.Readable new := by
  rintro ⟨c, hc⟩
  obtain ⟨payload', hget, -⟩ := Store.commitRead_eq_ok.mp hc
  cases h.symm.trans hget

/-- No signature matters for an update to an object that is not a commit. -/
lemma RefsPolicy.Accepted.of_not_readable {K' : Type} {verifyStrict' : K' → Bytes → Bytes → Bool}
    {allowed' : List K'} (h : Accepted verifyStrict s fs mode true allowed u)
    (hnew : ¬ s.Readable u.new) (hne : allowed' ≠ []) :
    Accepted verifyStrict' s fs mode true allowed' u := by
  refine ⟨h.name_valid, h.name_refs, h.target, h.metadata, fun hk => ⟨(h.commit hk).old_eq, ?_⟩⟩
  intro _
  obtain ⟨-, ids, hids, -⟩ := (h.commit hk).signed rfl
  obtain rfl := commitsNewSince_of_not_readable hnew hids
  exact ⟨hne, [], hids, by simp⟩

/-- Following a chain of tags to a commit. -/
inductive Peels (s : Store) : ObjectId → ObjectId → Prop where
  | commit {id : ObjectId} (h : s.Readable id) : Peels s id id
  | tag {id c : ObjectId} {tag : Tag} (h : Tag.read s id = .ok tag) (hc : Peels s tag.target c) :
    Peels s id c

/-- What the signature check says about tags.  An accepted update of a tag brings in signed commits
only, along parent links; an update to a tag object is judged without a look at any signature. -/
theorem tag_update_signed {K' : Type} {verifyStrict' : K' → Bytes → Bytes → Bool}
    {allowed' : List K'} (htags : inNamespace "refs/tags/" u.name = true) (hne : allowed ≠ [])
    (hne' : allowed' ≠ []) :
    ((evaluateWithMode verifyStrict s fs [u] mode true allowed).isClean = true →
        ∀ y, s.Reaches u.new y → s.Readable y → ¬ ReachedFrom s (refValue fs u.name) y →
          SignedCommit verifyStrict s allowed y) ∧
      ((∃ payload, s.get? u.new = some ⟨.tag, payload⟩) →
        ((evaluateWithMode verifyStrict s fs [u] mode true allowed).isClean = true ↔
          (evaluateWithMode verifyStrict' s fs [u] mode true allowed').isClean = true)) := by
  simp only [isClean_iff, forall_mem_singleton]
  constructor
  · intro h y hy hread hfrom
    exact (h.commit (metadataKind_of_tags htags)).signedCommit hy hfrom hread
  · rintro ⟨payload, htag⟩
    have hnew := not_readable_of_tag htag
    exact ⟨fun h => h.of_not_readable hnew hne', fun h => h.of_not_readable hnew hne⟩

end Histories

/-- A repository with an unsigned commit and an annotated tag of it. -/
def tagStore : Store :=
  ⟨[(.fill 1, ⟨.commit, (sampleCommit [] ['x']).encode⟩),
    (.fill 8, ⟨.tag, Tag.encode ⟨.fill 1, .commit, ['v'], ['a'], ['t']⟩⟩)]⟩

def tagUpdate : RefUpdate := ⟨none, .fill 8, "refs/tags/v"⟩

/-- Whether the tag is accepted by a server that requires signatures of given keys, to which no
signature is valid. -/
def tagAccepted (keys : List Unit) : Bool :=
  (evaluateWithMode noVerify tagStore ⟨[], []⟩ [tagUpdate] .fastForward true keys).isClean

/-- The tag of an unsigned commit is accepted. -/
theorem unsigned_tag_accepted :
    tagAccepted [()] = true ∧
      inNamespace "refs/tags/" tagUpdate.name = true ∧
      refValue ⟨[], []⟩ tagUpdate.name = none ∧
      Peels tagStore tagUpdate.new (.fill 1) ∧
      ¬ SignedCommit noVerify tagStore [()] (.fill 1) := by
  refine ⟨by decide +kernel, by decide +kernel, by decide +kernel, ?_, ?_⟩
  · have htag : Tag.read tagStore (.fill 8) =
        .ok ⟨.fill 1, .commit, ['v'], ['a'], ['t']⟩ := by decide +kernel
    exact .tag htag (.commit (by decide +kernel))
  · rintro ⟨c, -, b64, sig, -, -, -, key, -, hkey⟩
    cases hkey

/-- What is said about tags, at the tag of the unsigned commit. -/
theorem tag_update_signed_annotated :
    (tagAccepted [()] = true →
        ∀ y, tagStore.Reaches tagUpdate.new y → tagStore.Readable y →
          ¬ ReachedFrom tagStore (refValue ⟨[], []⟩ tagUpdate.name) y →
            SignedCommit noVerify tagStore [()] y) ∧
      ((∃ payload, tagStore.get? tagUpdate.new = some ⟨.tag, payload⟩) →
        (tagAccepted [()] = true ↔ tagAccepted [(), ()] = true)) :=
  tag_update_signed (by decide +kernel) (by decide) (by decide)

/-! ## Branches -/

/-- The batches that point branches only at commits that can be read. -/
def HeadsReadable (s : Store) (_ : RefFiles) (us : List RefUpdate) : Prop :=
  ∀ u ∈ us, inNamespace "refs/heads/" u.name = true → s.Readable u.new

section Branches

variable {K : Type} {verifyStrict : K → Bytes → Bytes → Bool} {cfg : ServerConfig K}
  {st st' st₀ : ServerState}

/-- What holds between the steps of a run: the branches, and the values that are about to be
written to them, have signed histories. -/
structure HeadsSigned (verifyStrict : K → Bytes → Bytes → Bool) (cfg : ServerConfig K)
    (st : ServerState) : Prop where
  valid : ∀ u ∈ st.pending, validateRefName u.name = .ok ()
  heads : ∀ name v, inNamespace "refs/heads/" name = true → refValue st.refs name = some v →
    SignedHistory verifyStrict st.store cfg.allowed v
  pending : ∀ u ∈ st.pending, inNamespace "refs/heads/" u.name = true →
    SignedHistory verifyStrict st.store cfg.allowed u.new

/-- Every server step keeps the heads signed. -/
theorem HeadsSigned.step (hsign : cfg.signRequired = true) (h : HeadsSigned verifyStrict cfg st)
    (hstep : ServerStep verifyStrict cfg HeadsReadable st st') :
    HeadsSigned verifyStrict cfg st' := by
  cases hstep with
  | upload hext =>
    exact ⟨h.valid, fun name v hname hv => (h.heads name v hname hv).extends hext,
      fun u hu hname => (h.pending u hu hname).extends hext⟩
  | request hidle hbody haccepted hreadable =>
    refine ⟨fun u hu => (haccepted u hu).name_valid, h.heads, fun u hu hname => ?_⟩
    have hcommit := (haccepted u hu).commit (metadataKind_of_heads hname)
    rw [hsign] at hcommit
    exact hcommit.signedHistory (hreadable u hu hname) fun v hv => h.heads u.name v hname hv
  | @write u rest hpending =>
    refine ⟨fun w hw => h.valid w (by simp [hpending, hw]), fun name v hname hv => ?_,
      fun w hw hname => h.pending w (by simp [hpending, hw]) hname⟩
    have hu : u ∈ st.pending := by simp [hpending]
    rcases RefFiles.refValue_applyUpdate st.refs name (h.valid u hu) with ⟨rfl, -, hvalue⟩ | hsame
    · cases hvalue.symm.trans hv
      exact h.pending u hu hname
    · exact h.heads name v hname (hsame.symm.trans hv)

/-- In a run of a server that requires signatures, from no references on and with branches pointed
only at commits that can be read, everything reached from a branch is a signed commit. -/
theorem branches_signed (hsign : cfg.signRequired = true) (hidle : st₀.pending = [])
    (hempty : ∀ name, inNamespace "refs/" name = true → st₀.refs.get? name = none)
    (hrun : ServerReaches verifyStrict cfg HeadsReadable st₀ st) {name : Str} {v : ObjectId}
    (hname : inNamespace "refs/heads/" name = true) (hv : refValue st.refs name = some v) :
    ∀ y, st.store.Reaches v y → SignedCommit verifyStrict st.store cfg.allowed y := by
  have hstart : HeadsSigned verifyStrict cfg st₀ := by
    refine ⟨by simp [hidle], fun name v hname hv => ?_, by simp [hidle]⟩
    have hrefs : inNamespace "refs/" name = true := by
      obtain ⟨rest, rfl⟩ := isPrefixOf_iff_prefix.mp hname
      rfl
    have hfile := get?_isSome_of_refValue hv
    rw [hempty name hrefs] at hfile
    cases hfile
  have hinv : HeadsSigned verifyStrict cfg st := by
    clear hv
    induction hrun with
    | refl => exact hstart
    | tail _ hstep ih => exact ih.step hsign hstep
  exact hinv.heads name v hname hv

end Branches

/-- A signature check that every signature passes. -/
def anyVerify : Unit → Bytes → Bytes → Bool := fun _ _ _ => true

/-- A server that requires signatures. -/
def signedConfig : ServerConfig Unit := ⟨false, true, [()]⟩

/-- A repository with one commit, which is signed. -/
def signedStore (parents : List ObjectId) : Store :=
  ⟨[(.fill 1, ⟨.commit, Commit.encode { sampleCommit parents ['x'] with
    signature := some (List.replicate 86 'A' ++ ['=', '=']) }⟩)]⟩

/-- The references with the branch at the given identifier. -/
def branchRefs (id : ObjectId) : RefFiles := ⟨[(sampleBranch, refContent id)], []⟩

/-- The request that sends an identifier for the branch. -/
def sendBranch (id : ObjectId) : Bytes := encodeRefUpdates [⟨none, id, sampleBranch⟩]

/-- A branch is first sent to the all-zero identifier, and then to a signed commit whose parent is
the all-zero identifier: both are accepted, and the parent does not exist. -/
theorem null_parent_unsigned :
    ServerReaches anyVerify signedConfig (fun _ _ _ => True)
        ⟨signedStore [.zero], ⟨[], []⟩, []⟩ ⟨signedStore [.zero], branchRefs (.fill 1), []⟩ ∧
      refValue (branchRefs (.fill 1)) sampleBranch = some (.fill 1) ∧
      (signedStore [.zero]).Reaches (.fill 1) .zero ∧
      ¬ SignedCommit anyVerify (signedStore [.zero]) [()] .zero := by
  have hnull : (wireRefsUpdate anyVerify signedConfig (signedStore [.zero]) ⟨[], []⟩ none
      (sendBranch .zero)).2 = branchRefs .zero := by decide +kernel
  have hcommit : (wireRefsUpdate anyVerify signedConfig (signedStore [.zero]) (branchRefs .zero)
      none (sendBranch (.fill 1))).2 = branchRefs (.fill 1) := by decide +kernel
  refine ⟨?_, by decide +kernel, .single (by decide +kernel), ?_⟩
  · refine .trans (hnull ▸ reaches_wireRefsUpdate fun _ _ => trivial) ?_
    exact hcommit ▸ reaches_wireRefsUpdate fun _ _ => trivial
  · rintro ⟨c, hc, -⟩
    have hread : ¬ (signedStore [.zero]).Readable .zero := by decide +kernel
    exact hread ⟨c, hc⟩

/-- The invariant at the run that creates a branch at a signed commit. -/
theorem branches_signed_create :
    refValue (branchRefs (.fill 1)) sampleBranch = some (.fill 1) ∧
      ∀ y, (signedStore []).Reaches (.fill 1) y →
        SignedCommit anyVerify (signedStore []) [()] y := by
  have hcreate : (wireRefsUpdate anyVerify signedConfig (signedStore []) ⟨[], []⟩ none
      (sendBranch (.fill 1))).2 = branchRefs (.fill 1) := by decide +kernel
  have hparse : parseRefUpdates (sendBranch (.fill 1)) =
      .ok [⟨none, .fill 1, sampleBranch⟩] := by decide +kernel
  have hreadable : ∀ us, parseRefUpdates (sendBranch (.fill 1)) = .ok us →
      HeadsReadable (signedStore []) ⟨[], []⟩ us := by
    intro us hus u hu _
    cases hparse.symm.trans hus
    obtain rfl := mem_singleton.mp hu
    decide +kernel
  have hrun : ServerReaches anyVerify signedConfig HeadsReadable ⟨signedStore [], ⟨[], []⟩, []⟩
      ⟨signedStore [], branchRefs (.fill 1), []⟩ := hcreate ▸ reaches_wireRefsUpdate hreadable
  have hvalue : refValue (branchRefs (.fill 1)) sampleBranch = some (.fill 1) := by decide +kernel
  refine ⟨hvalue, branches_signed rfl rfl (fun _ _ => rfl) hrun ?_ hvalue⟩
  show inNamespace "refs/heads/" sampleBranch = true
  decide +kernel

end Gyt
