import Gyt.Net.RefsUpdate

/-!
# Properties of accepted batches

What holds of the references when the policy accepts a batch of updates, and exactly when: that the
client knew the values it replaces, that every write is a step forward, that the references name
objects of the right kind, and that metadata can be read back.

The policy judges every update against the references before the batch, passes updates that state no
old value, and takes the all-zero identifier for a deletion, which the handler then writes like any
other identifier.  Each of the conditions below names the updates that fall through one of these
gaps.
-/

namespace Gyt

open RefsPolicy RefFiles Option

/-! ## A small repository -/

def sampleCommit (parents : List ObjectId) (message : Str) : Commit where
  tree := .fill 9
  parents := parents
  authors := [['a']]
  committer := ['a']
  aiAssists := []
  reviewers := []
  signature := none
  message := message

/-- Four commits: `2` and `4` follow `1`, and `3` is unrelated. -/
def sampleStore : Store :=
  ⟨[(.fill 1, ⟨.commit, (sampleCommit [] ['x']).encode⟩),
    (.fill 2, ⟨.commit, (sampleCommit [.fill 1] ['y']).encode⟩),
    (.fill 3, ⟨.commit, (sampleCommit [] ['z']).encode⟩),
    (.fill 4, ⟨.commit, (sampleCommit [.fill 1] ['w']).encode⟩)]⟩

/-- The name of the branch of the small repository. -/
def sampleBranch : Str := "refs/heads/m"

/-- The references of the small repository: one branch, at commit `1`. -/
def sampleRefs : RefFiles := ⟨[(sampleBranch, refContent (.fill 1))], []⟩

/-- A server that asks for no signatures and grants no force. -/
def sampleConfig : ServerConfig Unit := ⟨false, false, []⟩

/-- The signature check of a server that never uses it. -/
def noVerify : Unit → Bytes → Bytes → Bool := fun _ _ _ => false

/-- A batch that moves the branch forward. -/
def forwardUpdates : List RefUpdate := [⟨some (.fill 1), .fill 2, sampleBranch⟩]

section Batches

variable {K : Type} {verifyStrict : K → Bytes → Bytes → Bool} {cfg : ServerConfig K} {s : Store}
  {fs : RefFiles} {mode : Mode} {signRequired : Bool} {allowed : List K} {u : RefUpdate}
  {us : List RefUpdate} {rawQuery : Option Str} {body : Bytes}

lemma isMetadataRef_eq_false {name : Str} :
    isMetadataRef name = false ↔ metadataKind name = none := by
  rw [← Bool.not_eq_true, isMetadataRef_iff, eq_none_iff_forall_ne_some]
  exact not_exists

/-! ## Compare and swap -/

/-- Whether a client that updates a reference knows what the reference holds. -/
def KnowsOld (fs : RefFiles) (u : RefUpdate) : Prop :=
  u.old = refValue fs u.name ∧ (u.old = none ↔ fs.get? u.name = none)

/-- In a batch accepted without force, the clients know the old values of the references outside
the metadata namespaces exactly if no update that claims to create a reference names one that
exists. -/
theorem forall_knowsOld_iff (hmode : mode = .fastForward ∨ mode = .forceWithLease)
    (hclean : (evaluateWithMode verifyStrict s fs us mode signRequired allowed).isClean = true) :
    (∀ u ∈ us, isMetadataRef u.name = false → KnowsOld fs u) ↔
      ∀ u ∈ us, isMetadataRef u.name = false → u.old = none → fs.get? u.name = none := by
  have haccepted := isClean_iff.mp hclean
  refine ⟨fun h u hu hmeta hold => (h u hu hmeta).2.mp hold, fun h u hu hmeta => ?_⟩
  cases hold : u.old with
  | none =>
    have hfile := h u hu hmeta hold
    have hvalue : refValue fs u.name = none := by
      by_contra hne
      obtain ⟨id, hid⟩ := ne_none_iff_exists'.mp hne
      simpa [hfile] using get?_isSome_of_refValue hid
    exact ⟨hold.trans hvalue.symm, fun _ => hfile, fun _ => hold⟩
  | some old =>
    have hforce : mode ≠ .force := by rcases hmode with rfl | rfl <;> decide
    have hcommit := (haccepted u hu).commit (isMetadataRef_eq_false.mp hmeta)
    have hvalue := (hcommit.old_eq old hold hforce).1
    have hfile := get?_isSome_of_refValue hvalue
    refine ⟨hold.trans hvalue.symm, fun hnone => ?_, fun hnone => ?_⟩
    · rw [hold] at hnone; cases hnone
    · rw [hnone] at hfile; cases hfile

/-- The branch of the small repository is overwritten by an unrelated commit. -/
theorem create_overwrites_branch :
    (evaluateWithMode noVerify sampleStore sampleRefs [⟨none, .fill 3, sampleBranch⟩]
        .fastForward false []).isClean = true ∧
      isMetadataRef sampleBranch = false ∧
      refValue sampleRefs sampleBranch = some (.fill 1) ∧
      ¬ KnowsOld sampleRefs ⟨none, .fill 3, sampleBranch⟩ ∧
      refValue (sampleRefs.applyUpdates [⟨none, .fill 3, sampleBranch⟩]) sampleBranch =
        some (.fill 3) := by
  refine ⟨by decide +kernel, by decide +kernel, by decide +kernel, fun h => ?_, by decide +kernel⟩
  exact absurd h.1 (by decide +kernel)

/-- The characterisation at a batch that moves the branch of the small repository forward. -/
theorem forall_knowsOld_iff_forward :
    (∀ u ∈ forwardUpdates, isMetadataRef u.name = false → KnowsOld sampleRefs u) ↔
      ∀ u ∈ forwardUpdates, isMetadataRef u.name = false → u.old = none →
        sampleRefs.get? u.name = none :=
  forall_knowsOld_iff (.inl rfl)
    (show (evaluateWithMode noVerify sampleStore sampleRefs _ .fastForward false []).isClean = true
      by decide +kernel)

/-! ## Steps forward -/

/-- Whether a new value of a reference follows an old one: a document extends the old one, and any
other value descends from the old one. -/
def StepForward (s : Store) (name : Str) (old new : ObjectId) : Prop :=
  match metadataKind name with
  | some k => s.DocumentStep k old new
  | none => s.Reaches new old

/-- Whether every write of a batch is a step forward from the value just before it. -/
def MovesForward (s : Store) (fs : RefFiles) (us : List RefUpdate) : Prop :=
  ∀ pre u post, us = pre ++ u :: post → (fs.applyUpdates pre).canWrite u.name = true →
    ∀ v, refValue (fs.applyUpdates pre) u.name = some v → StepForward s u.name v u.new

/-- Whether an update says nothing about what it replaces: a document is replaced by the all-zero
identifier, or another reference is claimed to be created. -/
def RefUpdate.Unchecked (u : RefUpdate) : Prop :=
  match metadataKind u.name with
  | some _ => u.new = .zero
  | none => u.old = none

/-- The batches whose updates fit together: an update follows the one before it of the same
reference, and an unchecked update follows the value on disk. -/
structure Composable (s : Store) (fs : RefFiles) (us : List RefUpdate) : Prop where
  repeated : ∀ pre u mid u' post, us = pre ++ u :: (mid ++ u' :: post) → u.name = u'.name →
    (∀ w ∈ mid, w.name ≠ u'.name) → (fs.applyUpdates pre).canWrite u.name = true →
      StepForward s u'.name u.new u'.new
  unchecked : ∀ pre u post, us = pre ++ u :: post → (∀ w ∈ pre, w.name ≠ u.name) →
    u.Unchecked → fs.canWrite u.name = true → ∀ v, refValue fs u.name = some v →
      StepForward s u.name v u.new

/-- An accepted update that is not unchecked follows the value on disk. -/
lemma stepForward_of_accepted
    (h : Accepted verifyStrict s fs .fastForward signRequired allowed u) (hu : ¬ u.Unchecked)
    {v : ObjectId} (hv : refValue fs u.name = some v) : StepForward s u.name v u.new := by
  unfold RefUpdate.Unchecked at hu
  unfold StepForward
  cases hk : metadataKind u.name with
  | some k =>
    rw [hk] at hu
    obtain ⟨d, hd, hold⟩ := (h.metadata k hk).resolve_left hu
    obtain ⟨d', hd', hext⟩ := hold v hv
    exact ⟨d', d, hd', hd, hext⟩
  | none =>
    rw [hk] at hu
    obtain ⟨old, hold⟩ := ne_none_iff_exists'.mp hu
    obtain ⟨hcur, hanc⟩ := (h.commit hk).old_eq old hold (by decide)
    cases hcur.symm.trans hv
    exact reaches_of_isAncestor (hanc rfl)

/-- Every write of a batch accepted in fast-forward mode is a step forward exactly if its updates
fit together. -/
theorem movesForward_iff_composable
    (hmode : requestedMode cfg rawQuery = .fastForward)
    (hok : (wireRefsUpdate verifyStrict cfg s fs rawQuery body).1.status = 200)
    (hbody : parseRefUpdates body = .ok us) :
    MovesForward s fs us ↔ Composable s fs us := by
  obtain ⟨us', hus', haccepted, -⟩ := wireRefsUpdate_accepted hok
  cases hbody.symm.trans hus'
  have hvalid : ∀ u ∈ us, validateRefName u.name = .ok () := fun u hu => (haccepted u hu).name_valid
  constructor
  · intro h
    refine ⟨fun pre u mid u' post hus hname hmid hw => ?_, fun pre u post hus hpre _ hw v hv => ?_⟩
    · -- The earlier update is what the later one finds.
      have hu : u ∈ us := by simp [hus]
      have hvalue : refValue (fs.applyUpdates (pre ++ u :: mid)) u'.name = some u.new := by
        rw [applyUpdates_append, applyUpdates_cons, refValue_applyUpdates_of_notMem hmid, ← hname,
          refValue_applyUpdate_self (hvalid u hu) hw]
      have hw' : (fs.applyUpdates (pre ++ u :: mid)).canWrite u'.name = true := by
        rw [applyUpdates_append, applyUpdates_cons, ← hname]
        have hself := refValue_applyUpdate_self (hvalid u hu) hw
        exact canWrite_applyUpdates (get?_isSome_of_refValue hself) (canWrite_applyUpdate_self hw)
      exact h (pre ++ u :: mid) u' post (by simp [hus]) hw' u.new hvalue
    · refine h pre u post hus (canWrite_applyUpdates (get?_isSome_of_refValue hv) hw) v ?_
      rwa [refValue_applyUpdates_of_notMem hpre]
  · intro h pre u post hus hw v hv
    by_cases hnamed : ∃ w ∈ pre, w.name = u.name
    · obtain ⟨pre', w, mid, rfl, hname, hmid⟩ := exists_last_named hnamed
      rw [applyUpdates_append, applyUpdates_cons] at hw hv
      have hw' : (fs.applyUpdates pre').canWrite w.name = true :=
        hname ▸ canWrite_of_applyUpdate (canWrite_of_applyUpdates hw)
      rw [refValue_applyUpdates_of_notMem hmid, ← hname,
        refValue_applyUpdate_self (hvalid w (by simp [hus])) hw'] at hv
      cases hv
      exact h.repeated pre' w mid u post (by simp [hus]) hname hmid hw'
    · push Not at hnamed
      rw [refValue_applyUpdates_of_notMem hnamed] at hv
      by_cases hun : u.Unchecked
      · exact h.unchecked pre u post hus hnamed hun (canWrite_of_applyUpdates hw) v hv
      · exact stepForward_of_accepted (hmode ▸ haccepted u (by simp [hus])) hun hv

/-- Two updates of one branch, to two commits that both follow its value before the batch. -/
def siblingUpdates : List RefUpdate := forwardUpdates ++ [⟨some (.fill 1), .fill 4, sampleBranch⟩]

/-- Sending updates to the server of the small repository. -/
def sendUpdates (updates : List RefUpdate) : Response × RefFiles :=
  wireRefsUpdate noVerify sampleConfig sampleStore sampleRefs none (encodeRefUpdates updates)

/-- Both updates are accepted, and the second one drops the commit that the first one brought in. -/
theorem sibling_update_drops_commit :
    requestedMode sampleConfig none = .fastForward ∧
      (sendUpdates siblingUpdates).1.status = 200 ∧
      parseRefUpdates (encodeRefUpdates siblingUpdates) = .ok siblingUpdates ∧
      ¬ MovesForward sampleStore sampleRefs siblingUpdates := by
  refine ⟨by decide +kernel, by decide +kernel, by decide +kernel, fun h => ?_⟩
  have hstep := h forwardUpdates _ [] rfl (by decide +kernel) (.fill 2) (by decide +kernel)
  have hkind : metadataKind sampleBranch = none := by decide +kernel
  rw [StepForward, hkind] at hstep
  exact not_reaches_of_isAncestor (by decide +kernel) hstep

/-- The characterisation at a batch that moves the branch of the small repository forward. -/
theorem movesForward_iff_composable_forward :
    MovesForward sampleStore sampleRefs forwardUpdates ↔
      Composable sampleStore sampleRefs forwardUpdates :=
  movesForward_iff_composable
    (show requestedMode sampleConfig none = .fastForward by decide +kernel)
    (show (wireRefsUpdate noVerify sampleConfig sampleStore sampleRefs none
      (encodeRefUpdates forwardUpdates)).1.status = 200 by decide +kernel)
    (by decide +kernel)

/-! ## Targets -/

/-- Whether every reference names a stored object. -/
def RefsResolve (s : Store) (fs : RefFiles) : Prop :=
  ∀ name, inNamespace "refs/" name = true → (fs.get? name).isSome →
    ∃ id obj, refValue fs name = some id ∧ s.get? id = some obj

/-- Whether every reference names a stored object of a kind that its namespace allows, and none the
all-zero identifier. -/
def RefsWellTyped (s : Store) (fs : RefFiles) : Prop :=
  ∀ name, inNamespace "refs/" name = true → (fs.get? name).isSome →
    ∃ id, refValue fs name = some id ∧ id ≠ .zero ∧ RightKind s name id

/-- The batches that leave every reference well typed: no reference ends at the all-zero identifier,
and the references that are not written are of the right kind already. -/
structure KeepsTyped (s : Store) (fs : RefFiles) (us : List RefUpdate) : Prop where
  written : ∀ pre u post, us = pre ++ u :: post → (∀ w ∈ post, w.name ≠ u.name) →
    (fs.applyUpdates pre).canWrite u.name = true → u.new ≠ .zero
  unwritten : ∀ name, inNamespace "refs/" name = true →
    (∀ u ∈ us, u.name ≠ name) ∨ fs.canWrite name = false →
      ∀ id obj, refValue fs name = some id → s.get? id = some obj →
        id ≠ .zero ∧ obj.kind ∈ targetKinds name

/-- After an accepted batch, on references that named stored objects, every reference is well typed
exactly if the batch writes no all-zero identifier and the other references were of the right kind
before. -/
theorem refsWellTyped_iff_keepsTyped (hresolve : RefsResolve s fs)
    (hok : (wireRefsUpdate verifyStrict cfg s fs rawQuery body).1.status = 200)
    (hbody : parseRefUpdates body = .ok us) :
    RefsWellTyped s (wireRefsUpdate verifyStrict cfg s fs rawQuery body).2 ↔
      KeepsTyped s fs us := by
  obtain ⟨us', hus', haccepted, hfs⟩ := wireRefsUpdate_accepted hok
  cases hbody.symm.trans hus'
  rw [hfs]
  -- A file that is as before satisfies the property if its object has the right kind.
  have hunwritten : ∀ name, (fs.applyUpdates us).get? name = fs.get? name →
      refValue (fs.applyUpdates us) name = refValue fs name := fun name h => refValue_congr h
  constructor
  · intro h
    refine ⟨fun pre u post hus hpost hw => ?_, fun name hrefs hcase id obj hid hobj => ?_⟩
    · have hu := haccepted u (by simp [hus])
      rcases applyUpdates_last hu.name_valid hpost with ⟨-, hvalue⟩ | ⟨hw', -⟩
      · rw [← hus] at hvalue
        obtain ⟨id, hid, hzero, -⟩ := h u.name hu.name_refs (get?_isSome_of_refValue hvalue)
        cases hvalue.symm.trans hid
        exact hzero
      · rw [hw] at hw'; cases hw'
    · have hsame : (fs.applyUpdates us).get? name = fs.get? name := by
        rcases hcase with hnot | hw
        · exact get?_applyUpdates_of_notMem hnot
        · refine get?_applyUpdates_of_not_canWrite (Bool.eq_false_iff.mpr fun hw' => ?_)
          rw [canWrite_of_applyUpdates hw'] at hw
          cases hw
      have hvalue := (hunwritten name hsame).trans hid
      obtain ⟨id', hid', hzero, obj', hobj', hkind⟩ := h name hrefs (get?_isSome_of_refValue hvalue)
      cases hvalue.symm.trans hid'
      cases hobj.symm.trans hobj'
      exact ⟨hzero, hkind⟩
  · intro h name hrefs hfile
    -- It is enough to know that the file is unchanged and falls under `unwritten`.
    have hkept : (fs.applyUpdates us).get? name = fs.get? name →
        ((∀ u ∈ us, u.name ≠ name) ∨ fs.canWrite name = false) →
        ∃ id, refValue (fs.applyUpdates us) name = some id ∧ id ≠ .zero ∧ RightKind s name id := by
      intro hsame hcase
      obtain ⟨id, obj, hid, hobj⟩ := hresolve name hrefs (hsame ▸ hfile)
      obtain ⟨hzero, hkind⟩ := h.unwritten name hrefs hcase id obj hid hobj
      exact ⟨id, (hunwritten name hsame).trans hid, hzero, obj, hobj, hkind⟩
    by_cases hnamed : ∃ w ∈ us, w.name = name
    · obtain ⟨pre, u, post, hus, rfl, hpost⟩ := exists_last_named hnamed
      have hu := haccepted u (by simp [hus])
      rcases applyUpdates_last hu.name_valid hpost with ⟨hw, hvalue⟩ | ⟨hw, hsame⟩
      · have hzero := h.written pre u post hus hpost hw
        exact ⟨u.new, hus ▸ hvalue, hzero, hu.target.resolve_left hzero⟩
      · rw [← hus] at hsame
        refine hkept hsame (.inr (Bool.eq_false_iff.mpr fun hw' => ?_))
        rw [canWrite_applyUpdates (hsame ▸ hfile) hw'] at hw
        cases hw
    · push Not at hnamed
      exact hkept (get?_applyUpdates_of_notMem hnamed) (.inl hnamed)

lemma sampleRefs_resolve : RefsResolve sampleStore sampleRefs := by
  intro name _ hfile
  have hname : name = sampleBranch := by
    by_contra hne
    have hnone : sampleRefs.get? name = none := by
      simp [sampleRefs, get?, List.lookup_cons, beq_eq_false_iff_ne.mpr hne]
    rw [hnone] at hfile
    cases hfile
  subst hname
  exact ⟨.fill 1, _, by decide +kernel, rfl⟩

/-- The batch that sends the all-zero identifier for the branch of the small repository. -/
def nullUpdates : List RefUpdate := [⟨none, .zero, sampleBranch⟩]

/-- The all-zero identifier is accepted and stored as the value of the branch. -/
theorem null_update_dangles :
    RefsResolve sampleStore sampleRefs ∧
      (sendUpdates nullUpdates).1.status = 200 ∧
      refValue (sendUpdates nullUpdates).2 sampleBranch = some .zero ∧
      ¬ RefsWellTyped sampleStore (sendUpdates nullUpdates).2 := by
  have hvalue : refValue (sendUpdates nullUpdates).2 sampleBranch = some .zero := by decide +kernel
  refine ⟨sampleRefs_resolve, by decide +kernel, hvalue, fun h => ?_⟩
  obtain ⟨id, hid, hzero, -⟩ := h sampleBranch (by decide +kernel) (get?_isSome_of_refValue hvalue)
  cases hvalue.symm.trans hid
  exact hzero rfl

/-- The characterisation at a batch that moves the branch of the small repository forward. -/
theorem refsWellTyped_iff_keepsTyped_forward :
    RefsWellTyped sampleStore (sendUpdates forwardUpdates).2 ↔
      KeepsTyped sampleStore sampleRefs forwardUpdates :=
  refsWellTyped_iff_keepsTyped sampleRefs_resolve (by decide +kernel) (by decide +kernel)

/-! ## Reading metadata back -/

/-- The references to numbered documents lie in the namespace of their kind. -/
lemma metadataKind_refName (k : MetaKind) (n : ℕ) : metadataKind (k.refName n) = some k := by
  cases k <;> rfl

lemma targetKinds_refName (k : MetaKind) (n : ℕ) : targetKinds (k.refName n) = [.blob] := by
  cases k <;> rfl

/-- What the number of a document has to be for an update to be readable: the one on disk carries
the number of its reference or, if there is none, the new one does. -/
def NumberMatches (s : Store) (fs : RefFiles) (k : MetaKind) (n : ℕ) (new : ObjectId) : Prop :=
  ∀ d, s.document k ((refValue fs (k.refName n)).getD new) = some d → d.number = n

/-- After an accepted update of a numbered document was written, the document can be read exactly if
the number on disk before, or else the number of the new document, is that of the reference. -/
theorem read_isOk_iff_numberMatches {k : MetaKind} {n : ℕ} {fs₁ fs' : RefFiles}
    (hclean : (evaluateWithMode verifyStrict s fs us mode signRequired allowed).isClean = true)
    (hu : u ∈ us) (hname : u.name = k.refName n) (hzero : u.new ≠ .zero)
    (hwrite : fs₁.write u.name (refContent u.new) = some fs') :
    (∃ d, k.read s fs' n = .ok d) ↔ NumberMatches s fs k n u.new := by
  have haccepted := isClean_iff.mp hclean u hu
  obtain ⟨obj, hobj, hkind⟩ := haccepted.target.resolve_left hzero
  obtain ⟨d, hd, hold⟩ :=
    (haccepted.metadata k (hname ▸ metadataKind_refName k n)).resolve_left hzero
  have hblob : obj.kind = .blob := by simpa [hname, targetKinds_refName] using hkind
  have hdec : k.decode obj.payload = .ok d := by
    obtain ⟨obj', hobj', hdec⟩ := Store.document_eq_some.mp hd
    cases hobj.symm.trans hobj'
    exact hdec
  -- The number of the new document is what decides about reading it.
  have hread : (∃ d, k.read s fs' n = .ok d) ↔ d.number = n := by
    have hvalue : refValue fs' (k.refName n) = some u.new := by
      rw [write] at hwrite
      split_ifs at hwrite
      cases hwrite
      exact hname ▸ refValue_set_self haccepted.name_valid
    simp only [MetaKind.read_eq_ok, hvalue, some.injEq]
    constructor
    · rintro ⟨d', id, obj', rfl, hobj', -, hdec', hn⟩
      cases hobj.symm.trans hobj'
      cases hdec.symm.trans hdec'
      exact hn
    · intro hn
      exact ⟨d, u.new, obj, rfl, hobj, hblob, hdec, hn⟩
  -- An extension keeps the number, so the document on disk may be asked instead.
  rw [hread, NumberMatches]
  cases hcur : refValue fs (k.refName n) with
  | none =>
    rw [getD_none, hd]
    simp
  | some oid =>
    obtain ⟨d', hd', hext⟩ := hold oid (hname ▸ hcur)
    rw [getD_some, hd']
    simp [hext.keeps.number_eq]

def issueBlob : Bytes :=
  Utf8.encode ("schema_version" ++ " = 1\n" ++ "kind = " ++
    "\"issue\"\n" ++ "number = 99\n" ++ "state = " ++ "\"open\"\n")

/-- A store with nothing but this issue. -/
def issueStore : Store := ⟨[(.fill 7, ⟨.blob, issueBlob⟩)]⟩

/-- The update that makes the issue number five. -/
def misnumberedUpdate : RefUpdate := ⟨none, .fill 7, MetaKind.issue.refName 5⟩

/-- The issue is accepted as number five and cannot be read. -/
theorem misnumbered_issue_unreadable :
    (evaluateWithMode noVerify issueStore ⟨[], []⟩ [misnumberedUpdate]
        .fastForward false []).isClean = true ∧
      misnumberedUpdate.new ≠ .zero ∧
      ∃ fs', RefFiles.write ⟨[], []⟩ misnumberedUpdate.name (refContent misnumberedUpdate.new) =
          some fs' ∧ ¬ ∃ d, MetaKind.issue.read issueStore fs' 5 = .ok d := by
  refine ⟨by decide +kernel, by decide +kernel, _, rfl, ?_⟩
  rintro ⟨d, hd⟩
  have hfail : (MetaKind.issue.read issueStore (set ⟨[], []⟩ misnumberedUpdate.name
      (refContent misnumberedUpdate.new)) 5).toOption = none := by decide +kernel
  rw [hd] at hfail
  cases hfail

/-- The characterisation at an update that makes the issue number 99. -/
theorem read_isOk_iff_numberMatches_issue :
    (∃ d, MetaKind.issue.read issueStore (RefFiles.set ⟨[], []⟩ (MetaKind.issue.refName 99)
        (refContent (.fill 7))) 99 = .ok d) ↔
      NumberMatches issueStore ⟨[], []⟩ .issue 99 (.fill 7) :=
  read_isOk_iff_numberMatches (u := ⟨none, .fill 7, MetaKind.issue.refName 99⟩)
    (show (evaluateWithMode noVerify issueStore ⟨[], []⟩
      [⟨none, .fill 7, MetaKind.issue.refName 99⟩] .fastForward false []).isClean = true
      by decide +kernel)
    List.mem_cons_self rfl (by decide +kernel)
    (show write ⟨[], []⟩ _ _ = _ by decide +kernel)

end Batches

end Gyt
