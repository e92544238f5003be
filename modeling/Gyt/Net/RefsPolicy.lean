import Gyt.Metadata.Document
import Gyt.Net.CommitWalk
import Gyt.Net.Protocol
import Gyt.Signing

/-!
# The policy for reference updates

What the server checks before it writes a batch of reference updates, `net/refs_policy.rs`.  Every
update is judged on its own against the references as they are before the batch.
-/

namespace Gyt

/-- Why an update is refused. -/
inductive PolicyError where
  | notFastForward (refname : Str)
  | unsignedCommit (commit : ObjectId)
  | badSignature (commit : ObjectId)
  | signerNotAllowed (commit : ObjectId)
  | missingAllowedSigners
  | badRefName (refname : Str) (reason : Msg)
  | internal (m : Msg)
  deriving DecidableEq, Repr

/-- The message shown to the client. -/
def PolicyError.userMessage : PolicyError → Msg
  | .notFastForward refname =>
    ["ref ", .str refname, ": non-fast-forward update refused (use ?force=1 to override)"]
  | .unsignedCommit commit =>
    ["commit ", .str commit.toHex, " is unsigned but sign_required is set"]
  | .badSignature commit =>
    ["commit ", .str commit.toHex, ": signature failed verification"]
  | .signerNotAllowed commit =>
    ["commit ", .str commit.toHex, ": signature did not match any allowed signer"]
  | .missingAllowedSigners =>
    ["sign_required is set but .gyt/allowed_signers is missing or empty"]
  | .badRefName refname reason =>
    .lit "ref name refused: " :: reason ++ [.lit " (", .debug refname, .lit ")"]
  | .internal m => "internal policy error: " :: m

namespace RefsPolicy

/-- A failure that is reported as an internal error, after some context. -/
def internal {α : Type} (context : Msg) (x : Result α) : Except PolicyError α :=
  match x with
  | .ok a => .ok a
  | .error e => .error (.internal (context ++ e.display))

@[simp] lemma internal_eq_ok {α : Type} {context : Msg} {x : Result α} {a : α} :
    internal context x = .ok a ↔ x = .ok a := by
  cases x <;> simp [internal]

/-- Whether a name lies in the given namespace. -/
def inNamespace (dir : String) (name : Str) : Bool := dir.toList.isPrefixOf name

/-! ## The kind of the target -/

/-- The kinds of objects that a reference may name. -/
def targetKinds (refname : Str) : List ObjectKind :=
  if inNamespace "refs/heads/" refname || inNamespace "refs/remotes/" refname then [.commit]
  else if inNamespace "refs/tags/" refname then [.commit, .tag]
  else if inNamespace "refs/issues/" refname || inNamespace "refs/prs/" refname ||
      inNamespace "refs/incidents/" refname then [.blob]
  else [.commit]

/-- How the kind of an object is printed with `{:?}`. -/
def kindDebug : ObjectKind → String
  | .blob => "Blob"
  | .tree => "Tree"
  | .commit => "Commit"
  | .tag => "Tag"

/-- The check that a reference names an object of the right kind; the all-zero identifier passes. -/
def enforceTargetKind (s : Store) (refname : Str) (newId : ObjectId) : Except PolicyError Unit :=
  if newId = .zero then .ok ()
  else
    match s.get? newId with
    | none =>
      .error (.badRefName refname ["target object ", .str newId.toHex, " not present"])
    | some obj =>
      ensure (obj.kind ∈ targetKinds refname)
        (.badRefName refname
          ["wrong target kind ", .lit (kindDebug obj.kind), " for namespace"])

/-- Whether an identifier names a stored object of a kind that the reference may name. -/
def RightKind (s : Store) (refname : Str) (id : ObjectId) : Prop :=
  ∃ obj, s.get? id = some obj ∧ obj.kind ∈ targetKinds refname

lemma enforceTargetKind_eq_ok {s : Store} {refname : Str} {newId : ObjectId} :
    enforceTargetKind s refname newId = .ok () ↔ newId = .zero ∨ RightKind s refname newId := by
  unfold enforceTargetKind RightKind
  by_cases hzero : newId = .zero
  · simp [hzero]
  · cases hget : s.get? newId <;> simp [hzero]

/-! ## Metadata -/

/-- The kind of metadata that a reference holds. -/
def metadataKind (refname : Str) : Option MetaKind :=
  if inNamespace "refs/issues/" refname then some .issue
  else if inNamespace "refs/prs/" refname then some .pr
  else if inNamespace "refs/incidents/" refname then some .incident
  else none

/-- Whether a reference holds metadata. -/
def isMetadataRef (refname : Str) : Bool :=
  inNamespace "refs/issues/" refname || inNamespace "refs/prs/" refname ||
    inNamespace "refs/incidents/" refname

lemma isMetadataRef_iff {refname : Str} :
    isMetadataRef refname = true ↔ ∃ k, metadataKind refname = some k := by
  unfold isMetadataRef metadataKind
  cases inNamespace "refs/issues/" refname <;> cases inNamespace "refs/prs/" refname <;>
    cases inNamespace "refs/incidents/" refname <;> simp

/-- The check that a new document decodes and extends the one on disk, for one kind of metadata. -/
def enforceExtends {D : Type} (what : String) (decode : Bytes → Result D)
    (validateExtends : D → D → Result Unit) (s : Store) (oldId : Option ObjectId)
    (newObj : Object) : Except PolicyError Unit := do
  let new ← internal ["decode new ", .lit what, ": "] (decode newObj.payload)
  match oldId with
  | none => .ok ()
  | some oid => do
    let oldObj ← internal ["on-disk old metadata blob ", .str oid.toHex, " unreadable: "]
      (s.read oid)
    let old ← internal ["decode old ", .lit what, ": "] (decode oldObj.payload)
    internal [] (validateExtends old new)

/-- The check that a metadata update only appends; the all-zero identifier passes. -/
def enforceMetadataMonotonic (s : Store) (refname : Str) (oldId : Option ObjectId)
    (newId : ObjectId) : Except PolicyError Unit :=
  if newId = .zero then .ok ()
  else do
    let newObj ← internal ["read new metadata blob: "] (s.read newId)
    match metadataKind refname with
    | some .issue => enforceExtends "issue" Issue.decode Issue.validateExtends s oldId newObj
    | some .pr => enforceExtends "pr" Pr.decode Pr.validateExtends s oldId newObj
    | some .incident =>
      enforceExtends "incident" Incident.decode Incident.validateExtends s oldId newObj
    | none => .ok ()

lemma enforceExtends_eq_ok {D : Type} {what : String} {decode : Bytes → Result D}
    {validateExtends : D → D → Result Unit} {s : Store} {oldId : Option ObjectId}
    {newObj : Object} :
    enforceExtends what decode validateExtends s oldId newObj = .ok () ↔
      ∃ new, decode newObj.payload = .ok new ∧ ∀ oid, oldId = some oid → ∃ oldObj old,
        s.get? oid = some oldObj ∧ decode oldObj.payload = .ok old ∧
          validateExtends old new = .ok () := by
  rw [enforceExtends, bind_eq_ok]
  simp only [internal_eq_ok]
  refine exists_congr fun new => and_congr_right fun _ => ?_
  cases oldId with
  | none => simp
  | some oid =>
    simp only [bind_eq_ok, internal_eq_ok, Store.read_eq_ok, Option.some.injEq]
    constructor
    · rintro ⟨oldObj, hget, old, hdec, hext⟩ _ rfl
      exact ⟨oldObj, old, hget, hdec, hext⟩
    · intro h
      obtain ⟨oldObj, old, hget, hdec, hext⟩ := h oid rfl
      exact ⟨oldObj, hget, old, hdec, hext⟩

/-- The check for one kind of metadata, in terms of documents; `mk` makes a document of that kind.
-/
lemma enforceExtends_document {D : Type} {what : String} {decode : Bytes → Result D}
    {validateExtends : D → D → Result Unit} {mk : D → Document} {k : MetaKind}
    (hdecode : ∀ bytes, k.decode bytes = mk <$> decode bytes)
    (hextends : ∀ a b, (mk a).Extends (mk b) ↔ validateExtends a b = .ok ())
    {s : Store} {oldId : Option ObjectId} {newId : ObjectId} :
    (∃ obj, s.get? newId = some obj ∧
        enforceExtends what decode validateExtends s oldId obj = .ok ()) ↔
      ∃ d, s.document k newId = some d ∧
        ∀ oid, oldId = some oid → ∃ d', s.document k oid = some d' ∧ d'.Extends d := by
  simp only [Store.document_eq_some, enforceExtends_eq_ok, hdecode, map_eq_ok]
  constructor
  · rintro ⟨obj, hobj, new, hnew, hold⟩
    refine ⟨_, ⟨obj, hobj, new, hnew, rfl⟩, fun oid hoid => ?_⟩
    obtain ⟨obj', old, hobj', hold, hext⟩ := hold oid hoid
    exact ⟨_, ⟨obj', hobj', old, hold, rfl⟩, (hextends _ _).mpr hext⟩
  · rintro ⟨_, ⟨obj, hobj, new, hnew, rfl⟩, hold⟩
    refine ⟨obj, hobj, new, hnew, fun oid hoid => ?_⟩
    obtain ⟨_, ⟨obj', hobj', old, hold, rfl⟩, hext⟩ := hold oid hoid
    exact ⟨obj', old, hobj', hold, (hextends _ _).mp hext⟩

/-- A metadata update other than to the all-zero identifier passes exactly if the new object decodes
and extends the document on disk. -/
lemma enforceMetadataMonotonic_eq_ok {s : Store} {refname : Str} {oldId : Option ObjectId}
    {newId : ObjectId} {k : MetaKind} (hk : metadataKind refname = some k) :
    enforceMetadataMonotonic s refname oldId newId = .ok () ↔ newId = .zero ∨
      ∃ d, s.document k newId = some d ∧
        ∀ oid, oldId = some oid → ∃ d', s.document k oid = some d' ∧ d'.Extends d := by
  unfold enforceMetadataMonotonic
  by_cases hzero : newId = .zero
  · simp [hzero]
  rw [if_neg hzero]
  simp only [hzero, false_or, bind_eq_ok, internal_eq_ok, Store.read_eq_ok, hk]
  cases k with
  | issue => exact enforceExtends_document (fun _ => rfl) (fun _ _ => Iff.rfl)
  | pr => exact enforceExtends_document (fun _ => rfl) (fun _ _ => Iff.rfl)
  | incident => exact enforceExtends_document (fun _ => rfl) (fun _ _ => Iff.rfl)

/-! ## Signatures -/

section Signatures

variable {K : Type} (verifyStrict : K → Bytes → Bytes → Bool)

/-- The check that a commit is signed by one of the allowed keys. -/
def verifyCommitSigned (s : Store) (id : ObjectId) (allowed : List K) :
    Except PolicyError Unit := do
  let c ← internal [] (Commit.read s id)
  let b64 ← okOr c.signature (.unsignedCommit id)
  let payload := Signing.commitPayloadWithoutSig c
  let sig ← okOr ((Signing.base64Decode b64).filter (·.length == 64)) (.badSignature id)
  ensure (∃ key ∈ allowed, verifyStrict key payload sig = true) (.signerNotAllowed id)

/-- Whether an identifier names a commit that is signed by one of the allowed keys. -/
def SignedCommit (s : Store) (allowed : List K) (id : ObjectId) : Prop :=
  ∃ c, Commit.read s id = .ok c ∧ Signing.Signed verifyStrict allowed c

lemma verifyCommitSigned_eq_ok {s : Store} {id : ObjectId} {allowed : List K} :
    verifyCommitSigned verifyStrict s id allowed = .ok () ↔
      SignedCommit verifyStrict s allowed id := by
  simp only [verifyCommitSigned, SignedCommit, Signing.Signed, bind_eq_ok, internal_eq_ok,
    okOr_eq_ok, ensure_eq_ok, Option.filter_eq_some_iff, beq_iff_eq]
  grind

/-- The check that every commit an update brings in is signed. -/
def enforceSigned (s : Store) (allowedSigners : List K) (curOnDisk : Option ObjectId)
    (new : ObjectId) : Except PolicyError Unit := do
  ensure (allowedSigners ≠ []) .missingAllowedSigners
  let newCommits ← internal [] (commitsNewSince s curOnDisk new)
  newCommits.forM fun id => verifyCommitSigned verifyStrict s id allowedSigners

lemma enforceSigned_eq_ok {s : Store} {allowed : List K} {old : Option ObjectId}
    {new : ObjectId} :
    enforceSigned verifyStrict s allowed old new = .ok () ↔
      allowed ≠ [] ∧ ∃ ids, commitsNewSince s old new = .ok ids ∧
        ∀ id ∈ ids, SignedCommit verifyStrict s allowed id := by
  simp only [enforceSigned, bind_eq_ok, ensure_eq_ok, internal_eq_ok, forM_eq_ok,
    verifyCommitSigned_eq_ok, exists_const]

end Signatures

/-! ## Fast-forward -/

/-- What the client asks for: a plain update, an update of a reference that nobody else moved, or
an update in any case. -/
inductive Mode where
  | fastForward
  | forceWithLease
  | force
  deriving DecidableEq, Repr

/-- The check that the reference did not move and, unless there is a lease, only moves forward.  An
update without an old value passes. -/
def enforceFastForward (s : Store) (mode : Mode) (curOnDisk : Option ObjectId) (u : RefUpdate) :
    Except PolicyError Unit :=
  match u.old with
  | none => .ok ()
  | some old =>
    if mode = .force then .ok ()
    else if curOnDisk ≠ some old then .error (.notFastForward u.name)
    else if mode = .forceWithLease then .ok ()
    else ensure (isAncestor s old u.new = .ok true) (.notFastForward u.name)

lemma enforceFastForward_eq_ok {s : Store} {mode : Mode} {cur : Option ObjectId} {u : RefUpdate} :
    enforceFastForward s mode cur u = .ok () ↔ ∀ old, u.old = some old → mode ≠ .force →
      cur = some old ∧ (mode = .fastForward → isAncestor s old u.new = .ok true) := by
  unfold enforceFastForward
  cases u.old with
  | none => simp
  | some old =>
    cases mode <;> by_cases hcur : cur = some old <;> simp [hcur]

/-! ## Evaluation -/

section Evaluate

variable {K : Type} (verifyStrict : K → Bytes → Bytes → Bool)

/-- The checks on the name of a reference. -/
def enforceRefName (refname : Str) : Except PolicyError Unit := do
  match validateRefName refname with
  | .ok _ => .ok ()
  | .error e => .error (.badRefName refname e.display)
  ensure (inNamespace "refs/" refname) (.badRefName refname ["must begin with refs/"])

def evaluateUpdate (s : Store) (fs : RefFiles) (mode : Mode) (signRequired : Bool)
    (allowedSigners : List K) (u : RefUpdate) : Except PolicyError Unit := do
  enforceRefName u.name
  enforceTargetKind s u.name u.new
  let curOnDisk := refValue fs u.name
  if isMetadataRef u.name then enforceMetadataMonotonic s u.name curOnDisk u.new
  else do
    enforceFastForward s mode curOnDisk u
    if signRequired then enforceSigned verifyStrict s allowedSigners curOnDisk u.new else .ok ()

/-- The refused updates of a batch, with the reasons. -/
structure PolicyEvaluation where
  blocked : List (Str × PolicyError)
  deriving DecidableEq, Repr

/-- Whether nothing was refused. -/
def PolicyEvaluation.isClean (e : PolicyEvaluation) : Bool := e.blocked.isEmpty

/-- The judgement on a batch. -/
def evaluateWithMode (s : Store) (fs : RefFiles) (updates : List RefUpdate) (mode : Mode)
    (signRequired : Bool) (allowedSigners : List K) : PolicyEvaluation :=
  ⟨updates.filterMap fun u =>
    match evaluateUpdate verifyStrict s fs mode signRequired allowedSigners u with
    | .ok _ => none
    | .error e => some (u.name, e)⟩

/-- What an accepted update of a reference outside the metadata namespaces has passed. -/
structure CommitRefAccepted (s : Store) (fs : RefFiles) (mode : Mode) (signRequired : Bool)
    (allowed : List K) (u : RefUpdate) : Prop where
  /-- A client that states the old value knows the current one, and moves forward. -/
  old_eq : ∀ old, u.old = some old → mode ≠ .force →
    refValue fs u.name = some old ∧ (mode = .fastForward → isAncestor s old u.new = .ok true)
  /-- The commits that are brought in are signed. -/
  signed : signRequired = true → allowed ≠ [] ∧
    ∃ ids, commitsNewSince s (refValue fs u.name) u.new = .ok ids ∧
      ∀ id ∈ ids, SignedCommit verifyStrict s allowed id

/-- What an accepted update has passed. -/
structure Accepted (s : Store) (fs : RefFiles) (mode : Mode) (signRequired : Bool)
    (allowed : List K) (u : RefUpdate) : Prop where
  name_valid : validateRefName u.name = .ok ()
  name_refs : inNamespace "refs/" u.name = true
  target : u.new = .zero ∨ RightKind s u.name u.new
  metadata : ∀ k, metadataKind u.name = some k → u.new = .zero ∨
    ∃ d, s.document k u.new = some d ∧ ∀ oid, refValue fs u.name = some oid →
      ∃ d', s.document k oid = some d' ∧ d'.Extends d
  commit : metadataKind u.name = none →
    CommitRefAccepted verifyStrict s fs mode signRequired allowed u

variable {verifyStrict} {s : Store} {fs : RefFiles} {mode : Mode} {signRequired : Bool}
  {allowed : List K} {u : RefUpdate} {us : List RefUpdate}

lemma enforceRefName_eq_ok {refname : Str} : enforceRefName refname = .ok () ↔
      validateRefName refname = .ok () ∧ inNamespace "refs/" refname = true := by
  unfold enforceRefName
  cases validateRefName refname <;> simp

lemma evaluateUpdate_eq_ok :
    evaluateUpdate verifyStrict s fs mode signRequired allowed u = .ok () ↔
      Accepted verifyStrict s fs mode signRequired allowed u := by
  simp only [evaluateUpdate, check_bind_eq_ok, enforceRefName_eq_ok, enforceTargetKind_eq_ok]
  cases hk : metadataKind u.name with
  | some k =>
    rw [if_pos (isMetadataRef_iff.mpr ⟨k, hk⟩), enforceMetadataMonotonic_eq_ok hk]
    constructor
    · rintro ⟨⟨hvalid, hrefs⟩, htarget, hmeta⟩
      exact ⟨hvalid, hrefs, htarget, fun k' hk' => by cases hk.symm.trans hk'; exact hmeta,
        fun hnone => by cases hk.symm.trans hnone⟩
    · intro h
      exact ⟨⟨h.name_valid, h.name_refs⟩, h.target, h.metadata k hk⟩
  | none =>
    have hmeta : ¬ isMetadataRef u.name = true := by simp [isMetadataRef_iff, hk]
    rw [if_neg hmeta]
    rw [check_bind_eq_ok, enforceFastForward_eq_ok]
    constructor
    · rintro ⟨⟨hvalid, hrefs⟩, htarget, hold, hsigned⟩
      refine ⟨hvalid, hrefs, htarget, fun k' hk' => (by cases hk.symm.trans hk'),
        fun _ => ⟨hold, fun hsign => ?_⟩⟩
      rwa [if_pos hsign, enforceSigned_eq_ok] at hsigned
    · intro h
      refine ⟨⟨h.name_valid, h.name_refs⟩, h.target, (h.commit hk).old_eq, ?_⟩
      split
      · next hsign => exact (enforceSigned_eq_ok verifyStrict).mpr ((h.commit hk).signed hsign)
      · rfl

/-- A batch is clean exactly if every update passes. -/
lemma isClean_iff :
    (evaluateWithMode verifyStrict s fs us mode signRequired allowed).isClean = true ↔
      ∀ u ∈ us, Accepted verifyStrict s fs mode signRequired allowed u := by
  simp only [PolicyEvaluation.isClean, evaluateWithMode, List.isEmpty_iff,
    List.filterMap_eq_nil_iff]
  refine forall₂_congr fun u _ => ?_
  rw [← evaluateUpdate_eq_ok]
  cases evaluateUpdate verifyStrict s fs mode signRequired allowed u <;> simp

end Evaluate

end RefsPolicy

end Gyt
