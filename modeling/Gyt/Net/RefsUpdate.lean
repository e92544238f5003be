import Gyt.Net.RefsPolicy

/-!
# The reference update request

The handler `wire_refs_update` of `net/server.rs`: a batch is parsed, judged by the policy and, if
nothing is refused, written one reference after the other.

The configuration of the server is a parameter.  The request log, the audit log and the response
caches, which nothing here reads, are left out.
-/

namespace Gyt

open Text RefsPolicy List Bool

/-! ## Writing a batch -/

namespace RefFiles

/-- The files after the write of one update was tried; a failed write is only counted. -/
def applyUpdate (fs : RefFiles) (u : RefUpdate) : RefFiles :=
  (fs.write u.name (refContent u.new)).getD fs

/-- The files after a batch was written. -/
def applyUpdates (fs : RefFiles) (us : List RefUpdate) : RefFiles := us.foldl applyUpdate fs

variable {fs : RefFiles} {u : RefUpdate} {us pre mid : List RefUpdate} {name : Str}

lemma applyUpdate_of_canWrite (h : fs.canWrite u.name = true) :
    fs.applyUpdate u = fs.set u.name (refContent u.new) := by simp [applyUpdate, write, h]

lemma applyUpdate_of_not_canWrite (h : fs.canWrite u.name = false) : fs.applyUpdate u = fs := by
  simp [applyUpdate, write, h]

@[simp] lemma applyUpdates_nil : fs.applyUpdates [] = fs := rfl

@[simp] lemma applyUpdates_cons :
    fs.applyUpdates (u :: us) = (fs.applyUpdate u).applyUpdates us := rfl

@[simp] lemma applyUpdates_append :
    fs.applyUpdates (pre ++ us) = (fs.applyUpdates pre).applyUpdates us :=
  foldl_append

/-- The updated reference has its new value if its file could be written. -/
lemma refValue_applyUpdate_self (hname : validateRefName u.name = .ok ())
    (h : fs.canWrite u.name = true) : refValue (fs.applyUpdate u) u.name = some u.new := by
  rw [applyUpdate_of_canWrite h, refValue_set_self hname]

/-- An update leaves the files of the other references. -/
lemma get?_applyUpdate_of_ne (h : name ≠ u.name) : (fs.applyUpdate u).get? name = fs.get? name := by
  cases hw : fs.canWrite u.name with
  | true => rw [applyUpdate_of_canWrite hw, get?_set_of_ne h]
  | false => rw [applyUpdate_of_not_canWrite hw]

lemma refValue_applyUpdate_of_ne (h : name ≠ u.name) :
    refValue (fs.applyUpdate u) name = refValue fs name :=
  refValue_congr (get?_applyUpdate_of_ne h)

/-- After one update, a reference has the new value or the one it had. -/
lemma refValue_applyUpdate (fs : RefFiles) (name : Str) (hname : validateRefName u.name = .ok ()) :
    (name = u.name ∧ fs.canWrite u.name = true ∧ refValue (fs.applyUpdate u) name = some u.new) ∨
      refValue (fs.applyUpdate u) name = refValue fs name := by
  by_cases hn : name = u.name
  · cases hw : fs.canWrite u.name with
    | true => exact .inl ⟨hn, rfl, hn ▸ refValue_applyUpdate_self hname hw⟩
    | false => exact .inr (by rw [applyUpdate_of_not_canWrite hw])
  · exact .inr (refValue_applyUpdate_of_ne hn)

/-- A batch leaves the references it does not name. -/
lemma get?_applyUpdates_of_notMem (h : ∀ w ∈ us, w.name ≠ name) :
    (fs.applyUpdates us).get? name = fs.get? name := by
  induction us generalizing fs with
  | nil => rfl
  | cons u us ih =>
    rw [forall_mem_cons] at h
    rw [applyUpdates_cons, ih h.2, get?_applyUpdate_of_ne h.1.symm]

lemma refValue_applyUpdates_of_notMem (h : ∀ w ∈ us, w.name ≠ name) :
    refValue (fs.applyUpdates us) name = refValue fs name :=
  refValue_congr (get?_applyUpdates_of_notMem h)

/-- The last update of a batch that names a given reference. -/
lemma exists_last_named (h : ∃ w ∈ us, w.name = name) :
    ∃ pre u mid, us = pre ++ u :: mid ∧ u.name = name ∧ ∀ w ∈ mid, w.name ≠ name := by
  induction us using reverseRecOn with
  | nil => simp at h
  | append_singleton us u ih =>
    by_cases hu : u.name = name
    · exact ⟨us, u, [], rfl, hu, by simp⟩
    · have hus : ∃ w ∈ us, w.name = name := by
        obtain ⟨w, hw, hname⟩ := h
        rcases mem_append.mp hw with hw | hw
        · exact ⟨w, hw, hname⟩
        · exact absurd (mem_singleton.mp hw ▸ hname) hu
      obtain ⟨pre, v, mid, rfl, hv, hmid⟩ := ih hus
      refine ⟨pre, v, mid ++ [u], by simp, hv, fun w hw => ?_⟩
      rcases mem_append.mp hw with hw | hw
      · exact hmid w hw
      · exact mem_singleton.mp hw ▸ hu

/-- No write makes room for another one. -/
lemma canWrite_of_applyUpdate (h : (fs.applyUpdate u).canWrite name = true) :
    fs.canWrite name = true := by
  cases hw : fs.canWrite u.name with
  | false => rwa [applyUpdate_of_not_canWrite hw] at h
  | true =>
    rw [applyUpdate_of_canWrite hw] at h
    by_cases hn : name = u.name
    · exact hn ▸ hw
    -- A file that was there is still there, or is the one just written.
    have hkeep : ∀ f ∈ fs.files, f.1 ≠ u.name →
        f ∈ (u.name, refContent u.new) :: fs.files.filter (·.1 ≠ u.name) := by
      intro f hf hne
      exact mem_cons_of_mem _ (mem_filter.mpr ⟨hf, by simpa using hne⟩)
    simp only [canWrite, isDir, set, and_eq_true, not_eq_true', or_eq_false_iff,
      any_eq_false] at h ⊢
    obtain ⟨⟨hbelow, hdirs⟩, habove⟩ := h
    refine ⟨⟨fun f hf => ?_, hdirs⟩, fun f hf => ?_⟩
    · by_cases hne : f.1 = u.name
      · exact hne ▸ hbelow _ mem_cons_self
      · exact hbelow f (hkeep f hf hne)
    · by_cases hne : f.1 = u.name
      · exact hne ▸ habove _ mem_cons_self
      · exact habove f (hkeep f hf hne)

lemma canWrite_of_applyUpdates (h : (fs.applyUpdates us).canWrite name = true) :
    fs.canWrite name = true := by
  induction us generalizing fs with
  | nil => exact h
  | cons u us ih => exact canWrite_of_applyUpdate (ih h)

/-- A file that can be written and exists stays so: nothing can be written below or above it. -/
lemma canWrite_applyUpdate (hfile : (fs.get? name).isSome) (h : fs.canWrite name = true) :
    ((fs.applyUpdate u).get? name).isSome ∧ (fs.applyUpdate u).canWrite name = true := by
  cases hw : fs.canWrite u.name with
  | false => rw [applyUpdate_of_not_canWrite hw]; exact ⟨hfile, h⟩
  | true =>
    rw [applyUpdate_of_canWrite hw]
    obtain ⟨content, hcontent⟩ := Option.isSome_iff_exists.mp hfile
    obtain ⟨f, hf, rfl⟩ : ∃ f ∈ fs.files, f.1 = name := by
      by_contra hnone
      push Not at hnone
      rw [get?, lookup_eq_none_iff.mpr fun f hf => by simpa using (hnone f hf).symm] at hcontent
      cases hcontent
    refine ⟨?_, ?_⟩
    · by_cases hn : f.1 = u.name
      · rw [hn, get?_set_self]; rfl
      · rwa [get?_set_of_ne hn]
    · simp only [canWrite, isDir, set, and_eq_true, not_eq_true', or_eq_false_iff,
        any_eq_false, forall_mem_cons] at h hw ⊢
      refine ⟨⟨⟨hw.2 f hf, fun g hg => h.1.1 g (mem_of_mem_filter hg)⟩, h.1.2⟩,
        hw.1.1 f hf, fun g hg => h.2 g (mem_of_mem_filter hg)⟩

/-- A file can be written again. -/
lemma canWrite_applyUpdate_self (h : fs.canWrite u.name = true) :
    (fs.applyUpdate u).canWrite u.name = true := by
  have hself : isBelow u.name u.name = false := by
    rw [isBelow, eq_false_iff, ne_eq, isPrefixOf_iff_prefix]
    intro hpre
    have hlen := hpre.length_le
    rw [length_append, length_singleton] at hlen
    omega
  rw [applyUpdate_of_canWrite h]
  simp only [canWrite, isDir, set, and_eq_true, not_eq_true', or_eq_false_iff,
    any_eq_false, forall_mem_cons, hself] at h ⊢
  exact ⟨⟨⟨false_ne_true, fun g hg => h.1.1 g (mem_of_mem_filter hg)⟩, h.1.2⟩,
    false_ne_true, fun g hg => h.2 g (mem_of_mem_filter hg)⟩

lemma canWrite_applyUpdates (hfile : (fs.get? name).isSome) (h : fs.canWrite name = true) :
    (fs.applyUpdates us).canWrite name = true := by
  induction us generalizing fs with
  | nil => exact h
  | cons u us ih =>
    obtain ⟨hfile', h'⟩ := canWrite_applyUpdate (u := u) hfile h
    exact ih hfile' h'

/-- A file that cannot be written in the end was never written. -/
lemma get?_applyUpdates_of_not_canWrite (h : (fs.applyUpdates us).canWrite name = false) :
    (fs.applyUpdates us).get? name = fs.get? name := by
  induction us generalizing fs with
  | nil => rfl
  | cons u us ih =>
    rw [applyUpdates_cons] at h ⊢
    rw [ih h]
    by_cases hname : name = u.name
    · subst hname
      cases hw : fs.canWrite u.name with
      | false => rw [applyUpdate_of_not_canWrite hw]
      | true =>
        have hfile : ((fs.applyUpdate u).get? u.name).isSome := by
          rw [applyUpdate_of_canWrite hw, get?_set_self]; rfl
        rw [canWrite_applyUpdates hfile (canWrite_applyUpdate_self hw)] at h
        cases h
    · exact get?_applyUpdate_of_ne hname

/-- The last update of a reference decides about its file: it was written, or no update of the
reference was. -/
lemma applyUpdates_last (hname : validateRefName u.name = .ok ())
    (hpost : ∀ w ∈ us, w.name ≠ u.name) :
    ((fs.applyUpdates pre).canWrite u.name = true ∧
      refValue (fs.applyUpdates (pre ++ u :: us)) u.name = some u.new) ∨
    ((fs.applyUpdates pre).canWrite u.name = false ∧
      (fs.applyUpdates (pre ++ u :: us)).get? u.name = fs.get? u.name) := by
  rw [applyUpdates_append, applyUpdates_cons]
  cases hw : (fs.applyUpdates pre).canWrite u.name with
  | true =>
    rw [refValue_applyUpdates_of_notMem hpost, refValue_applyUpdate_self hname hw]
    exact .inl ⟨rfl, rfl⟩
  | false =>
    rw [get?_applyUpdates_of_notMem hpost, applyUpdate_of_not_canWrite hw]
    exact .inr ⟨rfl, get?_applyUpdates_of_not_canWrite hw⟩

end RefFiles

/-! ## The request -/

/-- What of the configuration of the server decides about a batch. -/
structure ServerConfig (K : Type) where
  allowForce : Bool
  signRequired : Bool
  allowed : List K

/-- Whether one of the parts of a query string is the given flag. -/
def hasFlag (flag : String) (rawQuery : Option Str) : Bool :=
  rawQuery.any fun q => (split '&' q).any (· == flag.toList)

/-- The mode that a request asks for and the server grants. -/
def requestedMode {K : Type} (cfg : ServerConfig K) (rawQuery : Option Str) : Mode :=
  if cfg.allowForce && hasFlag "force=1" rawQuery then .force
  else if cfg.allowForce && hasFlag "force-with-lease=1" rawQuery then .forceWithLease
  else .fastForward

/-- The answer to a request. -/
structure Response where
  status : ℕ
  reason : String
  body : Msg
  deriving DecidableEq, Repr

/-- The files and the counters while a batch is written. -/
structure WriteState where
  fs : RefFiles
  nUpdated : ℕ
  nFailed : ℕ

def writeUpdate (w : WriteState) (u : RefUpdate) : WriteState :=
  match w.fs.write u.name (refContent u.new) with
  | some fs => { w with fs := fs, nUpdated := w.nUpdated + 1 }
  | none => { w with nFailed := w.nFailed + 1 }

lemma fs_foldl_writeUpdate (w : WriteState) (us : List RefUpdate) :
    (us.foldl writeUpdate w).fs = w.fs.applyUpdates us := by
  induction us generalizing w with
  | nil => rfl
  | cons u us ih =>
    rw [foldl_cons, ih, RefFiles.applyUpdates_cons]
    congr 1
    unfold writeUpdate RefFiles.applyUpdate
    cases w.fs.write u.name (refContent u.new) <;> rfl

section Wire

variable {K : Type} (verifyStrict : K → Bytes → Bytes → Bool)

/-- The handler of the reference update request, with the references after it. -/
def wireRefsUpdate (cfg : ServerConfig K) (s : Store) (fs : RefFiles) (rawQuery : Option Str)
    (body : Bytes) : Response × RefFiles :=
  match parseRefUpdates body with
  | .error e => (⟨400, "Bad Request", "invalid ref updates: " :: e.display⟩, fs)
  | .ok updates =>
    let eval := evaluateWithMode verifyStrict s fs updates (requestedMode cfg rawQuery)
      cfg.signRequired cfg.allowed
    if eval.isClean then
      let w := updates.foldl writeUpdate ⟨fs, 0, 0⟩
      (⟨200, "OK", ["updated=", .num w.nUpdated, " failed=", .num w.nFailed]⟩, w.fs)
    else
      (⟨409, "Conflict", eval.blocked.flatMap fun (refname, err) =>
        .str refname :: .lit ": " :: err.userMessage ++ [.lit "\n"]⟩, fs)

/-- Whether the updates of a batch pass the policy of the server. -/
def BatchAccepted (cfg : ServerConfig K) (s : Store) (fs : RefFiles) (rawQuery : Option Str)
    (us : List RefUpdate) : Prop :=
  ∀ u ∈ us, Accepted verifyStrict s fs (requestedMode cfg rawQuery) cfg.signRequired cfg.allowed u

/-- What a request does: either its batch is accepted and written, or nothing changes. -/
lemma wireRefsUpdate_cases (cfg : ServerConfig K) (s : Store) (fs : RefFiles)
    (rawQuery : Option Str) (body : Bytes) :
    ((wireRefsUpdate verifyStrict cfg s fs rawQuery body).1.status = 200 ∧
      ∃ us, parseRefUpdates body = .ok us ∧ BatchAccepted verifyStrict cfg s fs rawQuery us ∧
        (wireRefsUpdate verifyStrict cfg s fs rawQuery body).2 = fs.applyUpdates us) ∨
    ((wireRefsUpdate verifyStrict cfg s fs rawQuery body).1.status ≠ 200 ∧
      (wireRefsUpdate verifyStrict cfg s fs rawQuery body).2 = fs) := by
  unfold wireRefsUpdate
  split
  · exact .inr ⟨by simp, rfl⟩
  · next us hus =>
    dsimp only
    split
    · next hclean => exact .inl ⟨rfl, us, hus, isClean_iff.mp hclean, fs_foldl_writeUpdate _ us⟩
    · exact .inr ⟨by simp, rfl⟩

variable {verifyStrict} {cfg : ServerConfig K} {s : Store} {fs : RefFiles}
  {rawQuery : Option Str} {body : Bytes}

/-- An accepted request has a batch that passes the policy and is written. -/
lemma wireRefsUpdate_accepted
    (h : (wireRefsUpdate verifyStrict cfg s fs rawQuery body).1.status = 200) :
    ∃ us, parseRefUpdates body = .ok us ∧ BatchAccepted verifyStrict cfg s fs rawQuery us ∧
      (wireRefsUpdate verifyStrict cfg s fs rawQuery body).2 = fs.applyUpdates us := by
  rcases wireRefsUpdate_cases verifyStrict cfg s fs rawQuery body with ⟨-, h'⟩ | ⟨hne, -⟩
  · exact h'
  · exact absurd h hne

end Wire

end Gyt
