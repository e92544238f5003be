import Gyt.Repo
import Gyt.Metadata.RoundTrip

/-!
# Storing metadata

The commands on issues, pull requests and incidents read a document through its reference, change
it, and store it again, all under the lock on the repository (`write_locked` in `issues.rs`,
`prs.rs` and `incidents.rs`).  A stored document is read again if its bytes can be decoded
(`readNumbered_stored`), and the other documents stay (`readNumbered_stored_of_ne`).
-/

namespace Gyt

open Command Text Toml

variable {W : Type}

/-- Checking a document and storing it under its number. -/
def writeDocument (hashBytes : Hash) (dir : Str) (number : ℕ) (valid : Result Unit)
    (bytes : Bytes) : Cmd W ObjectId := do
  lift valid
  let id ← writeObjects fun s => s.writeBytes hashBytes .blob bytes
  writeRef (numberedRef dir number) id
  return id

def Issue.writeLocked (hashBytes : Hash) (t : DebugTables) (iss : Issue) :
    Cmd W ObjectId :=
  writeDocument hashBytes Issue.refsPrefix iss.number iss.validate (iss.encode t)

/-- Storing a pull request. -/
def Pr.writeLocked (hashBytes : Hash) (t : DebugTables) (pr : Pr) : Cmd W ObjectId :=
  writeDocument hashBytes Pr.refsPrefix pr.number pr.validate (pr.encode t)

def Incident.writeLocked (hashBytes : Hash) (t : DebugTables) (inc : Incident) :
    Cmd W ObjectId :=
  writeDocument hashBytes Incident.refsPrefix inc.number inc.validate (inc.encode t)

section WriteDocument

variable {hashBytes : Hash} {dir : Str} {number : ℕ} {valid : Result Unit}
  {bytes : Bytes} {repo repo' : Repo W}

/-- The repository after a document was stored. -/
def stored (hashBytes : Hash) (dir : Str) (number : ℕ) (bytes : Bytes)
    (repo : Repo W) : Repo W :=
  { repo with
    objects := (repo.objects.writeBytes hashBytes .blob bytes).1
    files := repo.files.set (numberedRef dir number)
      (refContent (repo.objects.writeBytes hashBytes .blob bytes).2) }

/-- A document that was stored passed its check. -/
lemma writeDocument_eq_ok {id : ObjectId}
    (h : (writeDocument hashBytes dir number valid bytes).run repo = some (.ok id, repo')) :
    valid = .ok () ∧ validateRefName (numberedRef dir number) = .ok () ∧
      repo' = stored hashBytes dir number bytes repo := by
  unfold writeDocument at h
  obtain ⟨_, hvalid, hrest⟩ := lift_bind_eq_ok.mp h
  obtain ⟨id', repo₂, hobjects, hrest'⟩ := seq_eq_ok.mp hrest
  obtain ⟨_, repo₃, href, hpure⟩ := seq_eq_ok.mp hrest'
  cases hpure
  cases hobjects
  obtain ⟨hname, rfl⟩ := writeRef_eq_ok href
  exact ⟨hvalid, hname, rfl⟩

/-- A document that could not be stored leaves the files as they are. -/
lemma writeDocument_eq_error {e : GytError}
    (h : (writeDocument hashBytes dir number valid bytes).run repo = some (.error e, repo')) :
    repo'.files = repo.files ∧ repo.objects.Extends repo'.objects := by
  unfold writeDocument at h
  rcases seq_eq_error.mp h with hlift | ⟨_, repo₁, hlift, hrest⟩
  · rw [(lift_eq_error.mp hlift).2]
    exact ⟨rfl, .refl _⟩
  obtain ⟨-, rfl⟩ := lift_eq_ok.mp hlift
  rcases seq_eq_error.mp hrest with hobjects | ⟨id, repo₂, hobjects, hrest'⟩
  · cases hobjects
  cases hobjects
  rcases seq_eq_error.mp hrest' with href | ⟨_, repo₃, href, hpure⟩
  · rw [writeRef_eq_error href]
    exact ⟨rfl, Store.extends_writeBytes _ _ _ _⟩
  · cases hpure

end WriteDocument

lemma numberedRef_inj {dir : Str} {n m : ℕ} : numberedRef dir n = numberedRef dir m ↔ n = m := by
  refine ⟨fun h => ?_, fun h => h ▸ rfl⟩
  have hdigits : ofNat n = ofNat m := (List.cons.inj (List.append_cancel_left h)).2
  rw [← ofDigitChars_ofNat n, hdigits, ofDigitChars_ofNat]

section ReadStored

variable {α : Type} {what : String} {dir : Str} {decode : Bytes → Result α} {number : α → ℕ}
  {hashBytes : Hash} {bytes : Bytes} {repo : Repo W} {n m : ℕ} {doc : α}

/-- A document can still be read when its reference stays and objects are added. -/
lemma readNumbered_of_extends {s s' : Store} {fs fs' : RefFiles}
    (hread : readNumbered what dir decode number s fs n = .ok doc) (hs : s.Extends s')
    (hfs : refValue fs' (numberedRef dir n) = refValue fs (numberedRef dir n)) :
    readNumbered what dir decode number s' fs' n = .ok doc := by
  obtain ⟨id, obj, hid, hobj, hkind, hdec, hn⟩ := readNumbered_eq_ok.mp hread
  exact readNumbered_eq_ok.mpr ⟨id, obj, hfs.trans hid, hs id obj hobj, hkind, hdec, hn⟩

/-- A stored document is read again, unless its object was stored under the identifier of another
one. -/
theorem readNumbered_stored (hname : validateRefName (numberedRef dir n) = .ok ())
    (hdecode : decode bytes = .ok doc) (hnumber : number doc = n)
    (hfree : (stored hashBytes dir n bytes repo).objects.CollisionFree) :
    readNumbered what dir decode number (stored hashBytes dir n bytes repo).objects
      (stored hashBytes dir n bytes repo).files n = .ok doc :=
  readNumbered_eq_ok.mpr ⟨_, ⟨.blob, bytes⟩, refValue_set_self hname,
    Store.get?_of_mem_entries hfree (Store.mem_entries_writeBytes _ _ _ _), rfl, hdecode, hnumber⟩

/-- Storing a document leaves those with other numbers. -/
theorem readNumbered_stored_of_ne (hne : m ≠ n)
    (hread : readNumbered what dir decode number repo.objects repo.files m = .ok doc) :
    readNumbered what dir decode number (stored hashBytes dir n bytes repo).objects
      (stored hashBytes dir n bytes repo).files m = .ok doc :=
  readNumbered_of_extends hread (Store.extends_writeBytes _ _ _ _)
    (refValue_set_of_ne fun h => hne (numberedRef_inj.mp h))

end ReadStored

end Gyt
