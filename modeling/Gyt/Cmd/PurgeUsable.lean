import Gyt.Cmd.PurgeComplete
import Gyt.IndexFile

/-!
# What a purge leaves behind

After a purge, `HEAD` should denote the new commit of the commit that it denoted before, and the
index should have lost the purged paths and nothing else.  `usable_iff` says when this is so.

A detached `HEAD` is written back like a reference, which is not the format of `HEAD`.  And the
index loses the entries whose path is a target itself, but not those below a target.
-/

namespace Gyt.Purge

open Command Text

variable {W : Type} {os : PathOs W} {hashBytes : Hash} {targets : List AbsPath}
  {paths : List RelPath} {iter : List ObjectId → List ObjectId} {repo repo' : Repo W}
  {idx : Index} {bytes : Bytes} {refs : RefList}
  {commits : Commits} {mid : Repo W} {seen : Seen} {x : ObjectId}

/-! ## The specification -/

/-- The new identifiers that the rewriting loop gives to commits and root trees. -/
def newIds (os : PathOs W) (hashBytes : Hash) (targets : List AbsPath)
    (iter : List ObjectId → List ObjectId) (repo : Repo W) : Seen :=
  let start := (unstage os targets).after repo
  match headRefs start.files with
  | .ok refs =>
    let commits := collect start.objects (refs.map (·.2))
    match (rewriteLoop os hashBytes targets commits (walkBudget commits)
        (iter (commits.map (·.1))).reverse).run (start, []) with
    | some (_, _, seen) => seen
    | none => []
  | .error _ => []

/-- Whether `HEAD` can be read and denotes the image of what it denoted before; a symbolic `HEAD`
names the same reference. -/
def HeadMoved (image : ObjectId → ObjectId) (fs fs' : RefFiles) : Prop :=
  ∃ head head', readHead fs = .ok head ∧ readHead fs' = .ok head' ∧
    (∀ name, head = .symbolic name → head' = .symbolic name) ∧
    ∀ id, resolve fs head = .ok (some id) → resolve fs' head' = .ok (some (image id))

/-- Whether an entry of the index is to go. -/
def Covers (paths : List RelPath) (path : RelPath) : Prop := ∃ p ∈ paths, p <+: path

instance (paths : List RelPath) (path : RelPath) : Decidable (Covers paths path) :=
  inferInstanceAs (Decidable (∃ p ∈ paths, p <+: path))

/-- Whether the index has lost the entries at and below the paths, and nothing else. -/
def IndexPurged (paths : List RelPath) (fs fs' : RefFiles) : Prop :=
  ∃ idx idx', Index.read fs indexPath = .ok idx ∧ Index.read fs' indexPath = .ok idx' ∧
    idx'.entries.Perm (idx.entries.filter fun e => ¬ Covers paths e.path)

/-! ## What is left -/

section Purged

variable (h : Purged os hashBytes targets iter repo repo' idx bytes refs commits mid seen)

include h

lemma Purged.newIds_eq : newIds os hashBytes targets iter repo = seen := by
  have hafter : (unstage os targets).after repo =
      { repo with files := repo.files.set indexPath bytes } := by
    rw [after, h.unstaged]
    rfl
  have hrefs := headRefs_set_index h.read_eq (Index.exists_of_toBytes h.bytes_eq)
  have hwalk := h.walk
  simp only [newIds, hafter, hrefs, h.refs_eq, ← h.commits_eq, hwalk]

/-- The images of references are what `HEAD` denotes, as long as `HEAD` can be read. -/
lemma Purged.headMoved_iff : HeadMoved (moved seen) repo.files repo'.files ↔
    ∃ head, readHead repo.files = .ok head ∧ ∀ y, head = .detached y → seen.lookup y = none := by
  constructor
  · rintro ⟨head, head', hhead, hhead', -, -⟩
    obtain ⟨hsame, hnone⟩ := h.readHead_iff.mp hhead'
    cases hhead.symm.trans hsame
    exact ⟨head, hhead, hnone⟩
  · rintro ⟨head, hhead, hnone⟩
    refine ⟨head, head, hhead,
      h.readHead_iff.mpr ⟨hhead, hnone⟩, fun _ heq => heq, fun id hid => ?_⟩
    cases head with
    | symbolic name =>
      refine resolve_of_refValue ?_
      rw [h.refValue_eq (.inr (.inr hhead)), refValue_of_resolve hid]
      rfl
    | detached y =>
      cases hid
      rw [moved, hnone id rfl]
      rfl

/-- The index that was written is still there: its file is no reference. -/
lemma Purged.get?_indexPath : repo'.files.get? indexPath = some bytes := by
  obtain ⟨last, hmoves, hfiles, -⟩ := h.moves
  obtain ⟨hmid, hrefs⟩ := h.headRefs_mid
  obtain ⟨rest, hrest⟩ := Index.exists_of_toBytes h.bytes_eq
  have hget : mid.files.get? indexPath = some bytes := by
    rw [hmid, RefFiles.get?_set_self]
  have hnot : ∀ y, (indexPath, y) ∉ refs := by
    intro y hy
    rcases cases_of_mem_headRefs hrefs hy with ⟨-, hname⟩ | ⟨hvalue, -⟩
    · exact absurd hname (by decide)
    · rw [hrest] at hget
      rw [Index.refValue_of_magic hget] at hvalue
      cases hvalue
  rw [hfiles, get?_of_updateRefs_of_notMem hnot hmoves, hget]

lemma Purged.indexRead (htargets : targets = paths.map (os.cwd ++ ·)) :
    Index.read repo'.files indexPath =
      .ok ⟨Index.sorted (idx.entries.filter (·.path ∉ paths))⟩ := by
  have hremove : (targets.map fun p => (stripPrefix os.cwd p).getD p) = paths := by
    rw [htargets, List.map_map]
    refine (List.map_congr_left fun p _ => ?_).trans (List.map_id paths)
    simp
  have hvalid := Index.validPath_of_read h.read_eq
  have hbytes := h.bytes_eq
  rw [hremove] at hbytes
  rw [Index.read, h.get?_indexPath]
  exact Index.parse_toBytes (fun e he => hvalid e (List.mem_filter.mp he).1) hbytes

/-- The entries at the targets have gone, and no others. -/
lemma Purged.indexPurged_iff (htargets : targets = paths.map (os.cwd ++ ·)) :
    IndexPurged paths repo.files repo'.files ↔
      ∀ e ∈ idx.entries, Covers paths e.path → e.path ∈ paths := by
  have hperm : (Index.sorted (idx.entries.filter (·.path ∉ paths))).Perm
      (idx.entries.filter (·.path ∉ paths)) := List.perm_insertionSort _ _
  constructor
  · rintro ⟨idx₀, idx₁, hread, hread', hsame⟩ e he hcovers
    cases h.read_eq.symm.trans hread
    cases (h.indexRead htargets).symm.trans hread'
    by_contra hpath
    have hmem : e ∈ idx.entries.filter (·.path ∉ paths) := by simp [he, hpath]
    have hmem' := (hperm.symm.trans hsame).mem_iff.mp hmem
    simp [hcovers] at hmem'
  · intro hcovers
    refine ⟨idx, _, h.read_eq, h.indexRead htargets, ?_⟩
    have hfilter : idx.entries.filter (·.path ∉ paths) =
        idx.entries.filter fun e => ¬ Covers paths e.path := by
      refine List.filter_congr fun e he => ?_
      have hiff : e.path ∈ paths ↔ Covers paths e.path :=
        ⟨fun hmem => ⟨e.path, hmem, List.prefix_refl _⟩, hcovers e he⟩
      simp only [hiff]
    rw [← hfilter]
    exact hperm

end Purged

/-! ## The result -/

/-- A purge leaves a usable repository exactly if `HEAD` could be read before and was not detached
at something that the purge visits, and no entry of the index was below a target. -/
theorem usable_iff {args : List Str} {first second : Result Str}
    (hcwd : os.canonicalCwd repo.workdir = some os.cwd)
    (hapart : ∀ p ∈ targetPaths os repo.workdir args, Apart p [gytName])
    (hrun : (run os hashBytes args iter first second).run repo = some (.ok .purged, repo')) :
    (HeadMoved (moved (newIds os hashBytes ((targetPaths os repo.workdir args).map (os.cwd ++ ·))
        iter repo)) repo.files repo'.files ∧
      IndexPurged (targetPaths os repo.workdir args) repo.files repo'.files) ↔
    ((∃ head, readHead repo.files = .ok head ∧
        ∀ y, head = .detached y → y ∉ purgeOrder iter repo) ∧
      ∀ idx, Index.read repo.files indexPath = .ok idx → ∀ e ∈ idx.entries,
        Covers (targetPaths os repo.workdir args) e.path →
          e.path ∈ targetPaths os repo.workdir args) := by
  obtain ⟨idx, bytes, refs, commits, mid, seen, h⟩ := purged_of_run hcwd hapart hrun
  have hpaths : [] ∉ targetPaths os repo.workdir args :=
    fun hnil => (hapart [] hnil).1 List.nil_prefix
  have horder := h.purgeOrder_eq (h.visitRun rfl hpaths)
  have hindex := h.read_eq
  rw [h.newIds_eq, h.headMoved_iff, h.indexPurged_iff rfl, horder]
  simp only [lookup_eq_none_iff, hindex, Except.ok.injEq, forall_eq']

/-- The repository with the two commits, a given `HEAD` and a given index. -/
def stagedRepo (head : Str) (staged : List RelPath) : Repo Unit where
  objects := sampleObjects.1
  files := ⟨[(headPath, Utf8.encode head), (sampleMain, refContent sampleObjects.2.2),
    (indexPath, ((Index.toBytes ⟨staged.map fun p => ⟨0, 0, 0, modeFile, .zero, p⟩⟩).toOption.getD
      []))], []⟩
  workdir := ()

/-- A symbolic `HEAD`, with the file `s` and another one in the index. -/
def symbolicRepo : Repo Unit := stagedRepo (headRefPrefix ++ sampleMain) [[['s']], [['t']]]

/-- A detached `HEAD`, with a file below `s` in the index. -/
def detachedRepo : Repo Unit :=
  stagedRepo (headDetachedPrefix ++ sampleObjects.2.2.toHex) [[['s'], ['t']]]

/-- With a symbolic `HEAD` and the target itself in the index, the repository stays usable. -/
theorem usable_iff_symbolic :
    HeadMoved (moved (newIds sampleOs sampleHash [[['w'], ['s']]] List.reverse symbolicRepo))
        symbolicRepo.files ((samplePurge List.reverse).after symbolicRepo).files ∧
      IndexPurged [[['s']]] symbolicRepo.files
        ((samplePurge List.reverse).after symbolicRepo).files := by
  have hrun : (run sampleOs sampleHash [['s']] List.reverse (.ok "DESTROY")
      (.ok "DESTROY")).run symbolicRepo =
        some (.ok .purged, (samplePurge List.reverse).after symbolicRepo) :=
    run_eq_after (by decide +kernel)
  refine (usable_iff rfl (by unfold Apart; decide) hrun).mpr
    ⟨⟨.symbolic sampleMain, by decide +kernel, fun y hy => nomatch hy⟩, fun idx hidx e he => ?_⟩
  have hall : ∀ idx ∈ (Index.read symbolicRepo.files indexPath).toOption, ∀ e ∈ idx.entries,
      Covers [[['s']]] e.path → e.path ∈ [[['s']]] := by decide +kernel
  exact hall idx (toOption_eq_some.mpr hidx) e he

/-- A detached `HEAD` cannot be read after the purge, and an entry below the target stays. -/
theorem detached_head_is_lost :
    (samplePurge List.reverse).run detachedRepo =
        some (.ok .purged, (samplePurge List.reverse).after detachedRepo) ∧
      (∀ image, ¬ HeadMoved image detachedRepo.files
        ((samplePurge List.reverse).after detachedRepo).files) ∧
      ¬ IndexPurged [[['s']]] detachedRepo.files
        ((samplePurge List.reverse).after detachedRepo).files := by
  refine ⟨run_eq_after (by decide +kernel), ?_, ?_⟩
  · rintro image ⟨head, head', -, hhead', -⟩
    have hnone : (readHead ((samplePurge List.reverse).after detachedRepo).files).toOption =
        none := by decide +kernel
    rw [hhead'] at hnone
    cases hnone
  · rintro ⟨idx, idx', hidx, hidx', hperm⟩
    have hall : ∀ idx ∈ (Index.read detachedRepo.files indexPath).toOption, ∀ idx' ∈ (Index.read
        ((samplePurge List.reverse).after detachedRepo).files indexPath).toOption,
        ¬ idx'.entries.Perm (idx.entries.filter fun e => ¬ Covers [[['s']]] e.path) := by
      decide +kernel
    exact hall idx (toOption_eq_some.mpr hidx) idx' (toOption_eq_some.mpr hidx') hperm

end Gyt.Purge
