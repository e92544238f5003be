import Gyt.Cmd.Workdir
import Gyt.Foundation.FileTree

/-!
# Working trees as file trees

The calls of the operating system on a file tree, and what the functions that bring a working tree
to a map of files do there.  A file tree is what the process can see.  Whether it may also change
something there depends on permission bits, owners, quotas and more, which are not modelled: a
`Mount` says at which paths all changes are refused, and nothing is assumed about it.  A call that
is refused has no effect.

An entry can be written if nothing but directories is above it, it is no directory itself, and no
change that this needs is refused (`CanEnter`).  A map of files can be written exactly if all its
entries can and no entry is above another one (`writeFiles_run`); before that, what only the index
has is removed, so that it is not in the way, unless that is refused (`applyFilesToWorkdir_run`).
-/

namespace Gyt

open Command Text List FileTree

/-- The result of a call that has no effect if it fails. -/
def callResult (t : FileTree Str) : Option (FileTree Str) → Except IoError Unit × FileTree Str
  | some t' => (.ok (), t')
  | none => (.error .other, t)

def Node.fileType : Node → FileType
  | .dir => .dir
  | .file _ _ => .file
  | .link _ => .symlink

/-- Where a working tree is, and at which paths the operating system refuses all changes, as for
lack of permission. -/
structure Mount where
  root : Str
  refuses : RelPath → Bool

namespace Mount

variable (mount : Mount)

/-- What a call leads to that changes what is at a path. -/
def permit (path : RelPath) (t : Option (FileTree Str)) : Option (FileTree Str) :=
  if mount.refuses path then none else t

/-- Creating directories; those that are there need not be changed. -/
def createDirAll (t : FileTree Str) (path : RelPath) : Option (FileTree Str) :=
  if ∀ q ∈ path.inits, t.node q = none → mount.refuses q = false then t.createDirAll path else none

variable {mount} {path : RelPath} {t t' : FileTree Str} {o : Option (FileTree Str)}

lemma permit_eq_some : mount.permit path o = some t ↔ mount.refuses path = false ∧ o = some t := by
  unfold permit
  split_ifs with h <;> simp [h]

lemma permit_isSome : (mount.permit path o).isSome ↔ mount.refuses path = false ∧ o.isSome := by
  unfold permit
  split_ifs with h <;> simp [h]

lemma createDirAll_isSome : (mount.createDirAll t path).isSome ↔ ∀ q, q <+: path →
    t.node q = none ∧ mount.refuses q = false ∨ t.node q = some .dir := by
  unfold createDirAll
  split_ifs with h
  · rw [FileTree.createDirAll_isSome]
    refine forall₂_congr fun q hq => or_congr_left (iff_self_and.mpr fun hnone => ?_)
    exact h q ((mem_inits q path).mpr hq) hnone
  · refine iff_of_false Bool.false_ne_true fun hall => h fun q hq hnone => ?_
    refine ((hall q ((mem_inits q path).mp hq)).resolve_right fun hdir => ?_).2
    cases hnone.symm.trans hdir

lemma node_createDirAll (h : mount.createDirAll t path = some t') (q : RelPath) :
    t'.node q = if q <+: path then some .dir else t.node q := by
  unfold createDirAll at h
  split_ifs at h
  exact FileTree.node_createDirAll h q

end Mount

/-- The calls of the operating system on file trees. -/
def treeOs (mount : Mount) : Os (FileTree Str) where
  root := mount.root
  fileType path t := (t.node path).map Node.fileType
  removeFile path t := callResult t (mount.permit path (t.removeFile path))
  createDirAll path t := callResult t (mount.createDirAll t path)
  symlink target path t := callResult t (mount.permit path (t.symlink target path))
  write path bytes t := callResult t (mount.permit path (t.write path bytes))
  setMode path mode t := callResult t (mount.permit path (t.setMode path mode))

/-- A working tree in which everything can be changed. -/
def sampleMount : Mount := ⟨[], fun _ => false⟩

/-- A repository whose working tree is a file tree. -/
abbrev TreeRepo := Repo (FileTree Str)

namespace WorkTree

variable {mount : Mount} {repo : TreeRepo} {path : RelPath} {t t' : FileTree Str}

/-- The repository with another working tree. -/
def withTree (repo : TreeRepo) (t : FileTree Str) : TreeRepo := { repo with workdir := t }

/-! ## Single calls -/

/-- A call succeeds or has no effect. -/
lemma system_callResult (f : FileTree Str → Option (FileTree Str)) :
    (system fun t => callResult t (f t)).run repo = some (match f repo.workdir with
        | some t => (.ok (), withTree repo t)
        | none => (.error (.io .other), repo)) := by
  rw [system, run_act]
  cases f repo.workdir <;> rfl

lemma system_ok {f : FileTree Str → Option (FileTree Str)} (h : f repo.workdir = some t) :
    (system fun t => callResult t (f t)).run repo = some (.ok (), withTree repo t) := by
  rw [system_callResult, h]

lemma system_error {f : FileTree Str → Option (FileTree Str)} (h : f repo.workdir = none) :
    (system fun t => callResult t (f t)).run repo = some (.error (.io .other), repo) := by
  rw [system_callResult, h]

/-- Whatever removing a file does, nothing but a directory is at the path afterwards, unless the
removal is refused. -/
lemma attempt_removeFile_run (mount : Mount) (path : RelPath) (repo : TreeRepo) :
    ∃ r t, (attempt (system ((treeOs mount).removeFile path))).run repo =
        some (.ok r, withTree repo t) ∧
      ∀ q, t.node q = if q = path ∧ mount.refuses q = false ∧ repo.workdir.node q ≠ some .dir
        then none else repo.workdir.node q := by
  cases hcall : mount.permit path (repo.workdir.removeFile path) with
  | some t =>
    obtain ⟨hfree, hremove⟩ := Mount.permit_eq_some.mp hcall
    have hdir := (removeFile_isSome.mp (hremove ▸ rfl : (repo.workdir.removeFile path).isSome)).2
    refine ⟨_, t, attempt_eq_some.mpr ⟨_, system_ok hcall, rfl⟩, fun q => ?_⟩
    rw [node_removeFile hremove]
    exact if_congr ⟨fun h => ⟨h, h ▸ hfree, h ▸ hdir⟩, And.left⟩ rfl rfl
  | none =>
    refine ⟨_, repo.workdir, attempt_eq_some.mpr ⟨_, system_error hcall, rfl⟩, fun q => ?_⟩
    split_ifs with hq
    · obtain ⟨rfl, hfree, hdir⟩ := hq
      by_contra hsome
      have hcan := Mount.permit_isSome.mpr ⟨hfree, removeFile_isSome.mpr ⟨hsome, hdir⟩⟩
      rw [hcall] at hcan
      cases hcan
    · rfl

lemma fileType_eq_symlink {n? : Option Node} :
    n?.map Node.fileType = some .symlink ↔ ∃ target, n? = some (.link target) := by
  constructor
  · intro h
    obtain ⟨n, rfl, htype⟩ := Option.map_eq_some_iff.mp h
    cases n with
    | dir => cases htype
    | file content mode => cases htype
    | link target => exact ⟨target, rfl⟩
  · rintro ⟨target, rfl⟩
    rfl

/-- Checking that no symbolic link is above a path. -/
lemma safeWorkdirPath_run (mount : Mount) (path : RelPath) (repo : TreeRepo) :
    (∀ q, q <+: path.dropLast → ∀ target, repo.workdir.node q ≠ some (.link target)) ∧
        (safeWorkdirPath (treeOs mount) path).run repo = some (.ok (), repo) ∨
      ∃ q target e, q <+: path.dropLast ∧ repo.workdir.node q = some (.link target) ∧
        (safeWorkdirPath (treeOs mount) path).run repo = some (.error e, repo) := by
  have hcheck : ∀ dir (repo : TreeRepo), (do
      let ft ← gets fun repo : TreeRepo => (treeOs mount).fileType dir repo.workdir
      if ft = some .symlink then fail (symlinkAncestor (treeOs mount) dir) else pure () :
        Cmd (FileTree Str) Unit).run repo =
      some (if (repo.workdir.node dir).map Node.fileType = some .symlink then
        (.error (symlinkAncestor (treeOs mount) dir), repo) else (.ok (), repo)) := by
    intro dir repo
    rw [run_bind_of_ok run_gets]
    show (if (repo.workdir.node dir).map Node.fileType = some .symlink then _ else _ :
      Cmd (FileTree Str) Unit).run repo = _
    split_ifs <;> rfl
  have hinits : path.dropLast.inits = [] :: path.dropLast.inits.drop 1 := by
    cases path.dropLast <;> rfl
  rcases forM_check (l := path.dropLast.inits.drop 1) (s := repo) hcheck with
    ⟨hall, hok⟩ | ⟨dir, hdir, hlink, herror⟩
  · refine .inl ⟨fun q hq target hnode => ?_, hok⟩
    rcases mem_cons.mp (hinits ▸ (mem_inits q _).mpr hq) with rfl | hmem
    · cases repo.workdir.node_nil.symm.trans hnode
    · exact hall q hmem (fileType_eq_symlink.mpr ⟨target, hnode⟩)
  · obtain ⟨target, hn⟩ := fileType_eq_symlink.mp hlink
    exact .inr ⟨dir, target, _, (mem_inits dir _).mp (mem_of_mem_drop hdir), hn, herror⟩

/-! ## Entries -/

/-- The node that an entry of a map of files stands for; none if its blob cannot be read or is no
target of a link. -/
def entryNode (s : Store) (mode : UInt32) (hash : ObjectId) : Option Node :=
  (Blob.read s hash).toOption.bind fun bytes =>
    if mode = modeSymlink then
      (Utf8.decode bytes).bind fun target =>
        if validateSymlinkTarget target = .ok () then some (.link target) else none
    else some (.file bytes (if mode = modeExec then 0o755 else 0o644))

variable {mode : UInt32} {hash : ObjectId} {n : Node}

section Enter

variable (hparent : repo.workdir.node path.dropLast = some .dir)
  (hdir : repo.workdir.node path ≠ some .dir) (hfree : mount.refuses path = false)

include hparent hdir hfree

/-- Writing a symbolic link over anything but a directory. -/
lemma writeSymlink_ok {bytes : Bytes} {target : Str} (hdecode : Utf8.decode bytes = some target)
    (hvalid : validateSymlinkTarget target = .ok ()) :
    ∃ t, (writeSymlink (treeOs mount) path bytes).run repo = some (.ok (), withTree repo t) ∧
      ∀ q, t.node q = if q = path then some (.link target) else repo.workdir.node q := by
  have hne : path ≠ path.dropLast := fun heq => hdir (heq ▸ hparent)
  obtain ⟨r, t₁, hremove, hnode₁⟩ := attempt_removeFile_run mount path repo
  have hparent₁ : t₁.node path.dropLast = some .dir := by
    rw [hnode₁, if_neg fun h => hne h.1.symm, hparent]
  have hnone₁ : t₁.node path = none := by rw [hnode₁, if_pos ⟨rfl, hfree, hdir⟩]
  obtain ⟨t₂, hcall⟩ := Option.isSome_iff_exists.mp
    (Mount.permit_isSome.mpr ⟨hfree, symlink_isSome.mpr ⟨hparent₁, hnone₁⟩⟩ :
      (mount.permit path (t₁.symlink target path)).isSome)
  refine ⟨t₂, ?_, fun q => ?_⟩
  · unfold writeSymlink
    rw [hdecode, okOr_some, run_lift_ok_bind, hvalid, run_lift_ok_bind, run_bind_of_ok hremove]
    exact system_ok hcall
  · rw [node_symlink (Mount.permit_eq_some.mp hcall).2]
    by_cases hq : q = path
    · rw [if_pos hq, if_pos hq]
    · rw [if_neg hq, if_neg hq, hnode₁, if_neg fun h => hq h.1]

omit hparent in
/-- A link at a path is removed, so that no file is written through it. -/
lemma unlinkSymlink_ok : ∃ t, (unlinkSymlink (treeOs mount) path).run repo =
      some (.ok (), withTree repo t) ∧ (∀ target, t.node path ≠ some (.link target)) ∧
      t.node path ≠ some .dir ∧ ∀ q, q ≠ path → t.node q = repo.workdir.node q := by
  unfold unlinkSymlink
  rw [run_gets_bind]
  by_cases hlink : ∃ target, repo.workdir.node path = some (.link target)
  · obtain ⟨target, hlink⟩ := hlink
    obtain ⟨t, hcall⟩ := Option.isSome_iff_exists.mp
      (Mount.permit_isSome.mpr ⟨hfree, removeFile_isSome.mpr ⟨by simp [hlink], hdir⟩⟩ :
        (mount.permit path (repo.workdir.removeFile path)).isSome)
    have htype : (treeOs mount).fileType path repo.workdir = some .symlink :=
      fileType_eq_symlink.mpr ⟨target, hlink⟩
    have hnode := node_removeFile (Mount.permit_eq_some.mp hcall).2
    rw [if_pos htype]
    refine ⟨t, system_ok hcall, fun target => ?_, ?_, fun q hq => ?_⟩
    · rw [hnode, if_pos rfl]
      simp
    · rw [hnode, if_pos rfl]
      simp
    · rw [hnode, if_neg hq]
  · rw [if_neg (show ¬ (treeOs mount).fileType path repo.workdir = some .symlink from
      fun htype => hlink (fileType_eq_symlink.mp htype))]
    exact ⟨repo.workdir, rfl, fun target h => hlink ⟨target, h⟩, hdir, fun q _ => rfl⟩

/-- Writing a regular file over anything but a directory. -/
lemma writeRegular_ok (mode : UInt32) (bytes : Bytes) :
    ∃ t, (writeRegular (treeOs mount) path mode bytes).run repo = some (.ok (), withTree repo t) ∧
      ∀ q, t.node q = if q = path then some (.file bytes (if mode = modeExec then 0o755 else 0o644))
        else repo.workdir.node q := by
  have hne : path ≠ path.dropLast := fun heq => hdir (heq ▸ hparent)
  obtain ⟨t₁, hunlink, hlink₁, hpath₁, hnode₁⟩ := unlinkSymlink_ok hdir hfree
  have hparent₁ : t₁.node path.dropLast = some .dir := by rw [hnode₁ _ (Ne.symm hne), hparent]
  obtain ⟨t₂, hwrite⟩ := Option.isSome_iff_exists.mp
    (write_isSome.mpr ⟨hparent₁, hpath₁, hlink₁⟩ : (t₁.write path bytes).isSome)
  obtain ⟨m, hnode₂⟩ := node_write hwrite
  have hfile : t₂.node path = some (.file bytes m) := by rw [hnode₂, if_pos rfl]
  obtain ⟨t₃, hmode, hnode₃⟩ := setMode_of_file hfile (if mode = modeExec then 0o755 else 0o644)
  refine ⟨t₃, ?_, fun q => ?_⟩
  · have hrun : (system ((treeOs mount).write path bytes)).run (withTree repo t₁) =
        some (.ok (), withTree repo t₂) := system_ok (Mount.permit_eq_some.mpr ⟨hfree, hwrite⟩)
    unfold writeRegular
    rw [run_bind_of_ok hunlink, run_bind_of_ok hrun]
    exact system_ok (Mount.permit_eq_some.mpr ⟨hfree, hmode⟩)
  · rw [hnode₃, hnode₂]
    by_cases hq : q = path
    · rw [if_pos hq, if_pos hq]
    · rw [if_neg hq, if_neg hq, if_neg hq, hnode₁ q hq]

/-- Writing an entry of a map of files. -/
lemma writeWorkdirEntry_ok (hnode : entryNode repo.objects mode hash = some n) :
    ∃ t, (writeWorkdirEntry (treeOs mount) path mode hash).run repo =
        some (.ok (), withTree repo t) ∧
      ∀ q, t.node q = if q = path then some n else repo.workdir.node q := by
  obtain ⟨bytes, hread, hbytes⟩ := Option.bind_eq_some_iff.mp hnode
  have hrun : (readObjects (Blob.read · hash) : Cmd (FileTree Str) Bytes).run repo =
      some (.ok bytes, repo) := readObjects_eq_ok.mpr ⟨toOption_eq_some.mp hread, rfl⟩
  unfold writeWorkdirEntry
  rw [run_bind_of_ok hrun]
  by_cases hmode : mode = modeSymlink
  · rw [if_pos hmode] at hbytes ⊢
    obtain ⟨target, hdecode, hvalid⟩ := Option.bind_eq_some_iff.mp hbytes
    split_ifs at hvalid with htarget
    cases hvalid
    exact writeSymlink_ok hparent hdir hfree hdecode htarget
  · rw [if_neg hmode] at hbytes ⊢
    cases hbytes
    exact writeRegular_ok hparent hdir hfree mode bytes

end Enter

/-- What is at a path cannot be replaced by a file or a link. -/
def Blocked (mount : Mount) (t : FileTree Str) (path : RelPath) : Prop :=
  t.node path = some .dir ∨ mount.refuses path = true

/-- A symbolic link is not written if its target is not valid, or where it cannot be. -/
lemma writeSymlink_error {bytes : Bytes} (h : (∀ target, Utf8.decode bytes = some target →
      validateSymlinkTarget target ≠ .ok ()) ∨ Blocked mount repo.workdir path) :
    ∃ e, (writeSymlink (treeOs mount) path bytes).run repo = some (.error e, repo) := by
  unfold writeSymlink
  cases hdecode : Utf8.decode bytes with
  | none => exact ⟨_, rfl⟩
  | some target =>
    rw [okOr_some, run_lift_ok_bind]
    cases hvalid : validateSymlinkTarget target with
    | error e => exact ⟨e, rfl⟩
    | ok u =>
      have hblocked := h.resolve_left fun hall => hall target hdecode hvalid
      have hremove : mount.permit path (repo.workdir.removeFile path) = none := by
        rw [← Option.not_isSome_iff_eq_none, Mount.permit_isSome, removeFile_isSome]
        rintro ⟨hfree, -, hdir⟩
        exact hblocked.elim hdir (Bool.eq_false_iff.mp hfree)
      have hlink : mount.permit path (repo.workdir.symlink target path) = none := by
        rw [← Option.not_isSome_iff_eq_none, Mount.permit_isSome, symlink_isSome]
        rintro ⟨hfree, -, hnone⟩
        rcases hblocked with hdir | hrefused
        · cases hnone.symm.trans hdir
        · exact Bool.eq_false_iff.mp hfree hrefused
      have hattempt : (attempt (system ((treeOs mount).removeFile path))).run repo =
          some (.ok (.error (.io .other)), repo) :=
        attempt_eq_some.mpr ⟨_, system_error hremove, rfl⟩
      rw [run_lift_ok_bind, run_bind_of_ok hattempt]
      exact ⟨_, system_error hlink⟩

/-- A regular file is not written where it cannot be. -/
lemma writeRegular_error (h : Blocked mount repo.workdir path) (mode : UInt32) (bytes : Bytes) :
    ∃ e, (writeRegular (treeOs mount) path mode bytes).run repo = some (.error e, repo) := by
  unfold writeRegular unlinkSymlink
  by_cases hlink : (treeOs mount).fileType path repo.workdir = some .symlink
  · have hunlink : (unlinkSymlink (treeOs mount) path).run repo =
        some (.error (.io .other), repo) := by
      unfold unlinkSymlink
      rw [run_gets_bind, if_pos hlink]
      refine system_error (Option.not_isSome_iff_eq_none.mp fun hsome => ?_)
      rw [Mount.permit_isSome, removeFile_isSome] at hsome
      exact h.elim hsome.2.2 (Bool.eq_false_iff.mp hsome.1)
    exact ⟨_, run_bind_of_error hunlink⟩
  · have hunlink : (unlinkSymlink (treeOs mount) path).run repo = some (.ok (), repo) := by
      unfold unlinkSymlink
      rw [run_gets_bind, if_neg hlink]
      rfl
    have hwrite : (system ((treeOs mount).write path bytes)).run repo =
        some (.error (.io .other), repo) := by
      refine system_error (Option.not_isSome_iff_eq_none.mp fun hsome => ?_)
      rw [Mount.permit_isSome, write_isSome] at hsome
      exact h.elim hsome.2.2.1 (Bool.eq_false_iff.mp hsome.1)
    exact ⟨_, (run_bind_of_ok hunlink).trans (run_bind_of_error hwrite)⟩

/-- An entry without a node, or where it cannot be, is not written. -/
lemma writeWorkdirEntry_error
    (h : entryNode repo.objects mode hash = none ∨ Blocked mount repo.workdir path) :
    ∃ e, (writeWorkdirEntry (treeOs mount) path mode hash).run repo = some (.error e, repo) := by
  unfold writeWorkdirEntry
  cases hread : Blob.read repo.objects hash with
  | error e =>
    exact ⟨e, run_bind_of_error (run_readObjects.trans (by rw [hread]))⟩
  | ok bytes =>
    rw [run_bind_of_ok (run_readObjects.trans (by rw [hread]))]
    unfold entryNode at h
    rw [hread] at h
    by_cases hmode : mode = modeSymlink
    · rw [if_pos hmode]
      refine writeSymlink_error (h.imp_left fun hnone target hdecode hvalid => ?_)
      simp [Except.toOption, hmode, hdecode, hvalid] at hnone
    · rw [if_neg hmode]
      refine writeRegular_error (h.resolve_left fun hnone => ?_) mode bytes
      simp [Except.toOption, hmode] at hnone

lemma entryNode_ne_dir {s : Store} : entryNode s mode hash ≠ some .dir := by
  intro h
  obtain ⟨bytes, -, hbytes⟩ := Option.bind_eq_some_iff.mp h
  by_cases hmode : mode = modeSymlink
  · rw [if_pos hmode] at hbytes
    obtain ⟨target, -, htarget⟩ := Option.bind_eq_some_iff.mp hbytes
    split_ifs at htarget
    cases htarget
  · rw [if_neg hmode] at hbytes
    cases hbytes

/-- Nothing but directories is above a path, it is no directory itself, and no change is refused
that writing there needs. -/
structure CanEnter (mount : Mount) (t : FileTree Str) (path : RelPath) : Prop where
  above : ∀ q, q <+: path → q ≠ path →
    t.node q = none ∧ mount.refuses q = false ∨ t.node q = some .dir
  leaf : t.node path ≠ some .dir
  free : mount.refuses path = false

lemma CanEnter.ne_nil (h : CanEnter mount t path) : path ≠ [] := by
  rintro rfl
  exact h.leaf t.node_nil

lemma prefix_dropLast_iff {q : RelPath} (hne : path ≠ []) :
    q <+: path.dropLast ↔ q <+: path ∧ q ≠ path := by
  obtain ⟨init, k, rfl⟩ := (eq_nil_or_concat path).resolve_left hne
  rw [concat_eq_append, dropLast_concat, prefix_concat_iff]
  constructor
  · intro h
    refine ⟨.inr h, ?_⟩
    rintro rfl
    simpa using h.length_le
  · rintro ⟨heq | h, hq⟩
    · exact absurd heq hq
    · exact h

variable {file : TreeFile}

/-- Writing a file that can be entered. -/
lemma writeFile_ok (henter : CanEnter mount repo.workdir file.1)
    (hnode : entryNode repo.objects file.2.1 file.2.2 = some n) :
    ∃ t, (writeFile (treeOs mount) file).run repo = some (.ok (), withTree repo t) ∧
      ∀ q, t.node q = if q = file.1 then some n else if q <+: file.1 then some .dir
        else repo.workdir.node q := by
  have hne := henter.ne_nil
  have habove : ∀ q, q <+: file.1.dropLast →
      repo.workdir.node q = none ∧ mount.refuses q = false ∨ repo.workdir.node q = some .dir :=
    fun q hq =>
      henter.above q ((prefix_dropLast_iff hne).mp hq).1 ((prefix_dropLast_iff hne).mp hq).2
  have hsafe : (safeWorkdirPath (treeOs mount) file.1).run repo = some (.ok (), repo) := by
    rcases safeWorkdirPath_run mount file.1 repo with ⟨-, hok⟩ | ⟨q, target, e, hq, hlink, -⟩
    · exact hok
    · rcases habove q hq with ⟨h, -⟩ | h <;> cases h.symm.trans hlink
  obtain ⟨t₁, hdirs⟩ := Option.isSome_iff_exists.mp (Mount.createDirAll_isSome.mpr habove)
  have hnode₁ := Mount.node_createDirAll hdirs
  have hself : ¬ file.1 <+: file.1.dropLast := fun h => ((prefix_dropLast_iff hne).mp h).2 rfl
  have hcreate : (system ((treeOs mount).createDirAll file.1.dropLast)).run repo =
      some (.ok (), withTree repo t₁) := system_ok hdirs
  have hparent : (withTree repo t₁).workdir.node file.1.dropLast = some .dir := by
    show t₁.node _ = _
    rw [hnode₁, if_pos (prefix_refl _)]
  have hleaf : (withTree repo t₁).workdir.node file.1 ≠ some .dir := by
    show t₁.node _ ≠ _
    rw [hnode₁, if_neg hself]
    exact henter.leaf
  have hentry : entryNode (withTree repo t₁).objects file.2.1 file.2.2 = some n := hnode
  obtain ⟨t₂, hwrite, hnode₂⟩ := writeWorkdirEntry_ok hparent hleaf henter.free hentry
  refine ⟨t₂, ?_, fun q => ?_⟩
  · unfold writeFile
    rw [run_bind_of_ok hsafe, run_bind_of_ok hcreate]
    exact hwrite
  · have hq : (withTree repo t₁).workdir.node q = t₁.node q := rfl
    rw [hnode₂, hq, hnode₁]
    by_cases heq : q = file.1
    · rw [if_pos heq, if_pos heq]
    · rw [if_neg heq, if_neg heq]
      simp only [prefix_dropLast_iff hne, heq, ne_eq, not_false_eq_true, and_true]

/-- A file that cannot be entered is not written; directories may have been created for it. -/
lemma writeFile_error (h : ¬ (CanEnter mount repo.workdir file.1 ∧
      (entryNode repo.objects file.2.1 file.2.2).isSome)) :
    ∃ e t, (writeFile (treeOs mount) file).run repo = some (.error e, withTree repo t) := by
  unfold writeFile
  rcases safeWorkdirPath_run mount file.1 repo with ⟨-, hsafe⟩ | ⟨_, _, e, -, -, hsafe⟩
  swap
  · exact ⟨e, repo.workdir, run_bind_of_error hsafe⟩
  rw [run_bind_of_ok hsafe]
  cases hdirs : mount.createDirAll repo.workdir file.1.dropLast with
  | none => exact ⟨_, repo.workdir, run_bind_of_error (system_error hdirs)⟩
  | some t₁ =>
    have hcreate : (system ((treeOs mount).createDirAll file.1.dropLast)).run repo =
        some (.ok (), withTree repo t₁) := system_ok hdirs
    have habove := Mount.createDirAll_isSome.mp (hdirs ▸ rfl :
      (mount.createDirAll repo.workdir file.1.dropLast).isSome = true)
    have hblocked : entryNode (withTree repo t₁).objects file.2.1 file.2.2 = none ∨
        Blocked mount (withTree repo t₁).workdir file.1 := by
      by_contra hfree
      rw [not_or, Blocked, not_or, Bool.not_eq_true] at hfree
      obtain ⟨hnode, hdir, hallowed⟩ := hfree
      have hne : file.1 ≠ [] := fun hnil => hdir (hnil ▸ t₁.node_nil)
      refine h ⟨⟨fun q hq hqne => habove q ((prefix_dropLast_iff hne).mpr ⟨hq, hqne⟩), ?_,
        hallowed⟩, Option.isSome_iff_ne_none.mpr hnode⟩
      intro hleaf
      refine hdir (?_ : t₁.node file.1 = some .dir)
      rw [Mount.node_createDirAll hdirs, hleaf, ite_self]
    obtain ⟨e, hentry⟩ := writeWorkdirEntry_error hblocked
    rw [run_bind_of_ok hcreate]
    exact ⟨e, t₁, hentry⟩

/-! ## Maps of files -/

/-- Files that can be written one after the other: each of them can be entered, and none is above
another one. -/
structure Fits (mount : Mount) (s : Store) (t : FileTree Str)
    (files : List TreeFile) : Prop where
  canEnter : ∀ f ∈ files, CanEnter mount t f.1
  hasNode : ∀ f ∈ files, (entryNode s f.2.1 f.2.2).isSome
  apart : ∀ f ∈ files, ∀ g ∈ files, f.1 <+: g.1 → f.1 = g.1

variable {files : List TreeFile}

section Written

variable (ht' : ∀ q, t'.node q = if q = file.1 then some n else if q <+: file.1 then some .dir
  else t.node q)

include ht'

/-- The other files still fit after one was written. -/
lemma Fits.tail {s : Store} (h : Fits mount s t (file :: files))
    (hfresh : ∀ f ∈ files, f.1 ≠ file.1) : Fits mount s t' files := by
  have hfile : file ∈ file :: files := mem_cons_self
  have hmem : ∀ {f}, f ∈ files → f ∈ file :: files := mem_cons_of_mem _
  refine ⟨fun f hf => ⟨fun q hq hqne => ?_, ?_, (h.canEnter f (hmem hf)).free⟩,
    fun f hf => h.hasNode f (hmem hf),
    fun f hf g hg => h.apart f (hmem hf) g (hmem hg)⟩
  · have hq' : q ≠ file.1 := fun heq => hqne (heq ▸ h.apart file hfile f (hmem hf) (heq ▸ hq))
    rw [ht', if_neg hq']
    split_ifs
    · exact .inr rfl
    · exact (h.canEnter f (hmem hf)).above q hq hqne
  · have hpre : ¬ f.1 <+: file.1 := fun hpre =>
      hfresh f hf (h.apart f (hmem hf) file hfile hpre)
    rw [ht', if_neg (hfresh f hf), if_neg hpre]
    exact (h.canEnter f (hmem hf)).leaf

/-- Files of which the first one could be written, and the others after it, fit. -/
lemma Fits.cons {s : Store} (henter : CanEnter mount t file.1)
    (hnode : entryNode s file.2.1 file.2.2 = some n) (hfresh : ∀ f ∈ files, f.1 ≠ file.1)
    (h : Fits mount s t' files) : Fits mount s t (file :: files) := by
  have hleaf : t'.node file.1 = some n := by rw [ht', if_pos rfl]
  have hn : n ≠ .dir := fun heq => entryNode_ne_dir (heq ▸ hnode)
  -- No file that was written later is above the first one, or below it.
  have hbelow : ∀ f ∈ files, ¬ file.1 <+: f.1 := by
    intro f hf hpre
    rcases (h.canEnter f hf).above file.1 hpre (Ne.symm (hfresh f hf)) with ⟨hnone, -⟩ | hdir
    · cases hleaf.symm.trans hnone
    · exact hn (Option.some.inj (hleaf.symm.trans hdir))
  have habove : ∀ f ∈ files, ¬ f.1 <+: file.1 := by
    intro f hf hpre
    exact (h.canEnter f hf).leaf (by rw [ht', if_neg (hfresh f hf), if_pos hpre])
  refine ⟨forall_mem_cons.mpr
      ⟨henter, fun f hf => ⟨fun q hq hqne => ?_, ?_, (h.canEnter f hf).free⟩⟩,
    forall_mem_cons.mpr ⟨hnode ▸ rfl, h.hasNode⟩, fun f hf g hg hpre => ?_⟩
  · by_cases hqfile : q <+: file.1
    · by_cases heq : q = file.1
      · exact absurd (heq ▸ hq) (hbelow f hf)
      · exact henter.above q hqfile heq
    · have hqne' : q ≠ file.1 := fun heq => hqfile (heq ▸ prefix_refl _)
      have hq' := (h.canEnter f hf).above q hq hqne
      rwa [ht', if_neg hqne', if_neg hqfile] at hq'
  · have hleaf' := (h.canEnter f hf).leaf
    rwa [ht', if_neg (hfresh f hf), if_neg (habove f hf)] at hleaf'
  · rcases mem_cons.mp hf with hf | hf <;> rcases mem_cons.mp hg with hg | hg
    · rw [hf, hg]
    · exact absurd (hf ▸ hpre) (hbelow g hg)
    · exact absurd (hg ▸ hpre) (habove f hf)
    · exact h.apart f hf g hg hpre

end Written

/-- The tree in which files have been written: directories are above them, and everything else is as
it was. -/
structure Written (s : Store) (t t' : FileTree Str) (files : List TreeFile) :
    Prop where
  entry : ∀ f ∈ files, t'.node f.1 = entryNode s f.2.1 f.2.2
  other : ∀ q, (∀ f ∈ files, q ≠ f.1) →
    t'.node q = if ∃ f ∈ files, q <+: f.1 then some .dir else t.node q

/-- Files are written exactly if they fit. -/
theorem writeFiles_run (repo : TreeRepo) (mount : Mount) (hnodup : (files.map (·.1)).Nodup) :
    ∃ r t, (files.forM (writeFile (treeOs mount))).run repo = some (r, withTree repo t) ∧
      (r = .ok () ↔ Fits mount repo.objects repo.workdir files) ∧
      (r = .ok () → Written repo.objects repo.workdir t files) := by
  induction files generalizing repo with
  | nil =>
    exact ⟨.ok (), repo.workdir, rfl, iff_of_true rfl ⟨by simp, by simp, by simp⟩,
      fun _ => ⟨by simp, by simp⟩⟩
  | cons f files ih =>
    obtain ⟨hf, hrest⟩ := nodup_cons.mp hnodup
    have hfresh : ∀ g ∈ files, g.1 ≠ f.1 := fun g hg heq =>
      hf (mem_map.mpr ⟨g, hg, heq⟩)
    by_cases hfirst : CanEnter mount repo.workdir f.1 ∧
        (entryNode repo.objects f.2.1 f.2.2).isSome
    swap
    · -- The loop stops at the first file.
      obtain ⟨e, t, herror⟩ := writeFile_error hfirst
      refine ⟨.error e, t, run_bind_of_error herror, iff_of_false (by simp) fun hfits => hfirst ?_,
        by simp⟩
      exact ⟨hfits.canEnter f mem_cons_self, hfits.hasNode f mem_cons_self⟩
    · obtain ⟨henter, hnode⟩ := hfirst
      obtain ⟨n, hn⟩ := Option.isSome_iff_exists.mp hnode
      obtain ⟨t₁, hwrite, hnode₁⟩ := writeFile_ok henter hn
      obtain ⟨r, t₂, hfiles, hok, hwritten⟩ := ih (withTree repo t₁) hrest
      have hfits : r = .ok () ↔ Fits mount repo.objects repo.workdir (f :: files) :=
        hok.trans ⟨.cons hnode₁ henter hn hfresh, fun h => h.tail hnode₁ hfresh⟩
      refine ⟨r, t₂, (run_bind_of_ok hwrite).trans hfiles, hfits, fun hr => ?_⟩
      have hother : ∀ q, (∀ g ∈ files, q ≠ g.1) →
          t₂.node q = if ∃ g ∈ files, q <+: g.1 then some .dir else t₁.node q :=
        (hwritten hr).other
      refine ⟨forall_mem_cons.mpr ⟨?_, (hwritten hr).entry⟩, fun q hq => ?_⟩
      · have hnone : ¬ ∃ g ∈ files, f.1 <+: g.1 := by
          rintro ⟨g, hg, hpre⟩
          refine hfresh g hg ?_
          exact ((hfits.mp hr).apart f mem_cons_self g (mem_cons_of_mem _ hg) hpre).symm
        rw [hother f.1 fun g hg => (hfresh g hg).symm, if_neg hnone, hnode₁, if_pos rfl, hn]
      · obtain ⟨hqf, hqfiles⟩ := forall_mem_cons.mp hq
        rw [hother q hqfiles, hnode₁, if_neg hqf]
        by_cases hfile : q <+: f.1
        · rw [if_pos hfile, ite_self, if_pos ⟨f, mem_cons_self, hfile⟩]
        · rw [if_neg hfile]
          refine if_congr ?_ rfl rfl
          rw [List.exists_mem_cons_iff, or_iff_right hfile]

/-! ## Bringing a working tree to a map of files -/

variable {merged : FileMap} {idx : Index}

lemma removeStale_run (repo : TreeRepo) (mount : Mount) (merged : FileMap) (entry : IndexEntry) :
    ∃ t, (removeStale (treeOs mount) merged entry).run repo = some (.ok (), withTree repo t) ∧
      ∀ q, t.node q = if q = entry.path ∧ q ∉ merged ∧ mount.refuses q = false ∧
        repo.workdir.node q ≠ some .dir then none else repo.workdir.node q := by
  have htype : (treeOs mount).fileType entry.path repo.workdir =
      (repo.workdir.node entry.path).map Node.fileType := rfl
  unfold removeStale
  rw [run_gets_bind, htype, Option.isSome_map]
  by_cases hstale : entry.path ∉ merged ∧ (repo.workdir.node entry.path).isSome
  · obtain ⟨r, t, hremove, hnode⟩ := attempt_removeFile_run mount entry.path repo
    rw [if_pos hstale]
    refine ⟨t, run_bind_of_ok hremove, fun q => (hnode q).trans ?_⟩
    exact if_congr ⟨fun h => ⟨h.1, h.1 ▸ hstale.1, h.2⟩, fun h => ⟨h.1, h.2.2⟩⟩ rfl rfl
  · rw [if_neg hstale]
    refine ⟨repo.workdir, rfl, fun q => ?_⟩
    split_ifs with hq
    · obtain ⟨rfl, hmem, -⟩ := hq
      exact Option.not_isSome_iff_eq_none.mp fun hsome => hstale ⟨hmem, hsome⟩
    · rfl

/-- Whether a file is removed that the index has and the new files have not. -/
def Stale (mount : Mount) (t : FileTree Str) (idx : Index) (merged : FileMap) (q : RelPath) :
    Prop :=
  q ∈ idx.entries.map (·.path) ∧ q ∉ merged ∧ mount.refuses q = false ∧ t.node q ≠ some .dir

instance (mount : Mount) (t : FileTree Str) (idx : Index) (merged : FileMap) (q : RelPath) :
    Decidable (Stale mount t idx merged q) :=
  inferInstanceAs (Decidable (_ ∧ _))

/-- The files that the index has and the new files have not are removed. -/
lemma removeStales_run (repo : TreeRepo) (mount : Mount) (merged : FileMap)
    (entries : List IndexEntry) :
    ∃ t, (entries.forM (removeStale (treeOs mount) merged)).run repo =
        some (.ok (), withTree repo t) ∧
      ∀ q, t.node q = if Stale mount repo.workdir ⟨entries⟩ merged q then none
        else repo.workdir.node q := by
  induction entries generalizing repo with
  | nil => exact ⟨repo.workdir, rfl, fun q => by simp [Stale]⟩
  | cons entry entries ih =>
    obtain ⟨t₁, hrun₁, hnode₁⟩ := removeStale_run repo mount merged entry
    obtain ⟨t₂, hrun₂, hnode₂⟩ := ih (withTree repo t₁)
    refine ⟨t₂, (run_bind_of_ok hrun₁).trans hrun₂, fun q => ?_⟩
    have hwork : (withTree repo t₁).workdir = t₁ := rfl
    rw [hnode₂, hwork, hnode₁]
    by_cases hfirst : q = entry.path ∧ q ∉ merged ∧ mount.refuses q = false ∧
        repo.workdir.node q ≠ some .dir
    · rw [if_pos hfirst, ite_self]
      exact (if_pos ⟨hfirst.1 ▸ mem_cons_self, hfirst.2⟩).symm
    · rw [if_neg hfirst]
      refine if_congr ?_ rfl rfl
      unfold Stale
      rw [hnode₁, if_neg hfirst, map_cons]
      refine ⟨fun h => ⟨mem_cons_of_mem _ h.1, h.2⟩, fun h => ⟨?_, h.2⟩⟩
      exact (mem_cons.mp h.1).resolve_left fun heq => hfirst ⟨heq, h.2⟩

/-- A map of files can be written over the files of an index: what is above a file is a directory,
or nothing or in the index, no file is at the path of a directory, no change is refused, the content
of every file can be read, and no file is above another one. -/
structure Applies (mount : Mount) (s : Store) (t : FileTree Str) (idx : Index) (merged : FileMap) :
    Prop where
  above : ∀ f ∈ merged.toList, ∀ q, q <+: f.1 → q ≠ f.1 → t.node q = some .dir ∨
    (t.node q = none ∨ q ∈ idx.entries.map (·.path)) ∧ mount.refuses q = false
  leaf : ∀ f ∈ merged.toList, t.node f.1 ≠ some .dir
  free : ∀ f ∈ merged.toList, mount.refuses f.1 = false
  hasNode : ∀ f ∈ merged.toList, (entryNode s f.2.1 f.2.2).isSome
  apart : ∀ f ∈ merged.toList, ∀ g ∈ merged.toList, f.1 <+: g.1 → f.1 = g.1

lemma nodup_paths (merged : FileMap) : (merged.toList.map (·.1)).Nodup := by
  rw [Std.TreeMap.map_fst_toList_eq_keys]
  exact Std.TreeMap.nodup_keys

lemma mem_paths {q : RelPath} : (∃ f ∈ merged.toList, f.1 = q) ↔ q ∈ merged := by
  rw [← Std.TreeMap.mem_keys, ← Std.TreeMap.map_fst_toList_eq_keys, mem_map]

/-- What can be written before and after the files of the index were removed. -/
lemma fits_iff_applies {s : Store}
    (ht' : ∀ q, t'.node q = if Stale mount t idx merged q then none else t.node q) :
    Fits mount s t' merged.toList ↔ Applies mount s t idx merged := by
  have hdir : ∀ q, t'.node q = some .dir ↔ t.node q = some .dir := by
    intro q
    rw [ht']
    split_ifs with hq
    · exact iff_of_false (by simp) hq.2.2.2
    · rfl
  -- A path above a new file is no new file itself.
  have habove : ∀ q, q ∉ merged →
      (t'.node q = none ∧ mount.refuses q = false ∨ t'.node q = some .dir ↔ t.node q = some .dir ∨
        (t.node q = none ∨ q ∈ idx.entries.map (·.path)) ∧ mount.refuses q = false) := by
    intro q hmem
    rw [hdir, ht']
    unfold Stale
    by_cases hq : q ∈ idx.entries.map (·.path) <;> by_cases hd : t.node q = some .dir <;>
      by_cases hfree : mount.refuses q = false <;> simp [hq, hmem, hd, hfree]
  have hnew : (∀ f ∈ merged.toList, ∀ g ∈ merged.toList, f.1 <+: g.1 → f.1 = g.1) →
      ∀ f ∈ merged.toList, ∀ q, q <+: f.1 → q ≠ f.1 → q ∉ merged := by
    intro hapart f hf q hq hne hmem
    obtain ⟨g, hg, rfl⟩ := mem_paths.mpr hmem
    exact hne (hapart g hg f hf hq)
  constructor
  · rintro ⟨henter, hnode, hapart⟩
    exact ⟨fun f hf q hq hne => (habove q (hnew hapart f hf q hq hne)).mp
        ((henter f hf).above q hq hne),
      fun f hf h => (henter f hf).leaf ((hdir _).mpr h), fun f hf => (henter f hf).free, hnode,
      hapart⟩
  · rintro ⟨hover, hleaf, hfree, hnode, hapart⟩
    exact ⟨fun f hf => ⟨fun q hq hne => (habove q (hnew hapart f hf q hq hne)).mpr
        (hover f hf q hq hne), fun h => hleaf f hf ((hdir _).mp h), hfree f hf⟩, hnode, hapart⟩

/-- Bringing the working tree to a map of files: it succeeds exactly if the map can be written. -/
theorem applyFilesToWorkdir_run (mount : Mount) (hidx : Index.read repo.files indexPath = .ok idx)
    (merged : FileMap) :
    ∃ r t₁ t, (applyFilesToWorkdir (treeOs mount) merged).run repo = some (r, withTree repo t) ∧
      (r = .ok () ↔ Applies mount repo.objects repo.workdir idx merged) ∧
      (∀ q, t₁.node q =
        if Stale mount repo.workdir idx merged q then none else repo.workdir.node q) ∧
      (r = .ok () → Written repo.objects t₁ t merged.toList) := by
  obtain ⟨t₁, hstale, hnode₁⟩ := removeStales_run repo mount merged idx.entries
  obtain ⟨r, t₂, hfiles, hok, hwritten⟩ :=
    writeFiles_run (withTree repo t₁) mount (nodup_paths merged)
  refine ⟨r, t₁, t₂, ?_, hok.trans (fits_iff_applies hnode₁), hnode₁, hwritten⟩
  unfold applyFilesToWorkdir
  rw [run_bind_of_ok (run_readFiles.trans (by rw [hidx])), run_bind_of_ok hstale]
  exact hfiles

end WorkTree

end Gyt
