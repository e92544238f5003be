import Gyt.Cmd.StageReads

/-!
# The files that `rm` unlinks

`run_in` of `cmd/rm.rs` joins an argument to the current directory and asks whether the components
of the working tree come first.  The path is not normalised before, so `..` can lead out of the
working tree again, and nothing keeps an argument away from the metadata directory.

`unlinks_contained_iff` says which arguments unlink files of the working tree only.
-/

namespace Gyt

open Command Text List

variable {W : Type}

/-! ## Paths of arguments -/

namespace Rm

/-- The components of a path; nothing between two slashes and a dot are none. -/
def components (text : Str) : List Str := (split '/' text).filter fun c => c ≠ [] ∧ c ≠ ['.']

/-- The path of an argument relative to the working tree; none if it does not begin with that of the
working tree.  A slash or dot at its end, with which `exists` asks for a directory, is dropped. -/
def relativePath (root cwd : List Str) (arg : Str) : Option OsPath :=
  let abs := if arg.head? = some '/' then components arg else cwd ++ components arg
  (stripPrefix root abs).map OsPath.ofText

/-- The place of an absolute path: `..` is the directory above. -/
def resolve (path : List Str) : List Str :=
  path.foldl (fun place c => if c = "..".toList then place.dropLast else place ++ [c]) []

/-- Whether a path relative to the working tree is strictly inside of it, and not inside of the
metadata directory. -/
def Contained (root : List Str) (path : OsPath) : Prop :=
  ∃ rest ∈ stripPrefix root (resolve (root ++ path.toText)), ∃ name ∈ rest.head?, name ≠ ".gyt"

instance (root : List Str) (path : OsPath) : Decidable (Contained root path) :=
  inferInstanceAs (Decidable (∃ rest ∈ stripPrefix root _, ∃ name ∈ rest.head?, _))

/-- Whether an argument that names a file names one of the working tree. -/
def SafeArg (os : WorkOs W) (root : List Str) (w : W) (arg : Str) : Prop :=
  arg = "." ∨
    ∀ path, os.argPath arg = some path → os.pathExists path w = true → Contained root path

def Plan.Safe (root : List Str) (plan : Plan) : Prop := ∀ path ∈ plan.unlinks, Contained root path

end Rm

/-- The calls on a working tree, with the list of the files that were unlinked; paths are those of
`run_in` in a current directory. -/
def WorkOs.noting (os : WorkOs W) (root cwd : List Str) : WorkOs (W × List OsPath) where
  root := os.root
  readDir path w := os.readDir path w.1
  symlinkMetadata path w := os.symlinkMetadata path w.1
  fileType path w := os.fileType path w.1
  fileType_eq := os.fileType_eq
  read path w := os.read path w.1
  readLink path w := os.readLink path w.1
  pathExists path w := os.pathExists path w.1
  removeFile path w := (os.removeFile path w.1, w.2 ++ [path])
  repositoryFile path w := os.repositoryFile path w.1
  argExists arg w := os.argExists arg w.1
  canonicalize arg w := os.canonicalize arg w.1
  argPath := Rm.relativePath root cwd
  loadIgnore w := os.loadIgnore w.1
  promptIgnored path w := os.promptIgnored path w.1
  writeDefaultGytignore w :=
    ((os.writeDefaultGytignore w.1).1, (os.writeDefaultGytignore w.1).2, w.2)

namespace Rm

variable {os : WorkOs W} {root cwd : List Str} {plan plan' : Plan} {repo repo' : Repo W}
  {force : Bool} {arg : Str} {args : List Str}

lemma resolve_of_notMem {path : List Str} (h : "..".toList ∉ path) : resolve path = path := by
  have hplace : ∀ place, path.foldl
      (fun place c => if c = "..".toList then place.dropLast else place ++ [c]) place =
        place ++ path := by
    induction path with
    | nil => exact fun place => (append_nil place).symm
    | cons c path ih =>
      rw [mem_cons, not_or] at h
      intro place
      rw [foldl_cons, if_neg (Ne.symm h.1), ih h.2, append_assoc, singleton_append]
  exact hplace []

/-- The paths of the index are inside of the working tree. -/
lemma contained_of_validPath {path : RelPath} (hroot : "..".toList ∉ root)
    (h : Index.ValidPath path) : Contained root (OsPath.ofText path) := by
  obtain ⟨name, rest, rfl⟩ := exists_cons_of_ne_nil h.1
  have hup : "..".toList ∉ root ++ name :: rest := by
    intro hmem
    rcases mem_append.mp hmem with hmem | hmem
    · exact hroot hmem
    · exact (h.2 _ hmem).ne_dot.2 rfl
  refine ⟨name :: rest, ?_, name, rfl, ?_⟩
  · rw [OsPath.toText_ofText, resolve_of_notMem hup]
    exact stripPrefix_append root (name :: rest)
  · rintro rfl
    exact (h.2 _ mem_cons_self).ne_gyt (by decide)

/-! ## Plans -/

lemma Plan.safe_drop {path : OsPath} {unlink : Bool} : (plan.drop path unlink).Safe root ↔
    plan.Safe root ∧ (unlink = true → Contained root path) := by
  cases unlink <;> simp [Plan.Safe, Plan.drop, or_imp, forall_and]

lemma Plan.subset_drop {path : OsPath} {unlink : Bool} :
    (plan.drop path unlink).idx ⊆ plan.idx := fun _ => mem_of_mem_filter

/-- What one argument adds to a plan. -/
lemma safe_planArg (hidx : ∀ e ∈ plan.idx, Contained root e.path)
    (h : (planArg os force plan arg).run repo = some (.ok plan', repo')) :
    (plan'.Safe root ↔ plan.Safe root ∧ SafeArg os root repo.workdir arg) ∧
      plan'.idx ⊆ plan.idx := by
  unfold planArg at h
  split_ifs at h with hdot
  · cases h
    refine ⟨?_, ?_⟩
    · rw [and_iff_left (show SafeArg os root repo.workdir arg from .inl hdot)]
      exact foldlRecOn (motive := fun p : Plan => p.Safe root ↔ plan.Safe root) plan.idx _
        Iff.rfl fun p hp e he => (Plan.safe_drop.trans (and_iff_left fun _ => hidx e he)).trans hp
    · exact foldlRecOn (motive := fun p : Plan => p.idx ⊆ plan.idx) plan.idx _
        (Subset.refl _) fun _ hp _ _ _ hx => hp (Plan.subset_drop hx)
  · obtain ⟨path, hpath, h₁⟩ := lift_bind_eq_ok.mp h
    have hsafe : SafeArg os root repo.workdir arg ↔
        (os.pathExists path repo.workdir = true → Contained root path) := by
      rw [SafeArg, or_iff_right hdot, okOr_eq_ok.mp hpath]
      simp
    rw [hsafe, ← Plan.safe_drop]
    rw [run_gets_bind] at h₁
    cases hpresent : os.pathExists path repo.workdir with
    | true =>
      rw [if_pos hpresent] at h₁
      obtain ⟨_, _, -, hend⟩ := seq_eq_ok.mp h₁
      cases hend
      exact ⟨Iff.rfl, Plan.subset_drop⟩
    | false =>
      rw [if_neg (by simp [hpresent])] at h₁
      obtain ⟨_, -, hend⟩ := lift_bind_eq_ok.mp h₁
      cases hend
      exact ⟨Iff.rfl, Plan.subset_drop⟩

/-- What the arguments add to a plan. -/
lemma safe_planArgs (hidx : ∀ e ∈ plan.idx, Contained root e.path)
    (h : (args.foldlM (planArg os force) plan).run repo = some (.ok plan', repo')) :
    plan'.Safe root ↔ plan.Safe root ∧ ∀ arg ∈ args, SafeArg os root repo.workdir arg := by
  induction args generalizing plan repo with
  | nil =>
    cases h
    simp
  | cons arg args ih =>
    rw [foldlM_cons] at h
    obtain ⟨plan₁, repo₁, harg, hargs⟩ := seq_eq_ok.mp h
    obtain rfl : repo = repo₁ := within_planArg force plan arg _ _ _ harg
    obtain ⟨hsafe, hsub⟩ := safe_planArg hidx harg
    rw [ih (fun e he => hidx e (hsub he)) hargs, hsafe, and_assoc, forall_mem_cons]

/-! ## Runs -/

/-- The files that are removed are noted. -/
lemma noted_removals (os : WorkOs W) (root cwd : List Str) (paths : List OsPath)
    (w : W × List OsPath) :
    (paths.foldl (fun w path => (os.noting root cwd).removeFile path w) w).2 = w.2 ++ paths := by
  induction paths generalizing w with
  | nil => exact (append_nil _).symm
  | cons path paths ih =>
    rw [foldl_cons, ih]
    exact append_assoc _ [path] paths

/-- The plan is safe exactly if every argument is. -/
lemma safe_prepare {opts : Options} (hroot : "..".toList ∉ root)
    (h : (prepare os opts).run repo = some (.ok plan, repo')) :
    plan.Safe root ↔ ∀ arg ∈ opts.paths, SafeArg os root repo.workdir arg := by
  obtain ⟨_, -, h₁⟩ := lift_bind_eq_ok.mp h
  obtain ⟨idx, _, hread, h₂⟩ := seq_eq_ok.mp h₁
  obtain ⟨i, hi, hend⟩ := readFiles_bind_eq_ok.mp hread
  cases hend
  obtain ⟨plan', repo₁, hplan, h₃⟩ := seq_eq_ok.mp h₂
  obtain ⟨_, _, -, hend⟩ := seq_eq_ok.mp h₃
  cases hend
  have hidx : ∀ e ∈ i.entries.map StagedEntry.ofStored, Contained root e.path := by
    intro e he
    obtain ⟨e', he', rfl⟩ := mem_map.mp he
    exact contained_of_validPath hroot (Index.validPath_of_read hi e' he')
  rw [safe_planArgs hidx hplan]
  exact and_iff_right fun _ hpath => absurd hpath not_mem_nil

/-- Planning leaves the work tree alone. -/
lemma sameWork_prepare (opts : Options) :
    Within (Order.Preimage Repo.workdir (· = ·)) (prepare os opts) := by
  refine (within_lift _).bind fun _ => Within.bind ?_ fun idx =>
    (within_foldlM (within_planArg opts.force) _).bind fun plan => Within.bind ?_ fun _ =>
      within_pure _
  · exact (within_readFiles _).bind fun _ => within_pure _
  · exact (within_lift _).bind fun _ => within_write fun _ _ => rfl

/-- Whether the usage is asked for. -/
def AsksUsage (args : List Str) : Prop :=
  args.any (fun a => a = "--help" ∨ a = "-h") = true

/-- A command that fails unlinks nothing, and the files that another one unlinks are all inside of
the working tree exactly if the arguments that name files name ones of the working tree. -/
theorem unlinks_contained_iff (os : WorkOs W) (root cwd args : List Str)
    (hroot : "..".toList ∉ root)
    {repo repo' : Repo (W × List OsPath)} (hstart : repo.workdir.2 = []) {r : Result StageOutcome}
    (h : (run (os.noting root cwd) args).run repo = some (r, repo')) :
    (∀ e, r = .error e → repo'.workdir.2 = []) ∧ ∀ outcome, r = .ok outcome →
      ((∀ path ∈ repo'.workdir.2, Contained root path) ↔
        ∀ opts, ¬ AsksUsage args → parseArgs args ⟨false, []⟩ = .ok (some opts) →
          ∀ arg ∈ opts.paths, SafeArg (os.noting root cwd) root repo.workdir arg) := by
  have hnone : ∀ path ∈ repo.workdir.2, Contained root path := by simp [hstart]
  unfold run at h
  split_ifs at h with husage
  · cases h
    exact ⟨by simp, fun _ _ => iff_of_true hnone fun _ hno => absurd husage hno⟩
  rcases hparse : parseArgs args ⟨false, []⟩ with e | _ | opts
  · rw [hparse] at h
    cases h
    exact ⟨fun _ _ => hstart, by simp⟩
  · rw [hparse] at h
    cases h
    exact ⟨by simp, fun _ _ => iff_of_true hnone (by simp)⟩
  · rw [hparse, run_lift_ok_bind] at h
    rcases r with e | outcome
    · refine ⟨fun _ _ => ?_, by simp⟩
      rcases seq_eq_error.mp h with hfail | ⟨plan, repo₁, -, hfail⟩
      · rw [← show repo.workdir = repo'.workdir from sameWork_prepare opts _ _ _ hfail, hstart]
      · obtain ⟨_, _, hremove, -⟩ := run_unlinks (os.noting root cwd) plan.unlinks repo₁
        rw [run_bind_of_ok hremove] at hfail
        cases hfail
    · obtain ⟨plan, repo₁, hprepare, hend⟩ := seq_eq_ok.mp h
      obtain ⟨_, repo₂, hremove, -, hwork⟩ := run_unlinks (os.noting root cwd) plan.unlinks repo₁
      rw [run_bind_of_ok hremove] at hend
      cases hend
      have hsame : repo.workdir = repo₁.workdir := sameWork_prepare opts _ _ _ hprepare
      have hnoted : repo'.workdir.2 = plan.unlinks := by
        rw [hwork, noted_removals, ← hsame, hstart, nil_append]
      refine ⟨by simp, fun _ _ => ?_⟩
      rw [hnoted]
      refine (safe_prepare hroot hprepare).trans ⟨fun hsafe opts' _ hopts => ?_, fun hsafe => ?_⟩
      · cases hopts
        exact hsafe
      · exact hsafe opts husage rfl

/-- A system in which every path is that of a regular file. -/
def sampleRmOs : WorkOs (List Bytes) := metadataOs fun _ _ => .ok ⟨.file, 0o644, 0, some 0, 0⟩

/-- Removing a file in the directory of the working tree. -/
def sampleRm (arg : Str) : Cmd (List Bytes × List OsPath) StageOutcome :=
  run (sampleRmOs.noting ["w"] ["w"]) [arg]

def sampleUnlinks : Repo (List Bytes × List OsPath) := ⟨⟨[]⟩, ⟨[], []⟩, [], []⟩

/-- A plain name is removed below the root. -/
theorem unlinks_contained_name :
    ((sampleRm "a".toList).after sampleUnlinks).workdir.2 = [OsPath.ofText ["a".toList]] ∧
      ∀ path ∈ ((sampleRm "a".toList).after sampleUnlinks).workdir.2,
        Contained ["w".toList] path := by
  have hrun : (sampleRm "a".toList).run sampleUnlinks =
      some (.ok (.wrote [] []), (sampleRm "a".toList).after sampleUnlinks) :=
    run_eq_after (by decide +kernel)
  refine ⟨by decide +kernel, ((unlinks_contained_iff _ _ _ _ (by decide) rfl hrun).2 _ rfl).mpr
    fun opts _ hopts arg harg => ?_⟩
  cases hopts
  obtain rfl := mem_singleton.mp harg
  refine .inr fun path hpath _ => ?_
  cases hpath
  decide +kernel

/-- A path with `..` leads out of the working tree, and a file of the metadata directory can be
named. -/
theorem unlinks_outside :
    ((sampleRm "../secret".toList).run sampleUnlinks).map (·.2.workdir.2) =
        some [OsPath.ofText ["..".toList, "secret".toList]] ∧
      ¬ Contained ["w".toList] (OsPath.ofText ["..".toList, "secret".toList]) ∧
      ((sampleRm ".gyt/HEAD".toList).run sampleUnlinks).map (·.2.workdir.2) =
        some [OsPath.ofText [".gyt".toList, "HEAD".toList]] ∧
      ¬ Contained ["w".toList] (OsPath.ofText [".gyt".toList, "HEAD".toList]) := by decide +kernel

end Rm

end Gyt
