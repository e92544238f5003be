import Gyt.Cmd.Stage
import Gyt.Foundation.Machine

/-!
# Reading the index back after staging

Staging keeps the index well formed: no two entries for one path, and no directories among the
entries (`Staged.Kept`).  `reads_back_iff` says that the index that a command has written reads back
as what was written exactly if all its paths are ones that the reader of the index accepts.

Nothing in the commands checks this.  A file name with a backslash can be staged, and then no
command can read the index any more (`backslash_breaks_index`).
-/

namespace Gyt

open Command Text List Utf8 StagedEntry RefFiles

variable {W : Type} {hashBytes : Hash} {os : WorkOs W} {repo repo' : Repo W}

lemma within_readWork {R : Repo W → Repo W → Prop} [Std.Refl R] [IsTrans (Repo W) R] {α : Type}
    (f : W → Result α) : Within R (readWork f : Cmd W α) :=
  (within_gets _).bind fun r => within_lift r

lemma readWork_eq_ok {α : Type} {f : W → Result α} {a : α}
    (h : (readWork f : Cmd W α).run repo = some (.ok a, repo')) :
    f repo.workdir = .ok a ∧ repo' = repo := by
  rw [readWork, run_gets_bind] at h
  exact lift_eq_ok.mp h

/-! ## Entries -/

lemma OsPath.toText_ofText (path : RelPath) : (OsPath.ofText path).toText = path := by
  rw [toText, ofText, map_map]
  have hid : decodeLossy ∘ encode = id :=
    funext fun s => decodeLossy_of_decode (decode_encode s)
  rw [hid, map_id]

/-- The modes of files and links. -/
def fileModes : List UInt32 := [modeFile, modeExec, modeSymlink]

lemma modeFor_mem (md : Metadata) : modeFor md ∈ fileModes := by
  unfold modeFor
  split_ifs <;> simp [fileModes]

namespace Staged

variable {idx : Staged} {e : StagedEntry}

/-- What staging keeps of an index. -/
structure Kept (idx : Staged) : Prop where
  unique : (List.map StagedEntry.key idx).Nodup
  files : ∀ e ∈ idx, e.mode ∈ fileModes

lemma mem_of_mem_insert {e' : StagedEntry} (h : e' ∈ idx.insert e) : e' = e ∨ e' ∈ idx := by
  induction idx with
  | nil => exact .inl (mem_singleton.mp h)
  | cons e₁ idx ih =>
    rw [insert] at h
    split_ifs at h
    · rcases mem_cons.mp h with rfl | h
      · exact .inl rfl
      · exact .inr (mem_cons_of_mem _ h)
    · rcases mem_cons.mp h with rfl | h
      · exact .inr mem_cons_self
      · exact (ih h).imp_right (mem_cons_of_mem _)

lemma nodup_insert (h : (map key idx).Nodup) (e : StagedEntry) :
    (map key (idx.insert e)).Nodup := by
  induction idx with
  | nil => simp [insert]
  | cons e₁ idx ih =>
    rw [map_cons, nodup_cons] at h
    rw [insert]
    split_ifs with hkey
    · rw [map_cons, nodup_cons, ← hkey]
      exact h
    · rw [map_cons, nodup_cons]
      refine ⟨fun hmem => ?_, ih h.2⟩
      obtain ⟨e', he', hkey'⟩ := mem_map.mp hmem
      rcases mem_of_mem_insert he' with rfl | he'
      · exact hkey hkey'.symm
      · exact h.1 (mem_map.mpr ⟨e', he', hkey'⟩)

lemma Kept.insert (h : Kept idx) (he : e.mode ∈ fileModes) : Kept (idx.insert e) := by
  refine ⟨nodup_insert h.unique e, fun e' he' => ?_⟩
  rcases mem_of_mem_insert he' with rfl | he'
  · exact he
  · exact h.files e' he'

lemma Kept.remove (h : Kept idx) (path : OsPath) : Kept (idx.remove path) :=
  ⟨h.unique.sublist (filter_sublist.map _), fun e he => h.files e (mem_filter.mp he).1⟩

end Staged

/-! ## Commands -/

section Commands

variable {ignored : Str → Bool → Bool} {depth : ℕ}

/-- What the walk reports as a file has the mode of one. -/
def IsFile (ent : WorkdirEntry) : Prop := ent.isDir = false → ent.mode ∈ fileModes

lemma returns_walkName {walk : OsPath → Cmd W (List WorkdirEntry)}
    (hwalk : ∀ dir, Returns (walk dir) fun found => ∀ ent ∈ found, IsFile ent) (dir : OsPath)
    (ent : Except IoError Bytes) :
    Returns (walkName os ignored walk dir ent) fun found => ∀ ent ∈ found, IsFile ent := by
  refine (returns_true _).bind fun name _ => ?_
  split_ifs
  · exact returns_pure (by simp)
  · intro repo found repo' hend
    obtain ⟨t, repo₁, htype, hrest⟩ := seq_eq_ok.mp hend
    obtain ⟨htype, rfl⟩ := readWork_eq_ok htype
    dsimp only at hrest
    split at hrest
    · cases hrest
      simp
    obtain ⟨md, repo₂, hmd, hlast⟩ := seq_eq_ok.mp hrest
    obtain ⟨hmd, rfl⟩ := readWork_eq_ok hmd
    -- Both calls are on the same working tree, so they report the same type.
    have hsame := os.fileType_eq (mapError_eq_ok.mp htype) (mapError_eq_ok.mp hmd)
    have hfile : IsFile ⟨OsPath.ofText (OsPath.toText (dir ++ [name])), t = .dir,
        workdirModeFor md⟩ := by
      intro hdir
      rw [workdirModeFor, hsame, if_neg (of_decide_eq_false hdir)]
      exact modeFor_mem md
    split at hlast
    · obtain ⟨below, repo₃, hbelow, hlast⟩ := seq_eq_ok.mp hlast
      cases hlast
      exact forall_mem_cons.mpr ⟨hfile, hwalk _ _ _ _ hbelow⟩
    · cases hlast
      exact forall_mem_singleton.mpr hfile

lemma returns_walkRecurse (dir : OsPath) :
    Returns (walkRecurse os ignored depth dir) fun found => ∀ ent ∈ found, IsFile ent := by
  induction depth generalizing dir with
  | zero => exact fun s a s' hend => nomatch (await_eq_some.mp hend).1
  | succ depth ih =>
    refine (returns_true _).bind fun names _ => ?_
    refine (returns_mapM (returns_walkName ih dir)).bind fun found hfound => returns_pure ?_
    intro ent hent
    obtain ⟨l, hl, hent⟩ := mem_flatten.mp hent
    exact hfound l hl ent hent

lemma returns_walk : Returns (walk os ignored depth) fun found => ∀ ent ∈ found, IsFile ent :=
  (returns_walkRecurse []).bind fun found hfound =>
    returns_pure fun ent hent => hfound ent ((perm_insertionSort _ found).mem_iff.mp hent)

namespace Add

lemma returns_stageOne {idx : Staged} {ent : WorkdirEntry} (hidx : idx.Kept) (hent : IsFile ent) :
    Returns (stageOne hashBytes os idx ent) Staged.Kept := by
  unfold stageOne
  split_ifs with hdir
  · exact returns_pure hidx
  · exact (returns_true _).bind fun md _ => (returns_true _).bind fun hash _ =>
      returns_pure (hidx.insert (hent (Bool.not_eq_true _ ▸ hdir)))

lemma returns_selectArg (arg : Str) :
    Returns (selectArg os depth ignored arg) fun found => ∀ ent ∈ found, IsFile ent := by
  unfold selectArg
  split_ifs
  · exact returns_walk
  · refine (returns_true _).bind fun rel _ => (returns_true _).bind fun md _ => ?_
    split_ifs
    · exact returns_walk.bind fun found hfound =>
        returns_pure fun ent hent => hfound ent (mem_filter.mp hent).1
    · refine (returns_true _).bind fun add _ => ?_
      split_ifs
      · exact returns_pure (forall_mem_singleton.mpr fun _ => modeFor_mem md)
      · exact returns_pure (by simp)

lemma returns_stageAll {idx : Staged} (hidx : idx.Kept) :
    Returns (stageAll hashBytes os depth ignored idx) Staged.Kept := by
  refine returns_walk.bind fun found hfound => ?_
  refine (returns_foldlM (fun _ ent hent h => returns_stageOne h (hfound ent hent)) hidx).bind
    fun idx hidx => (returns_true _).bind fun gone _ => returns_pure ?_
  exact foldlRecOn gone _ hidx fun idx h e _ => h.remove e.path

lemma returns_stageArg {idx : Staged} (hidx : idx.Kept) (arg : Str) :
    Returns (stageArg hashBytes os depth ignored idx arg) Staged.Kept :=
  (returns_selectArg arg).bind fun _ hfound =>
    returns_foldlM (fun _ ent hent h => returns_stageOne h (hfound ent hent)) hidx

lemma returns_stage {opts : Options} {idx : Staged} (hidx : idx.Kept) :
    Returns (stage hashBytes os depth ignored opts idx) Staged.Kept := by
  unfold stage
  split_ifs
  · exact returns_stageAll hidx
  · exact (returns_true _).bind fun _ _ =>
      returns_foldlM (fun _ arg _ h => returns_stageArg h arg) hidx

end Add

namespace Rm

lemma within_planArg {R : Repo W → Repo W → Prop} [Std.Refl R] [IsTrans (Repo W) R]
    (force : Bool) (plan : Plan) (arg : Str) : Within R (planArg os force plan arg) := by
  unfold planArg
  split
  · exact within_gets _
  · refine (within_lift _).bind fun path => (within_gets _).bind fun present => ?_
    split
    · refine Within.bind ?_ fun _ => within_pure _
      exact (within_readWork _).bind fun _ => within_lift _
    · exact (within_lift _).bind fun _ => within_pure _

lemma Plan.kept_drop {plan : Plan} (h : plan.idx.Kept) (path : OsPath) (unlink : Bool) :
    (plan.drop path unlink).idx.Kept := h.remove path

lemma returns_planArg {force : Bool} {plan : Plan} (h : plan.idx.Kept) (arg : Str) :
    Returns (planArg os force plan arg) fun plan => plan.idx.Kept := by
  unfold planArg
  split_ifs
  · refine returns_gets fun repo => ?_
    exact foldlRecOn (motive := fun plan : Plan => plan.idx.Kept) plan.idx _ h
      fun plan h e _ => Plan.kept_drop h _ _
  · refine (returns_true _).bind fun path _ => (returns_true _).bind fun present _ => ?_
    split_ifs
    all_goals exact (returns_true _).bind fun _ _ => returns_pure (Plan.kept_drop h _ _)

end Rm

end Commands

/-! ## Runs -/

/-- A command that stages. -/
inductive StageCall where
  | add (depth : ℕ) (args : List Str)
  | rm (args : List Str)
  deriving DecidableEq, Repr

def StageCall.run (hashBytes : Hash) (os : WorkOs W) : StageCall → Cmd W StageOutcome
  | .add depth args => Add.run hashBytes os depth args
  | .rm args => Rm.run os args

/-- A command, and the working tree at the time when it is given. -/
structure StageEvent (W : Type) where
  workdir : W
  call : StageCall

/-- Executing a command successfully.  Before it, anything may have happened to the working tree. -/
def stageStep (hashBytes : Hash) (os : WorkOs W) (repo : Repo W) (ev : StageEvent W) :
    Option (Repo W) :=
  match (ev.call.run hashBytes os).run { repo with workdir := ev.workdir } with
  | some (.ok _, repo') => some repo'
  | _ => none

/-- Whether what is read from the index file is well formed. -/
def IndexKept (fs : RefFiles) : Prop :=
  ∀ idx, Index.read fs indexPath = .ok idx → Staged.Kept (idx.entries.map .ofStored)

/-- Whether the index file was written with well formed entries before files of the repository
directory were removed. -/
def Wrote (entries : Staged) (removed : List Str) (repo' : Repo W) : Prop :=
  entries.Kept ∧ ∃ bytes, entries.toIndex.toBytes = .ok bytes ∧
    Index.read repo'.files indexPath =
      if indexPath ∈ removed then .ok .new else Index.parse bytes

/-- How a command leaves a repository. -/
def Ends (repo repo' : Repo W) : StageOutcome → Prop
  | .usage => repo' = repo
  | .wrote entries removed => Wrote entries removed repo'

section Runs

variable {idx entries : Staged} {outcome : StageOutcome} {call : StageCall}

lemma kept_of_read (hrepo : IndexKept repo.files)
    (h : (Staged.read : Cmd W Staged).run repo = some (.ok idx, repo')) :
    idx.Kept ∧ repo' = repo := by
  obtain ⟨i, hread, hend⟩ := readFiles_bind_eq_ok.mp h
  cases hend
  exact ⟨hrepo i hread, rfl⟩

/-- What is read from the index file after files were removed. -/
lemma read_removed {fs : RefFiles} (hdir : fs.isDir indexPath = false) (removed : List Str) :
    Index.read (removed.foldl .remove fs) indexPath =
      if indexPath ∈ removed then .ok .new else Index.read fs indexPath := by
  induction removed generalizing fs with
  | nil => rfl
  | cons name removed ih =>
    have hdir' : (fs.remove name).isDir indexPath = false := by
      rw [isDir_eq_false] at hdir ⊢
      exact ⟨fun f hf => hdir.1 f (mem_filter.mp hf).1, hdir.2⟩
    rw [foldl_cons, ih hdir']
    by_cases hname : indexPath = name
    · have hread : Index.read (fs.remove name) indexPath = .ok .new := by
        rw [hname] at hdir' ⊢
        rw [Index.read, get?_remove_self]
        exact if_neg (Bool.eq_false_iff.mp hdir')
      rw [hread, ite_self, if_pos (hname ▸ mem_cons_self)]
    · have hread : Index.read (fs.remove name) indexPath = Index.read fs indexPath := by
        rw [Index.read, Index.read, get?_remove_of_ne hname, hdir, hdir']
      rw [hread]
      exact if_congr (by rw [mem_cons, or_iff_right hname]) rfl rfl

lemma wrote_of_write (hidx : idx.Kept) {u : Unit}
    (h : (Staged.write idx : Cmd W Unit).run repo = some (.ok u, repo')) {removed : List Str}
    {repo₁ : Repo W} (hfiles : repo₁.files = removed.foldl .remove repo'.files) :
    Wrote idx removed repo₁ := by
  obtain ⟨bytes, hbytes, hwrite⟩ := lift_bind_eq_ok.mp h
  have hdir : repo'.files.isDir indexPath = false := by
    rw [atomicWrite_eq_ok hwrite, isDir_set, isDir_of_atomicWrite hwrite]
    decide
  refine ⟨hidx, bytes, hbytes, ?_⟩
  rw [hfiles, read_removed hdir, atomicWrite_eq_ok hwrite, Index.read, get?_set_self]

/-- What the removals at the end of `rm` do. -/
lemma run_unlinks (os : WorkOs W) (paths : List OsPath) (repo : Repo W) :
    ∃ names repo', (paths.mapM (Rm.unlink os)).run repo = some (.ok names, repo') ∧
      repo'.files = names.reduceOption.foldl .remove repo.files ∧
      repo'.workdir = paths.foldl (fun w path => os.removeFile path w) repo.workdir := by
  induction paths generalizing repo with
  | nil => exact ⟨[], repo, rfl, rfl, rfl⟩
  | cons path paths ih =>
    obtain ⟨repo₁, hrepo₁⟩ : ∃ repo₁, (Rm.unlink os path).run repo =
      some (.ok (os.repositoryFile path repo.workdir), repo₁) := ⟨_, rfl⟩
    obtain ⟨names, repo', hrun, hfiles, hwork⟩ := ih repo₁
    refine ⟨os.repositoryFile path repo.workdir :: names, repo', ?_, hfiles.trans ?_,
      hwork.trans ?_⟩
    · rw [mapM_cons, run_bind_of_ok hrepo₁, run_bind_of_ok hrun]
      rfl
    · cases hrepo₁
      cases os.repositoryFile path repo.workdir <;> rfl
    · cases hrepo₁
      rfl

lemma ends_of_add {depth : ℕ} {args : List Str} (hrepo : IndexKept repo.files)
    (h : (Add.run hashBytes os depth args).run repo = some (.ok outcome, repo')) :
    Ends repo repo' outcome := by
  unfold Add.run at h
  obtain ⟨parsed, -, h₁⟩ := lift_bind_eq_ok.mp h
  cases parsed with
  | none =>
    cases h₁
    rfl
  | some opts =>
    obtain ⟨ignored, _, hignored, h₂⟩ := seq_eq_ok.mp h₁
    obtain ⟨-, rfl⟩ := readWork_eq_ok hignored
    obtain ⟨idx, _, hread, h₃⟩ := seq_eq_ok.mp h₂
    obtain ⟨hidx, rfl⟩ := kept_of_read hrepo hread
    obtain ⟨idx', repo₁, hstage, h₄⟩ := seq_eq_ok.mp h₃
    obtain ⟨_, _, hwrite, hend⟩ := seq_eq_ok.mp h₄
    cases hend
    exact wrote_of_write (Add.returns_stage hidx _ _ _ hstage) hwrite rfl

lemma ends_of_rm {args : List Str} (hrepo : IndexKept repo.files)
    (h : (Rm.run os args).run repo = some (.ok outcome, repo')) : Ends repo repo' outcome := by
  unfold Rm.run at h
  split_ifs at h
  · cases h
    rfl
  · obtain ⟨parsed, _, hparsed, h₁⟩ := seq_eq_ok.mp h
    obtain ⟨-, rfl⟩ := lift_eq_ok.mp hparsed
    cases parsed with
    | none =>
      cases h₁
      rfl
    | some opts =>
      obtain ⟨plan, repo₂, hprepare, h₂⟩ := seq_eq_ok.mp h₁
      obtain ⟨names, repo₃, hunlinks, hfiles, -⟩ := run_unlinks os plan.unlinks repo₂
      rw [run_bind_of_ok hunlinks] at h₂
      cases h₂
      obtain ⟨_, -, h₃⟩ := lift_bind_eq_ok.mp hprepare
      obtain ⟨idx, _, hread, h₄⟩ := seq_eq_ok.mp h₃
      obtain ⟨hidx, rfl⟩ := kept_of_read hrepo hread
      obtain ⟨plan, repo₁, hplan, h₅⟩ := seq_eq_ok.mp h₄
      have hplan' : plan.idx.Kept := by
        have hreturns : Returns (opts.paths.foldlM (Rm.planArg os opts.force) ⟨idx, []⟩)
            fun plan => plan.idx.Kept :=
          returns_foldlM (fun _ arg _ h => Rm.returns_planArg h arg) hidx
        exact hreturns _ _ _ hplan
      obtain ⟨_, _, hwrite, hend⟩ := seq_eq_ok.mp h₅
      cases hend
      exact wrote_of_write hplan' hwrite hfiles

lemma ends_of_run (hrepo : IndexKept repo.files)
    (h : (call.run hashBytes os).run repo = some (.ok outcome, repo')) :
    Ends repo repo' outcome := by
  cases call with
  | add depth args => exact ends_of_add hrepo h
  | rm args => exact ends_of_rm hrepo h

/-- What is read from a file with well formed entries is well formed. -/
lemma Wrote.indexKept {removed : List Str} (h : Wrote entries removed repo') :
    IndexKept repo'.files := by
  obtain ⟨hkept, bytes, hbytes, hfile⟩ := h
  intro idx hread
  rw [hfile] at hread
  split_ifs at hread
  · cases hread
    exact ⟨nodup_nil, by simp [Index.new]⟩
  obtain ⟨-, hidx⟩ := (Index.parse_toBytes_eq_ok hbytes).mp hread
  have hperm : (Index.sorted entries.toIndex.entries).Perm (map StagedEntry.stored entries) :=
    perm_insertionSort _ _
  have hkey : key ∘ ofStored ∘ Index.restored = (pathStorageBytes ·.path) := by
    funext e
    simp only [Function.comp_apply, key, ofStored, OsPath.toText_ofText,
      Index.pathStorageBytes_restored]
  rw [hidx, map_map]
  refine ⟨?_, fun e he => ?_⟩
  · rw [map_map, hkey, (hperm.map _).nodup_iff, map_map]
    exact hkept.unique
  · obtain ⟨e₁, he₁, rfl⟩ := mem_map.mp he
    obtain ⟨e₂, he₂, rfl⟩ := mem_map.mp (hperm.mem_iff.mp he₁)
    exact hkept.files e₂ he₂

/-- A successful command leaves a well formed index. -/
lemma indexKept_of_step {ev : StageEvent W} (hrepo : IndexKept repo.files)
    (h : stageStep hashBytes os repo ev = some repo') : IndexKept repo'.files := by
  unfold stageStep at h
  split at h
  · next outcome repo₁ hrun =>
    cases h
    cases outcome with
    | usage =>
      obtain rfl : repo' = { repo with workdir := ev.workdir } := ends_of_run (by exact hrepo) hrun
      exact hrepo
    | wrote entries removed =>
      have hwrote : Wrote entries removed repo' := ends_of_run (by exact hrepo) hrun
      exact hwrote.indexKept
  · cases h

/-- After any sequence of successful commands in a new repository the index is well formed. -/
lemma indexKept_of_run {events : List (StageEvent W)} (hnew : repo.files.get? indexPath = none)
    (h : Machine.run (stageStep hashBytes os) repo events = some repo') :
    IndexKept repo'.files := by
  have hinit : IndexKept repo.files := by
    intro idx hread
    rw [Index.read, hnew] at hread
    dsimp only at hread
    split_ifs at hread
    cases hread
    exact ⟨nodup_nil, by simp [Index.new]⟩
  have hstep : ∀ (repo : Repo W) (ev : StageEvent W) (repo' : Repo W), IndexKept repo.files →
      True → stageStep hashBytes os repo ev = some repo' → IndexKept repo'.files :=
    fun _ _ _ hrepo _ h => indexKept_of_step hrepo h
  have hinv := Machine.run_invariant hstep (Machine.always_true _ _) h hinit
  exact hinv

/-! ## Reading back -/

/-- A path that the index can hold: its names are texts, and the reader accepts them. -/
def OsPath.Valid (path : OsPath) : Prop := ∃ text, path = OsPath.ofText text ∧ Index.ValidPath text

/-- Whether the index file reads back as these entries, with no two entries for one path. -/
def ReadsBack (fs : RefFiles) (entries : Staged) : Prop :=
  ∃ idx, Index.read fs indexPath = .ok idx ∧ (idx.entries.map .ofStored).Perm entries ∧
    (List.map StagedEntry.path entries).Nodup

/-- After any sequence of successful commands in a new repository, an index that is written reads
back exactly if all its paths are valid, and the command has not removed the file itself unless
nothing was in it. -/
theorem reads_back_iff {events : List (StageEvent W)} {w : W} {repo₁ repo₂ : Repo W}
    {removed : List Str} (hnew : repo.files.get? indexPath = none)
    (hrun : Machine.run (stageStep hashBytes os) repo events = some repo₁)
    (hwrote : (call.run hashBytes os).run { repo₁ with workdir := w } =
      some (.ok (.wrote entries removed), repo₂)) :
    ReadsBack repo₂.files entries ↔
      (∀ e ∈ entries, e.path.Valid) ∧ (indexPath ∈ removed → entries = []) := by
  have hkept : IndexKept repo₁.files := indexKept_of_run hnew hrun
  obtain ⟨hentries, bytes, hbytes, hfile⟩ : Wrote entries removed repo₂ :=
    ends_of_run (by exact hkept) hwrote
  by_cases hremoved : indexPath ∈ removed
  · -- A file that is missing is read as an index without entries.
    rw [if_pos hremoved] at hfile
    constructor
    · rintro ⟨idx, hread, hperm, -⟩
      cases hfile.symm.trans hread
      obtain rfl : entries = [] := nil_perm.mp hperm
      exact ⟨by simp, fun _ => rfl⟩
    · rintro ⟨-, hempty⟩
      rw [hempty hremoved]
      exact ⟨.new, hfile, .nil, nodup_nil⟩
  rw [if_neg hremoved] at hfile
  rw [and_iff_left fun hmem => absurd hmem hremoved]
  constructor
  · rintro ⟨idx, hread, hperm, -⟩ e he
    obtain ⟨e', he', rfl⟩ := mem_map.mp (hperm.mem_iff.mpr he)
    exact ⟨e'.path, rfl, Index.validPath_of_read hread e' he'⟩
  · intro hvalid
    have hstored : ∀ e ∈ entries, Index.ValidPath e.stored.path ∧ .ofStored e.stored = e := by
      intro e he
      obtain ⟨text, htext, hpath⟩ := hvalid e he
      have htoText : e.path.toText = text := by rw [htext, OsPath.toText_ofText]
      simp only [StagedEntry.stored, StagedEntry.ofStored, htoText]
      rw [← htext]
      exact ⟨hpath, rfl⟩
    refine ⟨⟨Index.sorted entries.toIndex.entries⟩, ?_, ?_, ?_⟩
    · rw [hfile]
      refine Index.parse_toBytes (fun e he => ?_) hbytes
      obtain ⟨e', he', rfl⟩ := mem_map.mp he
      exact (hstored e' he').1
    · have hback : map StagedEntry.ofStored (map StagedEntry.stored entries) = entries := by
        rw [map_map]
        exact (map_congr_left fun e he => (hstored e he).2).trans (map_id entries)
      have hperm : (Index.sorted entries.toIndex.entries).Perm entries.toIndex.entries :=
        perm_insertionSort _ _
      exact (hperm.map _).trans (Perm.of_eq hback)
    · have hkeys : map StagedEntry.key entries =
          map (fun path => pathStorageBytes path.toText) (map StagedEntry.path entries) := by
        rw [map_map]
        rfl
      have hunique := hentries.unique
      rw [hkeys] at hunique
      exact hunique.of_map

end Runs

/-- A system with empty files of given metadata, which cannot be removed. -/
def metadataOs {W : Type} (symlinkMetadata : OsPath → W → Except IoError Metadata) : WorkOs W where
  root := "/w"
  readDir _ _ := .error .notADirectory
  symlinkMetadata := symlinkMetadata
  read path w := (symlinkMetadata path w).map fun _ => []
  readLink _ _ := .error .other
  pathExists path w := (symlinkMetadata path w).isOk
  removeFile _ w := w
  repositoryFile _ _ := none
  argExists _ _ := false
  canonicalize _ _ := .error .notFound
  argPath _ := none
  loadIgnore _ := .ok fun _ _ => false
  promptIgnored _ _ := none
  writeDefaultGytignore w := (.error .other, w)

/-- The calls on a working tree that is a list of regular files without directories. -/
def sampleWorkOs : WorkOs (List Bytes) :=
  { metadataOs fun path w =>
      if path ∈ w.map ([·]) then .ok ⟨.file, 0o644, 0, some 0, 0⟩ else .error .notFound with
    readDir := fun dir w => if dir = [] then .ok (w.map .ok) else .error .notADirectory }

/-- A new repository with one file of the given name. -/
def sampleWork (name : Str) : Repo (List Bytes) := ⟨⟨[]⟩, ⟨[], []⟩, [Utf8.encode name]⟩

/-- Staging all files. -/
def sampleAdd : Cmd (List Bytes) StageOutcome :=
  (StageCall.add 2 ["."]).run sampleHash sampleWorkOs

/-- The index entry of the file. -/
def sampleEntry (name : Str) : StagedEntry :=
  ⟨0, 0, 0, modeFile, sampleHash (buildRaw .blob []), [Utf8.encode name]⟩

/-- A system in which every argument is the path of an executable file. -/
def sampleArgOs : WorkOs (List Bytes) :=
  { metadataOs fun path _ => .ok ⟨.file, 0o755, 3, some path.length, -9⟩ with
    argExists := fun _ _ => true
    canonicalize := fun arg _ => .ok (some (OsPath.ofText (split '/' arg))) }

/-- The index entry of an executable file. -/
def sampleArgEntry (path : RelPath) : StagedEntry :=
  ⟨-9, Int64.ofNat path.length, 3, modeExec, (sampleEntry []).hash, OsPath.ofText path⟩

/-- Staging a file in a directory and one beside it. -/
def sampleArgs : StageCall := .add 1 ["d/b", "a"]

/-- Two files that are not staged in the order of their paths read back. -/
theorem reads_back_iff_nested :
    ReadsBack ((sampleArgs.run sampleHash sampleArgOs).after (sampleWork [])).files
      [sampleArgEntry ["d", "b"], sampleArgEntry ["a"]] := by
  have hwrote : (sampleArgs.run sampleHash sampleArgOs).run { sampleWork [] with workdir := [[]] } =
      some (.ok (.wrote [sampleArgEntry ["d", "b"], sampleArgEntry ["a"]] []),
        (sampleArgs.run sampleHash sampleArgOs).after (sampleWork [])) :=
    run_eq_after (by decide +kernel)
  have hrun : Machine.run (stageStep sampleHash sampleArgOs) (sampleWork []) [] =
      some (sampleWork []) := rfl
  have hnested : Index.validateIndexPath "d/b" 0 = .ok () := by decide +kernel
  have hplain : Index.validateIndexPath "a" 0 = .ok () := by decide +kernel
  refine (reads_back_iff rfl hrun hwrote).mpr ⟨forall_mem_cons.mpr ⟨?_, ?_⟩, by simp⟩
  · exact ⟨_, rfl, Index.validateIndexPath_eq_ok.mp hnested⟩
  · exact forall_mem_singleton.mpr ⟨_, rfl, Index.validateIndexPath_eq_ok.mp hplain⟩

/-- A file with a backslash in its name is staged, and then the index cannot be read. -/
theorem backslash_breaks_index :
    (sampleAdd.run (sampleWork "a\\b")).map (·.1.toOption) =
        some (some (.wrote [sampleEntry "a\\b"] [])) ∧
      (Index.read (sampleAdd.after (sampleWork "a\\b")).files indexPath).toOption =
        none := by decide +kernel

end Gyt
