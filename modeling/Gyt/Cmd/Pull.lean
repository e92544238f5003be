import Gyt.Cmd.Fetch
import Gyt.Cmd.Merge

/-!
# Pulling

The command `gyt pull`, `cmd/pull.rs`: a fetch, and then the fast-forward of the current branch to
the branch of the same name of the remote.
-/

namespace Gyt.Pull

open RefFiles Command Text

/-- The reference that `HEAD` names, unless it is detached, and the commit that it denotes. -/
def currentBranchAndHead (fs : RefFiles) : Result (Option Str × Option ObjectId) := do
  let head ← readHead fs
  let id ← resolve fs head
  match head with
  | .symbolic name => return (some name, id)
  | .detached _ => return (none, id)

def currentBranch (fs : RefFiles) : Result Str := do
  let (branchRef, _) ← currentBranchAndHead fs
  let branchRef ← okOr branchRef (.repo ["pull: HEAD is detached; refusing to pull"])
  okOr (stripPrefix "refs/heads/" branchRef)
    (.repo ["pull: HEAD is not on a local branch: ", .str branchRef])

/-- Checking that there is a reference for the branch of the remote. -/
def checkTracking (remote branch : Str) (fs : RefFiles) : Result ObjectId :=
  mapErr (fun _ => .refs ["pull: no remote-tracking ref ",
      .str (remoteDir remote ++ '/' :: branch), "; did the server publish refs/heads/",
      .str branch, "?"])
    (readRef fs (remoteDir remote ++ '/' :: branch))

variable {W : Type} (hashBytes : Hash) (os : Os W) (fuel : ℕ) (env : Rebase.Env)

/-- The command `pull` after its fetch. -/
def mergeTracked (remote : Str) : Cmd W Unit := do
  let branch ← readFiles currentBranch
  let _ ← readFiles (checkTracking remote branch)
  Merge.runInInner hashBytes os fuel env true false none (remote ++ '/' :: branch)

/-- The command `pull`. -/
def runIn (configEnv : Config.Environment) (connect : Str → Result Remote) (remote : Str)
    (insecure : Bool) : Cmd W Unit := do
  let _ ← fetchWithRefspecInner configEnv connect remote none insecure false
  mergeTracked hashBytes os fuel env remote

lemma readHead_of_currentBranch {fs : RefFiles} {branch : Str}
    (h : currentBranch fs = .ok branch) :
    readHead fs = .ok (.symbolic ("refs/heads/" ++ branch)) := by
  obtain ⟨⟨branchRef, id⟩, hcurrent, h⟩ := bind_eq_ok.mp h
  obtain ⟨name, hname, hbranch⟩ := bind_eq_ok.mp h
  obtain ⟨head, hhead, hcurrent⟩ := bind_eq_ok.mp hcurrent
  obtain ⟨id', -, hcurrent⟩ := bind_eq_ok.mp hcurrent
  cases head with
  | detached tip =>
    cases hcurrent
    cases hname
  | symbolic ref =>
    cases hcurrent
    cases hname
    rw [hhead, stripPrefix_eq_some_iff.mp (okOr_eq_ok.mp hbranch)]

/-! ## What the fetch of a pull keeps -/

/-- The working tree, the index, `HEAD` and the branches stay as they are. -/
structure KeepsLocal (repo repo' : Repo W) : Prop where
  workdir : repo'.workdir = repo.workdir
  index : Index.read repo'.files indexPath = Index.read repo.files indexPath
  head : repo'.files.get? headPath = repo.files.get? headPath
  branch : ∀ b, repo'.files.get? ("refs/heads/" ++ b) =
    repo.files.get? ("refs/heads/" ++ b)
  tree : KeepsTree repo repo'

instance : Std.Refl (KeepsLocal (W := W)) := ⟨fun _ => ⟨rfl, rfl, rfl, fun _ => rfl, fun h => h⟩⟩

instance : IsTrans (Repo W) KeepsLocal := ⟨fun _ _ _ h h' =>
  ⟨h'.workdir.trans h.workdir, h'.index.trans h.index, h'.head.trans h.head,
    fun b => (h'.branch b).trans (h.branch b), fun htree => h'.tree (h.tree htree)⟩⟩

/-- A fetch sets no branch. -/
lemma take_mappedRef {remote name path : Str} (h : mappedRef remote name = some path) :
    path.take 6 = "refs/r" ∨ path.take 6 = "refs/i" ∨
      path.take 6 = "refs/p" := by
  unfold mappedRef at h
  split at h
  · cases h
    exact .inl rfl
  · split at h
    · cases h
      exact .inl rfl
    · split_ifs at h with hname
      cases h
      simp only [Bool.or_eq_true, List.isPrefixOf_iff_prefix] at hname
      rcases hname with (⟨rest, rfl⟩ | ⟨rest, rfl⟩) | ⟨rest, rfl⟩
      · exact .inr (.inl rfl)
      · exact .inr (.inr rfl)
      · exact .inr (.inl rfl)

lemma keepsLocal_writeRef {remote name path : Str} (h : mappedRef remote name = some path)
    (id : ObjectId) : Within KeepsLocal (writeRef path id : Cmd W Unit) := by
  have hne : ∀ other start : Str, other.take 6 = start →
      start ∉ ["refs/r".toList, "refs/i".toList, "refs/p".toList] → other ≠ path := by
    rintro other _ rfl hother rfl
    rcases take_mappedRef h with heq | heq | heq <;> simp [heq] at hother
  have hbelow : isBelow path indexPath = false := by
    rw [isBelow, Bool.eq_false_iff, Ne, List.isPrefixOf_iff_prefix]
    rintro ⟨rest, rfl⟩
    exact hne _ "index/" rfl (by decide) rfl
  refine within_writeRef (fun content => within_write fun repo hwrite => ?_) id
  refine ⟨rfl, Index.read_set (hne _ _ rfl (by decide)) fun h => ?_,
    get?_set_of_ne (hne _ _ rfl (by decide)),
    fun b => get?_set_of_ne (hne _ "refs/h" rfl (by decide)),
    fun htree => htree.set hwrite content⟩
  rw [hbelow] at h
  cases h

lemma keepsLocal_mirrorRef (remote : Str) (st : Mirrored) (r : RefEntry) :
    Within KeepsLocal (mirrorRef remote st r : Cmd W Mirrored) :=
  within_mirrorRef (fun _ hpath => keepsLocal_writeRef hpath r.id) st

lemma keepsLocal_fetch (configEnv : Config.Environment) (connect : Str → Result Remote)
    (remote : Str) (refspec : Option Str) (insecure : Bool) :
    Within KeepsLocal (fetchWithRefspecInner configEnv connect remote refspec insecure false :
      Cmd W FetchSummary) := by
  refine (within_readFiles _).bind fun ⟨client, all⟩ => ?_
  refine (within_lift _).bind fun _ => Within.bind (within_act fun repo => ?_) fun newObjects => ?_
  · exact ⟨rfl, rfl, rfl, fun _ => rfl, fun h => h⟩
  · refine (within_foldlM (keepsLocal_mirrorRef remote) _).bind fun st => ?_
    exact (within_pure 0).bind fun _ => within_pure _

end Gyt.Pull
