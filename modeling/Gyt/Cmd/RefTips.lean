import Gyt.Refs

/-!
# The enumerations of references

`log --all` and `push --all` find references on their own, without `list_refs`: `all_ref_tips` of
`cmd/log.rs` and the loop of `cmd/push.rs` read one directory each and do not enter those in it.
What they find is what `listRefs` finds directly in the directory (`mem_allRefTips`, `mem_pushAll`),
so the three agree only if nothing is lost by this (`enumerations_agree_iff`).  A branch
`feature/login` is not pushed, and a tip that only `refs/remotes/origin/main` has is not shown.

The reference files have no symbolic links.  A link in `refs/heads` would be another difference: it
is no file for `list_refs`, which asks the directory entry, while `push --all` asks for nothing but
its name and reads what it leads to.
-/

namespace Gyt

open List RefFiles

/-- The last component of the first path below a directory on the way to another path. -/
def RefFiles.entryName (dir path : Str) : Option Str :=
  if isBelow path dir then some ((path.drop (dir.length + 1)).takeWhile (· ≠ '/')) else none

/-- The names in a directory, of files and of directories. -/
def RefFiles.readDir (fs : RefFiles) (dir : Str) : List Str :=
  ((fs.files.map (·.1) ++ fs.dirs).filterMap (entryName dir)).eraseDups

/-- The directory of the branches. -/
def headsDir : Str := "refs/heads"

/-- The directories of the references that `log --all` starts from. -/
def tipDirs : List Str := [headsDir, "refs/tags", "refs/remotes"]

/-- The identifiers of the references directly in a directory, one iteration of `all_ref_tips`. -/
def refTips (fs : RefFiles) (dir : Str) : List ObjectId :=
  if fs.isDir dir then
    (fs.readDir dir).filterMap fun n =>
      if (fs.get? (dir ++ '/' :: n)).isSome then refValue fs (dir ++ '/' :: n) else none
  else []

def allRefTips (fs : RefFiles) : List ObjectId := tipDirs.flatMap (refTips fs)

/-- The names that `push --all` takes for branches. -/
def branchesToPush (fs : RefFiles) : Result (List Str) := do
  let bs := fs.readDir headsDir
  ensure (bs ≠ []) (.repo ["push: no local branches found"])
  return bs.insertionSort (· ≤ ·)

/-- The branches that `push --all` sends: those that cannot be read are skipped. -/
def pushAll (fs : RefFiles) : Result (List Str) := do
  let bs ← branchesToPush fs
  return bs.filter fun b => (refValue fs (headsDir ++ '/' :: b)).isSome

variable {fs : RefFiles} {dir n : Str} {id : ObjectId}

lemma isBelow_iff_exists {path : Str} :
    isBelow path dir = true ↔ ∃ rest, path = dir ++ '/' :: rest := by
  rw [isBelow, isPrefixOf_iff_prefix]
  constructor
  · rintro ⟨rest, rfl⟩
    exact ⟨rest, append_assoc dir ['/'] rest⟩
  · rintro ⟨rest, rfl⟩
    exact ⟨rest, append_assoc dir ['/'] rest⟩

lemma slash_notMem_of_mem_readDir (h : n ∈ fs.readDir dir) : '/' ∉ n := by
  obtain ⟨path, -, hname⟩ := mem_filterMap.mp (mem_eraseDups.mp h)
  unfold entryName at hname
  split_ifs at hname
  cases hname
  exact fun hslash => absurd (mem_takeWhile_imp hslash) (by decide)

/-- A reference directly in a directory is in its listing. -/
lemma mem_readDir_of_refValue (hn : '/' ∉ n) (h : refValue fs (dir ++ '/' :: n) = some id) :
    n ∈ fs.readDir dir := by
  have hname : entryName dir (dir ++ '/' :: n) = some n := by
    have hrest : (dir ++ '/' :: n).drop (dir.length + 1) = n := by
      rw [drop_append, drop_eq_nil_of_le (Nat.le_succ _), Nat.add_sub_cancel_left]
      rfl
    rw [entryName, if_pos (isBelow_iff_exists.mpr ⟨n, rfl⟩), hrest, takeWhile_eq_self_iff.mpr]
    exact fun c hc => decide_eq_true fun hslash => hn (hslash ▸ hc)
  apply mem_eraseDups.mpr
  exact mem_filterMap.mpr ⟨_, mem_append_left _ (mem_map_files_of_refValue h), hname⟩

lemma mem_refTips :
    id ∈ refTips fs dir ↔ ∃ n, '/' ∉ n ∧ refValue fs (dir ++ '/' :: n) = some id := by
  unfold refTips
  constructor
  · intro h
    split_ifs at h
    · obtain ⟨n, hn, hvalue⟩ := mem_filterMap.mp h
      split_ifs at hvalue
      exact ⟨n, slash_notMem_of_mem_readDir hn, hvalue⟩
    · cases h
  · rintro ⟨n, hn, hvalue⟩
    have hsome := get?_isSome_of_refValue hvalue
    rw [if_pos (isDir_of_isBelow hsome (isBelow_iff_exists.mpr ⟨n, rfl⟩))]
    refine mem_filterMap.mpr ⟨n, mem_readDir_of_refValue hn hvalue, ?_⟩
    rw [if_pos hsome, hvalue]

/-- The tips are the values of the references directly in one of the directories. -/
theorem mem_allRefTips : id ∈ allRefTips fs ↔
    ∃ d ∈ tipDirs, ∃ n, '/' ∉ n ∧ refValue fs (d ++ '/' :: n) = some id := by
  simp only [allRefTips, mem_flatMap, mem_refTips]

/-- The branches that are pushed are the references directly in their directory. -/
theorem mem_pushAll : (∃ bs, pushAll fs = .ok bs ∧ n ∈ bs) ↔
    '/' ∉ n ∧ ∃ id, refValue fs (headsDir ++ '/' :: n) = some id := by
  have hmem : ∀ {bs}, branchesToPush fs = .ok bs → (n ∈ bs ↔ n ∈ fs.readDir headsDir) := by
    intro bs h
    obtain ⟨-, hsorted⟩ := check_bind_eq_ok.mp h
    cases hsorted
    exact (perm_insertionSort _ _).mem_iff
  constructor
  · rintro ⟨bs, h, hn⟩
    obtain ⟨names, hnames, hfilter⟩ := bind_eq_ok.mp h
    cases hfilter
    obtain ⟨hn, hvalue⟩ := mem_filter.mp hn
    exact ⟨slash_notMem_of_mem_readDir ((hmem hnames).mp hn), Option.isSome_iff_exists.mp hvalue⟩
  · rintro ⟨hn, id, hvalue⟩
    have hread := mem_readDir_of_refValue hn hvalue
    have hnames : branchesToPush fs = .ok ((fs.readDir headsDir).insertionSort (· ≤ ·)) := by
      unfold branchesToPush
      dsimp only
      rw [(ensure_eq_ok (u := ())).mpr (ne_nil_of_mem hread)]
      rfl
    refine ⟨_, bind_eq_ok.mpr ⟨_, hnames, rfl⟩, mem_filter.mpr ⟨(hmem hnames).mpr hread, ?_⟩⟩
    exact Option.isSome_iff_exists.mpr ⟨id, hvalue⟩

/-- The enumerations agree exactly if every tip is also the tip of a reference directly in one of
the directories, and no branch has a name of several components. -/
theorem enumerations_agree_iff {refs : Str → RefList}
    (hrefs : ∀ d ∈ tipDirs, listRefs fs d = .ok (refs d)) :
    ((∀ id, id ∈ allRefTips fs ↔ ∃ d ∈ tipDirs, ∃ name, (name, id) ∈ refs d) ∧
      ∀ b, (∃ bs, pushAll fs = .ok bs ∧ b ∈ bs) ↔
        ∃ id, (headsDir ++ '/' :: b, id) ∈ refs headsDir) ↔
    (∀ d ∈ tipDirs, ∀ rest id, refValue fs (d ++ '/' :: rest) = some id →
        ∃ d' ∈ tipDirs, ∃ n, '/' ∉ n ∧ refValue fs (d' ++ '/' :: n) = some id) ∧
      ∀ rest id, refValue fs (headsDir ++ '/' :: rest) = some id → '/' ∉ rest := by
  have hlisted : ∀ d ∈ tipDirs, ∀ rest id, (d ++ '/' :: rest, id) ∈ refs d ↔
      refValue fs (d ++ '/' :: rest) = some id := by
    intro d hd rest id
    rw [mem_listRefs (hrefs d hd), and_iff_right (isBelow_iff_exists.mpr ⟨rest, rfl⟩)]
  refine and_congr ⟨fun h d hd rest id hvalue => ?_, fun h id => ?_⟩ (forall_congr' fun b => ?_)
  · exact mem_allRefTips.mp ((h id).mpr ⟨d, hd, _, (hlisted d hd rest id).mpr hvalue⟩)
  · rw [mem_allRefTips]
    constructor
    · rintro ⟨d, hd, n, -, hvalue⟩
      exact ⟨d, hd, _, (hlisted d hd n id).mpr hvalue⟩
    · rintro ⟨d, hd, name, hname⟩
      obtain ⟨rest, rfl⟩ := isBelow_iff_exists.mp ((mem_listRefs (hrefs d hd)).mp hname).1
      exact h d hd rest id ((hlisted d hd rest id).mp hname)
  · simp only [mem_pushAll, hlisted headsDir mem_cons_self b, and_iff_right_iff_imp,
      forall_exists_index]

/-- Listing finds a branch whose name has two components; `log --all` finds no tip, and `push --all`
takes the directory for a branch and pushes nothing. -/
theorem nested_branch_unlisted : ∃ fs : RefFiles,
    listRefs fs headsDir = .ok [("refs/heads/feature/login", .zero)] ∧
      allRefTips fs = [] ∧ branchesToPush fs = .ok ["feature"] ∧ pushAll fs = .ok [] := by
  refine ⟨⟨[("refs/heads/feature/login", refContent .zero)], []⟩, ?_⟩
  decide +kernel

/-- Two branches, and a remote branch that is where one of them is. -/
def sampleTips : RefFiles :=
  ⟨[("refs/heads/main", refContent (.fill 1)), ("refs/heads/dev", refContent .zero),
    ("refs/remotes/origin/main", refContent (.fill 1))], []⟩

/-- What listing finds in a directory. -/
def sampleListed (dir : Str) : RefList := (listRefs sampleTips dir).toOption.getD []

/-- The enumerations agree on branches whose names have one component, and on a remote branch with
the tip of a branch. -/
theorem enumerations_agree_remote : sampleListed headsDir ≠ [] ∧
    (∀ id, id ∈ allRefTips sampleTips ↔ ∃ d ∈ tipDirs, ∃ name, (name, id) ∈ sampleListed d) ∧
      ∀ b, (∃ bs, pushAll sampleTips = .ok bs ∧ b ∈ bs) ↔
        ∃ id, (headsDir ++ '/' :: b, id) ∈ sampleListed headsDir := by
  have hremote : refValue sampleTips "refs/remotes/origin/main" =
      refValue sampleTips (headsDir ++ '/' :: "main") := by decide +kernel
  refine ⟨by decide +kernel, (enumerations_agree_iff (by decide +kernel)).mpr ⟨?_, ?_⟩⟩
  · intro d hd rest id hvalue
    have hfile := mem_map_files_of_refValue hvalue
    simp only [sampleTips, map_cons, map_nil, mem_cons, not_mem_nil, or_false] at hfile
    refine ⟨headsDir, mem_cons_self, ?_⟩
    rcases hfile with hfile | hfile | hfile <;> rw [hfile] at hvalue
    · exact ⟨"main", by decide, hvalue⟩
    · exact ⟨"dev", by decide, hvalue⟩
    · exact ⟨"main", by decide, hremote ▸ hvalue⟩
  · intro rest id hvalue
    have hfile := mem_map_files_of_refValue hvalue
    simp only [sampleTips, map_cons, map_nil, mem_cons, not_mem_nil, or_false] at hfile
    rcases hfile with hfile | hfile | hfile <;> cases hfile <;> decide

end Gyt
