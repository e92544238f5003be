import Gyt.Foundation.Patch
import Gyt.Diff.Myers

/-!
# Hunks of a difference

The grouping of a script into hunks with context lines, `group_hunks` of `diff.rs`.  The source
walks over the operations with an index; here the operations before it (in reverse order) and those
from it on are two lists.

The script is cut into groups of changes at the runs of kept lines that are longer than
`2 * context`, and each hunk is a window around a group (`groupHunks_eq_windows`).  The windows are
apart from one another, and then the hunks are a patch, if these runs are not shorter than
`2 * context`.  This is always so unless the product, a `usize`, wraps around
(`groupHunks_faithful_iff`).
-/

namespace Gyt.Diff

open List Nat

variable {α : Type}

/-! ## The source -/

/-- Whether an operation keeps a line. -/
def isEqual : DiffOp α → Bool
  | .equal _ => true
  | .delete _ => false
  | .insert _ => false

/-- One contiguous hunk; line numbers start with 1. -/
structure Hunk (α : Type) where
  aStart : ℕ
  aLen : ℕ
  bStart : ℕ
  bLen : ℕ
  ops : Script α
  deriving DecidableEq, Repr

/-- The numbers of lines of the two files after one more operation. -/
def advance (pos : ℕ × ℕ) : DiffOp α → ℕ × ℕ
  | .equal _ => (pos.1 + 1, pos.2 + 1)
  | .delete _ => (pos.1 + 1, pos.2)
  | .insert _ => (pos.1, pos.2 + 1)

/-- The loops that take up to `context` kept lines next to a change; the first number is how many
have been taken. -/
def contextLoop (context : ℕ) : ℕ → Script α → ℕ
  | n, [] => n
  | n, op :: ops => if n < context ∧ isEqual op then contextLoop context (n + 1) ops else n

/-- The longest run of kept lines inside a hunk, `2 * context` as a `usize`. -/
def absorbLimit (context : ℕ) : ℕ := 2 * context % 2 ^ 64

/-- The loop that looks for the last change of a hunk, with a bound on its iterations: the
operations from index `j` on, counted from the first change, and the last change so far. -/
def changesLoop (context : ℕ) : ℕ → Script α → ℕ → ℕ → ℕ
  | 0, _, _, lastChange => lastChange
  | _ + 1, [], _, lastChange => lastChange
  | fuel + 1, op :: ops, j, lastChange =>
    if isEqual op then
      let runLen := ((op :: ops).takeWhile isEqual).length
      let afterRun := (op :: ops).drop runLen
      if afterRun ≠ [] ∧ runLen ≤ absorbLimit context then
        changesLoop context fuel afterRun (j + runLen) lastChange
      else lastChange
    else changesLoop context fuel ops (j + 1) j

/-- The outer loop of `groupHunks`, with a bound on its iterations: the operations before index `i`,
last one first, those from `i` on, and the positions in the two files. -/
def hunksLoop (context : ℕ) :
    ℕ → Script α → Script α → ℕ × ℕ → List (Hunk α)
  | 0, _, _, _ => []
  | fuel + 1, before, rest, pos =>
    let skipped := rest.takeWhile isEqual
    let before := skipped.reverse ++ before
    let rest := rest.dropWhile isEqual
    let pos := skipped.foldl advance pos
    if rest = [] then []
    else
      let lead := contextLoop context 0 before
      let body := changesLoop context rest.length rest 0 0 + 1
      let trail := contextLoop context 0 (rest.drop body)
      let consumed := rest.take (body + trail)
      let hunkOps := (before.take lead).reverse ++ consumed
      let len := hunkOps.foldl advance (0, 0)
      ⟨pos.1 - lead + 1, len.1, pos.2 - lead + 1, len.2, hunkOps⟩ ::
        hunksLoop context fuel (consumed.reverse ++ before) (rest.drop (body + trail))
          (consumed.foldl advance pos)

/-- Grouping a script into hunks with up to `context` kept lines around the changes. -/
def groupHunks (ops : Script α) (context : ℕ) : List (Hunk α) :=
  hunksLoop context ops.length [] ops (0, 0)

example : (groupHunks [.equal 1, .delete 2, .equal 3, .equal 4, .equal 5, .insert 6] 1) =
    [⟨1, 3, 1, 2, [.equal 1, .delete 2, .equal 3]⟩, ⟨5, 1, 4, 2, [.equal 5, .insert 6]⟩] := by
  decide

/-! ## The loops -/

/-- All operations keep a line. -/
def AllEqual (ops : Script α) : Prop := ∀ op ∈ ops, isEqual op = true

/-- The first operation, if there is one, changes a line. -/
def StartsChanged (ops : Script α) : Prop := ∀ op ∈ ops.head?, isEqual op = false

variable {ops run post gap body older rest : Script α} {op : DiffOp α} {c n fuel j : ℕ}

lemma foldl_advance (ops : Script α) (pos : ℕ × ℕ) :
    ops.foldl advance pos = (pos.1 + (oldLines ops).length, pos.2 + (newLines ops).length) := by
  induction ops generalizing pos with
  | nil => rfl
  | cons op ops ih =>
    rw [foldl_cons, ih]
    cases op with
    | equal l =>
      show (pos.1 + 1 + (oldLines ops).length, pos.2 + 1 + (newLines ops).length) =
        (pos.1 + ((oldLines ops).length + 1), pos.2 + ((newLines ops).length + 1))
      rw [add_right_comm, add_right_comm pos.2]
      rfl
    | delete l =>
      show (pos.1 + 1 + (oldLines ops).length, pos.2 + (newLines ops).length) =
        (pos.1 + ((oldLines ops).length + 1), pos.2 + (newLines ops).length)
      rw [add_right_comm]
      rfl
    | insert l =>
      show (pos.1 + (oldLines ops).length, pos.2 + 1 + (newLines ops).length) =
        (pos.1 + (oldLines ops).length, pos.2 + ((newLines ops).length + 1))
      rw [add_right_comm]
      rfl

lemma contextLoop_eq (hn : n ≤ c) :
    contextLoop c n ops = min c (n + (ops.takeWhile isEqual).length) := by
  induction ops generalizing n with
  | nil => simp [contextLoop, hn]
  | cons op ops ih =>
    rw [contextLoop]
    by_cases hop : isEqual op = true
    · rw [takeWhile_cons_of_pos hop, length_cons]
      by_cases hlt : n < c
      · rw [if_pos ⟨hlt, hop⟩, ih hlt]
        congr 1
        omega
      · rw [if_neg fun h => hlt h.1]
        omega
    · rw [takeWhile_cons_of_neg hop, if_neg fun h => hop h.2]
      simp [hn]

lemma StartsChanged.takeWhile_eq (h : StartsChanged post) : post.takeWhile isEqual = [] := by
  cases post with
  | nil => rfl
  | cons op post => exact takeWhile_cons_of_neg (by simp [h op rfl])

lemma StartsChanged.dropWhile_eq (h : StartsChanged post) : post.dropWhile isEqual = post := by
  cases post with
  | nil => rfl
  | cons op post => exact dropWhile_cons_of_neg (by simp [h op rfl])

section

variable (hrun : AllEqual run) (hpost : StartsChanged post)

include hrun hpost

/-- A run of kept lines ends where a change is. -/
lemma takeWhile_run : (run ++ post).takeWhile isEqual = run := by
  rw [takeWhile_append_of_pos hrun, hpost.takeWhile_eq, append_nil]

lemma dropWhile_run : (run ++ post).dropWhile isEqual = post := by
  rw [dropWhile_append_of_pos hrun, hpost.dropWhile_eq]

lemma contextLoop_run : contextLoop c 0 (run ++ post) = min c run.length := by
  rw [contextLoop_eq (zero_le c), takeWhile_run hrun hpost, zero_add]

end

lemma allEqual_takeWhile (ops : Script α) : AllEqual (ops.takeWhile isEqual) := by
  intro op hop
  exact mem_takeWhile_imp hop

lemma startsChanged_dropWhile (ops : Script α) : StartsChanged (ops.dropWhile isEqual) := by
  intro op hop
  have hhead := head?_dropWhile_not isEqual ops
  rw [hop] at hhead
  exact hhead

/-- The changes of a hunk and the kept lines between them, in runs of at most `w` lines. -/
inductive Body (w : ℕ) : Script α → Prop
  | last {op : DiffOp α} (hop : isEqual op = false) : Body w [op]
  | absorb {op : DiffOp α} {run body : Script α} (hop : isEqual op = false)
      (hrun : AllEqual run) (hlen : run.length ≤ w) (h : Body w body) : Body w (op :: (run ++ body))

/-- The last operation of a body is a change too. -/
lemma Body.startsChanged_reverse {w : ℕ} (h : Body w body) (older : Script α) :
    StartsChanged (body.reverse ++ older) := by
  induction h generalizing older with
  | last hop =>
    rintro _ ⟨⟩
    exact hop
  | absorb _ _ _ _ ih =>
    rw [reverse_cons, reverse_append, append_assoc, append_assoc]
    exact ih _

/-- An iteration at a run of kept lines. -/
lemma changesLoop_run (hrun : AllEqual run) (hne : run ≠ []) (hpost : StartsChanged post)
    (last : ℕ) : changesLoop c (fuel + 1) (run ++ post) j last =
      if post ≠ [] ∧ run.length ≤ absorbLimit c then changesLoop c fuel post (j + run.length) last
      else last := by
  obtain ⟨op, run', rfl⟩ := exists_cons_of_ne_nil hne
  have htake := takeWhile_run hrun hpost
  rw [cons_append] at htake ⊢
  rw [changesLoop, if_pos (hrun op mem_cons_self)]
  dsimp only
  rw [htake, ← cons_append, drop_left]

/-- The cut of a script that starts with a change: a body, and a run of kept lines after which there
are no changes or that is too long to be inside of a body. -/
structure Cut (w : ℕ) (ops body run post : Script α) : Prop where
  eq : ops = body ++ (run ++ post)
  isBody : Body w body
  kept : AllEqual run
  changed : StartsChanged post
  ends : post = [] ∨ w < run.length

lemma Cut.absorb {w : ℕ} {run' : Script α} (h : Cut w ops body run post)
    (hop : isEqual op = false) (hrun : AllEqual run') (hlen : run'.length ≤ w) :
    Cut w (op :: (run' ++ ops)) (op :: (run' ++ body)) run post := by
  refine ⟨?_, .absorb hop hrun hlen h.isBody, h.kept, h.changed, h.ends⟩
  rw [h.eq]
  simp

/-- The loop finds the last change of a body. -/
lemma changesLoop_spec (j : ℕ) (hop : isEqual op = false) (hfuel : (op :: ops).length ≤ fuel)
    (last : ℕ) : ∃ body run post, Cut (absorbLimit c) (op :: ops) body run post ∧
      changesLoop c fuel (op :: ops) j last + 1 = j + body.length := by
  induction fuel using Nat.strong_induction_on generalizing op ops j last with
  | _ fuel ih =>
  obtain _ | fuel := fuel
  · simp at hfuel
  have hrun := allEqual_takeWhile ops
  have hpost := startsChanged_dropWhile ops
  have hops := takeWhile_append_dropWhile (p := isEqual) (l := ops)
  revert hrun hpost hops
  generalize ops.takeWhile isEqual = run, ops.dropWhile isEqual = post
  rintro hrun hpost rfl
  rw [length_cons, length_append] at hfuel
  rw [changesLoop, if_neg (by simp [hop])]
  -- If the loop goes on at the next change, it finds a body there.
  have hnext : ∀ fuel' < fuel + 1, post.length ≤ fuel' → post ≠ [] → run.length ≤ absorbLimit c →
      ∃ body run' post', Cut (absorbLimit c) (op :: (run ++ post)) body run' post' ∧
        changesLoop c fuel' post (j + 1 + run.length) j + 1 = j + body.length := by
    intro fuel' hlt hfuel' hne hlen
    obtain ⟨op', ops', rfl⟩ := exists_cons_of_ne_nil hne
    obtain ⟨body, run', post', hcut, hlast⟩ :=
      ih fuel' hlt (j + 1 + run.length) (hpost op' rfl) hfuel' j
    refine ⟨_, _, _, hcut.absorb hop hrun hlen, ?_⟩
    rw [hlast, length_cons, length_append]
    omega
  have hstop : ∀ r, r = j → post = [] ∨ absorbLimit c < run.length →
      ∃ body run' post', Cut (absorbLimit c) (op :: (run ++ post)) body run' post' ∧
        r + 1 = j + body.length := by
    rintro r rfl hends
    exact ⟨[op], run, post, ⟨rfl, .last hop, hrun, hpost, hends⟩, rfl⟩
  by_cases hrunNil : run = []
  · subst hrunNil
    by_cases hne : post = []
    · refine hstop _ ?_ (.inl hne)
      rw [hne]
      cases fuel <;> rfl
    · exact hnext fuel (lt_succ_self fuel) (by simpa using hfuel) hne (zero_le _)
  · have hpos := length_pos_iff.mpr hrunNil
    obtain _ | fuel := fuel
    · omega
    rw [changesLoop_run hrun hrunNil hpost]
    split_ifs with habsorb
    · exact hnext fuel (by omega) (by omega) habsorb.1 habsorb.2
    · refine hstop j rfl ?_
      by_contra hends
      rw [not_or, not_lt] at hends
      exact habsorb hends

/-! ## Groups and windows -/

/-- Bodies, each with the run of kept lines after it. -/
abbrev Groups (α : Type) := List (Script α × Script α)

/-- The script of groups. -/
def flatten (groups : Groups α) : Script α :=
  groups.flatMap fun g => g.1 ++ g.2

/-- The groups of a script: bodies with runs after them that are too long to be inside of a body,
except for the last one. -/
inductive Grouped (w : ℕ) : Groups α → Prop
  | nil : Grouped w []
  | cons {body run : Script α} {groups : Groups α}
      (hbody : Body w body) (hrun : AllEqual run) (hlong : groups ≠ [] → w < run.length)
      (h : Grouped w groups) : Grouped w ((body, run) :: groups)

lemma Body.ne_nil {w : ℕ} (h : Body w body) : body ≠ [] := by
  cases h with
  | last _ => exact cons_ne_nil _ _
  | absorb _ _ _ _ => exact cons_ne_nil _ _

lemma Grouped.flatten_ne_nil {w : ℕ} {groups : Groups α}
    (h : Grouped w groups) (hne : groups ≠ []) : flatten groups ≠ [] := by
  cases h with
  | nil => exact absurd rfl hne
  | cons hbody _ _ _ => simp [flatten, hbody.ne_nil]

/-- The hunks of groups: each body with up to `c` kept lines before and after it.  The first
arguments are the positions in the two files and the kept lines there. -/
def windows (c : ℕ) : ℕ × ℕ → Script α → Groups α →
    List (Hunk α)
  | _, _, [] => []
  | pos, gap, (body, run) :: groups =>
    let lead := min c gap.length
    let ops := gap.drop (gap.length - lead) ++ (body ++ run.take c)
    ⟨pos.1 + gap.length - lead + 1, (oldLines ops).length, pos.2 + gap.length - lead + 1,
      (newLines ops).length, ops⟩ ::
      windows c (pos.1 + gap.length + (oldLines body).length,
        pos.2 + gap.length + (newLines body).length) run groups

/-- Kept lines are in both files. -/
lemma lines_of_allEqual (h : AllEqual run) :
    oldLines run = newLines run ∧ (newLines run).length = run.length := by
  induction run with
  | nil => exact ⟨rfl, rfl⟩
  | cons op run ih =>
    obtain ⟨heq, hlen⟩ := ih fun op' hop' => h op' (mem_cons_of_mem op hop')
    cases op with
    | equal l => exact ⟨congrArg (l :: ·) heq, congrArg (· + 1) hlen⟩
    | delete l => exact absurd (h _ mem_cons_self) (by simp [isEqual])
    | insert l => exact absurd (h _ mem_cons_self) (by simp [isEqual])

lemma length_of_allEqual (h : AllEqual run) :
    (oldLines run).length = run.length ∧ (newLines run).length = run.length := by
  obtain ⟨heq, hlen⟩ := lines_of_allEqual h
  exact ⟨heq ▸ hlen, hlen⟩

lemma foldl_advance_of_allEqual (h : AllEqual run) (pos : ℕ × ℕ) :
    run.foldl advance pos = (pos.1 + run.length, pos.2 + run.length) := by
  rw [foldl_advance, (length_of_allEqual h).1, (length_of_allEqual h).2]

variable {run' : Script α}

lemma AllEqual.append (h : AllEqual run) (h' : AllEqual run') :
    AllEqual (run ++ run') := by
  intro op hop
  rcases mem_append.mp hop with hop | hop
  · exact h op hop
  · exact h' op hop

lemma AllEqual.of_sublist (h : AllEqual run) (hsub : run'.Sublist run) : AllEqual run' :=
  fun op hop => h op (hsub.subset hop)

/-- One iteration of the outer loop that finds a change: the hunk is the window around a body. -/
lemma hunksLoop_cut (hgap : AllEqual gap) (holder : StartsChanged older)
    (hskip : rest.dropWhile isEqual = op :: ops)
    (hcut : Cut (absorbLimit c) (op :: ops) body run post)
    (hlast : changesLoop c (op :: ops).length (op :: ops) 0 0 + 1 = body.length) (pos : ℕ × ℕ) :
    let gap' := gap ++ rest.takeWhile isEqual
    let hunkOps := gap'.drop (gap'.length - min c gap'.length) ++ (body ++ run.take c)
    hunksLoop c (fuel + 1) (gap.reverse ++ older) rest (pos.1 + gap.length, pos.2 + gap.length) =
      ⟨pos.1 + gap'.length - min c gap'.length + 1, (oldLines hunkOps).length,
        pos.2 + gap'.length - min c gap'.length + 1, (newLines hunkOps).length, hunkOps⟩ ::
        hunksLoop c fuel ((run.take c).reverse ++ (body.reverse ++ (gap'.reverse ++ older)))
          (run.drop c ++ post)
          (pos.1 + gap'.length + (oldLines body).length + (run.take c).length,
            pos.2 + gap'.length + (newLines body).length + (run.take c).length) := by
  intro gap' hunkOps
  have hskipped := allEqual_takeWhile rest
  have hgap' : AllEqual gap' := hgap.append hskipped
  have hbefore :
      (rest.takeWhile isEqual).reverse ++ (gap.reverse ++ older) = gap'.reverse ++ older := by
    simp [gap']
  have hlead : contextLoop c 0 (gap'.reverse ++ older) = min c gap'.length := by
    rw [contextLoop_run (fun op hop => hgap' op (mem_reverse.mp hop)) holder, length_reverse]
  have htrail : contextLoop c 0 ((op :: ops).drop body.length) = min c run.length := by
    rw [hcut.eq, drop_left, contextLoop_run hcut.kept hcut.changed]
  have htake : (op :: ops).take (body.length + min c run.length) = body ++ run.take c := by
    rw [hcut.eq, take_length_add_append, take_append_of_le_length (min_le_right c _),
      ← take_eq_take_min]
  have hdrop : (op :: ops).drop (body.length + min c run.length) = run.drop c ++ post := by
    rw [hcut.eq, drop_length_add_append, drop_append_of_le_length (min_le_right c _),
      ← drop_eq_drop_min]
  rw [hunksLoop, hskip, if_neg (cons_ne_nil op ops)]
  dsimp only
  have htop : ((gap'.reverse ++ older).take (min c gap'.length)).reverse =
      gap'.drop (gap'.length - min c gap'.length) := by
    rw [take_append_of_le_length (by simp), take_reverse, reverse_reverse]
  have hpos : (rest.takeWhile isEqual).foldl advance (pos.1 + gap.length, pos.2 + gap.length) =
      (pos.1 + gap'.length, pos.2 + gap'.length) := by
    rw [foldl_advance_of_allEqual hskipped, length_append, add_assoc, add_assoc]
  have hend : (body ++ run.take c).foldl advance (pos.1 + gap'.length, pos.2 + gap'.length) =
      (pos.1 + gap'.length + (oldLines body).length + (run.take c).length,
        pos.2 + gap'.length + (newLines body).length + (run.take c).length) := by
    rw [foldl_append, foldl_advance body,
      foldl_advance_of_allEqual (hcut.kept.of_sublist (take_sublist c run))]
  rw [hbefore, hlead, hlast, htrail, htake, hdrop, htop, hpos, hend, foldl_advance, zero_add,
    zero_add, reverse_append, append_assoc]

/-- The outer loop makes the windows of groups. -/
lemma hunksLoop_eq (hfuel : rest.length ≤ fuel) (pos : ℕ × ℕ) (hgap : AllEqual gap)
    (holder : StartsChanged older) :
    ∃ groups, Grouped (absorbLimit c) groups ∧ rest.dropWhile isEqual = flatten groups ∧
      hunksLoop c fuel (gap.reverse ++ older) rest (pos.1 + gap.length, pos.2 + gap.length) =
        windows c pos (gap ++ rest.takeWhile isEqual) groups := by
  induction fuel generalizing rest pos gap older with
  | zero =>
    obtain rfl : rest = [] := eq_nil_of_length_eq_zero (le_zero.mp hfuel)
    exact ⟨[], .nil, rfl, rfl⟩
  | succ fuel ih =>
    by_cases hskip : rest.dropWhile isEqual = []
    · refine ⟨[], .nil, hskip, ?_⟩
      rw [hunksLoop, hskip, if_pos rfl]
      rfl
    obtain ⟨op, ops, hskip⟩ := exists_cons_of_ne_nil hskip
    have hop : isEqual op = false := startsChanged_dropWhile rest op (by rw [hskip]; rfl)
    obtain ⟨body, run, post, hcut, hlast⟩ :=
      changesLoop_spec (c := c) 0 hop (le_refl (op :: ops).length) 0
    rw [zero_add] at hlast
    have hlen : (run.drop c ++ post).length ≤ fuel := by
      have hrest := (dropWhile_sublist (l := rest) isEqual).length_le
      have hbody := congrArg length hcut.eq
      rw [hskip, hbody] at hrest
      simp only [length_append, length_drop] at hrest hbody ⊢
      omega
    obtain ⟨groups, hgrouped, hpost, hloop⟩ := ih hlen
      (pos.1 + (gap ++ rest.takeWhile isEqual).length + (oldLines body).length,
        pos.2 + (gap ++ rest.takeWhile isEqual).length + (newLines body).length)
      (hcut.kept.of_sublist (take_sublist c run))
      (hcut.isBody.startsChanged_reverse ((gap ++ rest.takeWhile isEqual).reverse ++ older))
    have hkept := hcut.kept.of_sublist (drop_sublist c run)
    rw [dropWhile_run hkept hcut.changed] at hpost
    rw [takeWhile_run hkept hcut.changed, take_append_drop] at hloop
    refine ⟨(body, run) :: groups, .cons hcut.isBody hcut.kept ?_ hgrouped, ?_, ?_⟩
    · intro hne
      refine hcut.ends.resolve_left ?_
      rw [hpost]
      exact hgrouped.flatten_ne_nil hne
    · rw [hskip, hcut.eq, hpost]
      simp [flatten]
    · rw [hunksLoop_cut hgap holder hskip hcut hlast pos, hloop]
      rfl

/-- The hunks of a script are the windows around its groups. -/
theorem groupHunks_eq_windows (ops : Script α) (c : ℕ) :
    ∃ gap groups, ops = gap ++ flatten groups ∧ AllEqual gap ∧ Grouped (absorbLimit c) groups ∧
      groupHunks ops c = windows c (0, 0) gap groups := by
  have hgap : AllEqual ([] : Script α) := fun op hop => absurd hop not_mem_nil
  have holder : StartsChanged ([] : Script α) := fun op hop => by cases hop
  obtain ⟨groups, hgrouped, hflatten, hloop⟩ :=
    hunksLoop_eq (c := c) (le_refl ops.length) (0, 0) hgap holder
  refine ⟨ops.takeWhile isEqual, groups, ?_, allEqual_takeWhile ops, hgrouped, hloop⟩
  rw [← hflatten, takeWhile_append_dropWhile]

/-! ## Runs between changes -/

/-- The lengths of the runs of kept lines between changes; the first argument counts the kept lines
since the last change, if there was one. -/
def innerRunsFrom : Option ℕ → Script α → List ℕ
  | _, [] => []
  | since, op :: ops =>
    if isEqual op then innerRunsFrom (since.map (· + 1)) ops
    else since.toList ++ innerRunsFrom (some 0) ops

/-- The lengths of the runs of kept lines between two changes of a script. -/
def innerRuns (ops : Script α) : List ℕ := innerRunsFrom none ops

lemma innerRunsFrom_run (h : AllEqual run) (since : Option ℕ) (post : Script α) :
    innerRunsFrom since (run ++ post) = innerRunsFrom (since.map (· + run.length)) post := by
  induction run generalizing since with
  | nil => simp
  | cons op run ih =>
    rw [cons_append, innerRunsFrom, if_pos (h op mem_cons_self),
      ih fun op' hop' => h op' (mem_cons_of_mem op hop'), Option.map_map, length_cons]
    congr 2
    funext k
    simp only [Function.comp_apply]
    omega

/-- The runs inside a body are short. -/
lemma Body.innerRunsFrom {w : ℕ} (h : Body w body) (rest : Script α) :
    ∃ short : List ℕ, (∀ l ∈ short, l ≤ w) ∧ ∀ since, Diff.innerRunsFrom since (body ++ rest) =
      since.toList ++ short ++ Diff.innerRunsFrom (some 0) rest := by
  induction h with
  | last hop =>
    refine ⟨[], by simp, fun since => ?_⟩
    rw [singleton_append, Diff.innerRunsFrom, if_neg (by simp [hop]), append_nil]
  | @absorb op run body hop hrun hlen _ ih =>
    obtain ⟨short, hshort, hih⟩ := ih
    refine ⟨run.length :: short, ?_, fun since => ?_⟩
    · intro l hl
      rcases mem_cons.mp hl with rfl | hl
      · exact hlen
      · exact hshort l hl
    · rw [cons_append, append_assoc, Diff.innerRunsFrom, if_neg (by simp [hop]),
        innerRunsFrom_run hrun, hih]
      simp

variable {groups : Groups α} {w : ℕ}

/-- The long runs between changes are those between two groups. -/
lemma Grouped.mem_innerRunsFrom_iff (h : Grouped w groups) (since : Option ℕ) {l : ℕ} (hl : w < l) :
    l ∈ Diff.innerRunsFrom since (flatten groups) ↔
      l ∈ since ∧ groups ≠ [] ∨ ∃ g ∈ groups.dropLast, l = g.2.length := by
  induction h generalizing since with
  | nil => simp [flatten, Diff.innerRunsFrom]
  | @cons body run groups hbody hrun _ _ ih =>
    obtain ⟨short, hshort, hinner⟩ := hbody.innerRunsFrom (run ++ flatten groups)
    have hnot : l ∉ short := fun hmem => absurd (hshort l hmem) (not_le.mpr hl)
    have hflatten : flatten ((body, run) :: groups) = body ++ (run ++ flatten groups) := by
      simp [flatten]
    rw [hflatten, hinner, innerRunsFrom_run hrun, mem_append, mem_append,
      or_iff_left hnot, ih, Option.mem_toList]
    have hsince : l ∈ (some 0).map (· + run.length) ↔ l = run.length := by simp [eq_comm]
    rw [hsince]
    by_cases hne : groups = []
    · simp [hne]
    · simp [dropLast_cons_of_ne_nil hne, hne]

/-- The groups of a script are at least `2 * c` kept lines apart. -/
def Wide (c : ℕ) (groups : Groups α) : Prop :=
  ∀ g ∈ groups.dropLast, 2 * c ≤ g.2.length

lemma Grouped.lt_of_mem_dropLast (h : Grouped w groups) {g : Script α × Script α}
    (hg : g ∈ groups.dropLast) : w < g.2.length := by
  induction h with
  | nil => exact absurd hg not_mem_nil
  | @cons body run groups _ _ hlong _ ih =>
    by_cases hne : groups = []
    · rw [hne] at hg
      exact absurd hg not_mem_nil
    · rw [dropLast_cons_of_ne_nil hne] at hg
      rcases mem_cons.mp hg with rfl | hg
      · exact hlong hne
      · exact ih hg

/-- The groups are so far apart if no run between changes ends a hunk without being long enough for
the context of both. -/
lemma Grouped.wide_iff (h : Grouped w groups) (hgap : AllEqual gap) :
    Wide c groups ↔ ∀ l ∈ innerRuns (gap ++ flatten groups), ¬ (w < l ∧ l < 2 * c) := by
  have hmem : ∀ l, w < l → (l ∈ innerRuns (gap ++ flatten groups) ↔
      ∃ g ∈ groups.dropLast, l = g.2.length) := by
    intro l hl
    rw [innerRuns, innerRunsFrom_run hgap, h.mem_innerRunsFrom_iff _ hl]
    simp
  constructor
  · rintro hwide l hmemL ⟨hl, hlt⟩
    obtain ⟨g, hg, rfl⟩ := (hmem l hl).mp hmemL
    exact absurd (hwide g hg) (not_le.mpr hlt)
  · intro hruns g hg
    have hl := h.lt_of_mem_dropLast hg
    by_contra hlt
    exact hruns _ ((hmem _ hl).mpr ⟨g, hg, rfl⟩) ⟨hl, Nat.lt_of_not_le hlt⟩

/-! ## Patches -/

/-- Hunks that cover a script from some positions in the two files on, with only kept lines between
them. -/
inductive Tiles : ℕ × ℕ → Script α → List (Hunk α) → Prop
  | done {pos : ℕ × ℕ} {ops : Script α} (h : AllEqual ops) : Tiles pos ops []
  | hunk {pos : ℕ × ℕ} {gap rest : Script α} {h : Hunk α} {hunks : List (Hunk α)}
      (hgap : AllEqual gap) (haStart : h.aStart = pos.1 + gap.length + 1)
      (hbStart : h.bStart = pos.2 + gap.length + 1) (haLen : h.aLen = (oldLines h.ops).length)
      (hbLen : h.bLen = (newLines h.ops).length)
      (hrest : Tiles (pos.1 + gap.length + h.aLen, pos.2 + gap.length + h.bLen) rest hunks) :
      Tiles pos (gap ++ (h.ops ++ rest)) (h :: hunks)

/-- Kept lines that no window reaches can be passed. -/
lemma windows_drop (k : ℕ) (pos : ℕ × ℕ) (hk : k + c ≤ gap.length)
    (groups : Groups α) :
    windows c (pos.1 + k, pos.2 + k) (gap.drop k) groups = windows c pos gap groups := by
  cases groups with
  | nil => rfl
  | cons g groups =>
    obtain ⟨body, run⟩ := g
    have hlead : min c (gap.length - k) = c := by omega
    have hlead' : min c gap.length = c := by omega
    have hsum : ∀ p, p + k + (gap.length - k) = p + gap.length := by omega
    have hdrop : k + (gap.length - k - c) = gap.length - c := by omega
    rw [windows, windows]
    simp only [length_drop, hlead, hlead', hsum, drop_drop, hdrop]

/-- The windows around groups that are far enough apart cover the script. -/
lemma tiles_windows (hgrouped : Grouped w groups) (hwide : Wide c groups) (hgap : AllEqual gap)
    (pos : ℕ × ℕ) : Tiles pos (gap ++ flatten groups) (windows c pos gap groups) := by
  induction hgrouped generalizing gap pos with
  | nil => exact .done (by simpa [flatten] using hgap)
  | @cons body run groups hbody hrun _ _ ih =>
    rw [windows]
    generalize hk : gap.length - min c gap.length = k
    have hlead : gap.length - k = min c gap.length := by omega
    have hops : gap ++ flatten ((body, run) :: groups) = gap.take k ++
        (gap.drop k ++ (body ++ run.take c) ++ (run.drop c ++ flatten groups)) := by
      simp only [flatten, flatMap_cons, append_assoc]
      rw [← append_assoc (run.take c), take_append_drop,
        ← append_assoc (gap.take k), take_append_drop]
    have hkept := length_of_allEqual (hgap.of_sublist (drop_sublist k gap))
    have htrail := length_of_allEqual (hrun.of_sublist (take_sublist c run))
    have hrest : Tiles (pos.1 + gap.length + (oldLines body).length + min c run.length,
        pos.2 + gap.length + (newLines body).length + min c run.length)
          (run.drop c ++ flatten groups) (windows c (pos.1 + gap.length + (oldLines body).length,
          pos.2 + gap.length + (newLines body).length) run groups) := by
      have hkept' := hrun.of_sublist (drop_sublist c run)
      by_cases hne : groups = []
      · rw [hne]
        exact .done (by simpa [flatten] using hkept')
      · -- The next window starts after the context of this one.
        rw [Wide, dropLast_cons_of_ne_nil hne] at hwide
        have hlen : 2 * c ≤ run.length := hwide _ mem_cons_self
        rw [min_eq_left (by omega), ← windows_drop c _ (by omega)]
        exact ih (fun g hg => hwide g (mem_cons_of_mem _ hg)) hkept' _
    rw [hops]
    refine Tiles.hunk (h := ⟨_, _, _, _, gap.drop k ++ (body ++ run.take c)⟩)
      (hgap.of_sublist (take_sublist k gap)) ?_ ?_ rfl rfl ?_
    · simp only [length_take]
      omega
    · simp only [length_take]
      omega
    · simp only [oldLines_append, newLines_append, length_append, hkept, htrail,
        length_take, length_drop]
      convert hrest using 2
      · omega
      · omega

/-- The change of the first file that a hunk stands for. -/
def Hunk.toChange (h : Hunk α) : Patch.Change α := ⟨h.aStart - 1, h.aLen, newLines h.ops⟩

/-- The hunks are a patch from `a` to `b`, for a script from `a` to `b`: they are in order and apart
in both files, they hold every change once, their lines are those of the files, and replacing them
in `a` gives `b`. -/
structure FaithfulPatch (a b : List α) (ops : Script α) (hunks : List (Hunk α)) : Prop where
  ordered : hunks.Pairwise fun h h' => h.aStart + h.aLen ≤ h'.aStart ∧ h.bStart + h.bLen ≤ h'.bStart
  lengths : ∀ h ∈ hunks, h.aLen = (oldLines h.ops).length ∧ h.bLen = (newLines h.ops).length
  changes : (hunks.flatMap fun h => h.ops.filter (!isEqual ·)) = ops.filter (!isEqual ·)
  old : ∀ h ∈ hunks, 1 ≤ h.aStart ∧ oldLines h.ops = (a.drop (h.aStart - 1)).take h.aLen
  new : ∀ h ∈ hunks, 1 ≤ h.bStart ∧ newLines h.ops = (b.drop (h.bStart - 1)).take h.bLen
  patch : Patch.apply 0 a (hunks.map Hunk.toChange) = b

variable {pos : ℕ × ℕ} {hunks : List (Hunk α)}

/-- The hunks are after the positions. -/
lemma Tiles.start_lt (h : Tiles pos ops hunks) :
    ∀ h ∈ hunks, pos.1 < h.aStart ∧ pos.2 < h.bStart := by
  induction h with
  | done _ => exact fun h hh => absurd hh not_mem_nil
  | hunk _ haStart hbStart _ _ _ ih =>
    intro h' hh'
    rcases mem_cons.mp hh' with rfl | hh'
    · omega
    · have hlt := ih h' hh'
      dsimp only at hlt
      omega

lemma Tiles.ordered (h : Tiles pos ops hunks) : hunks.Pairwise fun h h' =>
    h.aStart + h.aLen ≤ h'.aStart ∧ h.bStart + h.bLen ≤ h'.bStart := by
  induction h with
  | done _ => exact Pairwise.nil
  | hunk _ haStart hbStart _ _ hrest ih =>
    refine pairwise_cons.mpr ⟨fun h' hh' => ?_, ih⟩
    have hlt := hrest.start_lt h' hh'
    dsimp only at hlt
    omega

lemma Tiles.lengths (h : Tiles pos ops hunks) :
    ∀ h ∈ hunks, h.aLen = (oldLines h.ops).length ∧ h.bLen = (newLines h.ops).length := by
  induction h with
  | done _ => exact fun h hh => absurd hh not_mem_nil
  | hunk _ _ _ haLen hbLen _ ih => exact forall_mem_cons.mpr ⟨⟨haLen, hbLen⟩, ih⟩

lemma filter_of_allEqual (h : AllEqual run) : run.filter (!isEqual ·) = [] := by
  refine filter_eq_nil_iff.mpr ?_
  intro op hop
  simp [h op hop]

lemma Tiles.changes (h : Tiles pos ops hunks) :
    (hunks.flatMap fun h => h.ops.filter (!isEqual ·)) = ops.filter (!isEqual ·) := by
  induction h with
  | done hops => exact (filter_of_allEqual hops).symm
  | hunk hgap _ _ _ _ _ ih =>
    rw [flatMap_cons, ih, filter_append, filter_append, filter_of_allEqual hgap, nil_append]

/-- The lines in the middle of a list. -/
lemma take_drop_middle {x g l r : List α} {start len : ℕ} (hstart : start = (x ++ g).length)
    (hlen : len = l.length) : ((x ++ (g ++ (l ++ r))).drop start).take len = l := by
  rw [hstart, ← append_assoc, drop_left, hlen, take_left]

/-- The lines of a hunk are those at its position, in a file with some lines before the script. -/
lemma Tiles.old (h : Tiles pos ops hunks) (x : List α) (hx : x.length = pos.1) :
    ∀ h ∈ hunks, oldLines h.ops = ((x ++ oldLines ops).drop (h.aStart - 1)).take h.aLen := by
  induction h generalizing x with
  | done _ => exact fun h hh => absurd hh not_mem_nil
  | @hunk pos gap rest h hunks hgap haStart _ haLen _ _ ih =>
    have hlen := (length_of_allEqual hgap).1
    rw [oldLines_append, oldLines_append]
    refine forall_mem_cons.mpr ⟨(take_drop_middle ?_ haLen).symm, fun h' hh' => ?_⟩
    · rw [length_append]
      omega
    · rw [ih (x ++ oldLines gap ++ oldLines h.ops) ?_ h' hh']
      · simp
      · rw [length_append, length_append, haLen]
        omega

lemma Tiles.new (h : Tiles pos ops hunks) (x : List α) (hx : x.length = pos.2) :
    ∀ h ∈ hunks, newLines h.ops = ((x ++ newLines ops).drop (h.bStart - 1)).take h.bLen := by
  induction h generalizing x with
  | done _ => exact fun h hh => absurd hh not_mem_nil
  | @hunk pos gap rest h hunks hgap _ hbStart _ hbLen _ ih =>
    have hlen := (length_of_allEqual hgap).2
    rw [newLines_append, newLines_append]
    refine forall_mem_cons.mpr ⟨(take_drop_middle ?_ hbLen).symm, fun h' hh' => ?_⟩
    · rw [length_append]
      omega
    · rw [ih (x ++ newLines gap ++ newLines h.ops) ?_ h' hh']
      · simp
      · rw [length_append, length_append, hbLen]
        omega

/-- Replacing the lines of the hunks gives the second file. -/
lemma Tiles.patch (h : Tiles pos ops hunks) :
    Patch.apply pos.1 (oldLines ops) (hunks.map Hunk.toChange) = newLines ops := by
  induction h with
  | done hops => exact (lines_of_allEqual hops).1
  | @hunk pos gap rest h hunks hgap haStart _ haLen _ hrest ih =>
    have hlen := (length_of_allEqual hgap).1
    have hstart : h.toChange.start = pos.1 + gap.length := by
      rw [Hunk.toChange, haStart]
      rfl
    have hfront :
        ∀ c ∈ (h :: hunks).map Hunk.toChange, pos.1 + (oldLines gap).length ≤ c.start := by
      intro c hc
      obtain ⟨h', hh', rfl⟩ := mem_map.mp hc
      rcases mem_cons.mp hh' with rfl | hh'
      · rw [hstart, hlen]
      · have hlt := (hrest.start_lt h' hh').1
        show _ ≤ h'.aStart - 1
        dsimp only at hlt
        omega
    rw [oldLines_append, oldLines_append, Patch.apply_append_of_le _ hfront, hlen, map_cons,
      Patch.apply_of_start_eq hstart, newLines_append, newLines_append, (lines_of_allEqual hgap).1]
    show newLines gap ++ (newLines h.ops ++ Patch.apply (pos.1 + gap.length + h.aLen)
      ((oldLines h.ops ++ oldLines rest).drop h.aLen) _) = _
    rw [haLen, drop_left, ← haLen, ih]

/-- Hunks that cover the script are a patch. -/
lemma Tiles.faithfulPatch (h : Tiles (0, 0) ops hunks) :
    FaithfulPatch (oldLines ops) (newLines ops) ops hunks where
  ordered := h.ordered
  lengths := h.lengths
  changes := h.changes
  old h' hh' := ⟨(h.start_lt h' hh').1, h.old [] rfl h' hh'⟩
  new h' hh' := ⟨(h.start_lt h' hh').2, h.new [] rfl h' hh'⟩
  patch := h.patch

/-- Windows that are apart from one another are around groups that are far enough apart. -/
lemma wide_of_ordered (hgrouped : Grouped w groups) (hgap : AllEqual gap) (pos : ℕ × ℕ)
    (h : (windows c pos gap groups).Pairwise fun h h' => h.aStart + h.aLen ≤ h'.aStart) :
    Wide c groups := by
  induction hgrouped generalizing gap pos with
  | nil => exact fun g hg => absurd hg not_mem_nil
  | @cons body run groups hbody hrun hlong hgroups ih =>
    by_cases hne : groups = []
    · rw [hne]
      exact fun g hg => absurd hg not_mem_nil
    rw [windows] at h
    obtain ⟨hfirst, hrest⟩ := pairwise_cons.mp h
    rw [Wide, dropLast_cons_of_ne_nil hne]
    refine forall_mem_cons.mpr ⟨?_, ih hrun _ hrest⟩
    obtain ⟨⟨body', run'⟩, groups', rfl⟩ := exists_cons_of_ne_nil hne
    -- The first window ends after its context, and the next one starts with its own.
    have hapart := hfirst _ (by rw [windows]; exact mem_cons_self)
    have hlead := length_of_allEqual
      (hgap.of_sublist (drop_sublist (gap.length - min c gap.length) gap))
    have htrail := length_of_allEqual (hrun.of_sublist (take_sublist c run))
    simp only [oldLines_append, length_append, hlead, htrail, length_drop, length_take] at hapart
    have hpos := hlong hne
    show 2 * c ≤ run.length
    omega

/-- The hunks of a script are a patch if and only if every run of kept lines between two changes
that is too long to be inside of a hunk is long enough for the context of two. -/
lemma faithfulPatch_groupHunks_iff (ops : Script α) (c : ℕ) :
    FaithfulPatch (oldLines ops) (newLines ops) ops (groupHunks ops c) ↔
      ∀ l ∈ innerRuns ops, ¬ (absorbLimit c < l ∧ l < 2 * c) := by
  obtain ⟨gap, groups, rfl, hgap, hgrouped, hhunks⟩ := groupHunks_eq_windows ops c
  rw [hhunks, ← hgrouped.wide_iff hgap]
  constructor
  · intro h
    exact wide_of_ordered hgrouped hgap (0, 0) (h.ordered.imp And.left)
  · intro hwide
    exact (tiles_windows hgrouped hwide hgap (0, 0)).faithfulPatch

/-- For any two lists of lines and any context width, the hunks of their difference are a patch if
and only if no run of `l` kept lines between two changes has
`2 * context % 2 ^ 64 < l < 2 * context`. -/
theorem groupHunks_faithful_iff [DecidableEq α] (a b : List α) (context : ℕ) :
    ∃ ops, myers a b = some ops ∧ (FaithfulPatch a b ops (groupHunks ops context) ↔
      ∀ l ∈ innerRuns ops, ¬ (2 * context % 2 ^ 64 < l ∧ l < 2 * context)) := by
  obtain ⟨ops, hops, hold, hnew⟩ := myers_spec a b
  refine ⟨ops, hops, ?_⟩
  rw [← hold, ← hnew]
  exact faithfulPatch_groupHunks_iff ops context

/-- Two deleted lines with a kept line between them, and a context for which `2 * context` is zero
as a `usize`: the two hunks both hold the kept line. -/
theorem hunks_overlap :
    myers [1, 2, 3] [2] = some [.delete 1, .equal 2, .delete 3] ∧
    groupHunks [DiffOp.delete 1, .equal 2, .delete 3] (2 ^ 63) =
      [⟨1, 2, 1, 1, [.delete 1, .equal 2]⟩, ⟨2, 2, 1, 1, [.equal 2, .delete 3]⟩] ∧
    ¬ FaithfulPatch [1, 2, 3] [2] [.delete 1, .equal 2, .delete 3]
      (groupHunks [.delete 1, .equal 2, .delete 3] (2 ^ 63)) := by
  have hhunks : groupHunks [DiffOp.delete 1, .equal 2, .delete 3] (2 ^ 63) =
      [⟨1, 2, 1, 1, [.delete 1, .equal 2]⟩, ⟨2, 2, 1, 1, [.equal 2, .delete 3]⟩] := by
    decide +kernel
  refine ⟨by decide +kernel, hhunks, ?_⟩
  intro h
  rw [hhunks] at h
  have hordered := (pairwise_cons.mp h.ordered).1 _ mem_cons_self
  exact absurd hordered.1 (by decide)

end Gyt.Diff
