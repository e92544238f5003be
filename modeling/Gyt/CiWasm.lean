import Gyt.Errors
import Gyt.Foundation.PathWalk

/-!
# Writing from the CI sandbox

The host call `write_file` of `ci_wasm.rs`, with which a program in the sandbox writes a file: the
path is compared with the writable roots (`resolve_write`), and then the missing directories are
made and the file is written by way of a temporary one.

The file system is a tree with symbolic links.  If the directory of the file exists, its place
without links is compared with the roots; if not, only the text of the path is, and the directories
are then made wherever the links on the path lead.  `writeFile_contained_iff` says when a written
file is below a writable root: when its directory leads there, with what is missing in it, and also
what the name of the temporary file leads to if it is a link.  For a directory that exists this has
been checked (`allowed_of_exists`); `written_through_link` is a file in a new directory behind a
link.
-/

namespace Gyt.CiWasm

open List Option FileTree Text PathWalk

/-! ## Paths of the standard library -/

inductive Component where
  | rootDir
  | curDir
  | parentDir
  | normal (name : Str)
  deriving DecidableEq, Repr

/-- A path, as the list of its components. -/
abbrev PathBuf := List Component

def isAbsolute (path : Str) : Bool := path.head? = some '/'

/-- The component for a part between slashes, if there is one. -/
def Component.parse (part : Str) : Option Component :=
  if part = [] ∨ part = ['.'] then none
  else if part = ['.', '.'] then some .parentDir
  else some (.normal part)

/-- `Path::components`: a dot is only kept at the beginning. -/
def components (path : Str) : PathBuf :=
  (if isAbsolute path then [.rootDir]
    else if (split '/' path).head? = some ['.'] then [.curDir] else []) ++
    (split '/' path).filterMap Component.parse

/-- `Path::join` with a relative path. -/
def join (root rel : PathBuf) : PathBuf :=
  if root = [] then rel else root ++ rel.filter (· ≠ .curDir)

/-- `Path::parent`. -/
def parent (p : PathBuf) : Option PathBuf :=
  match p.getLast? with
  | some .rootDir | none => none
  | some _ => some p.dropLast

/-- The name of the metadata directory. -/
def gytDir : Str := ".gyt"

/-- Whether a component is the name of a metadata directory, in whatever case. -/
def Component.isGyt : Component → Bool
  | .normal name => name.map Char.toLower = gytDir
  | _ => false

/-- `path_contains_gyt_component`. -/
def pathContainsGytComponent (p : PathBuf) : Bool := p.any Component.isGyt

def pathOf (loc : Loc) : PathBuf := .rootDir :: loc.map .normal

/-- The steps that a path means for the operating system. -/
def stepsOf (p : PathBuf) : List Step :=
  p.filterMap fun
    | .rootDir => none
    | .curDir => some .here
    | .parentDir => some .up
    | .normal name => some (.down name)

/-! ## Calls of the operating system -/

/-- The current directory, and the number of links that are followed in a path. -/
structure Host where
  cwd : Loc
  links : ℕ
  deriving Repr

variable (host : Host) (t : FileTree Str)

/-- Where a path begins. -/
def Host.start (p : PathBuf) : Option Loc :=
  if p.head? = some .rootDir then some []
  else if t.node host.cwd = some .dir then some host.cwd else none

/-- `canonicalize`: the place of what a path leads to. -/
def Host.canonicalize (p : PathBuf) : Option Loc :=
  if p = [] then none
  else (host.start t p).bind fun start =>
    (walk t.node false host.links start (stepsOf p)).map (·.1)

/-- `exists`. -/
def Host.exists (p : PathBuf) : Bool := (host.canonicalize t p).isSome

/-- `create_dir_all`: the new tree, the place of the directory, and how many more links could have
been followed.  What is left by a call that fails is not of interest here. -/
def Host.createDirAll (p : PathBuf) : Option (FileTree Str × Loc × ℕ) :=
  (host.start t p).bind fun start => makeDirs t host.links start (stepsOf p)

/-- `rename` of one name to another in the same directory. -/
def Host.rename (dir : PathBuf) (old new : Str) : Option (FileTree Str) := do
  let start ← host.start t dir
  let (d, _) ← walk t.node false host.links start (stepsOf dir)
  let node ← t.node (d ++ [old])
  let t' ← t.removeFile (d ++ [old])
  t'.place (d ++ [new]) node

/-- `File::create` and the writing of the data, with the mode that the file gets; the result is the
tree and the place of the file. -/
def Host.writeNew (dir : PathBuf) (name : Str) (data : Bytes) (mode : ℕ) :
    Option (FileTree Str × Loc) := do
  let start ← host.start t dir
  let (e, _) ← walk t.node true host.links start (stepsOf dir ++ [.down name])
  let t' ← t.place e (.file data mode)
  return (t', e)

/-! ## Atomic writes -/

/-- What distinguishes temporary files: the process, the thread, and a counter. -/
structure Tag where
  pid : ℕ
  tid : ℕ
  seq : ℕ
  deriving DecidableEq, Repr

/-- The parts of a name before and after its last dot, if that is not the first character. -/
def splitExtension (name : Str) : Str × Option Str :=
  match name.reverse.dropWhile (· ≠ '.') with
  | _ :: c :: stem => ((c :: stem).reverse, some (name.reverse.takeWhile (· ≠ '.')).reverse)
  | _ => (name, none)

/-- The name of the temporary file for a file. -/
def tmpName (tag : Tag) (name : Str) : Str :=
  let (stem, extension) := splitExtension name
  stem ++ '.' :: (extension.getD [] ++ ".tmp." ++ ofNat tag.pid ++ ".ThreadId(" ++
    ofNat tag.tid ++ ")." ++ ofNat tag.seq)

/-- `default_mode_for`. -/
def defaultModeFor (p : PathBuf) : ℕ := if .normal gytDir ∈ p then 0o600 else 0o644

/-- `atomic_write`: the new tree, and the place of the file that was written.  If the name of the
temporary file was a link, the file is where that led, and the link has been moved.  A path that
ends in a slash or a dot means a directory, and nothing can be moved there. -/
def Host.atomicWrite (p : PathBuf) (isDir : Bool) (data : Bytes) (tag : Tag) :
    Option (FileTree Str × Loc) :=
  match p.getLast? with
  | some (.normal name) => do
    let (t₁, d, _) ← host.createDirAll t p.dropLast
    let (t₂, e) ← host.writeNew t₁ p.dropLast (tmpName tag name) data (defaultModeFor p)
    if isDir then none
    else do
      let t₃ ← host.rename t₂ p.dropLast (tmpName tag name) name
      return (t₃, if e = d ++ [tmpName tag name] then d ++ [name] else e)
  | _ => none

/-! ## The sandbox -/

/-- What a program in the sandbox may write. -/
structure CiPolicy where
  repoWrite : Bool
  outputWrite : Bool
  extraWrite : List PathBuf
  deriving Repr

/-- The writable roots, and the metadata directory of the repository. -/
structure Sandbox where
  writeRoots : List PathBuf
  repoGytMeta : PathBuf
  deriving Repr

/-- `canonicalize_or_self`. -/
def Host.canonicalizeOrSelf (p : PathBuf) : PathBuf := ((host.canonicalize t p).map pathOf).getD p

def Host.sandbox (policy : CiPolicy) (repoDir outputDir : PathBuf) : Sandbox where
  writeRoots := (if policy.outputWrite then [host.canonicalizeOrSelf t outputDir] else []) ++
    (if policy.repoWrite then [host.canonicalizeOrSelf t repoDir] else []) ++
    policy.extraWrite.map (host.canonicalizeOrSelf t)
  repoGytMeta := host.canonicalizeOrSelf t repoDir ++ [.normal gytDir]

variable (s : Sandbox)

/-- What is known about a path after the comparison with one root. -/
inductive Verdict where
  | accept (cand : PathBuf)
  | refuse
  | next
  deriving DecidableEq, Repr

def compareText (root cand : PathBuf) : Verdict :=
  if root <+: cand then
    if s.repoGytMeta <+: cand ∨ root ++ [.normal gytDir] <+: cand then .refuse
    else if pathContainsGytComponent cand then .refuse
    else .accept cand
  else .next

def Host.compareRoot (rel root : PathBuf) : Verdict :=
  let cand := join root rel
  match parent cand with
  | some dir =>
    if host.exists t dir then
      match (host.canonicalize t dir).map pathOf with
      | none => .next
      | some canonParent =>
        if ¬ root <+: canonParent then .next
        else if s.repoGytMeta <+: canonParent ∨ root ++ [.normal gytDir] <+: canonParent ∨
            pathContainsGytComponent canonParent then .refuse
        else if ¬ root <+: cand then .next
        else if pathContainsGytComponent cand then .refuse
        else .accept cand
    else compareText s root cand
  | none => compareText s root cand

/-- The comparison with the roots, up to the first one that decides. -/
def Host.compareRoots (rel : PathBuf) : List PathBuf → Option PathBuf
  | [] => none
  | root :: roots =>
    match host.compareRoot t s rel root with
    | .accept cand => some cand
    | .refuse => none
    | .next => Host.compareRoots rel roots

/-- `resolve_write`. -/
def Host.resolveWrite (rel : Str) : Option PathBuf :=
  if Char.ofNat 0 ∈ rel ∨ isAbsolute rel then none
  else if .parentDir ∈ components rel then none
  else host.compareRoots t s (components rel) s.writeRoots

/-- `CI_MAX_FILE_BYTES`. -/
def maxFileBytes : ℕ := 1024 * 1024 * 1024

/-- Whether a path ends in a slash or a dot. -/
def endsInDir (rel : Str) : Bool :=
  (split '/' rel).getLast?.all fun part => part = [] || part = ['.']

/-- The host call `write_file`: the new tree and the place of the file, or the error that it
returns. -/
def Host.writeFile (rel : Str) (data : Bytes) (tag : Tag) : Except ℤ (FileTree Str × Loc) :=
  if maxFileBytes < data.length then .error (-6)
  else if 4096 < (Utf8.encode rel).length then .error (-1)
  else
    match host.resolveWrite t s rel with
    | none => .error (-2)
    | some cand =>
      let t₁ := ((parent cand).bind fun dir => (host.createDirAll t dir).map (·.1)).getD t
      match host.atomicWrite t₁ cand (endsInDir rel) data tag with
      | some written => .ok written
      | none => .error (-4)

/-! ## Where files are written -/

/-- The place of what a path leads to, or will lead to when its missing directories have been made;
and how many more links could have been followed. -/
def Host.location (p : PathBuf) : Option (Loc × ℕ) :=
  (host.start t p).bind fun start => walk (filled t) false host.links start (stepsOf p)

/-- Whether a place is below a writable root, and in no metadata directory. -/
def Host.Allowed (loc : Loc) : Prop :=
  (∃ root ∈ s.writeRoots, ∃ c n, host.location t root = some (c, n) ∧ c <+: loc) ∧
    gytDir ∉ loc.dropLast

/-- Whether the given directory leads to a place where the file with the given name is allowed.  If
the name of the temporary file is a link there, then what that leads to must be an allowed place. -/
def Host.LandsInside (dir : PathBuf) (name tmp : Str) : Prop :=
  ∃ d n e k, host.location t dir = some (d, n) ∧
    walk (filled t) false n d [.down tmp] = some (e, k) ∧
    host.Allowed t s (if e = d ++ [tmp] then d ++ [name] else e)

section Proofs

variable {host t s} {t' t₁ : FileTree Str} {p dir : PathBuf} {loc d st : Loc} {n : ℕ} {rel : Str}
  {data : Bytes} {tag : Tag}

lemma Host.start_eq_some (h : host.start t p = some st) : t.node st = some .dir := by
  unfold start at h
  split_ifs at h with hroot hcwd
  · cases h
    exact t.node_nil
  · cases h
    exact hcwd

lemma Host.start_of_extends (hext : Extends t.node t'.node) (h : host.start t p = some st) :
    host.start t' p = some st := by
  unfold start at h ⊢
  split_ifs at h with hroot hcwd
  · rwa [if_pos hroot]
  · rwa [if_neg hroot, if_pos (hext.dir hcwd)]

lemma Host.createDirAll_eq_some (h : host.createDirAll t p = some (t₁, d, n)) :
    ∃ st, host.start t p = some st ∧ Grows t t₁ ∧ t₁.node d = some .dir ∧
      Walks t₁.node false host.links st (stepsOf p) d n := by
  obtain ⟨st, hst, hmake⟩ := bind_eq_some_iff.mp h
  exact ⟨st, hst, makeDirs_eq_some hmake (start_eq_some hst)⟩

/-- The directories are made once. -/
lemma Host.createDirAll_again (h : host.createDirAll t p = some (t₁, d, n)) :
    host.createDirAll t₁ p = some (t₁, d, n) := by
  obtain ⟨st, hst, hgrows, hd, hw⟩ := createDirAll_eq_some h
  have hst₁ := start_of_extends hgrows.extends hst
  rw [createDirAll, hst₁]
  exact makeDirs_of_walks hw (start_eq_some hst₁) hd

/-- What a successful `atomic_write` has done. -/
lemma Host.atomicWrite_eq_some {isDir : Bool}
    (h : host.atomicWrite t p isDir data tag = some (t', loc)) :
    ∃ name t₁ d n t₂ e, p.getLast? = some (.normal name) ∧
      host.createDirAll t p.dropLast = some (t₁, d, n) ∧
      host.writeNew t₁ p.dropLast (tmpName tag name) data (defaultModeFor p) = some (t₂, e) ∧
      host.rename t₂ p.dropLast (tmpName tag name) name = some t' ∧
      loc = if e = d ++ [tmpName tag name] then d ++ [name] else e := by
  unfold atomicWrite at h
  split at h
  · next name hname =>
    obtain ⟨⟨t₁, d, n⟩, hdirs, h⟩ := bind_eq_some_iff.mp h
    obtain ⟨⟨t₂, e⟩, hnew, h⟩ := bind_eq_some_iff.mp h
    cases isDir with
    | true => cases h
    | false =>
      obtain ⟨t₃, hrename, h⟩ := bind_eq_some_iff.mp h
      cases h
      exact ⟨name, t₁, d, n, t₂, e, hname, hdirs, hnew, hrename, rfl⟩
  · cases h

lemma parent_of_getLast? {name : Str} (h : p.getLast? = some (.normal name)) :
    parent p = some p.dropLast := by
  rw [parent, h]

/-- What a successful call has done: making the directories before the atomic write does not make a
difference. -/
lemma Host.writeFile_eq_ok (h : host.writeFile t s rel data tag = .ok (t', loc)) :
    ∃ cand, host.resolveWrite t s rel = some cand ∧
      host.atomicWrite t cand (endsInDir rel) data tag = some (t', loc) := by
  unfold writeFile at h
  split_ifs at h
  split at h
  · cases h
  · next cand hcand =>
    refine ⟨cand, hcand, ?_⟩
    dsimp only at h
    split at h
    · next written hwritten =>
      cases h
      obtain ⟨name, t₁, d, n, t₂, e, hname, hdirs, -⟩ := atomicWrite_eq_some hwritten
      rw [parent_of_getLast? hname, bind_some] at hwritten hdirs
      cases hfirst : host.createDirAll t cand.dropLast with
      | none =>
        rw [hfirst] at hwritten
        exact hwritten
      | some first =>
        obtain ⟨t₀, d₀, n₀⟩ := first
        rw [hfirst] at hwritten
        have hagain := createDirAll_again hfirst
        simp only [map_some, getD_some, atomicWrite, hname, hagain] at hwritten
        simp only [atomicWrite, hname, hfirst]
        exact hwritten
    · cases h

/-- Where a new file is, from the place of its directory on. -/
lemma Host.writeNew_eq_some {name : Str} {mode : ℕ} {e : Loc} {t₂ : FileTree Str}
    (hdirs : host.createDirAll t dir = some (t₁, d, n))
    (h : host.writeNew t₁ dir name data mode = some (t₂, e)) :
    t₁.place e (.file data mode) = some t₂ ∧ ∃ k, Walks t₁.node true n d [.down name] e k := by
  obtain ⟨st, hst, hgrows, hd, hw⟩ := createDirAll_eq_some hdirs
  obtain ⟨st', hst', h⟩ := bind_eq_some_iff.mp h
  cases (start_of_extends hgrows.extends hst).symm.trans hst'
  obtain ⟨⟨e', k⟩, hwalk, h⟩ := bind_eq_some_iff.mp h
  obtain ⟨t₃, hplace, h⟩ := bind_eq_some_iff.mp h
  cases h
  exact ⟨hplace, k, (walks_append hw hd).mp (walk_eq_some.mp hwalk)⟩

/-- What moving a file to another name in its directory does. -/
lemma Host.rename_eq_some {old new : Str} {t₂ : FileTree Str} {st : Loc}
    (hst : host.start t₂ dir = some st) (hw : Walks t₂.node false host.links st (stepsOf dir) d n)
    (h : host.rename t₂ dir old new = some t') :
    ∃ x, t₂.node (d ++ [old]) = some x ∧ ∀ q, t'.node q =
      if q = d ++ [new] then some x else if q = d ++ [old] then none else t₂.node q := by
  obtain ⟨st', hst', h⟩ := bind_eq_some_iff.mp h
  cases hst.symm.trans hst'
  obtain ⟨⟨d', k⟩, hwalk, h⟩ := bind_eq_some_iff.mp h
  cases (walk_of_walks hw).symm.trans hwalk
  obtain ⟨x, hx, h⟩ := bind_eq_some_iff.mp h
  obtain ⟨t₃, hremove, hplace⟩ := bind_eq_some_iff.mp h
  refine ⟨x, hx, ?_⟩
  intro q
  rw [node_place hplace, node_removeFile hremove]

/-- The place of the file that is written for a temporary name: the name itself, if it is no link,
or else what it leads to. -/
lemma place_of_walks {tmp : Str} {mode k : ℕ} {e : Loc} {t₂ : FileTree Str}
    (hd : t₁.node d = some .dir) (hplace : t₁.place e (.file data mode) = some t₂)
    (hw : Walks t₁.node true n d [.down tmp] e k) :
    ((∀ target, t₁.node (d ++ [tmp]) ≠ some (.link target)) ∧ e = d ++ [tmp]) ∨
      ∃ target m, t₁.node (d ++ [tmp]) = some (.link target) ∧ e ≠ d ++ [tmp] ∧ n = m + 1 ∧
        walk t₁.node true m (base target d) (steps target) = some (e, k) := by
  have hend : CanHold t₁.node e := by
    refine (hw.ends t₁.node_nil (node_dropLast_of_dir t₁) hd).resolve_left ?_
    intro hdir
    exact (place_isSome.mp (isSome_of_eq_some hplace)).2 hdir
  rcases hnode : t₁.node (d ++ [tmp]) with _ | _ | _ | target
  · obtain ⟨-, -, rfl, -⟩ := (walks_missing hnode).mp hw
    exact .inl ⟨fun _ => nofun, rfl⟩
  · obtain ⟨rfl, -⟩ := walks_nil.mp ((walks_dir hnode).mp hw)
    exact .inl ⟨fun _ => nofun, rfl⟩
  · obtain ⟨-, rfl, -⟩ := (walks_file hnode).mp hw
    exact .inl ⟨fun _ => nofun, rfl⟩
  · obtain ⟨m, hm, hw⟩ := (walks_link hnode).mp hw
    rw [append_nil] at hw
    refine .inr ⟨target, m, rfl, ?_, hm, walk_of_walks hw⟩
    rintro rfl
    rcases hend with hnone | ⟨content, mode, hfile⟩
    · cases hnode.symm.trans hnone
    · cases hnode.symm.trans hfile

lemma stepsOf_pathOf (loc : Loc) : stepsOf (pathOf loc) = loc.map .down := by
  rw [stepsOf, pathOf, filterMap_cons_none rfl, filterMap_map]
  exact congrFun filterMap_eq_map' loc

/-- The place of a file is what its path leads to. -/
lemma Host.canonicalize_pathOf {content : Bytes} {mode : ℕ}
    (h : t.node loc = some (.file content mode)) : host.canonicalize t (pathOf loc) = some loc := by
  have hwalk : walk t.node false host.links [] (stepsOf (pathOf loc)) = some (loc, host.links) := by
    rw [stepsOf_pathOf]
    exact walk_of_walks (walks_place (by simp [h]) (h ▸ rfl))
  have hne : pathOf loc ≠ [] := cons_ne_nil _ _
  have hstart : host.start t (pathOf loc) = some [] := if_pos rfl
  rw [canonicalize, if_neg hne, hstart, bind_some, hwalk]
  rfl

/-- The place that a call reports is that of the file that it has written.  The exception is a file
that was written through a link to the very name that this link was then moved to. -/
lemma Host.node_of_atomicWrite {isDir : Bool}
    (h : host.atomicWrite t p isDir data tag = some (t', loc)) :
    (t'.node loc = some (.file data (defaultModeFor p)) ∧
      host.canonicalize t' (pathOf loc) = some loc) ∨
        ∃ target, t'.node loc = some (.link target) := by
  obtain ⟨name, t₁, d, n, t₂, e, hname, hdirs, hnew, hrename, hloc⟩ := atomicWrite_eq_some h
  obtain ⟨hplace, k, hw⟩ := writeNew_eq_some hdirs hnew
  obtain ⟨st, hst, hgrows, hd, hdir⟩ := createDirAll_eq_some hdirs
  have hext : Extends t₁.node t₂.node := by
    refine extends_place ?_ hplace
    refine (hw.ends t₁.node_nil (node_dropLast_of_dir t₁) hd).resolve_left ?_
    exact (place_isSome.mp (isSome_of_eq_some hplace)).2
  obtain ⟨x, hx, hnode⟩ := rename_eq_some
    (start_of_extends hext (start_of_extends hgrows.extends hst)) (hdir.mono hext) hrename
  rw [node_place hplace] at hx
  rcases place_of_walks hd hplace hw with ⟨-, he⟩ | ⟨target, m, hlink, hne, -, -⟩
  · rw [if_pos he] at hloc
    rw [if_pos he.symm] at hx
    cases hx
    have hfile : t'.node loc = some (.file data (defaultModeFor p)) := by
      rw [hnode, if_pos hloc]
    exact .inl ⟨hfile, canonicalize_pathOf hfile⟩
  · rw [if_neg hne] at hloc
    rw [if_neg hne.symm] at hx
    by_cases heq : loc = d ++ [name]
    · refine .inr ⟨target, ?_⟩
      rw [hnode, if_pos heq, ← hx, hlink]
    · have hfile : t'.node loc = some (.file data (defaultModeFor p)) := by
        rw [hnode, if_neg heq, if_neg (hloc ▸ hne), node_place hplace, if_pos hloc]
      exact .inl ⟨hfile, canonicalize_pathOf hfile⟩

/-- Where the file has been written can be seen before. -/
lemma Host.atomicWrite_location {isDir : Bool}
    (h : host.atomicWrite t p isDir data tag = some (t', loc)) :
    ∃ name d n e k, p.getLast? = some (.normal name) ∧ host.location t p.dropLast = some (d, n) ∧
      (∃ t₁, Grows t t₁ ∧ t₁.node d = some .dir) ∧
      walk (filled t) false n d [.down (tmpName tag name)] = some (e, k) ∧
      loc = if e = d ++ [tmpName tag name] then d ++ [name] else e := by
  obtain ⟨name, t₁, d, n, t₂, e, hname, hdirs, hnew, -, hloc⟩ := atomicWrite_eq_some h
  obtain ⟨-, k, hw⟩ := writeNew_eq_some hdirs hnew
  obtain ⟨st, hst, hgrows, hd, hdir⟩ := createDirAll_eq_some hdirs
  refine ⟨name, d, n, e, k, hname, ?_, ⟨t₁, hgrows, hd⟩, ?_, hloc⟩
  · rw [location, hst]
    exact walk_of_walks (hgrows.walks_filled hdir)
  · exact walk_of_walks (hgrows.walks_filled hw)

/-- A file is written to an allowed place exactly if its path leads to one. -/
lemma Host.atomicWrite_allowed_iff {isDir : Bool} {name : Str}
    (hname : p.getLast? = some (.normal name))
    (h : host.atomicWrite t p isDir data tag = some (t', loc)) :
    host.Allowed t s loc ↔ host.LandsInside t s p.dropLast name (tmpName tag name) := by
  obtain ⟨name', d, n, e, k, hname', hlocation, -, hwalk, hloc⟩ := atomicWrite_location h
  cases hname.symm.trans hname'
  subst hloc
  constructor
  · intro hallowed
    exact ⟨d, n, e, k, hlocation, hwalk, hallowed⟩
  · rintro ⟨d', n', e', k', hlocation', hwalk', hallowed⟩
    cases hlocation.symm.trans hlocation'
    cases hwalk.symm.trans hwalk'
    exact hallowed

/-! ### Directories that exist -/

lemma Host.compareRoots_eq_some {path cand : PathBuf} {roots : List PathBuf}
    (h : host.compareRoots t s path roots = some cand) :
    ∃ root ∈ roots, host.compareRoot t s path root = .accept cand := by
  induction roots with
  | nil => cases h
  | cons root roots ih =>
    unfold compareRoots at h
    split at h
    · next hroot =>
      cases h
      exact ⟨root, mem_cons_self, hroot⟩
    · cases h
    · obtain ⟨root', hmem, hroot'⟩ := ih h
      exact ⟨root', mem_cons_of_mem _ hmem, hroot'⟩

lemma compareText_eq_accept {root cand cand' : PathBuf}
    (h : compareText s root cand = .accept cand') : cand' = cand := by
  unfold compareText at h
  split_ifs at h
  cases h
  rfl

/-- An accepted path is that of the argument below a root; and if its directory exists, that has
been compared with the root, links followed. -/
lemma Host.resolveWrite_eq_some {cand : PathBuf} (h : host.resolveWrite t s rel = some cand) :
    ∃ root ∈ s.writeRoots, cand = join root (components rel) ∧
      ∀ dir d, parent cand = some dir → host.canonicalize t dir = some d →
        root <+: pathOf d ∧ pathContainsGytComponent (pathOf d) = false := by
  unfold resolveWrite at h
  split_ifs at h
  obtain ⟨root, hmem, hroot⟩ := compareRoots_eq_some h
  refine ⟨root, hmem, ?_⟩
  unfold compareRoot at hroot
  dsimp only at hroot
  split at hroot
  · next dir hdir =>
    by_cases hexists : host.exists t dir = true
    · -- The directory exists.
      obtain ⟨d, hd⟩ := isSome_iff_exists.mp hexists
      rw [if_pos hexists, hd] at hroot
      dsimp only [map_some] at hroot
      split_ifs at hroot with hunder hgyt
      cases hroot
      refine ⟨rfl, ?_⟩
      intro dir' d' hdir' hd'
      cases hdir.symm.trans hdir'
      cases hd.symm.trans hd'
      rw [not_or, not_or, Bool.not_eq_true] at hgyt
      exact ⟨hunder, hgyt.2.2⟩
    · rw [if_neg hexists] at hroot
      obtain rfl := compareText_eq_accept hroot
      refine ⟨rfl, ?_⟩
      intro dir' d' hdir' hd'
      cases hdir.symm.trans hdir'
      exact absurd (isSome_of_eq_some hd') hexists
  · next hnone =>
    obtain rfl := compareText_eq_accept hroot
    refine ⟨rfl, ?_⟩
    intro dir' d' hdir'
    cases hnone.symm.trans hdir'

lemma exists_of_prefix_pathOf {root : PathBuf} (hroot : root ≠ []) (h : root <+: pathOf d) :
    ∃ r, root = pathOf r ∧ r <+: d := by
  obtain ⟨step, rest, rfl⟩ := exists_cons_of_ne_nil hroot
  obtain ⟨rfl, hrest⟩ := cons_prefix_cons.mp h
  obtain ⟨r, hr, hmap⟩ := prefix_map_iff.mp hrest
  exact ⟨r, congrArg _ hmap, hr⟩

lemma gytDir_notMem (h : pathContainsGytComponent (pathOf d) = false) : gytDir ∉ d := by
  intro hmem
  have hany : pathContainsGytComponent (pathOf d) = true := by
    refine any_eq_true.mpr ⟨.normal gytDir, ?_, by decide⟩
    exact mem_cons_of_mem _ (mem_map_of_mem hmem)
  cases h.symm.trans hany

/-- A name that is no link leads to itself. -/
lemma eq_of_walks {node : Loc → Option Node} {create : Bool} {name : Str} {e : Loc} {k : ℕ}
    (h : Walks node create n d [.down name] e k)
    (hnode : ∀ target, node (d ++ [name]) ≠ some (.link target)) : e = d ++ [name] := by
  cases h with
  | dir _ h => exact (walks_nil.mp h).1
  | file | missing => rfl
  | link hlink => exact absurd hlink (hnode _)

/-- What exists is where it will be. -/
lemma Host.location_of_canonicalize (h : host.canonicalize t p = some d)
    (hlocation : host.location t p = some (loc, n)) : loc = d := by
  unfold canonicalize at h
  split_ifs at h
  obtain ⟨st, hst, h⟩ := bind_eq_some_iff.mp h
  obtain ⟨⟨c, m⟩, hwalk, hc⟩ := map_eq_some_iff.mp h
  cases hc
  rw [location, hst] at hlocation
  have hfilled := (Grows.refl t).walks_filled (walk_eq_some.mp hwalk)
  cases (walk_of_walks hfilled).symm.trans hlocation
  rfl

/-- If the directory exists and there is no link in the place of the temporary file, then the
comparison does what it is for. -/
theorem Host.allowed_of_exists {cand : PathBuf} {name : Str}
    (h : host.writeFile t s rel data tag = .ok (t', loc))
    (hcand : host.resolveWrite t s rel = some cand) (hname : cand.getLast? = some (.normal name))
    (hroots : [] ∉ s.writeRoots) (hdir : host.canonicalize t cand.dropLast = some d)
    (htmp : ∀ target, t.node (d ++ [tmpName tag name]) ≠ some (.link target)) :
    host.Allowed t s loc := by
  obtain ⟨cand', hcand', hatomic⟩ := Host.writeFile_eq_ok h
  cases hcand.symm.trans hcand'
  obtain ⟨name', d', n, e, k, hname', hlocation, ⟨t₁, hgrows, hd'⟩, hwalk, hloc⟩ :=
    Host.atomicWrite_location hatomic
  cases hname.symm.trans hname'
  obtain ⟨root, hmem, -, hcompared⟩ := Host.resolveWrite_eq_some hcand
  obtain ⟨hunder, hgyt⟩ := hcompared _ d (parent_of_getLast? hname) hdir
  obtain rfl : d' = d := Host.location_of_canonicalize hdir hlocation
  have he : e = d' ++ [tmpName tag name] := by
    refine eq_of_walks (walk_eq_some.mp hwalk) ?_
    intro target hlink
    rcases hnode : t.node (d' ++ [tmpName tag name]) with _ | x
    · rw [filled, hnode] at hlink
      cases hlink
    · rw [filled, hnode] at hlink
      cases hlink
      exact htmp target hnode
  rw [if_pos he] at hloc
  subst hloc
  refine ⟨⟨root, hmem, ?_⟩, ?_⟩
  · obtain ⟨r, rfl, hr⟩ := exists_of_prefix_pathOf (fun heq => hroots (heq ▸ hmem)) hunder
    refine ⟨r, host.links, ?_, hr.trans (prefix_append _ _)⟩
    have hdirs : t₁.node r = some .dir := by
      by_cases heq : r = d'
      · rw [heq, hd']
      · exact node_of_prefix hr heq (hd' ▸ rfl)
    have hplace : Walks t₁.node false host.links [] (r.map .down) r host.links :=
      walks_place (by simp [hdirs]) (hdirs ▸ rfl)
    have hstart : host.start t (pathOf r) = some [] := if_pos rfl
    rw [Host.location, hstart, bind_some, stepsOf_pathOf]
    exact walk_of_walks (hgrows.walks_filled hplace)
  · rw [dropLast_concat]
    exact gytDir_notMem hgyt

/-- A successful call has written a file, and the file is in an allowed place exactly if the path
below the root that accepted it leads to one. -/
theorem Host.writeFile_contained_iff (h : host.writeFile t s rel data tag = .ok (t', loc)) :
    ∃ root ∈ s.writeRoots, ∃ cand name, cand = join root (components rel) ∧
      host.resolveWrite t s rel = some cand ∧ cand.getLast? = some (.normal name) ∧
      ((t'.node loc = some (.file data (defaultModeFor cand)) ∧
        host.canonicalize t' (pathOf loc) = some loc) ∨
        ∃ target, t'.node loc = some (.link target)) ∧
      (host.Allowed t s loc ↔ host.LandsInside t s cand.dropLast name (tmpName tag name)) := by
  obtain ⟨cand, hcand, hatomic⟩ := Host.writeFile_eq_ok h
  obtain ⟨root, hmem, hjoin, -⟩ := Host.resolveWrite_eq_some hcand
  obtain ⟨name, -, -, -, -, -, hname, -⟩ := Host.atomicWrite_eq_some hatomic
  exact ⟨root, hmem, cand, name, hjoin, hcand, hname, Host.node_of_atomicWrite hatomic,
    Host.atomicWrite_allowed_iff hname hatomic⟩

end Proofs

/-! ## A link out of a writable root -/

/-- A writable directory `w` with a link `l` to the directory `o`. -/
def sampleTree : FileTree Str :=
  (((FileTree.empty.mkdirs [['w']]).mkdirs [['o']]).place [['w'], ['l']] (.link "/o")).getD
    .empty

/-- A system that follows forty links. -/
def sampleHost : Host := ⟨[], 40⟩

/-- The directory `w` is the only writable root. -/
def sampleSandbox : Sandbox :=
  sampleHost.sandbox sampleTree ⟨false, false, [pathOf [['w']]]⟩ (pathOf [['r']]) (pathOf [['u']])

/-- Writing one byte to the given path. -/
def sampleWrite (rel : String) : Except ℤ (FileTree Str × Loc) :=
  sampleHost.writeFile sampleTree sampleSandbox rel.toList [120] ⟨1, 1, 0⟩

lemma exists_of_sampleWrite {rel : String} {loc : Loc}
    (h : (sampleWrite rel).toOption.map (·.2) = some loc) :
    ∃ t', sampleWrite rel = .ok (t', loc) := by
  obtain ⟨⟨t', loc'⟩, hok, heq⟩ := map_eq_some_iff.mp h
  cases heq
  exact ⟨t', toOption_eq_some.mp hok⟩

lemma allowed_sample {loc : Loc} : sampleHost.Allowed sampleTree sampleSandbox loc ↔
    [['w']] <+: loc ∧ gytDir ∉ loc.dropLast := by
  have hroots : sampleSandbox.writeRoots = [pathOf [['w']]] := by decide +kernel
  have hlocation : sampleHost.location sampleTree (pathOf [['w']]) = some ([['w']], 40) := by
    decide +kernel
  simp [Host.Allowed, hroots, hlocation]

/-- A file in an existing directory is written there. -/
theorem written_in_dir : ∃ t', sampleWrite "f" = .ok (t', [['w'], ['f']]) ∧
    sampleHost.Allowed sampleTree sampleSandbox [['w'], ['f']] := by
  obtain ⟨t', ht'⟩ : ∃ t', sampleWrite "f" = .ok (t', [['w'], ['f']]) :=
    exists_of_sampleWrite (by decide +kernel)
  have hcand : sampleHost.resolveWrite sampleTree sampleSandbox "f" =
      some (pathOf [['w'], ['f']]) := by decide +kernel
  have hdir : sampleHost.canonicalize sampleTree (pathOf [['w']]) = some [['w']] := by
    decide +kernel
  have htmp : sampleTree.node [['w'], tmpName ⟨1, 1, 0⟩ ['f']] = none := by decide +kernel
  refine ⟨t', ht', Host.allowed_of_exists ht' hcand rfl (by decide +kernel) hdir ?_⟩
  rintro target hlink
  cases htmp.symm.trans hlink

/-- A file in a new directory is written below the writable root. -/
theorem written_in_new_dir : ∃ t', sampleWrite "a/f" = .ok (t', [['w'], ['a'], ['f']]) ∧
    sampleHost.Allowed sampleTree sampleSandbox [['w'], ['a'], ['f']] := by
  obtain ⟨t', ht'⟩ : ∃ t', sampleWrite "a/f" = .ok (t', [['w'], ['a'], ['f']]) :=
    exists_of_sampleWrite (by decide +kernel)
  refine ⟨t', ht', ?_⟩
  obtain ⟨root, -, cand, name, -, hcand, hname, -, hiff⟩ := Host.writeFile_contained_iff ht'
  obtain rfl : cand = pathOf [['w'], ['a'], ['f']] := by
    refine Option.some.inj (hcand.symm.trans ?_)
    decide +kernel
  obtain rfl : name = ['f'] := by
    cases hname
    rfl
  refine hiff.mpr ⟨[['w'], ['a']], 40, [['w'], ['a'], tmpName ⟨1, 1, 0⟩ ['f']], 40, ?_, ?_, ?_⟩
  · decide +kernel
  · decide +kernel
  · exact allowed_sample.mpr (by decide)

/-- A file in a directory that does not exist yet, behind a link, is written outside of the writable
root. -/
theorem written_through_link :
    ∃ t', sampleWrite "l/sub/f" = .ok (t', [['o'], "sub", ['f']]) ∧
      t'.node [['o'], "sub", ['f']] = some (.file [120] 0o644) ∧
      ¬ sampleHost.Allowed sampleTree sampleSandbox [['o'], "sub", ['f']] := by
  have hwritten : (sampleWrite "l/sub/f").toOption.any (fun r => r.2 = [['o'], "sub", ['f']] &&
      r.1.node [['o'], "sub", ['f']] = some (.file [120] 0o644)) = true := by decide +kernel
  simp only [Option.any_eq_true, Bool.and_eq_true, decide_eq_true_eq] at hwritten
  obtain ⟨⟨t', loc⟩, hok, rfl, hfile⟩ := hwritten
  refine ⟨t', toOption_eq_some.mp hok, hfile, ?_⟩
  rw [allowed_sample]
  decide

end Gyt.CiWasm
