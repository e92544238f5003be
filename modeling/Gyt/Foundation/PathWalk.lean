import Gyt.Foundation.FileTree
import Gyt.Foundation.Text

/-!
# Paths through symbolic links

How an operating system finds what a path means in a file tree: it goes through the components, and
where it meets a symbolic link it goes on with the components of the target.  The number of links
that it follows is bounded.  `walk` is that search, and `Walks` is the same as a relation, with one
rule for each thing that can be met.

`makeDirs` is the search that makes the directories which it does not find; `makeDirs_eq_some` says
that the path then leads to the directory that was reached, and `makeDirs_of_walks` that nothing is
made if the path leads to a directory already.  Where it will lead can be seen beforehand, in the
tree that is `filled` with directories (`Grows.walks_filled`).
-/

namespace Gyt.PathWalk

open List

/-- The place of a node: the names of the directories that lead to it, and its own one. -/
abbrev Loc := List (List Char)

/-- A component of a path. -/
inductive Step where
  | here
  | up
  | down (name : List Char)
  deriving DecidableEq, Repr

/-- The component with the given text; nothing between two slashes means the same as a dot. -/
def Step.parse (name : List Char) : Step :=
  if name = [] ∨ name = ['.'] then .here
  else if name = ['.', '.'] then .up
  else .down name

def steps (path : List Char) : List Step := (Text.split '/' path).map Step.parse

/-- Where the target of a link begins, if the link is in the given directory. -/
def base (target : List Char) (dir : Loc) : Loc := if target.head? = some '/' then [] else dir

section Walk

variable (node : Loc → Option Node) (create : Bool)

/-- The search with a given way to go on at links; `n` is the number of links that may be followed.
With `create`, the last component may be missing. -/
def walkWith (follow : Loc → List Step → Option (Loc × ℕ)) (n : ℕ) :
    Loc → List Step → Option (Loc × ℕ)
  | cur, [] => some (cur, n)
  | cur, .here :: rest => walkWith follow n cur rest
  | cur, .up :: rest => walkWith follow n cur.dropLast rest
  | cur, .down name :: rest =>
    match node (cur ++ [name]) with
    | some .dir => walkWith follow n (cur ++ [name]) rest
    | some (.file _ _) => if rest = [] then some (cur ++ [name], n) else none
    | some (.link target) => follow (base target cur) (steps target ++ rest)
    | none => if create = true ∧ rest = [] then some (cur ++ [name], n) else none

/-- The search from a place: what is found, and how many more links may be followed. -/
def walk : ℕ → Loc → List Step → Option (Loc × ℕ)
  | 0 => walkWith node create (fun _ _ => none) 0
  | n + 1 => walkWith node create (walk n) (n + 1)

/-- A search that ends. -/
inductive Walks : ℕ → Loc → List Step → Loc → ℕ → Prop
  | done {n : ℕ} {cur : Loc} : Walks n cur [] cur n
  | here {n m : ℕ} {cur c : Loc} {rest : List Step} (h : Walks n cur rest c m) :
      Walks n cur (.here :: rest) c m
  | up {n m : ℕ} {cur c : Loc} {rest : List Step} (h : Walks n cur.dropLast rest c m) :
      Walks n cur (.up :: rest) c m
  | dir {n m : ℕ} {cur c : Loc} {rest : List Step} {name : List Char}
      (hnode : node (cur ++ [name]) = some .dir) (h : Walks n (cur ++ [name]) rest c m) :
      Walks n cur (.down name :: rest) c m
  | file {n : ℕ} {cur : Loc} {name : List Char} {content : List UInt8} {mode : ℕ}
      (hnode : node (cur ++ [name]) = some (.file content mode)) :
      Walks n cur [.down name] (cur ++ [name]) n
  | link {n m : ℕ} {cur c : Loc} {rest : List Step} {name target : List Char}
      (hnode : node (cur ++ [name]) = some (.link target))
      (h : Walks n (base target cur) (steps target ++ rest) c m) :
      Walks (n + 1) cur (.down name :: rest) c m
  | missing {n : ℕ} {cur : Loc} {name : List Char} (hcreate : create = true)
      (hnode : node (cur ++ [name]) = none) : Walks n cur [.down name] (cur ++ [name]) n

end Walk

section Walks

variable {node node' : Loc → Option Node} {create : Bool} {n m n' m' : ℕ} {cur c c' : Loc}
  {todo rest : List Step}

lemma walk_of_walks (h : Walks node create n cur todo c m) :
    walk node create n cur todo = some (c, m) := by
  induction h with
  | done => unfold walk; split <;> rfl
  | here _ ih | up _ ih =>
    unfold walk at ih ⊢
    split at ih <;> exact ih
  | dir hnode _ ih =>
    unfold walk at ih ⊢
    split at ih <;> simpa only [walkWith, hnode] using ih
  | file hnode =>
    unfold walk
    split <;> simp only [walkWith, hnode, if_true]
  | link hnode _ ih =>
    simp only [walk, walkWith, hnode]
    exact ih
  | missing hcreate hnode =>
    unfold walk
    split <;> simp only [walkWith, hnode, hcreate, and_self, if_true]

lemma walks_of_walkWith {follow : Loc → List Step → Option (Loc × ℕ)}
    (hfollow : ∀ cur todo, follow cur todo = some (c, m) →
      ∃ k, n = k + 1 ∧ Walks node create k cur todo c m)
    (h : walkWith node create follow n cur todo = some (c, m)) :
    Walks node create n cur todo c m := by
  induction todo generalizing cur with
  | nil =>
    cases h
    exact .done
  | cons step rest ih =>
    rcases step with _ | _ | name
    · exact .here (ih h)
    · exact .up (ih h)
    · unfold walkWith at h
      split at h
      · next hnode => exact .dir hnode (ih h)
      · next hnode =>
        split_ifs at h with hrest
        cases h
        exact hrest ▸ .file hnode
      · next hnode =>
        obtain ⟨k, rfl, hk⟩ := hfollow _ _ h
        exact .link hnode hk
      · next hnode =>
        split_ifs at h with hrest
        cases h
        exact hrest.2 ▸ .missing hrest.1 hnode

/-- The relation is the function. -/
lemma walk_eq_some : walk node create n cur todo = some (c, m) ↔
    Walks node create n cur todo c m := by
  refine ⟨fun h => ?_, walk_of_walks⟩
  induction n generalizing cur todo with
  | zero =>
    refine walks_of_walkWith ?_ (show walkWith node create (fun _ _ => none) 0 cur todo = _ from h)
    exact fun _ _ hfollow => nomatch hfollow
  | succ n ih => exact walks_of_walkWith (fun _ _ hfollow => ⟨n, rfl, ih hfollow⟩) h

section Inversion

variable {name : List Char}

@[simp] lemma walks_nil : Walks node create n cur [] c m ↔ c = cur ∧ m = n := by
  constructor
  · rintro ⟨⟩
    exact ⟨rfl, rfl⟩
  · rintro ⟨rfl, rfl⟩
    exact .done

@[simp] lemma walks_here :
    Walks node create n cur (.here :: rest) c m ↔ Walks node create n cur rest c m := by
  constructor
  · rintro (_ | h)
    exact h
  · exact .here

@[simp] lemma walks_up :
    Walks node create n cur (.up :: rest) c m ↔ Walks node create n cur.dropLast rest c m := by
  constructor
  · rintro (_ | _ | h)
    exact h
  · exact .up

lemma walks_dir (hnode : node (cur ++ [name]) = some .dir) :
    Walks node create n cur (.down name :: rest) c m ↔
      Walks node create n (cur ++ [name]) rest c m := by
  constructor
  · intro h
    cases h with
    | dir _ h => exact h
    | file hnode' | link hnode' | missing _ hnode' => cases hnode.symm.trans hnode'
  · exact .dir hnode

lemma walks_link {target : List Char} (hnode : node (cur ++ [name]) = some (.link target)) :
    Walks node create n cur (.down name :: rest) c m ↔
      ∃ k, n = k + 1 ∧ Walks node create k (base target cur) (steps target ++ rest) c m := by
  constructor
  · intro h
    cases h with
    | link hnode' h =>
      cases hnode.symm.trans hnode'
      exact ⟨_, rfl, h⟩
    | file hnode' | dir hnode' | missing _ hnode' => cases hnode.symm.trans hnode'
  · rintro ⟨k, rfl, h⟩
    exact .link hnode h

lemma walks_missing (hnode : node (cur ++ [name]) = none) :
    Walks node create n cur (.down name :: rest) c m ↔
      create = true ∧ rest = [] ∧ c = cur ++ [name] ∧ m = n := by
  constructor
  · intro h
    cases h with
    | missing hcreate => exact ⟨hcreate, rfl, rfl, rfl⟩
    | file hnode' | dir hnode' | link hnode' => cases hnode.symm.trans hnode'
  · rintro ⟨hcreate, rfl, rfl, rfl⟩
    exact .missing hcreate hnode

lemma walks_file {content : List UInt8} {mode : ℕ}
    (hnode : node (cur ++ [name]) = some (.file content mode)) :
    Walks node create n cur (.down name :: rest) c m ↔ rest = [] ∧ c = cur ++ [name] ∧ m = n := by
  constructor
  · intro h
    cases h with
    | file => exact ⟨rfl, rfl, rfl⟩
    | dir hnode' | link hnode' | missing _ hnode' => cases hnode.symm.trans hnode'
  · rintro ⟨rfl, rfl, rfl⟩
    exact .file hnode

end Inversion

/-! ## Paths in sequence -/

/-- A path after one that leads to a directory. -/
lemma walks_append (h : Walks node false n cur todo c m) (hdir : node c = some .dir) :
    Walks node create n cur (todo ++ rest) c' m' ↔ Walks node create m c rest c' m' := by
  generalize hfalse : false = create' at h
  induction h with
  | done => rfl
  | here _ ih | up _ ih => simpa using ih hdir
  | dir hnode _ ih => exact (walks_dir hnode).trans (ih hdir)
  | file hnode => cases hnode.symm.trans hdir
  | link hnode _ ih =>
    rw [cons_append, walks_link hnode, ← append_assoc]
    constructor
    · rintro ⟨k, hk, h⟩
      cases hk
      exact (ih hdir).mp h
    · intro h
      exact ⟨_, rfl, (ih hdir).mpr h⟩
  | missing hcreate => cases hfalse.trans hcreate

/-- The two parts of a search that ends in a directory. -/
lemma Walks.split (hroot : node [] = some .dir)
    (hup : ∀ q, node q = some .dir → node q.dropLast = some .dir)
    (h : Walks node false n cur (todo ++ rest) c m) (hcur : node cur = some .dir)
    (hc : node c = some .dir) : ∃ c' m', Walks node false n cur todo c' m' ∧
      node c' = some .dir ∧ Walks node false m' c' rest c m := by
  generalize hpath : todo ++ rest = path at h
  generalize hfalse : false = create' at h ⊢
  induction h generalizing todo with
  | done =>
    obtain ⟨rfl, rfl⟩ := append_eq_nil_iff.mp hpath
    exact ⟨_, _, .done, hcur, .done⟩
  | here h ih =>
    rcases todo with _ | ⟨step, todo⟩
    · cases hpath
      exact ⟨_, _, .done, hcur, .here h⟩
    · obtain ⟨rfl, hrest⟩ := cons.inj hpath
      obtain ⟨c', m', h₁, hc', h₂⟩ := ih hcur hc hrest
      exact ⟨c', m', .here h₁, hc', h₂⟩
  | up h ih =>
    rcases todo with _ | ⟨step, todo⟩
    · cases hpath
      exact ⟨_, _, .done, hcur, .up h⟩
    · obtain ⟨rfl, hrest⟩ := cons.inj hpath
      obtain ⟨c', m', h₁, hc', h₂⟩ := ih (hup _ hcur) hc hrest
      exact ⟨c', m', .up h₁, hc', h₂⟩
  | dir hnode h ih =>
    rcases todo with _ | ⟨step, todo⟩
    · cases hpath
      exact ⟨_, _, .done, hcur, .dir hnode h⟩
    · obtain ⟨rfl, hrest⟩ := cons.inj hpath
      obtain ⟨c', m', h₁, hc', h₂⟩ := ih hnode hc hrest
      exact ⟨c', m', .dir hnode h₁, hc', h₂⟩
  | file hnode => cases hnode.symm.trans hc
  | @link _ _ cur _ _ _ target hnode h ih =>
    rcases todo with _ | ⟨step, todo⟩
    · cases hpath
      exact ⟨_, _, .done, hcur, .link hnode h⟩
    · obtain ⟨rfl, hrest⟩ := cons.inj hpath
      have hbase : node (base target cur) = some .dir := by
        unfold base
        split_ifs
        · exact hroot
        · exact hcur
      obtain ⟨c', m', h₁, hc', h₂⟩ :=
        ih hbase hc (by rw [append_assoc]; exact congrArg _ hrest)
      exact ⟨c', m', .link hnode h₁, hc', h₂⟩
  | missing hcreate => cases hfalse.trans hcreate

/-! ## Other nodes -/

/-- Whether nodes are the same for a search: files may have another content. -/
def Alike : Node → Node → Prop
  | .dir, .dir => True
  | .file _ _, .file _ _ => True
  | .link target, .link target' => target = target'
  | _, _ => False

lemma Alike.refl (x : Node) : Alike x x := by cases x <;> trivial

/-- Whether every node is there for other nodes as well. -/
def Extends (node node' : Loc → Option Node) : Prop :=
  ∀ q x, node q = some x → ∃ y, node' q = some y ∧ Alike x y

lemma Extends.dir {q : Loc} (hext : Extends node node') (h : node q = some .dir) :
    node' q = some .dir := by
  obtain ⟨y, hy, halike⟩ := hext q _ h
  rcases y with _ | _ | _
  · exact hy
  · exact halike.elim
  · exact halike.elim

lemma Walks.mono (hext : Extends node node') (h : Walks node false n cur todo c m) :
    Walks node' false n cur todo c m := by
  generalize hfalse : false = create' at h ⊢
  induction h with
  | done => exact .done
  | here _ ih => exact .here ih
  | up _ ih => exact .up ih
  | dir hnode _ ih => exact .dir (hext.dir hnode) ih
  | file hnode =>
    obtain ⟨y, hy, halike⟩ := hext _ _ hnode
    cases y with
    | file => exact .file hy
    | dir | link => exact halike.elim
  | link hnode _ ih =>
    obtain ⟨y, hy, halike⟩ := hext _ _ hnode
    cases y with
    | link target' =>
      cases halike
      exact .link hy ih
    | dir | file => exact halike.elim
  | missing hcreate => cases hfalse.trans hcreate

/-- Whether a file can be written at a place: there is a file, or nothing. -/
def CanHold (node : Loc → Option Node) (e : Loc) : Prop :=
  node e = none ∨ ∃ content mode, node e = some (.file content mode)

/-- A search does not end at a link, if it starts in a directory. -/
lemma Walks.ends (hroot : node [] = some .dir)
    (hup : ∀ q, node q = some .dir → node q.dropLast = some .dir)
    (h : Walks node create n cur todo c m) (hcur : node cur = some .dir) :
    node c = some .dir ∨ CanHold node c := by
  induction h with
  | done => exact .inl hcur
  | here _ ih => exact ih hcur
  | up _ ih => exact ih (hup _ hcur)
  | dir hnode _ ih => exact ih hnode
  | file hnode => exact .inr (.inr ⟨_, _, hnode⟩)
  | @link _ _ cur _ _ _ target _ _ ih =>
    apply ih
    unfold base
    split_ifs
    · exact hroot
    · exact hcur
  | missing _ hnode => exact .inr (.inl hnode)

/-- A path of names through directories leads down. -/
lemma walks_down {names : Loc}
    (hdirs : ∀ q, q <+: names → q ≠ names → node (cur ++ q) = some .dir)
    (hend : node (cur ++ names) = some .dir ∨
      ∃ content mode, node (cur ++ names) = some (.file content mode)) :
    Walks node false n cur (names.map .down) (cur ++ names) n := by
  induction names generalizing cur with
  | nil =>
    rw [append_nil]
    exact .done
  | cons name names ih =>
    have happend : ∀ q, cur ++ name :: q = cur ++ [name] ++ q := fun q => by simp
    rw [happend] at hend ⊢
    by_cases hlast : names = []
    · subst hlast
      rw [append_nil] at hend ⊢
      rcases hend with hdir | ⟨content, mode, hfile⟩
      · exact .dir hdir .done
      · exact .file hfile
    · refine .dir ?_ (ih ?_ hend)
      · exact hdirs [name] (by simp) (by simpa using Ne.symm hlast)
      · intro q hq hne
        rw [← happend]
        exact hdirs (name :: q) (cons_prefix_cons.mpr ⟨rfl, hq⟩) (by simpa using hne)

/-- Without links on it, a path of names leads down only, to something that is there. -/
lemma Walks.eq_down {names : Loc}
    (hlinks : ∀ q, q <+: names → ∀ target, node (cur ++ q) ≠ some (.link target))
    (h : Walks node false n cur (names.map .down) c m) :
    c = cur ++ names ∧ (names ≠ [] → (node c).isSome) := by
  induction names generalizing cur with
  | nil =>
    rw [append_nil]
    exact ⟨(walks_nil.mp h).1, fun hne => absurd rfl hne⟩
  | cons name names ih =>
    have happend : ∀ q, cur ++ name :: q = cur ++ [name] ++ q := fun q => by simp
    rw [map_cons] at h
    rw [happend]
    rcases hnode : node (cur ++ [name]) with _ | _ | _ | target
    · cases ((walks_missing hnode).mp h).1
    · obtain ⟨hc, hsome⟩ := ih (fun q hq => by
        rw [← happend]
        exact hlinks (name :: q) (cons_prefix_cons.mpr ⟨rfl, hq⟩)) ((walks_dir hnode).mp h)
      refine ⟨hc, fun _ => ?_⟩
      by_cases hnames : names = []
      · rw [hc, hnames, append_nil, hnode]
        rfl
      · exact hsome hnames
    · obtain ⟨hrest, rfl, -⟩ := (walks_file hnode).mp h
      rw [map_eq_nil_iff.mp hrest, append_nil]
      exact ⟨rfl, fun _ => hnode ▸ rfl⟩
    · exact absurd hnode (hlinks [name] (by simp) target)

end Walks

section Trees

variable {t : FileTree (List Char)} {n : ℕ}

lemma node_dropLast_of_dir (t : FileTree (List Char)) (q : Loc) (hq : t.node q = some .dir) :
    t.node q.dropLast = some .dir :=
  t.node_dropLast (hq ▸ rfl)

/-- The path of a place leads to it. -/
lemma walks_place {loc : Loc} (hloc : ∀ target, t.node loc ≠ some (.link target))
    (hsome : (t.node loc).isSome) : Walks t.node false n [] (loc.map .down) loc n := by
  refine @walks_down _ _ [] loc ?_ ?_
  · intro q hq hne
    exact FileTree.node_of_prefix hq hne hsome
  · rw [nil_append]
    rcases hnode : t.node loc with _ | _ | ⟨content, mode⟩ | target
    · rw [hnode] at hsome
      cases hsome
    · exact .inl rfl
    · exact .inr ⟨content, mode, rfl⟩
    · exact absurd hnode (hloc target)

/-- Writing a file adds it to the tree, or changes it. -/
lemma extends_place {t' : FileTree (List Char)} {e : Loc} {content : List UInt8} {mode : ℕ}
    (he : CanHold t.node e) (h : t.place e (.file content mode) = some t') :
    Extends t.node t'.node := by
  intro q x hq
  rw [FileTree.node_place h]
  split_ifs with heq
  · subst heq
    rcases he with hnone | ⟨content', mode', hfile⟩
    · cases hq.symm.trans hnone
    · cases hq.symm.trans hfile
      exact ⟨_, rfl, trivial⟩
  · exact ⟨x, hq, .refl x⟩

end Trees

/-! ## Making directories -/

/-- Going along a path, and making the directories that are missing; the result is the tree, the
place that is reached, and how many more links may be followed. -/
def makeDirs : FileTree (List Char) → ℕ → Loc → List Step →
    Option (FileTree (List Char) × Loc × ℕ)
  | t, n, cur, [] => some (t, cur, n)
  | t, n, cur, .here :: rest => makeDirs t n cur rest
  | t, n, cur, .up :: rest => makeDirs t n cur.dropLast rest
  | t, n, cur, .down name :: rest =>
    match t.node (cur ++ [name]) with
    | none => makeDirs (t.mkdirs (cur ++ [name])) n (cur ++ [name]) rest
    | some .dir => makeDirs t n (cur ++ [name]) rest
    | some (.file _ _) => none
    | some (.link _) =>
      match walk t.node false n cur [.down name] with
      | some (c, m) => if t.node c = some .dir then makeDirs t m c rest else none
      | none => none

/-- Whether a tree differs from another one in additional directories only. -/
structure Grows (t t' : FileTree (List Char)) : Prop where
  kept : ∀ q x, t.node q = some x → t'.node q = some x
  new : ∀ q, t.node q = none → t'.node q = none ∨ t'.node q = some .dir

variable {t t' t'' : FileTree (List Char)} {n m : ℕ} {cur d : Loc} {todo : List Step}

lemma Grows.refl (t : FileTree (List Char)) : Grows t t := ⟨fun _ _ h => h, fun _ h => .inl h⟩

lemma Grows.trans (h : Grows t t') (h' : Grows t' t'') : Grows t t'' := by
  refine ⟨fun q x hq => h'.kept q x (h.kept q x hq), ?_⟩
  intro q hq
  rcases h.new q hq with hnone | hdir
  · exact h'.new q hnone
  · exact .inr (h'.kept q _ hdir)

lemma Grows.extends (h : Grows t t') : Extends t.node t'.node :=
  fun q x hq => ⟨x, h.kept q x hq, .refl x⟩

lemma grows_mkdirs {name : List Char} (hcur : t.node cur = some .dir)
    (hnode : t.node (cur ++ [name]) = none) : Grows t (t.mkdirs (cur ++ [name])) := by
  have hmade : ∀ q, (t.mkdirs (cur ++ [name])).node q =
      if q <+: cur ++ [name] then some .dir else t.node q := fun _ => rfl
  constructor
  · intro q x hq
    rw [hmade]
    split_ifs with hpre
    · -- Above the new directory there were directories.
      have hdir : t.node q = some .dir := by
        rcases prefix_concat_iff.mp hpre with rfl | hpre
        · cases hnode.symm.trans hq
        · by_cases hne : q = cur
          · rw [hne, hcur]
          · exact FileTree.node_of_prefix hpre hne (hcur ▸ rfl)
      exact hdir.symm.trans hq
    · exact hq
  · intro q hq
    rw [hmade]
    split_ifs
    · exact .inr rfl
    · exact .inl hq

/-- The nodes of a tree, and a directory wherever there is nothing. -/
def filled (t : FileTree (List Char)) (q : Loc) : Option Node := some ((t.node q).getD .dir)

lemma Grows.filled_eq {q : Loc} {x : Node} (h : Grows t t') (hq : t'.node q = some x) :
    filled t q = some x := by
  rcases hnode : t.node q with _ | y
  · rcases h.new q hnode with hnone | hdir
    · cases hq.symm.trans hnone
    · cases hq.symm.trans hdir
      rw [filled, hnode]
      rfl
  · cases (h.kept q y hnode).symm.trans hq
    rw [filled, hnode]
    rfl

/-- Where a path leads after directories have been made can be seen before. -/
theorem Grows.walks_filled {create : Bool} (h : Grows t t')
    (hw : Walks t'.node create n cur todo d m) : Walks (filled t) false n cur todo d m := by
  induction hw with
  | done => exact .done
  | here _ ih => exact .here ih
  | up _ ih => exact .up ih
  | dir hnode _ ih => exact .dir (h.filled_eq hnode) ih
  | file hnode => exact .file (h.filled_eq hnode)
  | link hnode _ ih => exact .link (h.filled_eq hnode) ih
  | @missing n cur name _ hnode =>
    have hnone : t.node (cur ++ [name]) = none := by
      rcases hbefore : t.node (cur ++ [name]) with _ | x
      · rfl
      · cases hnode.symm.trans (h.kept _ _ hbefore)
    exact .dir (by rw [filled, hnone]; rfl) .done

/-- What going along a path does: only directories are added, and the path then leads to the
directory that was reached. -/
theorem makeDirs_eq_some (h : makeDirs t n cur todo = some (t', d, m))
    (hcur : t.node cur = some .dir) :
    Grows t t' ∧ t'.node d = some .dir ∧ Walks t'.node false n cur todo d m := by
  induction todo generalizing t n cur with
  | nil =>
    cases h
    exact ⟨.refl _, hcur, .done⟩
  | cons step rest ih =>
    rcases step with _ | _ | name
    · obtain ⟨hgrows, hd, hw⟩ := ih h hcur
      exact ⟨hgrows, hd, .here hw⟩
    · obtain ⟨hgrows, hd, hw⟩ := ih h (t.node_dropLast (hcur ▸ rfl))
      exact ⟨hgrows, hd, .up hw⟩
    · unfold makeDirs at h
      split at h
      · next hnode =>
        have hself : (t.mkdirs (cur ++ [name])).node (cur ++ [name]) = some .dir :=
          if_pos prefix_rfl
        obtain ⟨hgrows, hd, hw⟩ := ih h hself
        exact ⟨(grows_mkdirs hcur hnode).trans hgrows, hd, .dir (hgrows.kept _ _ hself) hw⟩
      · next hnode =>
        obtain ⟨hgrows, hd, hw⟩ := ih h hnode
        exact ⟨hgrows, hd, .dir (hgrows.kept _ _ hnode) hw⟩
      · cases h
      · split at h
        · next c k hwalk =>
          split_ifs at h with hc
          obtain ⟨hgrows, hd, hw⟩ := ih h hc
          have hfirst := (walk_eq_some.mp hwalk).mono hgrows.extends
          exact ⟨hgrows, hd, (walks_append hfirst (hgrows.kept _ _ hc)).mpr hw⟩
        · cases h

/-- Nothing is made on a path that leads to a directory. -/
theorem makeDirs_of_walks (h : Walks t.node false n cur todo d m) (hcur : t.node cur = some .dir)
    (hd : t.node d = some .dir) : makeDirs t n cur todo = some (t, d, m) := by
  have hup := node_dropLast_of_dir t
  induction todo generalizing n cur with
  | nil =>
    obtain ⟨rfl, rfl⟩ := walks_nil.mp h
    rfl
  | cons step rest ih =>
    rcases step with _ | _ | name
    · exact ih (walks_here.mp h) hcur
    · exact ih (walks_up.mp h) (hup cur hcur)
    · unfold makeDirs
      split
      · next hnode => exact nomatch ((walks_missing hnode).mp h).1
      · next hnode => exact ih ((walks_dir hnode).mp h) hnode
      · next hnode =>
        obtain ⟨-, rfl, -⟩ := (walks_file hnode).mp h
        cases hnode.symm.trans hd
      · have hsplit : Walks t.node false n cur ([.down name] ++ rest) d m := h
        obtain ⟨c, k, hfirst, hc, hrest⟩ := hsplit.split t.node_nil hup hcur hd
        rw [walk_of_walks hfirst]
        exact (if_pos hc).trans (ih hrest hc)

end Gyt.PathWalk
