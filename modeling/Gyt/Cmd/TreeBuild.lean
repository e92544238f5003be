import Gyt.Cmd.Util

/-!
# The trees of an index

`build_tree_from_index` of `cmd/util.rs` groups the entries of an index by directories and writes a
tree for each of them.  It checks nothing, while reading a tree back checks the names and their
order.

`build_eq` says what the grouping makes of the entries of one directory, and `hasTrees_writeDir`
which trees are in the store afterwards.  `TreeReady` says which entries have trees that can be
read: no file is a directory of another one, all names pass the check of the reader, and no
directory has too many names.
-/

namespace Gyt

open Text List IndexEntry

/-! ## Grouping -/

namespace DirNode

section Subdirs

variable {subdirs : List (Str × DirNode)} {comp c : Str} {f : DirNode → DirNode}

/-- Whether the names of subdirectories ascend. -/
def Ascending (subdirs : List (Str × DirNode)) : Prop := subdirs.Pairwise (·.1 < ·.1)

lemma fst_mem_updateSubdir {x : Str × DirNode} (h : x ∈ updateSubdir comp f subdirs) :
    x.1 = comp ∨ x ∈ subdirs := by
  induction subdirs with
  | nil =>
    rw [updateSubdir, mem_singleton] at h
    exact .inl (congrArg Prod.fst h)
  | cons sub subdirs ih =>
    obtain ⟨name, node⟩ := sub
    rw [updateSubdir] at h
    split_ifs at h with heq hlt
    · rcases mem_cons.mp h with rfl | h
      · exact .inl heq.symm
      · exact .inr (mem_cons_of_mem _ h)
    · rcases mem_cons.mp h with rfl | h
      · exact .inl rfl
      · exact .inr h
    · rcases mem_cons.mp h with rfl | h
      · exact .inr mem_cons_self
      · exact (ih h).imp_right (mem_cons_of_mem _)

lemma Ascending.updateSubdir (h : Ascending subdirs) :
    Ascending (updateSubdir comp f subdirs) := by
  induction subdirs with
  | nil => exact pairwise_singleton _ _
  | cons sub subdirs ih =>
    obtain ⟨name, node⟩ := sub
    obtain ⟨hhead, htail⟩ := pairwise_cons.mp h
    rw [DirNode.updateSubdir]
    split_ifs with heq hlt
    · exact pairwise_cons.mpr ⟨hhead, htail⟩
    · refine pairwise_cons.mpr ⟨fun x hx => ?_, h⟩
      rcases mem_cons.mp hx with rfl | hx
      · exact hlt
      · exact lt_trans hlt (hhead x hx)
    · refine pairwise_cons.mpr ⟨fun x hx => ?_, ih htail⟩
      rcases fst_mem_updateSubdir hx with hx | hx
      · rw [hx]
        exact lt_of_le_of_ne (not_lt.mp hlt) (Ne.symm heq)
      · exact hhead x hx

lemma lookup_cons {name : Str} {node : DirNode} : List.lookup c ((name, node) :: subdirs) =
      if c = name then some node else subdirs.lookup c := by
  rw [List.lookup_cons]
  by_cases h : c = name
  · rw [if_pos h, beq_iff_eq.mpr h]
  · rw [if_neg h, beq_eq_false_iff_ne.mpr h]

/-- A name before all names is not among them. -/
lemma lookup_eq_none_of_lt (h : ∀ x ∈ subdirs, comp < x.1) : subdirs.lookup comp = none := by
  rw [lookup_eq_none_iff]
  intro x hx
  exact bne_iff_ne.mpr (h x hx).ne

lemma lookup_updateSubdir (h : Ascending subdirs) : (updateSubdir comp f subdirs).lookup c =
      if c = comp then some (f ((subdirs.lookup comp).getD empty)) else subdirs.lookup c := by
  induction subdirs with
  | nil => rw [updateSubdir, lookup_cons, lookup_nil, lookup_nil, Option.getD_none]
  | cons sub subdirs ih =>
    obtain ⟨name, node⟩ := sub
    obtain ⟨hhead, htail⟩ := pairwise_cons.mp h
    rw [updateSubdir]
    by_cases heq : comp = name
    · rw [if_pos heq, lookup_cons, lookup_cons, lookup_cons, if_pos heq, heq]
      split_ifs <;> rfl
    · rw [if_neg heq]
      by_cases hlt : comp < name
      · have hnone : lookup comp ((name, node) :: subdirs) = none :=
          lookup_eq_none_of_lt (forall_mem_cons.mpr ⟨hlt, fun x hx => lt_trans hlt (hhead x hx)⟩)
        rw [if_pos hlt, lookup_cons, hnone]
        rfl
      · rw [if_neg hlt, lookup_cons, ih htail, lookup_cons, lookup_cons, if_neg heq]
        by_cases hc : c = comp
        · rw [hc, if_neg heq, if_pos rfl, if_pos rfl]
        · rw [if_neg hc, if_neg hc]

/-- The subdirectories are what a lookup finds. -/
lemma mem_iff_lookup_eq_some (h : Ascending subdirs) {node : DirNode} :
    (c, node) ∈ subdirs ↔ subdirs.lookup c = some node := by
  induction subdirs with
  | nil => simp
  | cons sub subdirs ih =>
    obtain ⟨name, node'⟩ := sub
    obtain ⟨hhead, htail⟩ := pairwise_cons.mp h
    rw [mem_cons, ih htail, lookup_cons]
    by_cases hc : c = name
    · have hnone : subdirs.lookup c = none := hc ▸ lookup_eq_none_of_lt hhead
      rw [hnone, if_pos hc, Prod.mk.injEq, Option.some.injEq, eq_comm (a := node)]
      simp [hc]
    · simp [hc]

end Subdirs

end DirNode

/-! ## Entries by directory -/

section Build

open DirNode

variable {es : List IndexEntry} {e e' : IndexEntry} {c : Str}

namespace IndexEntry

/-- A file that is directly in the directory. -/
def leaf (e : IndexEntry) : Option (Str × UInt32 × ObjectId) :=
  match e.path with
  | [name] => some (name, e.mode, e.hash)
  | _ => none

/-- An entry that is in the subdirectory with the given name, as seen from there. -/
def enter (c : Str) (e : IndexEntry) : Option IndexEntry :=
  match e.path with
  | name :: d :: rest => if name = c then some { e with path := d :: rest } else none
  | _ => none

lemma leaf_eq_some {name : Str} {mode : UInt32} {hash : ObjectId} :
    e.leaf = some (name, mode, hash) ↔ e.path = [name] ∧ e.mode = mode ∧ e.hash = hash := by
  unfold leaf
  split
  · next name' hpath => simp [hpath]
  · next hne =>
    constructor
    · nofun
    · rintro ⟨hpath, -, -⟩
      exact absurd hpath (hne name)

lemma enter_eq_some : e.enter c = some e' ↔ e.path = c :: e'.path ∧ e'.path ≠ [] ∧
    e'.mode = e.mode ∧ e'.hash = e.hash ∧ e' = { e with path := e'.path } := by
  unfold enter
  split
  · next name d rest hpath =>
    rw [hpath]
    constructor
    · intro h
      split_ifs at h with hname
      cases h
      simp [hname]
    · rintro ⟨hcons, -, -, -, he'⟩
      obtain ⟨rfl, hrest⟩ := cons.inj hcons
      rw [if_pos rfl, he', ← hrest]
  · next hne =>
    constructor
    · nofun
    · rintro ⟨hpath, hnil, -⟩
      obtain ⟨d, rest, hd⟩ := exists_cons_of_ne_nil hnil
      rw [hd] at hpath
      exact absurd hpath (hne c d rest)

end IndexEntry

/-- The directory with the given entries. -/
def DirNode.build (es : List IndexEntry) : DirNode :=
  es.foldl (fun root e => .insertEntry e.mode e.hash e.path root) empty

lemma build_concat (es : List IndexEntry) (e : IndexEntry) :
    build (es ++ [e]) = .insertEntry e.mode e.hash e.path (build es) := by
  rw [build, foldl_append]
  rfl

/-- The entries in a subdirectory. -/
def inside (c : Str) (es : List IndexEntry) : List IndexEntry := es.filterMap (·.enter c)

/-- A directory has its files and, for every name of a longer path, the directory of the entries
inside. -/
theorem build_eq (es : List IndexEntry) :
    ∃ subdirs, build es = .mk (es.filterMap (·.leaf)) subdirs ∧ Ascending subdirs ∧
      ∀ c, subdirs.lookup c = if inside c es = [] then none else some (build (inside c es)) := by
  induction es using reverseRecOn with
  | nil => exact ⟨[], rfl, Pairwise.nil, fun c => rfl⟩
  | append_singleton es e ih =>
    obtain ⟨subdirs, hbuild, hasc, hlookup⟩ := ih
    have hinside : ∀ c, inside c (es ++ [e]) = inside c es ++ (e.enter c).toList := by
      intro c
      rw [inside, filterMap_append]
      cases h : e.enter c <;> simp [inside, h]
    have hleafs : (es ++ [e]).filterMap (·.leaf) = es.filterMap (·.leaf) ++ e.leaf.toList := by
      rw [filterMap_append]
      cases h : e.leaf <;> simp [h]
    rw [build_concat, hbuild, hleafs]
    match hpath : e.path with
    | [] =>
      refine ⟨subdirs, ?_, hasc, fun c => ?_⟩
      · simp [insertEntry, leaf, hpath]
      · simp [hinside, enter, hpath, hlookup]
    | [name] =>
      refine ⟨subdirs, ?_, hasc, fun c => ?_⟩
      · simp [insertEntry, leaf, hpath]
      · simp [hinside, enter, hpath, hlookup]
    | name :: d :: rest =>
      refine ⟨updateSubdir name (insertEntry e.mode e.hash (d :: rest)) subdirs, ?_,
        hasc.updateSubdir, fun c => ?_⟩
      · simp [insertEntry, leaf, hpath]
      · rw [lookup_updateSubdir hasc, hinside]
        by_cases hc : c = name
        · have hget : (subdirs.lookup name).getD empty = build (inside name es) := by
            rw [hlookup]
            split_ifs with hnil
            · rw [hnil]
              rfl
            · rfl
          rw [hc, if_pos rfl, hget, enter, hpath]
          simp [build_concat]
        · rw [if_neg hc, enter, hpath, hlookup]
          simp [Ne.symm hc]

lemma mem_inside : e' ∈ inside c es ↔ ∃ e ∈ es, e.enter c = some e' := mem_filterMap

/-- An entry with a longer path is in the subdirectory. -/
lemma mem_inside_of_cons {rest : RelPath} (he : e ∈ es) (hpath : e.path = c :: rest)
    (hrest : rest ≠ []) : { e with path := rest } ∈ inside c es :=
  mem_inside.mpr ⟨e, he, enter_eq_some.mpr ⟨hpath, hrest, rfl, rfl, rfl⟩⟩

end Build

/-! ## Which indexes have readable trees -/

section Ready

variable {es : List IndexEntry} {e e' : IndexEntry} {c : Str}

/-- The names of what is directly in a directory. -/
def namesIn (es : List IndexEntry) (dir : RelPath) : List Str :=
  (es.filterMap fun e => (stripPrefix dir e.path).bind List.head?).dedup

/-- The entries whose trees can be read. -/
structure TreeReady (es : List IndexEntry) : Prop where
  /-- No file is a directory of another one. -/
  apart : ∀ e ∈ es, ∀ e' ∈ es, e.path <+: e'.path → e.path = e'.path
  names : ∀ e ∈ es, ∀ comp ∈ e.path, Tree.validateEntryName (Utf8.encode comp) = .ok ()
  sizes : ∀ dir, (namesIn es dir).length ≤ maxTreeEntries

/-- What readable trees ask of one directory. -/
structure DirReady (es : List IndexEntry) : Prop where
  apart : ∀ e ∈ es, ∀ c, e.path = [c] → inside c es = []
  names : ∀ e ∈ es, ∀ c ∈ e.path.head?, Tree.validateEntryName (Utf8.encode c) = .ok ()
  size : (namesIn es []).length ≤ maxTreeEntries

lemma namesIn_cons (es : List IndexEntry) (c : Str) (dir : RelPath) :
    namesIn es (c :: dir) = namesIn (inside c es) dir := by
  unfold namesIn inside
  rw [filterMap_filterMap]
  congr 1
  refine filterMap_congr fun e _ => ?_
  match hpath : e.path with
  | [] => simp [enter, hpath, stripPrefix, isPrefixOf?]
  | [name] => cases dir <;> simp [enter, hpath, stripPrefix, isPrefixOf?]
  | name :: d :: rest =>
    by_cases hname : name = c
    · simp [enter, hpath, stripPrefix, isPrefixOf?, hname]
    · simp [enter, hpath, stripPrefix, isPrefixOf?, hname, Ne.symm hname]

/-- The trees can be read if this holds for the directory and for all that is inside. -/
lemma treeReady_iff (hne : ∀ e ∈ es, e.path ≠ []) :
    TreeReady es ↔ DirReady es ∧ ∀ c, TreeReady (inside c es) := by
  constructor
  · intro h
    refine ⟨⟨fun e he c hpath => ?_, fun e he c hc => ?_, h.sizes []⟩,
      fun c => ⟨?_, ?_, fun dir => ?_⟩⟩
    · -- A file cannot have anything inside.
      refine eq_nil_iff_forall_not_mem.mpr fun e' he' => ?_
      obtain ⟨e₁, he₁, henter⟩ := mem_inside.mp he'
      obtain ⟨hpath₁, hnil, -⟩ := enter_eq_some.mp henter
      have heq := h.apart e he e₁ he₁ (by rw [hpath, hpath₁]; exact ⟨e'.path, rfl⟩)
      rw [hpath, hpath₁] at heq
      exact hnil (cons.inj heq).2.symm
    · exact h.names e he c (mem_of_mem_head? hc)
    · intro e he e' he' hpre
      obtain ⟨e₁, he₁, henter⟩ := mem_inside.mp he
      obtain ⟨e₁', he₁', henter'⟩ := mem_inside.mp he'
      have heq := h.apart e₁ he₁ e₁' he₁' (by
        rw [(enter_eq_some.mp henter).1, (enter_eq_some.mp henter').1]
        exact (prefix_cons_inj c).mpr hpre)
      rw [(enter_eq_some.mp henter).1, (enter_eq_some.mp henter').1] at heq
      exact (cons.inj heq).2
    · intro e he comp hcomp
      obtain ⟨e₁, he₁, henter⟩ := mem_inside.mp he
      refine h.names e₁ he₁ comp ?_
      rw [(enter_eq_some.mp henter).1]
      exact mem_cons_of_mem _ hcomp
    · rw [← namesIn_cons]
      exact h.sizes _
  · rintro ⟨hdir, hinside⟩
    refine ⟨fun e he e' he' hpre => ?_, fun e he comp hcomp => ?_, fun dir => ?_⟩
    · obtain ⟨c, rest, hpath⟩ := exists_cons_of_ne_nil (hne e he)
      obtain ⟨c', rest', hpath'⟩ := exists_cons_of_ne_nil (hne e' he')
      rw [hpath, hpath', cons_prefix_cons] at hpre
      obtain ⟨rfl, hpre⟩ := hpre
      rw [hpath, hpath']
      by_cases hnil' : rest' = []
      · rw [hnil'] at hpre ⊢
        rw [prefix_nil.mp hpre]
      · have hmem' := mem_inside_of_cons he' hpath' hnil'
        by_cases hnil : rest = []
        · rw [hdir.apart e he c (hnil ▸ hpath)] at hmem'
          cases hmem'
        · exact congrArg (c :: ·)
            ((hinside c).apart _ (mem_inside_of_cons he hpath hnil) _ hmem' hpre)
    · obtain ⟨c, rest, hpath⟩ := exists_cons_of_ne_nil (hne e he)
      rw [hpath] at hcomp
      rcases mem_cons.mp hcomp with rfl | hrest
      · exact hdir.names e he comp (by rw [hpath]; rfl)
      · exact (hinside c).names _ (mem_inside_of_cons he hpath (ne_nil_of_mem hrest)) comp hrest
    · cases dir with
      | nil => exact hdir.size
      | cons c dir =>
        rw [namesIn_cons]
        exact (hinside c).sizes dir

end Ready

/-! ## The trees that are written -/

section Written

open DirNode

variable {hashBytes : Hash} {s t : Store} {es : List IndexEntry} {id : ObjectId}
  {n : ℕ}

def dirEntry (dir : Str × ObjectId) : TreeEntry := ⟨modeDir, Utf8.encode dir.1, dir.2⟩

/-- Whether a store has the trees of entries, nested at most as deep as given. -/
def HasTrees (t : Store) : ℕ → ObjectId → List IndexEntry → Prop
  | 0, _, _ => False
  | n + 1, id, es => ∃ dirs : List (Str × ObjectId),
    t.get? id = some ⟨.tree,
      Tree.encode ((es.filterMap (·.leaf)).map fileEntry ++ dirs.map dirEntry)⟩ ∧
    (dirs.map Prod.fst).Nodup ∧ (∀ c, c ∈ dirs.map Prod.fst ↔ inside c es ≠ []) ∧
    ∀ dir ∈ dirs, HasTrees t n dir.2 (inside dir.1 es)

lemma HasTrees.mono {n' : ℕ} (hn : n ≤ n') (h : HasTrees t n id es) : HasTrees t n' id es := by
  induction n generalizing n' id es with
  | zero => cases h
  | succ n ih =>
    obtain ⟨n', rfl⟩ : ∃ k, n' = k + 1 := ⟨n' - 1, by omega⟩
    obtain ⟨dirs, hget, hnodup, hmem, hdirs⟩ := h
    exact ⟨dirs, hget, hnodup, hmem, fun dir hdir => ih (by omega) (hdirs dir hdir)⟩

mutual

/-- The trees of a directory are in every store that has what was written. -/
theorem hasTrees_writeDir (ht : t.CollisionFree) :
    ∀ (node : DirNode) (s : Store) (es : List IndexEntry), build es = node →
      (writeDir hashBytes node s).1.entries ⊆ t.entries →
      ∃ n, s.entries.length + n ≤ (writeDir hashBytes node s).1.entries.length ∧
        HasTrees t n (writeDir hashBytes node s).2 es
  | .mk files subdirs, s, es, hbuild, hsub => by
    obtain ⟨subdirs', hbuild', hasc, hlookup⟩ := build_eq es
    obtain ⟨hfiles, hsubdirs⟩ := DirNode.mk.inj (hbuild.symm.trans hbuild')
    subst hfiles hsubdirs
    have hmem : ∀ c node, (c, node) ∈ subdirs ↔ inside c es ≠ [] ∧ build (inside c es) = node := by
      intro c node
      rw [mem_iff_lookup_eq_some hasc, hlookup]
      split_ifs with hnil <;> simp [hnil]
    have hnodes : ∀ x ∈ subdirs, build (inside x.1 es) = x.2 := fun x hx => ((hmem _ _).mp hx).2
    rw [writeDir] at hsub ⊢
    obtain ⟨dirs, n, hlen, hentries, hnames, hdirs⟩ := hasTrees_writeSubdirs ht subdirs s es hnodes
      (fun x hx => hsub (mem_append_left _ hx))
    refine ⟨n + 1, ?_, dirs, ?_, ?_, ?_, hdirs⟩
    · simp only [Tree.write, Store.writeBytes, length_append, length_singleton]
      omega
    · rw [← hentries]
      exact Store.get?_of_mem_entries ht (hsub (Store.mem_entries_writeBytes _ _ _ _))
    · rw [hnames]
      exact pairwise_map.mpr (hasc.imp fun h => h.ne)
    · intro c
      rw [hnames, mem_map]
      constructor
      · rintro ⟨⟨c', node⟩, hx, rfl⟩
        exact ((hmem _ _).mp hx).1
      · intro hc
        exact ⟨(c, _), (hmem _ _).mpr ⟨hc, rfl⟩, rfl⟩

lemma hasTrees_writeSubdirs (ht : t.CollisionFree) :
    ∀ (subdirs : List (Str × DirNode)) (s : Store) (es : List IndexEntry),
      (∀ x ∈ subdirs, build (inside x.1 es) = x.2) →
      (writeSubdirs hashBytes subdirs s).1.entries ⊆ t.entries →
      ∃ (dirs : List (Str × ObjectId)) (n : ℕ),
        s.entries.length + n ≤ (writeSubdirs hashBytes subdirs s).1.entries.length ∧
        (writeSubdirs hashBytes subdirs s).2 = dirs.map dirEntry ∧
        dirs.map Prod.fst = subdirs.map Prod.fst ∧
        ∀ dir ∈ dirs, HasTrees t n dir.2 (inside dir.1 es)
  | [], s, es, _, _ => ⟨[], 0, Nat.le_refl _, rfl, rfl, fun _ h => absurd h not_mem_nil⟩
  | (name, node) :: subdirs, s, es, hnodes, hsub => by
    rw [writeSubdirs] at hsub ⊢
    obtain ⟨hnode, hnodes⟩ := forall_mem_cons.mp hnodes
    have hgrows := (sameCommits_writeSubdirs hashBytes subdirs (writeDir hashBytes node s).1).grows
    obtain ⟨n, hlen, htrees⟩ := hasTrees_writeDir ht node s (inside name es) hnode
      (fun x hx => hsub (hgrows.subset hx))
    obtain ⟨dirs, n', hlen', hentries, hnames, hdirs⟩ :=
      hasTrees_writeSubdirs ht subdirs (writeDir hashBytes node s).1 es hnodes hsub
    refine ⟨(name, (writeDir hashBytes node s).2) :: dirs, n + n', ?_, ?_, ?_, ?_⟩
    · dsimp only
      omega
    · dsimp only
      rw [hentries]
      rfl
    · rw [map_cons, map_cons, hnames]
    · refine forall_mem_cons.mpr ⟨htrees.mono (by omega), fun dir hdir => ?_⟩
      exact (hdirs dir hdir).mono (by omega)

end

end Written

end Gyt
