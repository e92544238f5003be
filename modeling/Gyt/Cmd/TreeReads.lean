import Gyt.Cmd.StageReads
import Gyt.Cmd.TreeBuild

/-!
# Reading the tree of an index back

The trees that `build_tree_from_index` writes flatten to what is in the index exactly if the entries
are ready for it (`TreeReady`).  An index that staging leaves need not be: a directory that is
staged in place of a file does not remove the entry of the file (`directory_over_file_breaks_tree`),
and names with control characters are staged.
-/

namespace Gyt

open Command Text DirNode List Utf8 IndexEntry

/-! ## One directory -/

section Directory

variable {es : List IndexEntry} {e : IndexEntry} {c : Str} {dirs : List (Str × ObjectId)}

/-- What every index that is read after staging has. -/
structure Clean (es : List IndexEntry) : Prop where
  modes : ∀ e ∈ es, e.mode ∈ fileModes
  nonempty : ∀ e ∈ es, e.path ≠ []
  zero : ∀ e ∈ es, ∀ comp ∈ e.path, (0 : UInt8) ∉ Utf8.encode comp
  unique : (es.map (·.path)).Nodup

/-- This is kept in the subdirectories. -/
lemma Clean.inside (h : Clean es) (c : Str) : Clean (inside c es) := by
  refine ⟨fun e' he' => ?_, fun e' he' => ?_, fun e' he' comp hcomp => ?_, ?_⟩
  · obtain ⟨e, he, henter⟩ := mem_inside.mp he'
    rw [(enter_eq_some.mp henter).2.2.1]
    exact h.modes e he
  · obtain ⟨e, he, henter⟩ := mem_inside.mp he'
    exact (enter_eq_some.mp henter).2.1
  · obtain ⟨e, he, henter⟩ := mem_inside.mp he'
    refine h.zero e he comp ?_
    rw [(enter_eq_some.mp henter).1]
    exact mem_cons_of_mem _ hcomp
  · rw [Gyt.inside, Nodup, pairwise_map, pairwise_filterMap]
    refine (pairwise_map.mp h.unique).imp fun {e₁ e₂} hne e₁' h₁ e₂' h₂ heq => hne ?_
    rw [(enter_eq_some.mp h₁).1, (enter_eq_some.mp h₂).1, heq]

/-- The mode of a file is not that of a directory. -/
lemma of_mem_fileModes {m : UInt32} (h : m ∈ fileModes) :
    Tree.isKnownMode m = true ∧ m ≠ modeDir := by
  simp only [fileModes, mem_cons, not_mem_nil, or_false] at h
  rcases h with rfl | rfl | rfl <;> decide

/-- The names of the files and subdirectories of a directory. -/
def entryNames (es : List IndexEntry) (dirs : List (Str × ObjectId)) : List Str :=
  (es.filterMap (·.leaf)).map Prod.fst ++ dirs.map Prod.fst

def treeEntries (es : List IndexEntry) (dirs : List (Str × ObjectId)) : List TreeEntry :=
  (es.filterMap (·.leaf)).map fileEntry ++ dirs.map dirEntry

lemma map_name_treeEntries (es : List IndexEntry) (dirs : List (Str × ObjectId)) :
    (treeEntries es dirs).map (·.name) = (entryNames es dirs).map encode := by
  rw [treeEntries, entryNames, map_append, map_append, map_map, map_map, map_map, map_map]
  rfl

lemma mem_leaf_names : c ∈ (es.filterMap (·.leaf)).map Prod.fst ↔ ∃ e ∈ es, e.path = [c] := by
  simp only [mem_map, mem_filterMap, Prod.exists, leaf_eq_some]
  constructor
  · rintro ⟨_, _, _, ⟨e, he, hpath, -, -⟩, rfl⟩
    exact ⟨e, he, hpath⟩
  · rintro ⟨e, he, hpath⟩
    exact ⟨_, _, _, ⟨e, he, hpath, rfl, rfl⟩, rfl⟩

/-- The names are those in front of the paths. -/
lemma mem_entryNames (hdirs : ∀ c, c ∈ dirs.map Prod.fst ↔ inside c es ≠ []) :
    c ∈ entryNames es dirs ↔ ∃ e ∈ es, e.path.head? = some c := by
  rw [entryNames, mem_append, mem_leaf_names, hdirs]
  constructor
  · rintro (⟨e, he, hpath⟩ | hinside)
    · exact ⟨e, he, by rw [hpath]; rfl⟩
    · obtain ⟨e', he'⟩ := exists_mem_of_ne_nil _ hinside
      obtain ⟨e, he, henter⟩ := mem_inside.mp he'
      exact ⟨e, he, by rw [(enter_eq_some.mp henter).1]; rfl⟩
  · rintro ⟨e, he, hhead⟩
    obtain ⟨rest, hpath⟩ := head?_eq_some_iff.mp hhead
    by_cases hrest : rest = []
    · exact .inl ⟨e, he, by rw [hpath, hrest]⟩
    · exact .inr (ne_nil_of_mem (mem_inside_of_cons he hpath hrest))

section

variable (hclean : Clean es)

include hclean

/-- Names occur twice only if a file is a directory as well. -/
lemma nodup_entryNames_iff (hnodup : (dirs.map Prod.fst).Nodup)
    (hdirs : ∀ c, c ∈ dirs.map Prod.fst ↔ inside c es ≠ []) :
    (entryNames es dirs).Nodup ↔ ∀ e ∈ es, ∀ c, e.path = [c] → inside c es = [] := by
  have hleaves : ((es.filterMap (·.leaf)).map Prod.fst).Nodup := by
    rw [Nodup, pairwise_map, pairwise_filterMap]
    refine (pairwise_map.mp hclean.unique).imp fun {e₁ e₂} hne f₁ h₁ f₂ h₂ heq => hne ?_
    rw [(leaf_eq_some.mp h₁).1, (leaf_eq_some.mp h₂).1, heq]
  rw [entryNames, nodup_append']
  constructor
  · rintro ⟨-, -, hdisj⟩ e he c hpath
    by_contra hinside
    exact hdisj (mem_leaf_names.mpr ⟨e, he, hpath⟩) ((hdirs c).mpr hinside)
  · intro hapart
    refine ⟨hleaves, hnodup, fun c hleaf hdir => ?_⟩
    obtain ⟨e, he, hpath⟩ := mem_leaf_names.mp hleaf
    exact (hdirs c).mp hdir (hapart e he c hpath)

/-- The files of the tree of a directory have modes of files. -/
lemma mode_ne_of_mem_leaf {file : Str × UInt32 × ObjectId}
    (h : file ∈ es.filterMap (·.leaf)) : file.2.1 ≠ modeDir := by
  obtain ⟨e, he, hleaf⟩ := mem_filterMap.mp h
  obtain ⟨-, hmode, -⟩ := leaf_eq_some.mp hleaf
  rw [← hmode]
  exact (of_mem_fileModes (hclean.modes e he)).2

lemma isKnownMode_of_mem_treeEntries {te : TreeEntry}
    (h : te ∈ treeEntries es dirs) : Tree.isKnownMode te.mode = true := by
  rcases mem_append.mp h with h | h
  · obtain ⟨⟨name, mode, hash⟩, hleaf, rfl⟩ := mem_map.mp h
    obtain ⟨e, he, hleaf⟩ := mem_filterMap.mp hleaf
    obtain ⟨-, rfl, -⟩ := leaf_eq_some.mp hleaf
    exact (of_mem_fileModes (hclean.modes e he)).1
  · obtain ⟨dir, -, rfl⟩ := mem_map.mp h
    exact show Tree.isKnownMode modeDir = true by decide

/-- The entries can be told apart by a reader. -/
lemma framed_of_mem_treeEntries
    (hdirs : ∀ c, c ∈ dirs.map Prod.fst ↔ inside c es ≠ []) {te : TreeEntry}
    (h : te ∈ treeEntries es dirs) : Tree.Framed te := by
  refine ⟨isKnownMode_of_mem_treeEntries hclean h, ?_⟩
  have hname : te.name ∈ (treeEntries es dirs).map (·.name) := mem_map_of_mem h
  rw [map_name_treeEntries] at hname
  obtain ⟨c, hc, hname⟩ := mem_map.mp hname
  obtain ⟨e, he, hhead⟩ := (mem_entryNames hdirs).mp hc
  rw [← hname]
  exact hclean.zero e he c (mem_of_mem_head? hhead)

/-- The tree of a directory can be read if the directory is ready. -/
lemma wellFormed_treeEntries_iff (hnodup : (dirs.map Prod.fst).Nodup)
    (hdirs : ∀ c, c ∈ dirs.map Prod.fst ↔ inside c es ≠ []) :
    Tree.WellFormed (Tree.sorted (treeEntries es dirs)) ↔ DirReady es := by
  have hlength : (entryNames es dirs).Nodup →
      (treeEntries es dirs).length = (namesIn es []).length := by
    intro hnames
    have hperm : (entryNames es dirs).Perm (namesIn es []) := by
      refine (perm_ext_iff_of_nodup hnames (nodup_dedup _)).mpr fun c => ?_
      rw [mem_entryNames hdirs, mem_dedup, mem_filterMap]
      rfl
    have hlen := congrArg length (map_name_treeEntries es dirs)
    rw [length_map, length_map] at hlen
    rw [hlen, hperm.length_eq]
  rw [Tree.wellFormed_sorted_iff, map_name_treeEntries, nodup_map_iff encode_injective]
  constructor
  · rintro ⟨hvalid, hnames, hlen⟩
    refine ⟨(nodup_entryNames_iff hclean hnodup hdirs).mp hnames, fun e he c hc => ?_, ?_⟩
    · have hmem : c ∈ entryNames es dirs := (mem_entryNames hdirs).mpr ⟨e, he, hc⟩
      have hmem' := mem_map_of_mem (f := encode) hmem
      rw [← map_name_treeEntries] at hmem'
      obtain ⟨te, hte, hname⟩ := mem_map.mp hmem'
      rw [← hname]
      exact (hvalid te hte).name
    · rw [← hlength hnames]
      exact hlen
  · intro hready
    have hnames := (nodup_entryNames_iff hclean hnodup hdirs).mpr hready.apart
    refine ⟨fun te hte => ⟨isKnownMode_of_mem_treeEntries hclean hte, ?_⟩, hnames, ?_⟩
    · have hname : te.name ∈ (treeEntries es dirs).map (·.name) := mem_map_of_mem hte
      rw [map_name_treeEntries] at hname
      obtain ⟨c, hc, hname⟩ := mem_map.mp hname
      obtain ⟨e, he, hhead⟩ := (mem_entryNames hdirs).mp hc
      rw [← hname]
      exact hready.names e he c hhead
    · rw [hlength hnames]
      exact hready.size

end

end Directory

/-! ## The walk over the trees -/

section Walk

variable {t : Store} {n depth : ℕ} {id : ObjectId} {es : List IndexEntry} {pre : RelPath}
  {out out' : FileMap}

lemma treeReady_nil : TreeReady [] :=
  ⟨fun _ he => absurd he not_mem_nil, fun _ he => absurd he not_mem_nil, fun _ => Nat.zero_le _⟩

/-- What a walk does at the tree of a directory. -/
lemma walkTree_eq_ok {dirs : List (Str × ObjectId)} (hclean : Clean es)
    (hget : t.get? id = some ⟨.tree, Tree.encode (treeEntries es dirs)⟩)
    (hnodup : (dirs.map Prod.fst).Nodup)
    (hdirs : ∀ c, c ∈ dirs.map Prod.fst ↔ inside c es ≠ []) :
    (walkTree t (depth + 1) id pre).run out = some (.ok (), out') ↔ DirReady es ∧
      ((Tree.sorted (treeEntries es dirs)).forM (walkEntry (walkTree t depth) pre)).run out =
        some (.ok (), out') := by
  have hread : ∀ entries, Tree.read t id = .ok entries ↔
      entries = Tree.sorted (treeEntries es dirs) ∧ DirReady es := by
    intro entries
    rw [Tree.read_eq_ok, ← wellFormed_treeEntries_iff hclean hnodup hdirs]
    have hdec : Tree.decode (Tree.encode (treeEntries es dirs)) = .ok entries ↔ _ :=
      Tree.decode_encode_eq_ok fun te hte => framed_of_mem_treeEntries hclean hdirs hte
    constructor
    · rintro ⟨payload, hget', hpayload⟩
      cases hget.symm.trans hget'
      obtain ⟨rfl, hwf⟩ := hdec.mp hpayload
      exact ⟨rfl, hwf⟩
    · rintro ⟨rfl, hwf⟩
      exact ⟨_, hget, hdec.mpr ⟨rfl, hwf⟩⟩
  rw [walkTree, seq_eq_ok]
  constructor
  · rintro ⟨entries, out₁, hlift, hloop⟩
    obtain ⟨hentries, rfl⟩ := lift_eq_ok.mp hlift
    obtain ⟨rfl, hready⟩ := (hread entries).mp hentries
    exact ⟨hready, hloop⟩
  · rintro ⟨hready, hloop⟩
    exact ⟨_, out, lift_eq_ok.mpr ⟨(hread _).mpr ⟨rfl, hready⟩, rfl⟩, hloop⟩

/-- The step of the walk at a subdirectory. -/
lemma walkEntry_dirEntry {walk : ObjectId → RelPath → Command FileMap GytError Unit}
    (dir : Str × ObjectId) : walkEntry walk pre (dirEntry dir) = walk dir.2 (pre ++ [dir.1]) := by
  rw [walkEntry, dirEntry, decode_encode]
  exact Command.ext fun out => rfl

/-- The step of the walk at a file. -/
lemma run_walkEntry_fileEntry {walk : ObjectId → RelPath → Command FileMap GytError Unit}
    {file : Str × UInt32 × ObjectId} (hmode : file.2.1 ≠ modeDir) :
    (walkEntry walk pre (fileEntry file)).run out =
      some (.ok (), out.insert (pre ++ [file.1]) file.2) := by
  rw [walkEntry, fileEntry, decode_encode]
  refine seq_eq_ok.mpr ⟨file.1, out, rfl, ?_⟩
  rw [if_neg hmode]
  rfl

/-- If the walk succeeds, the entries were ready. -/
lemma treeReady_of_walkTree (hclean : Clean es) (htrees : HasTrees t n id es)
    (hwalk : (walkTree t depth id pre).run out = some (.ok (), out')) : TreeReady es := by
  induction n generalizing depth id es pre out out' with
  | zero => cases htrees
  | succ n ih =>
    obtain ⟨dirs, hget, hnodup, hdirs, hsub⟩ := htrees
    cases depth with
    | zero => cases hwalk
    | succ depth =>
      obtain ⟨hready, hloop⟩ := (walkTree_eq_ok hclean hget hnodup hdirs).mp hwalk
      refine (treeReady_iff hclean.nonempty).mpr ⟨hready, fun c => ?_⟩
      by_cases hnil : inside c es = []
      · rw [hnil]
        exact treeReady_nil
      · obtain ⟨dir, hdir, rfl⟩ := mem_map.mp ((hdirs c).mpr hnil)
        have hmem : dirEntry dir ∈ Tree.sorted (treeEntries es dirs) :=
          Tree.mem_sorted.mpr (mem_append_right _ (mem_map_of_mem hdir))
        obtain ⟨out₁, out₂, hstep⟩ := exists_run_of_forM hloop hmem
        rw [walkEntry_dirEntry] at hstep
        exact ih (hclean.inside _) (hsub dir hdir) hstep

/-- The files that entries stand for, below a path. -/
def FilesAt (es : List IndexEntry) (pre path : RelPath) (v : UInt32 × ObjectId) : Prop :=
  ∃ e ∈ es, path = pre ++ e.path ∧ v = (e.mode, e.hash)

/-- A walk puts files with a property into the map, and all of them. -/
structure Collects (P : RelPath → UInt32 × ObjectId → Prop) (out out' : FileMap) : Prop where
  sound : ∀ path v, out'[path]? = some v → out[path]? = some v ∨ P path v
  keeps : ∀ path ∈ out, path ∈ out'
  complete : ∀ path v, P path v → path ∈ out'

lemma collects_insert (path : RelPath) (v : UInt32 × ObjectId) :
    Collects (fun path' v' => path' = path ∧ v' = v) out (out.insert path v) := by
  refine ⟨fun path' v' h => ?_, fun path' h => mem_insert_iff.mpr (.inl h), ?_⟩
  · rw [Std.TreeMap.getElem?_insert] at h
    split_ifs at h with hpath
    · exact .inr ⟨(Std.LawfulEqCmp.compare_eq_iff_eq.mp hpath).symm, (Option.some.inj h).symm⟩
    · exact .inl h
  · rintro path' v' ⟨rfl, -⟩
    exact mem_insert_iff.mpr (.inr rfl)

/-- The iterations of a loop collect what each of them does. -/
lemma exists_collects_forM {entries : List TreeEntry}
    {g : TreeEntry → Command FileMap GytError Unit}
    {P : TreeEntry → RelPath → UInt32 × ObjectId → Prop}
    (hstep : ∀ te ∈ entries, ∀ out, ∃ out', (g te).run out = some (.ok (), out') ∧
      Collects (P te) out out') (out : FileMap) :
    ∃ out', (entries.forM g).run out = some (.ok (), out') ∧
      Collects (fun path v => ∃ te ∈ entries, P te path v) out out' := by
  induction entries generalizing out with
  | nil => exact ⟨out, rfl, fun _ _ h => .inl h, fun _ h => h, by simp⟩
  | cons te entries ih =>
    obtain ⟨out₁, hhead, hfirst⟩ := hstep te mem_cons_self out
    obtain ⟨out₂, htail, hrest⟩ := ih (fun te hte => hstep te (mem_cons_of_mem _ hte)) out₁
    refine ⟨out₂, seq_eq_ok.mpr ⟨(), out₁, hhead, htail⟩, fun path v hget => ?_,
      fun path hpath => hrest.keeps _ (hfirst.keeps _ hpath), ?_⟩
    · rcases hrest.sound path v hget with hget | ⟨te', hte', hP⟩
      · exact (hfirst.sound path v hget).imp_right fun hP => ⟨te, mem_cons_self, hP⟩
      · exact .inr ⟨te', mem_cons_of_mem _ hte', hP⟩
    · rintro path v ⟨te', hte', hP⟩
      rcases mem_cons.mp hte' with rfl | hte'
      · exact hrest.keeps _ (hfirst.complete path v hP)
      · exact hrest.complete path v ⟨te', hte', hP⟩

lemma Collects.congr {P Q : RelPath → UInt32 × ObjectId → Prop} (h : Collects P out out')
    (hPQ : ∀ path v, P path v ↔ Q path v) : Collects Q out out' :=
  ⟨fun path v hget => (h.sound path v hget).imp_right (hPQ path v).mp, h.keeps,
    fun path v hQ => h.complete path v ((hPQ path v).mpr hQ)⟩

/-- What an entry of the tree of a directory stands for. -/
def EntryFiles (es : List IndexEntry) (pre : RelPath) (te : TreeEntry) (path : RelPath)
    (v : UInt32 × ObjectId) : Prop :=
  ∃ name, te.name = Utf8.encode name ∧
    if te.mode = modeDir then FilesAt (inside name es) (pre ++ [name]) path v
    else path = pre ++ [name] ∧ v = (te.mode, te.hash)

lemma entryFiles_fileEntry {file : Str × UInt32 × ObjectId} (hmode : file.2.1 ≠ modeDir)
    {path : RelPath} {v : UInt32 × ObjectId} :
    EntryFiles es pre (fileEntry file) path v ↔ path = pre ++ [file.1] ∧ v = file.2 := by
  constructor
  · rintro ⟨name, hname, h⟩
    obtain rfl := encode_injective hname
    rw [if_neg (show (fileEntry file).mode ≠ modeDir from hmode)] at h
    exact h
  · intro h
    refine ⟨file.1, rfl, ?_⟩
    rw [if_neg (show (fileEntry file).mode ≠ modeDir from hmode)]
    exact h

lemma entryFiles_dirEntry {dir : Str × ObjectId} {path : RelPath} {v : UInt32 × ObjectId} :
    EntryFiles es pre (dirEntry dir) path v ↔
      FilesAt (inside dir.1 es) (pre ++ [dir.1]) path v := by
  constructor
  · rintro ⟨name, hname, h⟩
    obtain rfl := encode_injective hname
    exact h
  · exact fun h => ⟨dir.1, rfl, h⟩

/-- The files of a directory are those of the entries of its tree. -/
lemma exists_entryFiles_iff {dirs : List (Str × ObjectId)} (hclean : Clean es)
    (hdirs : ∀ c, c ∈ dirs.map Prod.fst ↔ inside c es ≠ []) {path : RelPath}
    {v : UInt32 × ObjectId} :
    (∃ te ∈ Tree.sorted (treeEntries es dirs), EntryFiles es pre te path v) ↔
      FilesAt es pre path v := by
  simp only [Tree.mem_sorted]
  constructor
  · rintro ⟨te, hte, hfiles⟩
    rcases mem_append.mp hte with hte | hte
    · obtain ⟨file, hfile, rfl⟩ := mem_map.mp hte
      obtain ⟨rfl, rfl⟩ := (entryFiles_fileEntry (mode_ne_of_mem_leaf hclean hfile)).mp hfiles
      obtain ⟨e, he, hleaf⟩ := mem_filterMap.mp hfile
      obtain ⟨hpath, hmode, hhash⟩ := leaf_eq_some.mp hleaf
      exact ⟨e, he, by rw [hpath], by rw [hmode, hhash]⟩
    · obtain ⟨dir, -, rfl⟩ := mem_map.mp hte
      obtain ⟨e', he', rfl, rfl⟩ := entryFiles_dirEntry.mp hfiles
      obtain ⟨e, he, henter⟩ := mem_inside.mp he'
      obtain ⟨hpath, -, hmode, hhash, -⟩ := enter_eq_some.mp henter
      exact ⟨e, he, by rw [hpath, append_assoc, singleton_append], by rw [hmode, hhash]⟩
  · rintro ⟨e, he, rfl, rfl⟩
    obtain ⟨c, rest, hpath⟩ := exists_cons_of_ne_nil (hclean.nonempty e he)
    by_cases hrest : rest = []
    · have hleaf : (c, e.mode, e.hash) ∈ es.filterMap (·.leaf) :=
        mem_filterMap.mpr ⟨e, he, leaf_eq_some.mpr ⟨hrest ▸ hpath, rfl, rfl⟩⟩
      refine ⟨_, mem_append_left _ (mem_map_of_mem hleaf), ?_⟩
      refine (entryFiles_fileEntry (mode_ne_of_mem_leaf hclean hleaf)).mpr ⟨?_, rfl⟩
      rw [hpath, hrest]
    · have hmem := mem_inside_of_cons he hpath hrest
      obtain ⟨dir, hdir, rfl⟩ := mem_map.mp ((hdirs c).mpr (ne_nil_of_mem hmem))
      refine ⟨_, mem_append_right _ (mem_map_of_mem hdir), ?_⟩
      refine entryFiles_dirEntry.mpr ⟨_, hmem, ?_, rfl⟩
      rw [hpath, append_assoc, singleton_append]

/-- If the entries are ready, the walk succeeds and collects their files. -/
lemma exists_walkTree (hclean : Clean es) (htrees : HasTrees t n id es) (hready : TreeReady es)
    (hdepth : n ≤ depth) : ∃ out', (walkTree t depth id pre).run out = some (.ok (), out') ∧
      Collects (FilesAt es pre) out out' := by
  induction n generalizing depth id es pre out with
  | zero => cases htrees
  | succ n ih =>
    obtain ⟨dirs, hget, hnodup, hdirs, hsub⟩ := htrees
    obtain ⟨depth, rfl⟩ : ∃ k, depth = k + 1 := ⟨depth - 1, by omega⟩
    obtain ⟨hdir, hinside⟩ := (treeReady_iff hclean.nonempty).mp hready
    have hstep : ∀ te ∈ Tree.sorted (treeEntries es dirs), ∀ out, ∃ out',
        (walkEntry (walkTree t depth) pre te).run out = some (.ok (), out') ∧
          Collects (EntryFiles es pre te) out out' := by
      intro te hte out
      rcases mem_append.mp (Tree.mem_sorted.mp hte) with hte | hte
      · obtain ⟨file, hfile, rfl⟩ := mem_map.mp hte
        have hmode := mode_ne_of_mem_leaf hclean hfile
        exact ⟨_, run_walkEntry_fileEntry hmode,
          (collects_insert _ _).congr fun path v => (entryFiles_fileEntry hmode).symm⟩
      · obtain ⟨dir, hdir, rfl⟩ := mem_map.mp hte
        rw [walkEntry_dirEntry]
        obtain ⟨out', hwalk, hfiles⟩ :=
          ih (hclean.inside _) (hsub dir hdir) (hinside _) (Nat.le_of_succ_le_succ hdepth)
        exact ⟨out', hwalk, hfiles.congr fun path v => entryFiles_dirEntry.symm⟩
    obtain ⟨out', hloop, hfiles⟩ := exists_collects_forM hstep out
    exact ⟨out', (walkTree_eq_ok hclean hget hnodup hdirs).mpr ⟨hdir, hloop⟩,
      hfiles.congr fun path v => exists_entryFiles_iff hclean hdirs⟩

def FlattensTo (s : Store) (id : ObjectId) (idx : Index) : Prop :=
  ∃ files, flattenTree s id = some (.ok files) ∧
    ∀ path v, files[path]? = some v ↔ ∃ e ∈ idx.entries, path = e.path ∧ v = (e.mode, e.hash)

/-- What the walk from the root collects is in the index, and conversely. -/
lemma getElem?_of_collects (hclean : Clean es) (h : Collects (FilesAt es []) ∅ out)
    (path : RelPath) (v : UInt32 × ObjectId) :
    out[path]? = some v ↔ ∃ e ∈ es, path = e.path ∧ v = (e.mode, e.hash) := by
  have hsound : ∀ v, out[path]? = some v → ∃ e ∈ es, path = e.path ∧ v = (e.mode, e.hash) := by
    intro v hget
    rcases h.sound path v hget with hempty | hfile
    · rw [Std.TreeMap.getElem?_emptyc] at hempty
      cases hempty
    · exact hfile
  refine ⟨hsound v, ?_⟩
  rintro ⟨e, he, rfl, rfl⟩
  have hmem : e.path ∈ out := h.complete e.path _ ⟨e, he, rfl, rfl⟩
  obtain ⟨v', hget⟩ := Option.isSome_iff_exists.mp (Std.TreeMap.isSome_getElem?_iff_mem.mpr hmem)
  -- No other entry has this path.
  obtain ⟨e', he', hpath, rfl⟩ := hsound v' hget
  rw [hget, inj_on_of_nodup_map hclean.unique he he' hpath]

/-- The trees that are written for an index flatten to it exactly if the entries are ready. -/
lemma flattensTo_build_iff {hashBytes : Hash} {s : Store} {idx : Index}
    (hclean : Clean idx.entries)
    (hfree : (buildTreeFromIndex hashBytes s idx).1.CollisionFree) :
    FlattensTo (buildTreeFromIndex hashBytes s idx).1 (buildTreeFromIndex hashBytes s idx).2 idx ↔
      TreeReady idx.entries := by
  obtain ⟨n, hlen, htrees⟩ :=
    hasTrees_writeDir hfree (build idx.entries) s idx.entries rfl (Subset.refl _)
  constructor
  · rintro ⟨files, hflat, -⟩
    obtain ⟨⟨r, out'⟩, hwalk, hmap⟩ := Option.map_eq_some_iff.mp hflat
    cases r with
    | error e => cases hmap
    | ok u => exact treeReady_of_walkTree hclean htrees hwalk
  · intro hready
    have hdepth : n ≤ (buildTreeFromIndex hashBytes s idx).1.entries.length + 1 := by
      have hlen' : s.entries.length + n ≤
        (buildTreeFromIndex hashBytes s idx).1.entries.length := hlen
      omega
    obtain ⟨out', hwalk, hfiles⟩ := exists_walkTree hclean htrees hready hdepth
    refine ⟨out', ?_, getElem?_of_collects hclean hfiles⟩
    rw [flattenTree]
    exact congrArg _ hwalk

end Walk

/-! ## The index after staging -/

section Staging

variable {W : Type} {hashBytes : Hash} {os : WorkOs W} {repo repo₁ : Repo W}
  {idx : Index}

lemma clean_of_read {fs : RefFiles} (hkept : IndexKept fs)
    (hread : Index.read fs indexPath = .ok idx) : Clean idx.entries := by
  have hvalid := Index.validPath_of_read hread
  obtain ⟨hunique, hfiles⟩ := hkept idx hread
  refine ⟨fun e he => hfiles _ (mem_map_of_mem he), fun e he => (hvalid e he).1,
    fun e he comp hcomp hzero => ?_, ?_⟩
  · exact ((hvalid e he).2 comp hcomp).no_nul (ofNat_mem_of_mem_encode hzero (by decide))
  · rw [map_map] at hunique
    have hkeys : map (StagedEntry.key ∘ StagedEntry.ofStored) idx.entries =
        (idx.entries.map (·.path)).map pathStorageBytes := by
      rw [map_map]
      refine map_congr_left fun e _ => ?_
      simp only [Function.comp_apply, StagedEntry.key, StagedEntry.ofStored, OsPath.toText_ofText]
    rw [hkeys] at hunique
    exact hunique.of_map

/-- After any sequence of successful commands in a new repository, the tree that is written for the
index flattens to the index exactly if its entries are ready. -/
theorem tree_reads_as_index_iff {events : List (StageEvent W)}
    (hnew : repo.files.get? indexPath = none)
    (hrun : Machine.run (stageStep hashBytes os) repo events = some repo₁)
    (hread : Index.read repo₁.files indexPath = .ok idx)
    (hfree : (buildTreeFromIndex hashBytes repo₁.objects idx).1.CollisionFree) :
    FlattensTo (buildTreeFromIndex hashBytes repo₁.objects idx).1
      (buildTreeFromIndex hashBytes repo₁.objects idx).2 idx ↔ TreeReady idx.entries :=
  flattensTo_build_iff (clean_of_read (indexKept_of_run hnew hrun) hread) hfree

end Staging

/-- The calls on a working tree that has a file `a`, or a directory `a` with a file `b`. -/
def sampleSwapOs : WorkOs Bool :=
  { metadataOs fun path (isDir : Bool) =>
      .ok ⟨if isDir ∧ path.length = 1 then .dir else .file, 0o644, 0, some 0, 0⟩ with
    readDir := fun dir isDir =>
      if dir = [] then .ok [.ok (Utf8.encode "a")]
      else if isDir then .ok [.ok (Utf8.encode "b")] else .error .notADirectory }

/-- Staging all files of a working tree. -/
def sampleStage (isDir : Bool) : StageEvent Bool := ⟨isDir, .add 3 ["."]⟩

/-- In a new repository, the file is staged and then the directory. -/
def sampleRun : Option (Repo Bool) :=
  Machine.run (stageStep sampleHash sampleSwapOs) ⟨⟨[]⟩, ⟨[], []⟩, false⟩
    [sampleStage false, sampleStage true]

/-- The repository after the run. -/
def sampleStaged : Repo Bool := sampleRun.get (by decide +kernel)

def sampleIndex : Index := (Index.read sampleStaged.files indexPath).toOption.getD .new

/-- The trees of the index that was staged, and the root tree. -/
def sampleTrees : Store × ObjectId :=
  buildTreeFromIndex sampleHash sampleStaged.objects sampleIndex

/-- The repository in which a file in a directory and one beside it are staged. -/
def sampleNested : Repo (List Bytes) :=
  (Machine.run (stageStep sampleHash sampleArgOs) (sampleWork []) [⟨[], sampleArgs⟩]).get
    (by decide +kernel)

/-- The index of these files. -/
def sampleNestedIndex : Index :=
  ⟨[(sampleArgEntry ["a"]).stored, (sampleArgEntry ["d", "b"]).stored]⟩

/-- The trees of these files read back. -/
theorem tree_reads_as_index_iff_nested :
    FlattensTo (buildTreeFromIndex sampleHash sampleNested.objects sampleNestedIndex).1
      (buildTreeFromIndex sampleHash sampleNested.objects sampleNestedIndex).2
      sampleNestedIndex := by
  have hread : Index.read sampleNested.files indexPath = .ok sampleNestedIndex := by decide +kernel
  have hfree : (buildTreeFromIndex sampleHash sampleNested.objects
      sampleNestedIndex).1.CollisionFree := by
    unfold Store.CollisionFree
    decide +kernel
  refine (tree_reads_as_index_iff rfl (Option.some_get _).symm hread hfree).mpr
    ⟨by decide +kernel, by decide +kernel, fun dir => ?_⟩
  calc (namesIn sampleNestedIndex.entries dir).length
    _ ≤ (sampleNestedIndex.entries.filterMap fun e =>
        (stripPrefix dir e.path).bind head?).length := (dedup_sublist _).length_le
    _ ≤ 2 := length_filterMap_le _ _
    _ ≤ maxTreeEntries := by decide

/-- After a staged file was replaced by a directory that is staged, the tree of the index is written
and cannot be read. -/
theorem directory_over_file_breaks_tree :
    sampleRun = some sampleStaged ∧ Index.read sampleStaged.files indexPath = .ok sampleIndex ∧
    sampleIndex.entries.map (·.path) = [["a".toList], ["a".toList, "b".toList]] ∧
    ∃ r ∈ flattenTree sampleTrees.1 sampleTrees.2, r.toOption.isNone := by
  refine ⟨(Option.some_get _).symm, ?_⟩
  decide +kernel

end Gyt
