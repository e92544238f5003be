import Gyt.Cmd.Commit

/-!
# Reading commits back

Every commit that the command `commit` writes has its texts from the command line, which were
checked for control bytes, from the identity of the user, which was not, and from the base64 form of
a signature.  `run_decodes_iff` says that it can be read exactly if the identity has no line break.
-/

namespace Gyt.CommitCmd

open List Command Text

variable {W : Type} {hashBytes : Hash} {env : Config.Environment} {secs : ℕ}
  {sign : Bytes → Result Bytes} {repo repo' : Repo W} {opts opts' : Options} {value : Str}
  {identity stamp message : Str} {tree id : ObjectId} {parents : List ObjectId} {c c' : Commit}

/-! ## Texts -/

/-- A text without line ends and carriage returns. -/
def OneLine (s : Str) : Prop := '\n' ∉ s ∧ '\r' ∉ s

lemma oneLine_of_rejectControlBytes {flag : ValueFlag}
    (h : rejectControlBytes flag value = .ok ()) : OneLine value := by
  unfold rejectControlBytes at h
  split at h
  · cases h
  · next hnone =>
    rw [find?_eq_none] at hnone
    -- A line end in the text is the same byte in its encoding.
    have hbyte : ∀ c : Char, ∀ b, String.utf8EncodeChar c = [b] → isControlByte b = true →
        c ∉ value := by
      intro c b hb hcontrol hmem
      refine hnone b (mem_flatMap.mpr ⟨c, hmem, ?_⟩) hcontrol
      rw [hb]
      exact mem_singleton.mpr rfl
    exact ⟨hbyte '\n' 0x0a (by decide) (by decide), hbyte '\r' 0x0d (by decide) (by decide)⟩

/-- The texts from the command line that go into lines of their own. -/
def Options.texts (opts : Options) : List Str := opts.coAuthors ++ opts.aiAssists ++ opts.reviewers

lemma oneLine_of_add {flag : ValueFlag} (hopts : ∀ s ∈ opts.texts, OneLine s)
    (h : opts.add value flag = .ok opts') : ∀ s ∈ opts'.texts, OneLine s := by
  have htext : ∀ s ∈ opts'.texts, s ∈ opts.texts ∨ OneLine s := by
    cases flag with
    | message =>
      cases h
      exact fun s hs => .inl hs
    | ai | coAuthor | reviewer =>
      obtain ⟨hcheck, h⟩ := check_bind_eq_ok.mp h
      cases h
      have hvalue := oneLine_of_rejectControlBytes hcheck
      intro s hs
      simp only [Options.texts, mem_append, mem_singleton] at hs ⊢
      by_cases hs' : s = value
      · exact .inr (hs' ▸ hvalue)
      · simp only [hs', or_false] at hs
        exact .inl hs
  intro s hs
  rcases htext s hs with hold | hline
  · exact hopts s hold
  · exact hline

/-- The texts from the command line are lines. -/
lemma oneLine_of_parseArgs {args : List Str} (hopts : ∀ s ∈ opts.texts, OneLine s)
    (h : parseArgs args opts = .ok (some opts')) : ∀ s ∈ opts'.texts, OneLine s := by
  fun_induction parseArgs args opts with
  | case1 =>
    cases h
    exact hopts
  | case2 => cases h
  | case3 _ _ _ ih | case4 _ _ _ _ ih | case5 _ _ _ _ _ _ _ ih => exact ih hopts h
  | case6 => cases h
  | case7 => cases h
  | case8 a opts _ _ _ _ flag hflag value rest ih =>
    obtain ⟨opts₁, hadd, h⟩ := bind_eq_ok.mp h
    exact ih opts₁ (oneLine_of_add hopts hadd) h

/-! ## The stamp -/

lemma stamped_oneLine (identity : Str) (secs : ℕ) : (stamped identity secs).getLast? = some '0' ∧
      ('\n' ∈ stamped identity secs ↔ '\n' ∈ identity) := by
  constructor
  · rw [stamped, getLast?_append_of_ne_nil _ (by decide)]
    rfl
  · have hdigits : '\n' ∉ ofNat secs := by
      intro hmem
      have hdigit := Nat.isDigit_of_mem_toDigits (by decide) (by decide) hmem
      revert hdigit
      decide
    simp [stamped, hdigits]

lemma newline_mem_identity {cfg : Config} {name email : Str} (hname : cfg.userName = some name)
    (hemail : cfg.userEmail = some email) (h : cfg.identity = .ok identity) :
    '\n' ∈ identity ↔ '\n' ∈ name ∨ '\n' ∈ email := by
  simp only [Config.identity, hname, hemail, okOr_some, ok_bind] at h
  cases h
  simp

/-! ## The commit -/

/-- The commit with or without a signature. -/
def signed (sig : Option Bytes) (c : Commit) : Commit :=
  { c with signature := sig.map Signing.base64Encode }

lemma signCommit_eq_ok (h : signCommit sign opts (newCommit opts stamp tree parents message) =
    .ok c) : ∃ sig, c = signed sig (newCommit opts stamp tree parents message) := by
  unfold signCommit at h
  split_ifs at h
  · obtain ⟨sig, -, h⟩ := bind_eq_ok.mp h
    cases h
    exact ⟨some sig, rfl⟩
  · cases h
    exact ⟨none, rfl⟩

lemma oneLine_base64Encode (sig : Bytes) : OneLine (Signing.base64Encode sig) :=
  ⟨fun h => (Signing.ne_of_mem_base64Encode h).1 rfl,
    fun h => (Signing.ne_of_mem_base64Encode h).2 rfl⟩

lemma oneLine_of_mem_texts (hopts : ∀ s ∈ opts.texts, OneLine s) {sig : Option Bytes} {text : Str}
    (htext : text ∈ (signed sig (newCommit opts stamp tree parents message)).texts) :
    text = stamp ∨ OneLine text := by
  simp only [signed, newCommit, Commit.texts, mem_append, mem_cons, Option.mem_toList,
    Option.map_eq_some_iff] at htext
  simp only [Options.texts, mem_append] at hopts
  rcases htext with (rfl | hco) | rfl | (hai | hreviewer) | ⟨bytes, -, rfl⟩
  · exact .inl rfl
  · exact .inr (hopts text (.inl (.inl hco)))
  · exact .inl rfl
  · exact .inr (hopts text (.inl (.inr hai)))
  · exact .inr (hopts text (.inr hreviewer))
  · exact .inr (oneLine_base64Encode bytes)

/-- A commit with checked texts can be read exactly if its stamp is a line. -/
lemma decode_encode_signed (hopts : ∀ s ∈ opts.texts, OneLine s)
    (hstamp : stamp.getLast? ≠ some '\r') {sig : Option Bytes}
    (hc : c = signed sig (newCommit opts stamp tree parents message)) :
    Commit.decode c.encode = .ok c ↔ '\n' ∉ stamp := by
  have htexts : ∀ text ∈ c.texts, text = stamp ∨ OneLine text := by
    intro text htext
    rw [hc] at htext
    exact oneLine_of_mem_texts hopts htext
  have hmem : stamp ∈ c.texts := by
    rw [hc]
    exact mem_append_left _ mem_cons_self
  have hauthors : c.authors ≠ [] := by
    rw [hc]
    exact cons_ne_nil _ _
  have hcr : ∀ text ∈ c.texts, text.getLast? ≠ some '\r' := by
    intro text htext hlast
    rcases htexts text htext with rfl | hline
    · exact hstamp hlast
    · exact hline.2 (mem_of_getLast? hlast)
  rw [Commit.decode_eq_ok_iff, eq_self, true_and, Commit.wellFormed_iff_texts hauthors hcr]
  constructor
  · exact fun h => h stamp hmem
  · intro h text htext
    rcases htexts text htext with rfl | hline
    · exact h
    · exact hline.1

/-! ## The command -/

lemma advance_eq_ok {head : Head} {u : Unit}
    (h : (advance head id).run repo = some (.ok u, repo')) : repo'.objects = repo.objects := by
  cases head with
  | symbolic name =>
    obtain ⟨-, rfl⟩ := writeRef_eq_ok h
    rfl
  | detached old => rw [atomicWrite_eq_ok h]

lemma sameFiles_resolveTree : Within SameFiles (resolveTree : Cmd W ObjectId) :=
  (within_readFiles _).bind fun _ => within_walkObjects _

lemma sameFiles_checkChanged (opts : Options) (index : Index) :
    Within SameFiles (checkChanged opts index : Cmd W Unit) := by
  unfold checkChanged headTreeEmpty
  split
  · refine Within.bind (sameFiles_resolveTree.attempt.bind fun r => ?_) fun empty => ?_
    · rcases r with e | id
      · exact within_pure _
      · exact within_gets _
    · split
      · exact within_fail _
      · exact within_pure _
  · exact within_pure _

lemma sameFiles_buildTree (opts : Options) (index : Index) :
    Within SameFiles (buildTree hashBytes opts index : Cmd W ObjectId) := by
  unfold buildTree
  split
  · refine sameFiles_resolveTree.attempt.bind fun r => ?_
    rcases r with e | id
    · exact sameFiles_writeObjects _
    · exact within_pure _
  · exact sameFiles_writeObjects _

/-- A new commit follows the one that `HEAD` denotes, unless it takes the place of that one. -/
lemma parentsAndMessage_eq_ok {parent : Option ObjectId}
    (h : (parentsAndMessage opts parent).run repo = some (.ok (parents, message), repo'))
    (hamend : opts.amend = false) : parents = parent.toList := by
  unfold parentsAndMessage at h
  rw [hamend, if_neg Bool.false_ne_true] at h
  obtain ⟨message', _, -, h⟩ := seq_eq_ok.mp h
  cases h
  rfl

/-- What a commit writes. -/
lemma commit_eq_ok
    (h : (commit hashBytes env secs sign opts).run repo = some (.ok (.committed id), repo')) :
    ∃ cfg identity head parent tree parents message sig, Config.load env repo.files = .ok cfg ∧
      cfg.identity = .ok identity ∧ readHead repo.files = .ok head ∧
      resolve repo.files head = .ok parent ∧ (opts.amend = false → parents = parent.toList) ∧
      (id, ⟨.commit, (signed sig (newCommit opts (stamped identity secs) tree parents
        message)).encode⟩) ∈ repo'.objects.entries := by
  unfold commit at h
  obtain ⟨cfg, hcfg, h₁⟩ := readFiles_bind_eq_ok.mp h
  obtain ⟨identity, hidentity, h₂⟩ := lift_bind_eq_ok.mp h₁
  obtain ⟨index, -, h₃⟩ := readFiles_bind_eq_ok.mp h₂
  obtain ⟨_, repo₂, hchanged, h₄⟩ := seq_eq_ok.mp h₃
  obtain ⟨tree, repo₃, htree, h₅⟩ := seq_eq_ok.mp h₄
  -- Up to here only objects were written.
  have hfiles : repo₃.files = repo.files :=
    Eq.trans (sameFiles_buildTree opts index _ _ _ htree)
      (sameFiles_checkChanged opts index _ _ _ hchanged)
  obtain ⟨head, hhead, h₆⟩ := readFiles_bind_eq_ok.mp h₅
  obtain ⟨parent, hparent, h₇⟩ := readFiles_bind_eq_ok.mp h₆
  obtain ⟨⟨parents, message⟩, _, hparents, h₈⟩ := seq_eq_ok.mp h₇
  obtain ⟨-, _, -, h₉⟩ := seq_eq_ok.mp h₈
  obtain ⟨c, hsign, h₁₀⟩ := lift_bind_eq_ok.mp h₉
  obtain ⟨sig, rfl⟩ := signCommit_eq_ok hsign
  obtain ⟨id', _, hwrite, h₁₁⟩ := seq_eq_ok.mp h₁₀
  obtain ⟨_, _, hadvance, hend⟩ := seq_eq_ok.mp h₁₁
  cases hend
  rw [hfiles] at hhead hparent
  refine ⟨cfg, identity, head, parent, tree, parents, message, sig, hcfg, hidentity, hhead, hparent,
    parentsAndMessage_eq_ok hparents, ?_⟩
  rw [advance_eq_ok hadvance]
  cases hwrite
  exact Store.mem_entries_writeBytes _ _ _ _

/-- The commit that a successful command wrote can be read back exactly if the name and the address
of the user have no line break. -/
theorem run_decodes_iff {cfg : Config} {name email : Str} {args : List Str}
    (hcfg : Config.load env repo.files = .ok cfg) (hname : cfg.userName = some name)
    (hemail : cfg.userEmail = some email)
    (hrun : (run hashBytes env secs sign args).run repo = some (.ok (.committed id), repo'))
    (hfree : repo'.objects.CollisionFree) :
    ∃ opts identity tree parents message sig c, parseArgs args .init = .ok (some opts) ∧
      cfg.identity = .ok identity ∧
      c = signed sig (newCommit opts (stamped identity secs) tree parents message) ∧
      repo'.objects.read id = .ok ⟨.commit, c.encode⟩ ∧
      (Commit.decode c.encode = .ok c ↔ '\n' ∉ name ∧ '\n' ∉ email) := by
  unfold run at hrun
  obtain ⟨parsed, hparse, h⟩ := lift_bind_eq_ok.mp hrun
  cases parsed with
  | none => cases h
  | some opts =>
    obtain ⟨cfg', identity, -, -, tree, parents, message, sig, hcfg', hidentity, -, -, -, hmem⟩ :=
      commit_eq_ok h
    cases hcfg.symm.trans hcfg'
    obtain ⟨hlast, hnewline⟩ := stamped_oneLine identity secs
    refine ⟨opts, identity, tree, parents, message, sig, _, hparse, hidentity, rfl,
      Store.read_eq_ok.mpr (Store.get?_of_mem_entries hfree hmem), ?_⟩
    have hopts : ∀ s ∈ opts.texts, OneLine s :=
      oneLine_of_parseArgs (by simp [Options.init, Options.texts]) hparse
    rw [decode_encode_signed hopts (by simp [hlast]) rfl, hnewline,
      newline_mem_identity hname hemail hidentity, not_or]

/-- A repository without commits. -/
def sampleRepo : Repo Unit where
  objects := ⟨[]⟩
  files := ⟨[(headPath, headContent (.symbolic "refs/heads/main"))], []⟩
  workdir := ()

/-- An environment that gives the user this name. -/
def sampleEnv (name : Str) : Config.Environment := ⟨none, some name, some "u@h"⟩

/-- An empty first commit by a user with this name. -/
def sampleCommit (name : Str) : Cmd Unit Outcome :=
  run sampleHash (sampleEnv name) 0 (fun _ => .ok []) (["-m", "m", "--allow-empty"].map (·.toList))

/-- The identifier of the first commit. -/
def sampleId (name : Str) : ObjectId :=
  match (sampleCommit name).run sampleRepo with
  | some (.ok (.committed id), _) => id
  | _ => .zero

/-- The commit of a user with an ordinary name can be read. -/
theorem run_decodes_iff_plain :
    ∃ c, ((sampleCommit "u").after sampleRepo).objects.read (sampleId "u") =
      .ok ⟨.commit, c.encode⟩ ∧ Commit.decode c.encode = .ok c := by
  have hrun : (run sampleHash (sampleEnv "u") 0 (fun _ => .ok [])
      (["-m", "m", "--allow-empty"].map (·.toList))).run sampleRepo =
        some (.ok (.committed (sampleId "u")), (sampleCommit "u").after sampleRepo) :=
    run_eq_after (by decide +kernel)
  have hfree : ((sampleCommit "u").after sampleRepo).objects.CollisionFree := by
    unfold Store.CollisionFree
    decide +kernel
  obtain ⟨opts, identity, tree, parents, message, sig, c, -, -, -, hread, hdecode⟩ :=
    run_decodes_iff rfl rfl rfl hrun hfree
  exact ⟨c, hread, hdecode.mpr (by decide)⟩

/-- The commit of a user with a line break in the name is stored and cannot be read. -/
theorem line_break_in_name_breaks_commit :
    ((sampleCommit "u\nv").run sampleRepo).map (·.1.toOption) =
        some (some (.committed (sampleId "u\nv"))) ∧
      ∃ o ∈ ((sampleCommit "u\nv").after sampleRepo).objects.get? (sampleId "u\nv"),
        o.kind = .commit ∧ (Commit.decode o.payload).toOption = none := by decide +kernel

end Gyt.CommitCmd
