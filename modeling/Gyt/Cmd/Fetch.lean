import Gyt.Repo
import Gyt.ConfigFile
import Gyt.Net.Protocol

/-!
# Fetching

The command `gyt fetch`, `cmd/fetch.rs`: it reads the references that a server advertises, transfers
their objects, sets the references that track them, and removes, if asked to, those that track
nothing any more.

The branch `b` of the remote `r` is tracked by `refs/remotes/r/b` and its tag `t` by
`refs/remotes/r/tags/t`.  The branch `tags/t` and the tag `t` are thus tracked by one reference, and
`fetch_mirrors_iff` says that this is all that can go wrong.

The connection to the server and the transfer of objects, `walk_and_fetch`, are parameters.
-/

namespace Gyt

open Command Text List RefFiles Option

variable {W : Type}

/-! ## The server -/

/-- A server as its clients see it. -/
structure Remote where
  /-- The status, the reason and the body of the response to `GET info/refs`. -/
  infoRefs : Result (ℕ × Str × Bytes)
  /-- The transfer of the objects that some references need, with the number of new objects. -/
  walkAndFetch : List RefEntry → Store → Result ℕ × Store

def openClient (connect : Str → Result Remote) (url : Str) (insecure : Bool) : Result Remote := do
  ensure (¬("http://".toList.isPrefixOf url ∧ insecure = false))
    (.net ["clone: plain http requires --insecure"])
  connect url

/-- The references that a server advertises. -/
def fetchInfoRefs (client : Remote) : Result (List RefEntry) := do
  let (status, reason, body) ← client.infoRefs
  ensure (status = 200)
    (.net ["GET /info/refs: status ", .num status, " ", .str reason])
  parseInfoRefs body

/-! ## The command -/

/-- The directory of the references that track a remote. -/
def remoteDir (remote : Str) : Str := "refs/remotes/" ++ remote

/-- The local reference for a reference of the server. -/
def mappedRef (remote name : Str) : Option Str :=
  match stripPrefix "refs/heads/" name with
  | some rest => some (remoteDir remote ++ '/' :: rest)
  | none =>
    match stripPrefix "refs/tags/" name with
    | some rest => some (remoteDir remote ++ '/' :: ("tags/" ++ rest))
    | none =>
      if "refs/issues/".toList.isPrefixOf name || "refs/prs/".toList.isPrefixOf name ||
          "refs/incidents/".toList.isPrefixOf name then some name
      else none

/-- The number of references that were set, and the local references for all advertised ones. -/
structure Mirrored where
  updated : ℕ
  advertisedLocal : List Str
  deriving DecidableEq, Repr

/-- Setting the local reference for an advertised one. -/
def mirrorRef (remote : Str) (st : Mirrored) (r : RefEntry) : Cmd W Mirrored :=
  match mappedRef remote r.name with
  | none => return st
  | some name => do
    let prior ← gets fun repo => refValue repo.files name
    if prior = some r.id then
      return { st with advertisedLocal := st.advertisedLocal ++ [name] }
    else do
      writeRef name r.id
      return ⟨st.updated + 1, st.advertisedLocal ++ [name]⟩

/-- The name of the branch or tag that a local reference tracks. -/
def shortName (remote name : Str) : Str :=
  let short := (stripPrefix (remoteDir remote ++ ['/']) name).getD name
  (stripPrefix "tags/" short).getD short

/-- Deleting a local reference that was not advertised.  With a reference specification only those
that match it are considered. -/
def pruneRef (remote : Str) (refspec : Option Str) (advertisedLocal : List Str) (pruned : ℕ)
    (r : Str × ObjectId) : Cmd W ℕ :=
  if refspec.any (shortName remote r.1 ≠ ·) then return pruned
  else if advertisedLocal.contains r.1 then return pruned
  else do
    deleteRef r.1
    return pruned + 1

/-- Deleting the local references that were not advertised.  If they cannot be listed, nothing is
deleted. -/
def pruneRefs (remote : Str) (refspec : Option Str) (advertisedLocal : List Str) : Cmd W ℕ := do
  let listed ← gets fun repo => listRefs repo.files (remoteDir remote)
  match listed with
  | .error _ => return 0
  | .ok refs => refs.foldlM (pruneRef remote refspec advertisedLocal) 0

structure FetchSummary where
  newObjects : ℕ
  updatedRefs : ℕ
  prunedRefs : ℕ
  deriving DecidableEq, Repr

def remoteUrl (env : Config.Environment) (remote : Str) (fs : RefFiles) : Result Str := do
  let cfg ← Config.load env fs
  okOr (cfg.remotes.get? remote)
    (.invalidArgument ["fetch: unknown remote ", .debug remote])

/-- The server of a remote and the references that it advertises. -/
def advertisedRefs (env : Config.Environment) (connect : Str → Result Remote) (remote : Str)
    (insecure : Bool) (fs : RefFiles) : Result (Remote × List RefEntry) := do
  let url ← remoteUrl env remote fs
  let client ← openClient connect url insecure
  let refs ← fetchInfoRefs client
  return (client, refs)

/-- Whether a reference of the server has the given short name. -/
def matchesRefspec (name : Str) (r : RefEntry) : Bool :=
  ((stripPrefix "refs/heads/" r.name).or (stripPrefix "refs/tags/" r.name)) =
    some name

/-- Fetching from a remote, under the lock on the repository. -/
def fetchWithRefspecInner (env : Config.Environment) (connect : Str → Result Remote)
    (remote : Str) (refspec : Option Str) (insecure prune : Bool) : Cmd W FetchSummary := do
  let (client, all) ← readFiles (advertisedRefs env connect remote insecure)
  let serverRefs := refspec.elim all fun name => all.filter (matchesRefspec name)
  lift (ensure (refspec = none ∨ serverRefs ≠ []) (.repo ["fetch: refspec ",
    .debug (refspec.getD []), " did not match any ref on ", .str remote]))
  let newObjects ← act fun repo =>
    ((client.walkAndFetch serverRefs repo.objects).1,
      { repo with objects := (client.walkAndFetch serverRefs repo.objects).2 })
  let st ← serverRefs.foldlM (mirrorRef remote) ⟨0, []⟩
  let pruned ← if prune then pruneRefs remote refspec st.advertisedLocal else pure 0
  return ⟨newObjects, st.updated, pruned⟩

/-! ## What a fetch sets -/

section Mirror

variable {remote name : Str} {st st' : Mirrored} {r : RefEntry} {refs : List RefEntry}
  {repo repo' : Repo W}

/-- The value that an advertised reference gives to a local one. -/
def trackedValue (remote name : Str) (r : RefEntry) : Option ObjectId :=
  if mappedRef remote r.name = some name then some r.id else none

/-- One advertised reference sets the local one for it. -/
lemma mirrorRef_eq_ok (h : (mirrorRef remote st r).run repo = some (.ok st', repo')) :
    st'.advertisedLocal = st.advertisedLocal ++ (mappedRef remote r.name).toList ∧
      ∀ name, refValue repo'.files name =
        (trackedValue remote name r).or (refValue repo.files name) := by
  unfold mirrorRef at h
  unfold trackedValue
  cases hmapped : mappedRef remote r.name with
  | none =>
    rw [hmapped] at h
    cases h
    simp
  | some path =>
    rw [hmapped] at h
    rw [run_gets_bind] at h
    split_ifs at h with heq
    · cases h
      refine ⟨rfl, fun name => ?_⟩
      by_cases hname : path = name
      · rw [if_pos (congrArg some hname), ← hname, heq]
        rfl
      · rw [if_neg fun hsome => hname (some.inj hsome)]
        rfl
    · obtain ⟨_, repo₂, hwrite, hpure⟩ := seq_eq_ok.mp h
      cases hpure
      obtain ⟨hvalid, rfl⟩ := writeRef_eq_ok hwrite
      refine ⟨rfl, fun name => ?_⟩
      by_cases hname : path = name
      · subst hname
        rw [if_pos rfl, refValue_set_self hvalid]
        rfl
      · rw [if_neg fun hsome => hname (some.inj hsome), refValue_set_of_ne (Ne.symm hname)]
        rfl

/-- After all advertised references a local one has the value of the last one that maps to it. -/
lemma foldlM_mirrorRef_eq_ok
    (h : (refs.foldlM (mirrorRef remote) st).run repo = some (.ok st', repo')) :
    st'.advertisedLocal = st.advertisedLocal ++ refs.filterMap (mappedRef remote ·.name) ∧
      ∀ name, refValue repo'.files name =
        (refs.filterMap (trackedValue remote name)).getLast?.or (refValue repo.files name) := by
  refine foldlM_run_invariant (I := fun done st₁ repo₁ =>
    st₁.advertisedLocal = st.advertisedLocal ++ done.filterMap (mappedRef remote ·.name) ∧
      ∀ name, refValue repo₁.files name =
        (done.filterMap (trackedValue remote name)).getLast?.or (refValue repo.files name))
    ?_ h ⟨(append_nil _).symm, fun _ => rfl⟩
  rintro done r st₁ repo₁ st₂ repo₂ ⟨hlocal, hvalues⟩ hstep
  obtain ⟨hlocal', hvalues'⟩ := mirrorRef_eq_ok hstep
  refine ⟨?_, fun name => ?_⟩
  · rw [hlocal', hlocal, filterMap_append, append_assoc]
    cases hmapped : mappedRef remote r.name <;> simp [hmapped]
  · rw [hvalues', hvalues, filterMap_append]
    cases htracked : trackedValue remote name r <;> simp [htracked]

lemma within_mirrorRef {R : Repo W → Repo W → Prop} [Std.Refl R] [IsTrans (Repo W) R]
    (h : ∀ path, mappedRef remote r.name = some path → Within R (writeRef path r.id : Cmd W Unit))
    (st : Mirrored) : Within R (mirrorRef remote st r : Cmd W Mirrored) := by
  unfold mirrorRef
  split
  · exact within_pure _
  · next path hpath =>
    refine (within_gets _).bind fun prior => ?_
    split_ifs
    · exact within_pure _
    · exact (h path hpath).bind fun _ => within_pure _

end Mirror

/-! ## What a fetch deletes -/

section Prune

variable {remote name : Str} {advertised : List Str} {refs : RefList} {n n' : ℕ}
  {repo repo' : Repo W}

/-- A listed reference that was not advertised is deleted. -/
lemma pruneRef_eq_ok {r : Str × ObjectId}
    (h : (pruneRef remote none advertised n r).run repo = some (.ok n', repo')) :
    refValue repo'.files name =
      if name = r.1 ∧ name ∉ advertised then none else refValue repo.files name := by
  unfold pruneRef at h
  rw [if_neg (by simp)] at h
  split_ifs at h with hmem
  · cases h
    rw [if_neg]
    rintro ⟨rfl, hnotMem⟩
    exact hnotMem (contains_iff_mem.mp hmem)
  · obtain ⟨_, repo₁, hdelete, hpure⟩ := seq_eq_ok.mp h
    cases hpure
    rw [deleteRef_eq_ok hdelete]
    have hnotMem : r.1 ∉ advertised := fun h => hmem (contains_iff_mem.mpr h)
    by_cases hname : name = r.1
    · rw [if_pos ⟨hname, hname ▸ hnotMem⟩, hname, refValue_unlink_self]
    · rw [if_neg fun h => hname h.1, refValue_unlink_of_ne hname]

lemma foldlM_pruneRef_eq_ok
    (h : (refs.foldlM (pruneRef remote none advertised) n).run repo = some (.ok n', repo')) :
    refValue repo'.files name =
      if name ∈ refs.map Prod.fst ∧ name ∉ advertised then none else refValue repo.files name := by
  refine foldlM_run_invariant (I := fun done _ repo₁ => refValue repo₁.files name =
    if name ∈ done.map Prod.fst ∧ name ∉ advertised then none else refValue repo.files name)
    ?_ h (by simp)
  intro done r n₁ repo₁ n₂ repo₂ hvalue hstep
  rw [pruneRef_eq_ok hstep, hvalue]
  by_cases hadvertised : name ∈ advertised
  · simp [hadvertised]
  · by_cases hname : name = r.1
    · simp [hadvertised, ← hname]
    · have hmem : name ∈ (done ++ [r]).map Prod.fst ↔ name ∈ done.map Prod.fst := by simp [hname]
      rw [if_neg fun h => hname h.1]
      simp only [hmem]

lemma within_pruneRefs {R : Repo W → Repo W → Prop} [Std.Refl R] [IsTrans (Repo W) R]
    (h : ∀ name, isBelow name (remoteDir remote) = true →
      Within R (deleteRef name : Cmd W Unit)) (refspec : Option Str) (advertised : List Str) :
    Within R (pruneRefs remote refspec advertised : Cmd W ℕ) := by
  intro repo r repo' hrun
  unfold pruneRefs at hrun
  rw [run_gets_bind] at hrun
  split at hrun
  · cases hrun
    exact Std.Refl.refl repo
  · rename_i refs hrefs
    refine within_foldlM_of_mem (fun pruned ref hmem => ?_) 0 repo r repo' hrun
    unfold pruneRef
    split_ifs
    · exact within_pure _
    · exact within_pure _
    · exact (h _ ((mem_listRefs hrefs).mp hmem).1).bind fun _ => within_pure _

/-- In a tree every reference of the remote that was not advertised is deleted. -/
lemma pruneRefs_eq_ok (htree : repo.files.IsTree)
    (h : (pruneRefs remote none advertised).run repo = some (.ok n, repo')) :
    refValue repo'.files name = if isBelow name (remoteDir remote) ∧ name ∉ advertised then none
      else refValue repo.files name := by
  unfold pruneRefs at h
  obtain ⟨listed, repo₁, hlisted, h⟩ := seq_eq_ok.mp h
  obtain ⟨rfl, rfl⟩ := gets_eq_ok.mp hlisted
  cases hlist : listRefs repo₁.files (remoteDir remote) with
  | ok refs =>
    rw [hlist] at h
    rw [foldlM_pruneRef_eq_ok h]
    by_cases hvalue : refValue repo₁.files name = none
    · simp [hvalue]
    · obtain ⟨id, hid⟩ := ne_none_iff_exists'.mp hvalue
      have hmem : name ∈ refs.map Prod.fst ↔ isBelow name (remoteDir remote) = true := by
        constructor
        · intro hname
          obtain ⟨⟨_, id'⟩, hr, rfl⟩ := mem_map.mp hname
          exact ((mem_listRefs hlist).mp hr).1
        · exact fun hbelow => mem_map_of_mem (f := Prod.fst)
            ((mem_listRefs hlist).mpr ⟨hbelow, hid⟩)
      simp only [hmem]
  | error e =>
    rw [hlist] at h
    cases h
    -- There is nothing to delete if the directory cannot be listed.
    rw [eq_comm, ite_eq_right_iff]
    rintro ⟨hbelow, -⟩
    by_contra hvalue
    obtain ⟨id, hid⟩ := ne_none_iff_exists'.mp (Ne.symm hvalue)
    have hdir : validateRefName (remoteDir remote) = .ok () := by
      obtain ⟨rest, rfl⟩ := isPrefixOf_iff_prefix.mp hbelow
      have hname := validateRefName_of_refValue hid
      rw [append_assoc, singleton_append] at hname
      exact validateRefName_of_append (append_ne_nil_of_left_ne_nil (by decide) _) hname
    cases hfile : repo'.files.get? (remoteDir remote) with
    | none =>
      obtain ⟨out, hout⟩ := exists_listRefs hdir hfile
      rw [hlist] at hout
      cases hout
    | some content =>
      obtain ⟨bytes, hbytes⟩ := isSome_iff_exists.mp (get?_isSome_of_refValue hid)
      rw [htree.isBelow_eq_false hfile (mem_files_of_get? hbytes)] at hbelow
      cases hbelow

end Prune

/-! ## Mirrors -/

/-- The local reference that tracks a branch or a tag of a remote. -/
inductive Tracks (remote : Str) : Str → Str → Prop where
  | head (branch : Str) :
    Tracks remote ("refs/heads/" ++ branch) (remoteDir remote ++ '/' :: branch)
  | tag (tag : Str) :
    Tracks remote ("refs/tags/" ++ tag) (remoteDir remote ++ '/' :: ("tags/" ++ tag))

/-- The references of a remote are those that track the advertised branches and tags. -/
structure Mirrors (remote : Str) (refs : List RefEntry) (fs : RefFiles) : Prop where
  tracked : ∀ r ∈ refs, ∀ name, Tracks remote r.name name → refValue fs name = some r.id
  only : ∀ name id, RefFiles.isBelow name (remoteDir remote) = true →
    refValue fs name = some id → ∃ r ∈ refs, Tracks remote r.name name

section Mirrors

variable {remote name serverName : Str} {refs : List RefEntry} {repo repo' : Repo W}
  {env : Config.Environment} {connect : Str → Result Remote} {insecure : Bool} {client : Remote}
  {summary : FetchSummary}

lemma mappedRef_eq_some_iff (hbelow : isBelow name (remoteDir remote) = true) :
    mappedRef remote serverName = some name ↔ Tracks remote serverName name := by
  unfold mappedRef
  constructor
  · intro h
    split at h
    · next rest hrest =>
      obtain rfl := stripPrefix_eq_some_iff.mp hrest
      cases h
      exact .head rest
    split at h
    · next rest hrest =>
      obtain rfl := stripPrefix_eq_some_iff.mp hrest
      cases h
      exact .tag rest
    -- The other names are not below the directory of the remote.
    split_ifs at h with hmeta
    cases h
    obtain ⟨rest, hrest⟩ := isPrefixOf_iff_prefix.mp hbelow
    have htake : name.take 6 = "refs/r".toList := by
      rw [← hrest]
      rfl
    simp only [Bool.or_eq_true, isPrefixOf_iff_prefix] at hmeta
    rcases hmeta with (⟨rest', rfl⟩ | ⟨rest', rfl⟩) | ⟨rest', rfl⟩ <;> cases htake
  · rintro (⟨branch⟩ | ⟨tag⟩)
    · rw [stripPrefix_append]
    · have hnone : stripPrefix "refs/heads/".toList ("refs/tags/".toList ++ tag) = none :=
        stripPrefix_append_eq_none (by decide) (by decide) tag
      rw [hnone, stripPrefix_append]

lemma Tracks.isBelow (h : Tracks remote serverName name) :
    RefFiles.isBelow name (remoteDir remote) = true := by
  rw [RefFiles.isBelow, isPrefixOf_iff_prefix]
  cases h with
  | head branch => exact ⟨branch, by simp⟩
  | tag tag => exact ⟨"tags/" ++ tag, by simp⟩

lemma nodup_advertisedRefs
    (h : advertisedRefs env connect remote insecure repo.files = .ok (client, refs)) :
    (refs.map (·.name)).Nodup := by
  obtain ⟨url, -, h⟩ := bind_eq_ok.mp h
  obtain ⟨client', -, h⟩ := bind_eq_ok.mp h
  obtain ⟨refs', hrefs, h⟩ := bind_eq_ok.mp h
  cases h
  obtain ⟨⟨status, reason, body⟩, -, hrefs⟩ := bind_eq_ok.mp hrefs
  obtain ⟨-, hparse⟩ := check_bind_eq_ok.mp hrefs
  exact nodup_parseInfoRefs hparse

/-- Advertised references that are tracked by one reference have one value. -/
lemma id_eq_of_tracks (hnodup : (refs.map (·.name)).Nodup)
    (hclash : ∀ r ∈ refs, ∀ r' ∈ refs, ∀ t, r.name = "refs/heads/tags/" ++ t →
      r'.name = "refs/tags/" ++ t → r.id = r'.id)
    {r r' : RefEntry} (hr : r ∈ refs) (hr' : r' ∈ refs) (h : Tracks remote r.name name)
    (h' : Tracks remote r'.name name) : r.id = r'.id := by
  have hsame : r.name = r'.name → r.id = r'.id := fun hname =>
    congrArg RefEntry.id (inj_on_of_nodup_map hnodup hr hr' hname)
  generalize hn : r.name = n at h
  generalize hn' : r'.name = n' at h'
  cases h with
  | head branch =>
    generalize hpath : remoteDir remote ++ '/' :: branch = path at h'
    cases h' with
    | head branch' =>
      cases append_cancel_left hpath
      exact hsame (hn.trans hn'.symm)
    | tag tag =>
      cases append_cancel_left hpath
      exact hclash r hr r' hr' tag hn hn'
  | tag tag =>
    generalize hpath : remoteDir remote ++ '/' :: ("tags/" ++ tag) = path at h'
    cases h' with
    | head branch =>
      cases append_cancel_left hpath
      exact (hclash r' hr' r hr tag hn' hn).symm
    | tag tag' =>
      have htag : tag = tag' :=
        append_cancel_left (cons.inj (append_cancel_left hpath)).2
      cases htag
      exact hsame (hn.trans hn'.symm)

/-- The references after a fetch that deletes what is not advertised. -/
lemma refValue_fetch (htree : repo.files.IsTree)
    (hrefs : advertisedRefs env connect remote insecure repo.files = .ok (client, refs))
    (h : (fetchWithRefspecInner env connect remote none insecure true).run repo =
      some (.ok summary, repo')) :
    refValue repo'.files name = if isBelow name (remoteDir remote) ∧
          name ∉ refs.filterMap (mappedRef remote ·.name) then none
      else (refs.filterMap (trackedValue remote name)).getLast?.or (refValue repo.files name) := by
  unfold fetchWithRefspecInner at h
  obtain ⟨⟨client', all⟩, hall, hrest₁⟩ := readFiles_bind_eq_ok.mp h
  cases hall.symm.trans hrefs
  obtain ⟨_, -, hrest₂⟩ := lift_bind_eq_ok.mp hrest₁
  obtain ⟨newObjects, repo₃, htransfer, hrest₃⟩ := seq_eq_ok.mp hrest₂
  obtain ⟨-, hobjects⟩ := Prod.mk.inj (some.inj htransfer)
  obtain ⟨st, repo₄, hmirror, hrest₄⟩ := seq_eq_ok.mp hrest₃
  obtain ⟨pruned, repo₅, hprune, hpure⟩ := seq_eq_ok.mp hrest₄
  cases hpure
  obtain ⟨hlocal, hvalues⟩ := foldlM_mirrorRef_eq_ok hmirror
  have htree' : repo₄.files.IsTree :=
    within_foldlM (fun st r => within_mirrorRef
      (fun path _ => within_writeRef (keepsTree_atomicWrite path) r.id) st) _ _ _ _ hmirror
        (hobjects ▸ htree)
  rw [pruneRefs_eq_ok htree' hprune, hlocal, hvalues, ← hobjects]
  rfl

/-- After a fetch that deletes what is not advertised, the references of the remote mirror the
branches and tags of the server, unless a branch `tags/t` and the tag `t` have different values. -/
theorem fetch_mirrors_iff (htree : repo.files.IsTree)
    (hrefs : advertisedRefs env connect remote insecure repo.files = .ok (client, refs))
    (h : (fetchWithRefspecInner env connect remote none insecure true).run repo =
      some (.ok summary, repo')) :
    Mirrors remote refs repo'.files ↔ ∀ r ∈ refs, ∀ r' ∈ refs, ∀ t,
      r.name = "refs/heads/tags/" ++ t → r'.name = "refs/tags/" ++ t →
        r.id = r'.id := by
  have hvalue : ∀ name, refValue repo'.files name = _ := fun name => refValue_fetch htree hrefs h
  constructor
  · rintro hmirrors r hr r' hr' t hname hname'
    have hhead := hmirrors.tracked r hr (remoteDir remote ++ '/' :: ("tags/" ++ t))
      (hname ▸ Tracks.head ("tags/" ++ t))
    have htag := hmirrors.tracked r' hr' (remoteDir remote ++ '/' :: ("tags/" ++ t))
      (hname' ▸ Tracks.tag t)
    exact some.inj (hhead.symm.trans htag)
  · intro hclash
    refine ⟨fun r hr name htracks => ?_, fun name id hbelow hid => ?_⟩
    · have hmapped := (mappedRef_eq_some_iff htracks.isBelow).mpr htracks
      have hmem : name ∈ refs.filterMap (mappedRef remote ·.name) :=
        mem_filterMap.mpr ⟨r, hr, hmapped⟩
      have htracked : r.id ∈ refs.filterMap (trackedValue remote name) :=
        mem_filterMap.mpr ⟨r, hr, if_pos hmapped⟩
      obtain ⟨id, hlast⟩ := isSome_iff_exists.mp (getLast?_isSome.mpr (ne_nil_of_mem htracked))
      rw [hvalue, if_neg fun hout => hout.2 hmem, hlast, some_or]
      obtain ⟨r', hr', hid⟩ := mem_filterMap.mp (mem_of_getLast? hlast)
      unfold trackedValue at hid
      split_ifs at hid with hmapped'
      cases hid
      have htracks' := (mappedRef_eq_some_iff htracks.isBelow).mp hmapped'
      exact congrArg some
        (id_eq_of_tracks (nodup_advertisedRefs hrefs) hclash hr' hr htracks' htracks)
    · rw [hvalue] at hid
      split_ifs at hid with hout
      have hmem : name ∈ refs.filterMap (mappedRef remote ·.name) := by
        by_contra hnotMem
        exact hout ⟨hbelow, hnotMem⟩
      obtain ⟨r, hr, hmapped⟩ := mem_filterMap.mp hmem
      exact ⟨r, hr, (mappedRef_eq_some_iff hbelow).mp hmapped⟩

/-- A server that advertises the given references. -/
def sampleRemote (refs : List RefEntry) : Remote :=
  ⟨.ok (200, "OK", encodeInfoRefs refs), fun _ s => (.ok 0, s)⟩

/-- A repository with a remote whose branch `old` it tracks. -/
def sampleTracking : Repo Unit where
  objects := ⟨[]⟩
  files := ⟨[(Config.configPath, Utf8.encode "[remote.origin]\nurl = \"https://h/r\"\n"),
    ("refs/remotes/origin/old", refContent (.fill 9))], []⟩
  workdir := ()

/-- A fetch from a server that advertises the given references. -/
def sampleFetch (refs : List RefEntry) : Cmd Unit FetchSummary :=
  fetchWithRefspecInner ⟨none, none, none⟩ (fun _ => .ok (sampleRemote refs)) "origin" none
    false true

/-- The branch `tags/v1` and the tag `v1` are tracked by one reference, which has the value of the
last one. -/
theorem branch_lost_to_tag :
    let refs : List RefEntry :=
      [⟨"refs/heads/tags/v1", .fill 1⟩, ⟨"refs/tags/v1", .fill 2⟩]
    (refs.all fun r => validateRefName r.name = .ok ()) = true ∧
      ((sampleFetch refs).run sampleTracking).map (·.1.toOption) = some (some ⟨0, 2, 1⟩) ∧
      refValue ((sampleFetch refs).after sampleTracking).files
        "refs/remotes/origin/tags/v1" = some (.fill 2) := by decide +kernel

/-- The references that a server with a branch and a tag advertises. -/
def sampleAdvertised : List RefEntry :=
  [⟨"refs/heads/main", .fill 1⟩, ⟨"refs/tags/v1", .fill 2⟩]

/-- A branch and a tag are mirrored. -/
theorem fetch_mirrors_branch_and_tag : Mirrors "origin" sampleAdvertised
    ((sampleFetch sampleAdvertised).after sampleTracking).files := by
  have hurl : remoteUrl ⟨none, none, none⟩ "origin" sampleTracking.files =
      .ok "https://h/r" := by decide +kernel
  have hrefs : fetchInfoRefs (sampleRemote sampleAdvertised) = .ok sampleAdvertised := by
    decide +kernel
  refine (fetch_mirrors_iff (by decide +kernel)
    (bind_eq_ok.mpr ⟨_, hurl, bind_eq_ok.mpr ⟨_, rfl, bind_eq_ok.mpr ⟨_, hrefs, rfl⟩⟩⟩)
    (run_eq_after (a := ⟨0, 2, 1⟩) (by decide +kernel))).mpr ?_
  -- There is no branch whose name starts with `tags/`.
  intro r hr r' _ t hname _
  have hall : sampleAdvertised.all (fun r => !"refs/heads/tags/".toList.isPrefixOf r.name) = true :=
    by decide +kernel
  have hnot := all_eq_true.mp hall r hr
  rw [hname, isPrefixOf_iff_prefix.mpr (prefix_append _ _)] at hnot
  cases hnot

end Mirrors

end Gyt
