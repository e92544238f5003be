import Gyt.Cmd.Clone
import Gyt.Metadata.RoundTrip
import Gyt.Net.UpdateBatches

/-!
# What a fetch does to metadata

`gyt fetch` copies the references to issues, pull requests and incidents that a server advertises to
local references of the same name.  A server takes an update of such a reference only if the new
document extends the old one; the copy is made without a check.  Events that were added locally and
not pushed are lost if the server advertises another document.

`fetch_keepsEvents_iff` says when this happens: exactly if an advertised document does not have the
local events as its first ones.
-/

namespace Gyt

open Command Text List RefFiles

variable {W : Type}

/-! ## Documents -/

/-- Whether an identifier names the blob of a document with a given number. -/
def Store.HoldsDocument (s : Store) (k : MetaKind) (n : ℕ) (id : ObjectId) (d : Document) : Prop :=
  ∃ obj, s.get? id = some obj ∧ obj.kind = .blob ∧ k.decode obj.payload = .ok d ∧ d.number = n

lemma MetaKind.read_eq_ok_iff_holds {k : MetaKind} {s : Store} {fs : RefFiles} {n : ℕ}
    {d : Document} :
    k.read s fs n = .ok d ↔ ∃ id, refValue fs (k.refName n) = some id ∧
      s.HoldsDocument k n id d := by
  rw [MetaKind.read_eq_ok]
  constructor
  · rintro ⟨id, obj, hid, hobj⟩
    exact ⟨id, hid, obj, hobj⟩
  · rintro ⟨id, hid, obj, hobj⟩
    exact ⟨id, obj, hid, hobj⟩

lemma Store.Extends.holdsDocument {s t : Store} {k : MetaKind} {n : ℕ} {id : ObjectId}
    {d : Document} (h : s.Extends t) (hd : s.HoldsDocument k n id d) :
    t.HoldsDocument k n id d := by
  obtain ⟨obj, hobj, hrest⟩ := hd
  exact ⟨obj, h id obj hobj, hrest⟩

/-- Every document that could be read can be read, and the events it had are its first ones. -/
def KeepsEvents (repo repo' : Repo W) : Prop :=
  ∀ (k : MetaKind) (n : ℕ) (d : Document), k.read repo.objects repo.files n = .ok d →
    ∃ d', k.read repo'.objects repo'.files n = .ok d' ∧ d.EventsPrefix d'

/-- Whether the documents that a server advertises, in a store that has them, start with the events
of the local ones. -/
def AdvertisesExtensions (repo : Repo W) (objects : Store) (refs : List RefEntry) : Prop :=
  ∀ r ∈ refs, ∀ (k : MetaKind) (n : ℕ) (d : Document), r.name = k.refName n →
    k.read repo.objects repo.files n = .ok d →
      ∃ d', objects.HoldsDocument k n r.id d' ∧ d.EventsPrefix d'

/-! ## The references to documents -/

section Names

variable {remote : Str} {k : MetaKind} {n : ℕ} {r : RefEntry} {refs : List RefEntry}

lemma not_isBelow_refName (remote : Str) (k : MetaKind) (n : ℕ) :
    isBelow (k.refName n) (remoteDir remote) = false := by
  rw [isBelow, Bool.eq_false_iff, Ne, isPrefixOf_iff_prefix]
  rintro ⟨rest, hrest⟩
  have htake : (k.refName n).take 6 = "refs/r" := by
    rw [← hrest]
    rfl
  cases k <;> cases htake

/-- A reference to a document is the local reference for the one of the same name only. -/
lemma mappedRef_eq_refName_iff : mappedRef remote r.name = some (k.refName n) ↔
    r.name = k.refName n := by
  constructor
  · intro h
    unfold mappedRef at h
    have hbelow : ∀ rest, remoteDir remote ++ '/' :: rest ≠ k.refName n := by
      intro rest heq
      have hnot := not_isBelow_refName remote k n
      rw [← heq, isBelow, Bool.eq_false_iff] at hnot
      exact hnot <| isPrefixOf_iff_prefix.mpr ⟨rest, by simp⟩
    split at h
    · exact absurd (Option.some.inj h) (hbelow _)
    split at h
    · exact absurd (Option.some.inj h) (hbelow _)
    split_ifs at h
    exact Option.some.inj h
  · intro h
    rw [h]
    cases k <;> rfl

lemma trackedValue_refName :
    trackedValue remote (k.refName n) r = if r.name = k.refName n then some r.id else none := by
  unfold trackedValue
  simp only [mappedRef_eq_refName_iff]

/-- Among references with different names, the value for a document is that of the one with its
name. -/
lemma getLast?_trackedValue (hnodup : (refs.map (·.name)).Nodup) (hr : r ∈ refs)
    (hname : r.name = k.refName n) :
    (refs.filterMap (trackedValue remote (k.refName n))).getLast? = some r.id := by
  have hmem : r.id ∈ refs.filterMap (trackedValue remote (k.refName n)) := by
    rw [mem_filterMap]
    exact ⟨r, hr, by rw [trackedValue_refName, if_pos hname]⟩
  obtain ⟨id, hid⟩ := Option.isSome_iff_exists.mp (getLast?_isSome.mpr (ne_nil_of_mem hmem))
  obtain ⟨r', hr', hid'⟩ := mem_filterMap.mp (mem_of_getLast? hid)
  rw [trackedValue_refName] at hid'
  split_ifs at hid' with hname'
  have heq : r' = r := inj_on_of_nodup_map hnodup hr' hr (hname'.trans hname.symm)
  rw [hid, ← Option.some.inj hid', heq]

/-- References that do not have the name of a document give it no value. -/
lemma filterMap_trackedValue_eq_nil (h : ∀ r ∈ refs, r.name ≠ k.refName n) :
    refs.filterMap (trackedValue remote (k.refName n)) = [] := by
  rw [filterMap_eq_nil_iff]
  intro r hr
  rw [trackedValue_refName, if_neg (h r hr)]

/-- A reference specification matches branches and tags only. -/
lemma not_matchesRefspec {name : Str} (h : r.name = k.refName n) :
    matchesRefspec name r = false := by
  unfold matchesRefspec
  rw [h]
  cases k <;> rfl

end Names

/-! ## The fetch -/

section Fetch

variable {remote name : Str} {refspec : Option Str} {repo repo' : Repo W}

/-- Deleting what is not advertised leaves the objects and the references outside the remote. -/
lemma within_pruneRefs_of_not_isBelow
    (hname : isBelow name (remoteDir remote) = false) (advertised : List Str) :
    Within (Order.Preimage (fun repo : Repo W => (repo.objects, refValue repo.files name)) (· = ·))
      (pruneRefs remote refspec advertised) := by
  refine within_pruneRefs (fun name' hbelow => within_deleteRef fun repo => ?_) _ _
  have hne : name ≠ name' := by
    rintro rfl
    rw [hname] at hbelow
    cases hbelow
  exact Prod.ext rfl (refValue_unlink_of_ne hne).symm

/-- Setting the local references leaves the objects. -/
lemma within_foldlM_mirrorRef (refs : List RefEntry) (st : Mirrored) :
    Within (Order.Preimage Repo.objects (· = ·))
      (refs.foldlM (mirrorRef remote) st : Cmd W Mirrored) :=
  within_foldlM (fun st _ => within_mirrorRef
    (fun _ _ => within_writeRef (fun _ => within_write fun _ _ => rfl) _) st) st

variable {refs : List RefEntry} {env : Config.Environment} {connect : Str → Result Remote}
  {insecure prune : Bool} {client : Remote} {summary : FetchSummary}

/-- The advertised references that a fetch looks at. -/
def selectedRefs (refspec : Option Str) (refs : List RefEntry) : List RefEntry :=
  refspec.elim refs fun name => refs.filter (matchesRefspec name)

/-- The objects and the references to documents after a fetch. -/
lemma fetch_documents
    (hrefs : advertisedRefs env connect remote insecure repo.files = .ok (client, refs))
    (h : (fetchWithRefspecInner env connect remote refspec insecure prune).run repo =
      some (.ok summary, repo')) :
    repo'.objects = (client.walkAndFetch (selectedRefs refspec refs) repo.objects).2 ∧
      ∀ (k : MetaKind) (n : ℕ), refValue repo'.files (k.refName n) =
        ((selectedRefs refspec refs).filterMap (trackedValue remote (k.refName n))).getLast?.or
          (refValue repo.files (k.refName n)) := by
  unfold fetchWithRefspecInner at h
  obtain ⟨⟨client', all⟩, hall, hrest₁⟩ := readFiles_bind_eq_ok.mp h
  cases hall.symm.trans hrefs
  obtain ⟨_, -, hrest₂⟩ := lift_bind_eq_ok.mp hrest₁
  obtain ⟨newObjects, repo₃, htransfer, hrest₃⟩ := seq_eq_ok.mp hrest₂
  obtain ⟨-, hrepo₃⟩ := Prod.mk.inj (Option.some.inj htransfer)
  obtain ⟨st, repo₄, hmirror, hrest₄⟩ := seq_eq_ok.mp hrest₃
  have hmirrored := (foldlM_mirrorRef_eq_ok hmirror).2
  have hobjects : repo₃.objects = repo₄.objects := within_foldlM_mirrorRef _ _ _ _ _ hmirror
  -- Deleting concerns the references of the remote only.
  have hpruned : ∀ name, isBelow name (remoteDir remote) = false →
      repo₄.objects = repo'.objects ∧ refValue repo₄.files name = refValue repo'.files name := by
    intro name hname
    dsimp only at hrest₄
    split_ifs at hrest₄
    · obtain ⟨pruned, repo₅, hprune, hpure⟩ := seq_eq_ok.mp hrest₄
      cases hpure
      exact Prod.mk.inj (within_pruneRefs_of_not_isBelow hname _ _ _ _ hprune)
    · cases hrest₄
      exact ⟨rfl, rfl⟩
  refine ⟨?_, ?_⟩
  · rw [← (hpruned _ (not_isBelow_refName remote .issue 0)).1, ← hobjects, ← hrepo₃]
    rfl
  · intro k n
    rw [← (hpruned _ (not_isBelow_refName remote k n)).2, hmirrored, ← hrepo₃]
    rfl

end Fetch

/-! ## Events -/

section Events

variable {hashBytes : Hash} {xz : Xz} {fuel : ℕ} {remote : Str}
  {refspec : Option Str} {insecure prune : Bool} {env : Config.Environment}
  {connect : Str → Result WireServer} {client : Remote} {refs : List RefEntry}
  {repo repo' : Repo W} {summary : FetchSummary}

/-- The connection to a server as `gyt fetch` uses it. -/
def wireClient (hashBytes : Hash) (xz : Xz) (fuel : ℕ)
    (connect : Str → Result WireServer) (url : Str) : Result Remote :=
  (connect url).map (·.client hashBytes xz fuel)

/-- The clients of a connection transfer by the loop of the source. -/
lemma extends_transfer (hrefs : advertisedRefs env (wireClient hashBytes xz fuel connect) remote
    insecure repo.files = .ok (client, refs)) (serverRefs : List RefEntry) (s : Store) :
    s.Extends (client.walkAndFetch serverRefs s).2 := by
  obtain ⟨url, -, hclient⟩ := bind_eq_ok.mp hrefs
  obtain ⟨client', hopen, hrest⟩ := bind_eq_ok.mp hclient
  obtain ⟨refs', -, hpure⟩ := bind_eq_ok.mp hrest
  cases hpure
  obtain ⟨-, hconnect⟩ := check_bind_eq_ok.mp hopen
  unfold wireClient at hconnect
  cases hserver : connect url with
  | error e =>
    rw [hserver] at hconnect
    cases hconnect
  | ok server =>
    rw [hserver] at hconnect
    cases hconnect
    exact extends_walkAndFetch fuel serverRefs s

/-- A fetch keeps the events of all local documents exactly if it is for one branch or tag, or the
server advertises documents that start with the local events. -/
theorem fetch_keepsEvents_iff
    (hrefs : advertisedRefs env (wireClient hashBytes xz fuel connect) remote insecure repo.files =
      .ok (client, refs))
    (h : (fetchWithRefspecInner env (wireClient hashBytes xz fuel connect) remote refspec insecure
      prune).run repo = some (.ok summary, repo')) :
    KeepsEvents repo repo' ↔
      (refspec = none →
        AdvertisesExtensions repo (client.walkAndFetch refs repo.objects).2 refs) := by
  obtain ⟨hobjects, hvalues⟩ := fetch_documents hrefs h
  have hnodup := nodup_advertisedRefs hrefs
  have hgrows : repo.objects.Extends repo'.objects := by
    rw [hobjects]
    exact extends_transfer hrefs _ _
  -- A document whose reference is not copied stays as it is.
  have hkept : ∀ (k : MetaKind) (n : ℕ) (d : Document),
      (∀ r ∈ selectedRefs refspec refs, r.name ≠ k.refName n) →
      k.read repo.objects repo.files n = .ok d → k.read repo'.objects repo'.files n = .ok d := by
    intro k n d hnot hread
    obtain ⟨id, hid, hd⟩ := MetaKind.read_eq_ok_iff_holds.mp hread
    apply MetaKind.read_eq_ok_iff_holds.mpr
    refine ⟨id, ?_, hgrows.holdsDocument hd⟩
    rw [hvalues, filterMap_trackedValue_eq_nil hnot, getLast?_nil, Option.none_or, hid]
  have hself : ∀ d : Document, d.EventsPrefix d := fun d => (Document.Keeps.refl d).events
  cases refspec with
  | some name =>
    refine iff_of_true ?_ (by simp)
    intro k n d hread
    refine ⟨d, hkept k n d ?_ hread, hself d⟩
    intro r hr hname
    have hmatches := (mem_filter.mp hr).2
    rw [not_matchesRefspec hname] at hmatches
    cases hmatches
  | none =>
    change repo'.objects = (client.walkAndFetch refs repo.objects).2 at hobjects
    rw [← hobjects]
    constructor
    · intro hkeeps _ r hr k n d hname hread
      obtain ⟨d', hread', hprefix⟩ := hkeeps k n d hread
      obtain ⟨id', hid', hd'⟩ := MetaKind.read_eq_ok_iff_holds.mp hread'
      rw [hvalues, selectedRefs, Option.elim_none, getLast?_trackedValue hnodup hr hname,
        Option.some_or, Option.some_inj] at hid'
      exact ⟨d', hid' ▸ hd', hprefix⟩
    · intro hextends k n d hread
      by_cases hadvertised : ∃ r ∈ refs, r.name = k.refName n
      · obtain ⟨r, hr, hname⟩ := hadvertised
        obtain ⟨d', hd', hprefix⟩ := hextends rfl r hr k n d hname hread
        refine ⟨d', MetaKind.read_eq_ok_iff_holds.mpr ⟨r.id, ?_, hd'⟩, hprefix⟩
        rw [hvalues, selectedRefs, Option.elim_none, getLast?_trackedValue hnodup hr hname,
          Option.some_or]
      · push Not at hadvertised
        exact ⟨d, hkept k n d hadvertised hread, hself d⟩

def openedIssue : Issue :=
  ⟨1, .issue, "t", .opened, "a <a@b>", 1700000000, [], [], [],
    [⟨.opened, "a <a@b>", 1700000000, "x", [], [], []⟩]⟩

def commentedIssue : Issue :=
  { openedIssue with
    events := openedIssue.events ++
      [⟨.comment, "a <a@b>", 1700000001, "y", [], [], []⟩] }

/-- A repository with both versions of the issue, in which the given one is current. -/
def sampleIssues (current : ObjectId) : Repo Unit where
  objects := ⟨[(.fill 1, ⟨.blob, (Document.issue openedIssue).encode Document.sampleTables⟩),
    (.fill 2, ⟨.blob, (Document.issue commentedIssue).encode Document.sampleTables⟩)]⟩
  files := ⟨[(Config.configPath, Utf8.encode "[remote.origin]\nurl = \"https://h/r\"\n"),
    (MetaKind.issue.refName 1, refContent current)], []⟩
  workdir := ()

/-- A server that advertises a version of the issue and sends nothing. -/
def sampleIssueServer (version : ObjectId) : WireServer where
  infoRefs := .ok (200, "OK", encodeInfoRefs [⟨MetaKind.issue.refName 1, version⟩])
  objectsWant _ _ := .error (.net [])

def sampleIssueFetch (version : ObjectId) : Cmd Unit FetchSummary :=
  fetchWithRefspecInner ⟨none, none, none⟩
    (wireClient sampleHash plainXz 2 fun _ => .ok (sampleIssueServer version)) "origin" none
    false false

/-- A comment that was not pushed is lost in a fetch from a server that has the issue without it. -/
theorem unpushed_comment_lost :
    ((sampleIssueFetch (.fill 1)).run (sampleIssues (.fill 2))).map (·.1.toOption) =
        some (some ⟨0, 1, 0⟩) ∧
      MetaKind.issue.read (sampleIssues (.fill 2)).objects (sampleIssues (.fill 2)).files 1 =
        .ok (.issue commentedIssue) ∧
      ¬ KeepsEvents (sampleIssues (.fill 2))
        ((sampleIssueFetch (.fill 1)).after (sampleIssues (.fill 2))) := by
  have hbefore : MetaKind.issue.read (sampleIssues (.fill 2)).objects (sampleIssues (.fill 2)).files
      1 = .ok (.issue commentedIssue) := by decide +kernel
  have hafter : MetaKind.issue.read
      ((sampleIssueFetch (.fill 1)).after (sampleIssues (.fill 2))).objects
      ((sampleIssueFetch (.fill 1)).after (sampleIssues (.fill 2))).files 1 =
        .ok (.issue openedIssue) := by decide +kernel
  refine ⟨by decide +kernel, hbefore, ?_⟩
  intro hkeeps
  obtain ⟨d', hread, hevents⟩ := hkeeps .issue 1 _ hbefore
  cases hafter.symm.trans hread
  have hlength : commentedIssue.events.length ≤ openedIssue.events.length :=
    IsPrefix.length_le hevents
  exact absurd hlength (by decide)

/-- The characterisation at a fetch of the issue with a comment. -/
theorem fetch_keepsEvents_iff_comment :
    KeepsEvents (sampleIssues (.fill 1))
        ((sampleIssueFetch (.fill 2)).after (sampleIssues (.fill 1))) ↔
      ((none : Option Str) = none → AdvertisesExtensions (sampleIssues (.fill 1))
        (((sampleIssueServer (.fill 2)).client sampleHash plainXz 2).walkAndFetch
          [⟨MetaKind.issue.refName 1, .fill 2⟩] (sampleIssues (.fill 1)).objects).2
        [⟨MetaKind.issue.refName 1, .fill 2⟩]) := by
  have hurl : remoteUrl ⟨none, none, none⟩ "origin" (sampleIssues (.fill 1)).files =
      .ok "https://h/r" := by decide +kernel
  have hrefs : fetchInfoRefs ((sampleIssueServer (.fill 2)).client sampleHash plainXz 2) =
      .ok [⟨MetaKind.issue.refName 1, .fill 2⟩] := by decide +kernel
  exact fetch_keepsEvents_iff
    (bind_eq_ok.mpr ⟨_, hurl, bind_eq_ok.mpr ⟨_, rfl, bind_eq_ok.mpr ⟨_, hrefs, rfl⟩⟩⟩)
    (run_eq_after (a := ⟨0, 1, 0⟩) (by decide +kernel))

end Events

end Gyt
