import Gyt.Foundation.Machine
import Gyt.Net.Objects
import Gyt.Net.UpdateBatches

/-!
# Cached answers of the server

The handlers of `net/server.rs` for one repository, as they run at the same time: `info/refs` and
`objects/want` look into a cache, read the disk if there is no entry, and enter what they have read;
`objects/have` stores objects; `refs/update` writes references and then empties the two caches.
Nothing is locked between the steps of a reader, so that it can enter what it has read before a
`refs/update` after that request has emptied the caches.

The machine below has any number of requests, and its events are their single steps: a look into a
cache, the listing of the names of the references, the reading of one reference or object, and so
on. The file lock of the references only decides whether a request is refused, and does not keep
requests apart; with that there would be fewer runs, not more.

The names of the references are listed in one step, where `walk` of `refs.rs` reads one directory
after the other, and the references of each before it enters the next.  No handler removes a
reference, so a name that the walk passes over had no file when it started, and a name that it finds
has one from then on; what is said of an answer below is said of each name on its own.

`fresh_after_update` says what holds if no reader is on its way to the cache while it is emptied:
each item of an answer is as it was at some moment since the update has returned.
-/

namespace Gyt.ResponseCache

open Text RefsPolicy Wire List Option Function

/-- What a server is set up with: how signatures are checked, its settings, the hash of objects, the
compression, and the hash of lists of wanted objects. -/
structure Server (K δ : Type) where
  verifyStrict : K → Bytes → Bytes → Bool
  cfg : ServerConfig K
  hashBytes : Hash
  xz : Xz
  digest : Str → δ

/-- The answers to requests; of the bodies, the lines or entries are kept. -/
inductive Answer where
  | refs (lines : RefList)
  | pack (ids : List ObjectId) (entries : List PackEntry)
  | stored
  | updated (nUpdated nFailed : ℕ)
  | refused (status : ℕ)
  deriving DecidableEq, Repr

/-- What a request is about to do. -/
inductive Request where
  /-- Nothing: it has not arrived. -/
  | unborn
  | lookupRefs
  | walkRefs
  | readRefs (names : List Str) (out : RefList)
  /-- Entering lines into the cache. -/
  | cacheRefs (out : RefList)
  /-- Looking for a cached pack. -/
  | lookupPack (ids : List ObjectId)
  | readPack (ids rest : List ObjectId) (entries : List PackEntry)
  /-- Entering a pack into the cache. -/
  | cachePack (ids : List ObjectId) (entries : List PackEntry)
  | storeObjects (entries : List PackEntry)
  /-- Judging updates of references. -/
  | judge (mode : Mode) (updates : List RefUpdate)
  /-- Truncating the file of the next reference. -/
  | openRef (updates : List RefUpdate) (nUpdated nFailed : ℕ)
  /-- Writing a reference to its truncated file. -/
  | writeRef (update : RefUpdate) (updates : List RefUpdate) (nUpdated nFailed : ℕ)
  /-- Emptying the cache of lines. -/
  | flushRefs (nUpdated nFailed : ℕ)
  /-- Emptying the cache of packs. -/
  | flushPacks (nUpdated nFailed : ℕ)
  /-- Returning. -/
  | finish (nUpdated nFailed : ℕ)
  | answered (answer : Answer)
  deriving DecidableEq, Repr

/-- The disk, the two caches, and the requests.  Of the caches, the entries of the repository are
kept. -/
structure State (δ : Type) where
  store : Store
  refs : RefFiles
  refsCache : Option RefList
  packCache : δ → Option (List PackEntry)
  request : ℕ → Request

/-- What can happen. -/
inductive Event (δ : Type) where
  /-- A request arrives; `lock` says whether it gets the file lock that it needs in time. -/
  | infoRefs (r : ℕ)
  | objectsWant (r : ℕ) (body : Bytes)
  | objectsHave (r : ℕ) (lock : Bool) (body : Body)
  | refsUpdate (r : ℕ) (lock : Bool) (rawQuery : Option Str) (body : Bytes)
  /-- A request takes its next step.  With `ok = false`, a cache entry has expired or a pack is too
  large for the cache, or the operating system refuses. -/
  | proceed (r : ℕ) (ok : Bool)
  /-- An entry is dropped to make room for others. -/
  | evictRefs
  | evictPack (key : δ)

/-- The directory of all references. -/
def refsDir : Str := "refs"

section Step

variable {K δ : Type} [DecidableEq δ] (server : Server K δ)

/-- The cache key of a list of wanted objects: the hash of the sorted list. -/
def Server.wantKey (ids : List ObjectId) : δ :=
  server.digest (List.intercalate ['\n'] ((ids.map ObjectId.toHex).insertionSort (· ≤ ·)))

def Server.packEntry (store : Store) (id : ObjectId) : Option PackEntry :=
  (store.get? id).map fun obj => ⟨id, Compress.encode server.xz (buildRaw obj.kind obj.payload)⟩

variable (s : State δ)

/-- The state with a request at another step. -/
def State.become (r : ℕ) (request : Request) : State δ :=
  { s with request := Function.update s.request r request }

/-- The state with a request answered. -/
def State.answer (r : ℕ) (answer : Answer) : State δ := s.become r (.answered answer)

/-- The names of the files below the directory of references; none if it cannot be read. -/
def refNames (fs : RefFiles) : Option (List Str) :=
  if fs.exists refsDir then
    if fs.get? refsDir = none then
      some ((fs.files.map (·.1)).filter (RefFiles.isBelow · refsDir))
    else none
  else some []

/-- The next step of a request. -/
def Server.proceed (r : ℕ) (ok : Bool) : Option (State δ) :=
  match s.request r with
  | .unborn | .answered _ => none
  | .lookupRefs =>
    match s.refsCache, ok with
    | some out, true => some (s.answer r (.refs out))
    | _, _ => some (s.become r .walkRefs)
  | .walkRefs =>
    match refNames s.refs, ok with
    | some names, true => some (s.become r (.readRefs names []))
    | _, _ => some (s.answer r (.refused 500))
  | .readRefs [] out => some (s.become r (.cacheRefs (out.insertionSort (·.1 ≤ ·.1))))
  | .readRefs (name :: names) out =>
    match listRef s.refs out name, ok with
    | .ok out', true => some (s.become r (.readRefs names out'))
    | _, _ => some (s.answer r (.refused 500))
  | .cacheRefs out => some (State.answer { s with refsCache := some out } r (.refs out))
  | .lookupPack ids =>
    match s.packCache (server.wantKey ids), ok with
    | some entries, true => some (s.answer r (.pack ids entries))
    | _, _ => some (s.become r (.readPack ids ids []))
  | .readPack ids [] entries => some (s.become r (.cachePack ids entries))
  | .readPack ids (id :: rest) entries =>
    some (s.become r (.readPack ids rest (entries ++ (server.packEntry s.store id).toList)))
  | .cachePack ids entries =>
    if ok then
      some (State.answer
        { s with packCache := Function.update s.packCache (server.wantKey ids) (some entries) }
        r (.pack ids entries))
    else some (s.answer r (.pack ids entries))
  | .storeObjects [] => some (s.answer r .stored)
  | .storeObjects (entry :: entries) =>
    match acceptEntry server.xz entry, ok with
    | some o, true => some (State.become
        { s with store := (s.store.writeBytes server.hashBytes o.kind o.payload).1 }
        r (.storeObjects entries))
    | _, _ => some (s.become r (.storeObjects entries))
  | .judge mode updates =>
    if (evaluateWithMode server.verifyStrict s.store s.refs updates mode server.cfg.signRequired
        server.cfg.allowed).isClean then some (s.become r (.openRef updates 0 0))
    else some (s.answer r (.refused 409))
  | .openRef [] nUpdated nFailed =>
    some (s.become r (if 0 < nUpdated then .flushRefs nUpdated nFailed
      else .finish nUpdated nFailed))
  | .openRef (u :: updates) nUpdated nFailed =>
    match s.refs.write u.name [], ok with
    | some refs, true =>
      some (State.become { s with refs } r (.writeRef u updates nUpdated nFailed))
    | _, _ => some (s.become r (.openRef updates nUpdated (nFailed + 1)))
  | .writeRef u updates nUpdated nFailed =>
    if ok then some (State.become { s with refs := s.refs.set u.name (refContent u.new) } r
      (.openRef updates (nUpdated + 1) nFailed))
    else some (s.become r (.openRef updates nUpdated (nFailed + 1)))
  | .flushRefs nUpdated nFailed =>
    some (State.become { s with refsCache := none } r (.flushPacks nUpdated nFailed))
  | .flushPacks nUpdated nFailed =>
    some (State.become { s with packCache := fun _ => none } r (.finish nUpdated nFailed))
  | .finish nUpdated nFailed => some (s.answer r (.updated nUpdated nFailed))

/-- The first step of a request. -/
def State.arrive (r : ℕ) (request : Request) : Option (State δ) :=
  if s.request r = .unborn then some (s.become r request) else none

def Server.step : Event δ → Option (State δ)
  | .infoRefs r => s.arrive r .lookupRefs
  | .objectsWant r body => s.arrive r <|
    match parseWants body with
    | .ok ids => if maxWantIds < ids.length then .answered (.refused 413)
      else .lookupPack ids.eraseDups
    | .error _ => .answered (.refused 400)
  | .objectsHave r lock body => s.arrive r <|
    match lock, parsePackfile server.xz body.bytes with
    | true, .ok entries => .storeObjects entries
    | true, .error _ => .answered (.refused 400)
    | false, _ => .answered (.refused 503)
  | .refsUpdate r lock rawQuery body => s.arrive r <|
    match parseRefUpdates body, lock with
    | .ok updates, true => .judge (requestedMode server.cfg rawQuery) updates
    | .ok _, false => .answered (.refused 503)
    | .error _, _ => .answered (.refused 400)
  | .proceed r ok => server.proceed s r ok
  | .evictRefs => some { s with refsCache := none }
  | .evictPack key => some { s with packCache := Function.update s.packCache key none }

end Step

/-! ## Moments -/

/-- Whether lines are as the references were at moments of `S`, for the names that are not in
`rest`: a line names a reference with its value, and a reference that no line names had none. -/
structure FreshRefs {δ : Type} (S : Set (State δ)) (rest : List Str) (out : RefList) :
    Prop where
  listed : ∀ name id, (name, id) ∈ out → ∃ st ∈ S, refValue st.refs name = some id
  missing : ∀ name, RefFiles.isBelow name refsDir = true → name ∉ rest →
    (∀ id, (name, id) ∉ out) → ∃ st ∈ S, refValue st.refs name = none

/-- Whether entries are as the objects were at moments of `S`, for the wanted objects that are not
in `rest`: an entry is the one of its object, and a wanted object without an entry was not there. -/
structure FreshPack {K δ : Type} (server : Server K δ) (S : Set (State δ))
    (ids rest : List ObjectId) (entries : List PackEntry) : Prop where
  sent : ∀ e ∈ entries, ∃ st ∈ S, server.packEntry st.store e.id = some e
  missing : ∀ id ∈ ids, id ∉ rest → (∀ e ∈ entries, e.id ≠ id) →
    ∃ st ∈ S, st.store.get? id = none

namespace Request

/-- Whether a request is between its look for cached lines and their entry into the cache. -/
def FillsRefs : Request → Prop
  | .walkRefs | .readRefs _ _ | .cacheRefs _ => True
  | _ => False

/-- Whether a request is between its look for a cached pack and its entry into the cache. -/
def FillsPacks : Request → Prop
  | .readPack _ _ _ | .cachePack _ _ => True
  | _ => False

/-- Whether a request has emptied the cache of lines and has not returned. -/
def FlushedRefs : Request → Prop
  | .flushPacks _ _ => True
  | .finish nUpdated _ => 0 < nUpdated
  | _ => False

/-- Whether a request has emptied the cache of packs and has not returned. -/
def FlushedPacks : Request → Prop
  | .finish nUpdated _ => 0 < nUpdated
  | _ => False

/-- The steps that have nothing to do with the caches. -/
def Neutral : Request → Prop
  | .lookupRefs | .lookupPack _ | .storeObjects _ | .judge _ _ | .openRef _ _ _ | .writeRef _ _ _ _
  | .flushRefs _ _ => True
  | .finish nUpdated _ => nUpdated = 0
  | .answered .stored | .answered (.updated _ _) | .answered (.refused _) => True
  | _ => False

end Request

/-- Whether an event does not bring a reader and the emptying of its cache together: a cache is not
emptied while a reader is on its way to it, and no reader sets out between the emptying and the
return of the request that does it. -/
def Undisturbed {K δ : Type} (server : Server K δ) (s : State δ) : Event δ → Prop
  | .proceed r ok =>
    match s.request r with
    | .lookupRefs => s.refsCache = none ∨ ok = false → ∀ q, ¬ (s.request q).FlushedRefs
    | .lookupPack ids =>
      s.packCache (server.wantKey ids) = none ∨ ok = false → ∀ q, ¬ (s.request q).FlushedPacks
    | .flushRefs _ _ => ∀ q, ¬ (s.request q).FillsRefs
    | .flushPacks _ _ => ∀ q, ¬ (s.request q).FillsPacks
    | _ => True
  | _ => True

/-! ## What events do -/

section Effects

variable {K δ : Type} [DecidableEq δ] {server : Server K δ} {s s' : State δ} {e : Event δ}

omit [DecidableEq δ] in
@[simp] lemma request_become_self (s : State δ) (r : ℕ) (p : Request) :
    (s.become r p).request r = p := update_self ..

omit [DecidableEq δ] in
@[simp] lemma request_become_of_ne {r q : ℕ} {p : Request} (h : q ≠ r) :
    (s.become r p).request q = s.request q := update_of_ne h ..

/-- What an event does to the caches and to the request that takes it. -/
inductive Effect (server : Server K δ) (s : State δ) : Event δ → State δ → Prop
  | neutral {e : Event δ} {store : Store} {refs : RefFiles} {r : ℕ} {p : Request}
      (hp : p.Neutral) : Effect server s e (State.become { s with store, refs } r p)
  | hitRefs {r : ℕ} {out : RefList} {e : Event δ} (hout : s.refsCache = some out) :
      Effect server s e (s.answer r (.refs out))
  | missRefs {r : ℕ} {ok : Bool} (hr : s.request r = .lookupRefs)
      (hmiss : s.refsCache = none ∨ ok = false) :
      Effect server s (.proceed r ok) (s.become r .walkRefs)
  | walkRefs {r : ℕ} {names : List Str} {e : Event δ} (hr : s.request r = .walkRefs)
      (hnames : refNames s.refs = some names) :
      Effect server s e (s.become r (.readRefs names []))
  | readRef {r : ℕ} {name : Str} {names : List Str} {out out' : RefList}
      {e : Event δ} (hr : s.request r = .readRefs (name :: names) out)
      (hout : listRef s.refs out name = .ok out') :
      Effect server s e (s.become r (.readRefs names out'))
  | sortRefs {r : ℕ} {out : RefList} {e : Event δ}
      (hr : s.request r = .readRefs [] out) :
      Effect server s e (s.become r (.cacheRefs (out.insertionSort (·.1 ≤ ·.1))))
  | cacheRefs {r : ℕ} {out : RefList} {e : Event δ}
      (hr : s.request r = .cacheRefs out) :
      Effect server s e (State.answer { s with refsCache := some out } r (.refs out))
  | hitPack {r : ℕ} {ids : List ObjectId} {entries : List PackEntry} {e : Event δ}
      (hentries : s.packCache (server.wantKey ids) = some entries) :
      Effect server s e (s.answer r (.pack ids entries))
  | missPack {r : ℕ} {ok : Bool} {ids : List ObjectId} (hr : s.request r = .lookupPack ids)
      (hmiss : s.packCache (server.wantKey ids) = none ∨ ok = false) :
      Effect server s (.proceed r ok) (s.become r (.readPack ids ids []))
  | readObject {r : ℕ} {id : ObjectId} {ids rest : List ObjectId} {entries : List PackEntry}
      {e : Event δ} (hr : s.request r = .readPack ids (id :: rest) entries) :
      Effect server s e (s.become r
        (.readPack ids rest (entries ++ (server.packEntry s.store id).toList)))
  | endPack {r : ℕ} {ids : List ObjectId} {entries : List PackEntry} {e : Event δ}
      (hr : s.request r = .readPack ids [] entries) :
      Effect server s e (s.become r (.cachePack ids entries))
  | cachePack {r : ℕ} {ids : List ObjectId} {entries : List PackEntry} {e : Event δ}
      (hr : s.request r = .cachePack ids entries) :
      Effect server s e (State.answer
        { s with packCache := Function.update s.packCache (server.wantKey ids) (some entries) }
        r (.pack ids entries))
  | skipPack {r : ℕ} {ids : List ObjectId} {entries : List PackEntry} {e : Event δ}
      (hr : s.request r = .cachePack ids entries) :
      Effect server s e (s.answer r (.pack ids entries))
  | flushRefs {r nUpdated nFailed : ℕ} {ok : Bool}
      (hr : s.request r = .flushRefs nUpdated nFailed) : Effect server s (.proceed r ok)
        (State.become { s with refsCache := none } r (.flushPacks nUpdated nFailed))
  | flushPacks {r nUpdated nFailed : ℕ} {ok : Bool}
      (hr : s.request r = .flushPacks nUpdated nFailed) :
      Effect server s (.proceed r ok)
        (State.become { s with packCache := fun _ => none } r (.finish nUpdated nFailed))
  | evictRefs {e : Event δ} : Effect server s e { s with refsCache := none }
  | evictPack {key : δ} {e : Event δ} :
      Effect server s e { s with packCache := Function.update s.packCache key none }

lemma effect_become {r : ℕ} {p : Request} (hp : p.Neutral) : Effect server s e (s.become r p) :=
  show Effect server s e (State.become { s with store := s.store, refs := s.refs } r p) from
    .neutral hp

lemma effect_of_arrive {r : ℕ} {p : Request} (hp : p.Neutral) (h : s.arrive r p = some s') :
    Effect server s e s' := by
  rw [State.arrive, ite_none_right_eq_some, some.injEq] at h
  obtain ⟨-, rfl⟩ := h
  exact effect_become hp

lemma effect_of_proceed {r : ℕ} {ok : Bool} (h : server.proceed s r ok = some s') :
    Effect server s (.proceed r ok) s' := by
  unfold Server.proceed at h
  split at h
  · -- unborn
    cases h
  · -- answered
    cases h
  · next hr =>
    -- lookupRefs
    rcases hcache : s.refsCache with _ | out
    · rw [hcache] at h
      cases h
      exact .missRefs hr (.inl hcache)
    · rw [hcache] at h
      cases ok with
      | true =>
        cases h
        exact .hitRefs hcache
      | false =>
        cases h
        exact .missRefs hr (.inr rfl)
  · next hr =>
    split at h
    · next hnames =>
      cases h
      exact .walkRefs hr hnames
    · cases h
      exact effect_become trivial
  · next hr =>
    cases h
    exact .sortRefs hr
  · next hr =>
    split at h
    · next hout =>
      cases h
      exact .readRef hr hout
    · cases h
      exact effect_become trivial
  · next hr =>
    cases h
    exact .cacheRefs hr
  · next ids hr =>
    -- lookupPack
    rcases hcache : s.packCache (server.wantKey ids) with _ | entries
    · rw [hcache] at h
      cases h
      exact .missPack hr (.inl hcache)
    · rw [hcache] at h
      cases ok with
      | true =>
        cases h
        exact .hitPack hcache
      | false =>
        cases h
        exact .missPack hr (.inr rfl)
  · next hr =>
    cases h
    exact .endPack hr
  · next hr =>
    cases h
    exact .readObject hr
  · next hr =>
    split_ifs at h
    · cases h
      exact .cachePack hr
    · cases h
      exact .skipPack hr
  · -- storeObjects, at the end and before it
    cases h
    exact effect_become trivial
  · split at h
    · cases h
      exact .neutral trivial
    · cases h
      exact effect_become trivial
  · -- judge
    split_ifs at h
    · cases h
      exact effect_become trivial
    · cases h
      exact effect_become trivial
  · -- openRef, at the end and before it
    cases h
    refine effect_become ?_
    split_ifs with hpos
    · trivial
    · exact Nat.eq_zero_of_not_pos hpos
  · split at h
    · cases h
      exact .neutral trivial
    · cases h
      exact effect_become trivial
  · -- writeRef
    split_ifs at h
    · cases h
      exact .neutral trivial
    · cases h
      exact effect_become trivial
  · next hr =>
    cases h
    exact .flushRefs hr
  · next hr =>
    cases h
    exact .flushPacks hr
  · -- finish
    cases h
    exact effect_become trivial

lemma effect_of_step (h : server.step s e = some s') : Effect server s e s' := by
  cases e with
  | infoRefs r =>
    refine effect_of_arrive ?_ h
    trivial
  | objectsWant r body =>
    refine effect_of_arrive ?_ h
    split
    · split_ifs <;> trivial
    · trivial
  | objectsHave r lock body =>
    refine effect_of_arrive ?_ h
    split <;> trivial
  | refsUpdate r lock rawQuery body =>
    refine effect_of_arrive ?_ h
    split <;> trivial
  | proceed r ok => exact effect_of_proceed h
  | evictRefs =>
    cases h
    exact .evictRefs
  | evictPack key =>
    cases h
    exact .evictPack

end Effects

/-! ## What is read -/

section Reading

variable {K δ : Type} {server : Server K δ} {s : State δ} {S : Set (State δ)}

/-- A file below the directory of references is listed. -/
lemma refValue_of_refNames {fs : RefFiles} {names : List Str} {name : Str}
    (h : refNames fs = some names) (hbelow : RefFiles.isBelow name refsDir = true)
    (hname : name ∉ names) : refValue fs name = none := by
  rw [eq_none_iff_forall_ne_some]
  intro id hvalue
  obtain ⟨content, hcontent⟩ := isSome_iff_exists.mp (get?_isSome_of_refValue hvalue)
  have hmem : (name, content) ∈ fs.files := RefFiles.mem_files_of_get? hcontent
  unfold refNames at h
  split_ifs at h with hexists hfile
  · cases h
    exact hname (mem_filter.mpr ⟨mem_map.mpr ⟨_, hmem, rfl⟩, hbelow⟩)
  · -- A file below the directory makes the directory exist.
    have hdir : fs.isDir refsDir = true :=
      Bool.or_eq_true_iff.mpr (.inl (any_eq_true.mpr ⟨_, hmem, hbelow⟩))
    rw [RefFiles.exists, hdir, Bool.or_true] at hexists
    exact absurd rfl hexists

/-- One more reference is read. -/
lemma FreshRefs.read {name : Str} {names : List Str} {out out' : RefList}
    (hs : s ∈ S) (h : FreshRefs S (name :: names) out)
    (hout : listRef s.refs out name = .ok out') : FreshRefs S names out' := by
  constructor
  · intro n id hmem
    rcases (mem_listRef hout).mp hmem with hmem | ⟨-, hvalue⟩
    · exact h.listed n id hmem
    · exact ⟨s, hs, hvalue⟩
  · intro n hbelow hn hnone
    by_cases heq : n = name
    · refine ⟨s, hs, ?_⟩
      rw [eq_none_iff_forall_ne_some]
      intro id hvalue
      exact hnone id ((mem_listRef hout).mpr (.inr ⟨heq, hvalue⟩))
    · refine h.missing n hbelow (by simp [heq, hn]) ?_
      intro id hmem
      exact hnone id ((mem_listRef hout).mpr (.inl hmem))

lemma FreshRefs.perm {out out' : RefList} (h : FreshRefs S [] out)
    (hperm : out'.Perm out) : FreshRefs S [] out' := by
  constructor
  · intro name id hmem
    exact h.listed name id (hperm.mem_iff.mp hmem)
  · intro name hbelow hname hnone
    exact h.missing name hbelow hname fun id hmem => hnone id (hperm.mem_iff.mpr hmem)

/-- One more object is read. -/
lemma FreshPack.read {id : ObjectId} {ids rest : List ObjectId} {entries : List PackEntry}
    (hs : s ∈ S) (h : FreshPack server S ids (id :: rest) entries) :
    FreshPack server S ids rest (entries ++ (server.packEntry s.store id).toList) := by
  constructor
  · intro e he
    rcases mem_append.mp he with he | he
    · exact h.sent e he
    · rw [mem_toList] at he
      obtain ⟨obj, hobj, rfl⟩ := map_eq_some_iff.mp he
      exact ⟨s, hs, he⟩
  · intro id' hid hrest hnone
    by_cases heq : id' = id
    · refine ⟨s, hs, ?_⟩
      rw [heq, eq_none_iff_forall_ne_some]
      intro obj hobj
      have hentry : server.packEntry s.store id =
          some ⟨id, Compress.encode server.xz (buildRaw obj.kind obj.payload)⟩ := by
        rw [Server.packEntry, hobj]
        rfl
      exact hnone _ (mem_append_right _ (mem_toList.mpr hentry)) heq.symm
    · refine h.missing id' hid (by simp [heq, hrest]) ?_
      intro e he
      exact hnone e (mem_append_left _ he)

lemma mem_of_wantKey_eq (hdigest : Injective server.digest) {ids ids' : List ObjectId}
    (h : server.wantKey ids = server.wantKey ids') {id : ObjectId} (hid : id ∈ ids) :
    id ∈ ids' := by
  have hlist := hdigest h
  have hline : ∀ ids : List ObjectId,
      ∀ l ∈ (ids.map ObjectId.toHex).insertionSort (· ≤ ·), '\n' ∉ l := by
    intro ids l hl
    obtain ⟨id, -, rfl⟩ := mem_map.mp ((perm_insertionSort _ _).mem_iff.mp hl)
    exact ObjectId.notMem_toHex (by decide)
  have hmem : id.toHex ∈ (ids.map ObjectId.toHex).insertionSort (· ≤ ·) :=
    (perm_insertionSort _ _).mem_iff.mpr (mem_map_of_mem hid)
  rw [← split_intercalate (ne_nil_of_mem hmem) (hline ids), hlist] at hmem
  by_cases hnil : (ids'.map ObjectId.toHex).insertionSort (· ≤ ·) = []
  · rw [hnil] at hmem
    exact absurd (mem_singleton.mp hmem) id.toHex_ne_nil
  · rw [split_intercalate hnil (hline ids')] at hmem
    obtain ⟨id', hid', hhex⟩ := mem_map.mp ((perm_insertionSort _ _).mem_iff.mp hmem)
    exact ObjectId.toHex_injective hhex ▸ hid'

lemma FreshPack.of_wantKey_eq {ids ids' : List ObjectId} {entries : List PackEntry}
    (h : FreshPack server S ids [] entries) (hdigest : Injective server.digest)
    (hkey : server.wantKey ids' = server.wantKey ids) : FreshPack server S ids' [] entries :=
  ⟨h.sent, fun id hid => h.missing id (mem_of_wantKey_eq hdigest hkey hid)⟩

end Reading

/-! ## Runs -/

section Runs

variable {K δ : Type} [DecidableEq δ] {server : Server K δ} {s s' : State δ} {e : Event δ}
  {S : Set (State δ)} {N : Set ℕ}

/-- What holds while readers are kept away from caches that are emptied: as long as a request has
emptied a cache and has not returned, the cache is empty and no reader is on its way to it. -/
structure Flushed (s : State δ) : Prop where
  refs : ∀ q, (s.request q).FlushedRefs → s.refsCache = none ∧ ∀ r, ¬ (s.request r).FillsRefs
  packs : ∀ q, (s.request q).FlushedPacks →
    (∀ key, s.packCache key = none) ∧ ∀ r, ¬ (s.request r).FillsPacks

/-- The rule for a step of one request: it sets out only while no cache has been emptied, it makes
an entry only on its way, and it empties a cache only if nobody is on the way. -/
lemma guarded_update {Fl Fi : Request → Prop} {E E' : Prop} {f : ℕ → Request} {r : ℕ}
    {p : Request} (hs : ∀ q, Fl (f q) → E ∧ ∀ r, ¬ Fi (f r))
    (hfill : Fi p → Fi (f r) ∨ ∀ q, ¬ Fl (f q)) (hempty : E → E' ∨ Fi (f r))
    (hflush : Fl p → Fl (f r) ∨ E' ∧ ¬ Fi p ∧ ∀ r, ¬ Fi (f r)) :
    ∀ q, Fl (update f r p q) → E' ∧ ∀ r', ¬ Fi (update f r p r') := by
  intro q hq
  have hcases : (∃ q₀, Fl (f q₀)) ∨ E' ∧ ¬ Fi p ∧ ∀ r, ¬ Fi (f r) := by
    by_cases hqr : q = r
    · rw [hqr, update_self] at hq
      rcases hflush hq with hr | hr
      · exact .inl ⟨r, hr⟩
      · exact .inr hr
    · rw [update_of_ne hqr] at hq
      exact .inl ⟨q, hq⟩
  obtain ⟨hE', hp, hothers⟩ : E' ∧ ¬ Fi p ∧ ∀ r, ¬ Fi (f r) := by
    rcases hcases with ⟨q₀, hq₀⟩ | h
    · obtain ⟨hE, hnone⟩ := hs q₀ hq₀
      refine ⟨(hempty hE).resolve_right (hnone r), ?_, hnone⟩
      intro hp
      rcases hfill hp with hr | hno
      · exact hnone r hr
      · exact hno q₀ hq₀
    · exact h
  refine ⟨hE', ?_⟩
  intro r'
  by_cases hr' : r' = r
  · rwa [hr', update_self]
  · rw [update_of_ne hr']
    exact hothers r'

lemma flushed_step (hs : Flushed s) (he : Undisturbed server s e)
    (h : server.step s e = some s') : Flushed s' := by
  cases effect_of_step h with
  | @neutral _ _ _ r p hp =>
    constructor
    · refine guarded_update hs.refs ?_ .inl ?_
      · intro hfill
        cases p <;> trivial
      · intro hflush
        cases p <;> try trivial
        exact absurd hp hflush.ne'
    · refine guarded_update hs.packs ?_ .inl ?_
      · intro hfill
        cases p <;> trivial
      · intro hflush
        cases p <;> try trivial
        exact absurd hp hflush.ne'
  | hitRefs | hitPack =>
    exact ⟨guarded_update hs.refs nofun .inl nofun, guarded_update hs.packs nofun .inl nofun⟩
  | @missRefs r ok hr hmiss =>
    simp only [Undisturbed, hr] at he
    exact ⟨guarded_update hs.refs (fun _ => .inr (he hmiss)) .inl nofun,
      guarded_update hs.packs nofun .inl nofun⟩
  | walkRefs hr | readRef hr | sortRefs hr =>
    refine ⟨guarded_update hs.refs (fun _ => .inl ?_) .inl nofun,
      guarded_update hs.packs nofun .inl nofun⟩
    rw [hr]
    trivial
  | cacheRefs hr =>
    refine ⟨guarded_update hs.refs nofun (fun _ => .inr ?_) nofun,
      guarded_update hs.packs nofun .inl nofun⟩
    rw [hr]
    trivial
  | missPack hr hmiss =>
    simp only [Undisturbed, hr] at he
    exact ⟨guarded_update hs.refs nofun .inl nofun,
      guarded_update hs.packs (fun _ => .inr (he hmiss)) .inl nofun⟩
  | readObject hr | endPack hr =>
    refine ⟨guarded_update hs.refs nofun .inl nofun,
      guarded_update hs.packs (fun _ => .inl ?_) .inl nofun⟩
    rw [hr]
    trivial
  | cachePack hr =>
    refine ⟨guarded_update hs.refs nofun .inl nofun,
      guarded_update hs.packs nofun (fun _ => .inr ?_) nofun⟩
    rw [hr]
    trivial
  | skipPack =>
    exact ⟨guarded_update hs.refs nofun .inl nofun, guarded_update hs.packs nofun .inl nofun⟩
  | flushRefs hr =>
    simp only [Undisturbed, hr] at he
    exact ⟨guarded_update hs.refs nofun (fun _ => .inl rfl) fun _ => .inr ⟨rfl, nofun, he⟩,
      guarded_update hs.packs nofun .inl nofun⟩
  | flushPacks hr =>
    simp only [Undisturbed, hr] at he
    refine ⟨guarded_update hs.refs nofun .inl fun _ => .inl ?_,
      guarded_update hs.packs nofun (fun _ => .inl fun _ => rfl)
        fun _ => .inr ⟨fun _ => rfl, nofun, he⟩⟩
    rw [hr]
    trivial
  | evictRefs => exact ⟨fun q hq => ⟨rfl, (hs.refs q hq).2⟩, hs.packs⟩
  | @evictPack key =>
    refine ⟨hs.refs, fun q hq => ⟨?_, (hs.packs q hq).2⟩⟩
    intro key'
    by_cases hkey : key' = key
    · rw [hkey]
      exact update_self ..
    · exact (update_of_ne hkey ..).trans ((hs.packs q hq).1 key')

/-- What has been read is fresh, at every step of a request; answers count for the requests in
question only. -/
def Request.Fresh (server : Server K δ) (S : Set (State δ)) (counts : Prop) : Request → Prop
  | .readRefs names out => FreshRefs S names out
  | .cacheRefs out => FreshRefs S [] out
  | .readPack ids rest entries => FreshPack server S ids rest entries
  | .cachePack ids entries => FreshPack server S ids [] entries
  | .answered (.refs out) => counts → FreshRefs S [] out
  | .answered (.pack ids entries) => counts → FreshPack server S ids [] entries
  | _ => True

/-- What holds from the return of an update on: the caches hold what was read since then. -/
structure Current (server : Server K δ) (S : Set (State δ)) (N : Set ℕ) (s : State δ) : Prop where
  refsCache : ∀ out, s.refsCache = some out → FreshRefs S [] out
  packCache : ∀ ids entries, s.packCache (server.wantKey ids) = some entries →
    FreshPack server S ids [] entries
  request : ∀ r, (s.request r).Fresh server S (r ∈ N)

omit [DecidableEq δ] in
lemma Current.fresh {r : ℕ} {p : Request} (hs : Current server S N s) (hr : s.request r = p) :
    p.Fresh server S (r ∈ N) := hr ▸ hs.request r

omit [DecidableEq δ] in
lemma Current.request_become {r : ℕ} {p : Request} (hs : Current server S N s)
    (hp : p.Fresh server S (r ∈ N)) :
    ∀ q, ((s.become r p).request q).Fresh server S (q ∈ N) := by
  intro q
  by_cases hq : q = r
  · rw [hq, request_become_self]
    exact hp
  · rw [request_become_of_ne hq]
    exact hs.request q

omit [DecidableEq δ] in
/-- A step of a request that keeps the caches. -/
lemma Current.become {r : ℕ} {p : Request} {store : Store} {refs : RefFiles}
    (hs : Current server S N s) (hp : p.Fresh server S (r ∈ N)) :
    Current server S N (State.become { s with store, refs } r p) :=
  ⟨hs.refsCache, hs.packCache, hs.request_become hp⟩

lemma current_step (hdigest : Injective server.digest) (hmem : s ∈ S)
    (hs : Current server S N s) (h : server.step s e = some s') : Current server S N s' := by
  cases effect_of_step h with
  | @neutral _ store refs r p hp =>
    -- Of what a neutral step leads to, nothing has been read.
    refine hs.become ?_
    rcases p with _ | _ | _ | _ | _ | _ | _ | _ | _ | _ | _ | _ | _ | _ | _ | answer
    all_goals try trivial
    cases answer <;> trivial
  | hitRefs hout => exact hs.become fun _ => hs.refsCache _ hout
  | missRefs => exact hs.become trivial
  | walkRefs hr hnames =>
    refine hs.become ⟨nofun, ?_⟩
    intro name hbelow hname _
    exact ⟨s, hmem, refValue_of_refNames hnames hbelow hname⟩
  | readRef hr hout => exact hs.become (FreshRefs.read hmem (hs.fresh hr) hout)
  | sortRefs hr =>
    exact hs.become (FreshRefs.perm (hs.fresh hr) (perm_insertionSort _ _))
  | cacheRefs hr =>
    refine ⟨?_, hs.packCache, hs.request_become fun _ => hs.fresh hr⟩
    rintro out ⟨⟩
    exact hs.fresh hr
  | hitPack hentries => exact hs.become fun _ => hs.packCache _ _ hentries
  | missPack =>
    refine hs.become ⟨nofun, ?_⟩
    intro id hid hrest
    exact absurd hid hrest
  | readObject hr => exact hs.become (FreshPack.read hmem (hs.fresh hr))
  | endPack hr =>
    have hfresh := hs.fresh hr
    exact hs.become hfresh
  | @cachePack r ids entries _ hr =>
    have hfresh : FreshPack server S ids [] entries := hs.fresh hr
    refine ⟨hs.refsCache, ?_, hs.request_become fun _ => hfresh⟩
    intro ids' entries' hentries
    change update s.packCache _ _ _ = _ at hentries
    by_cases hkey : server.wantKey ids' = server.wantKey ids
    · rw [hkey, update_self] at hentries
      cases hentries
      exact hfresh.of_wantKey_eq hdigest hkey
    · rw [update_of_ne hkey] at hentries
      exact hs.packCache ids' entries' hentries
  | skipPack hr => exact hs.become fun _ => hs.fresh hr
  | flushRefs => exact ⟨nofun, hs.packCache, hs.request_become trivial⟩
  | flushPacks => exact ⟨hs.refsCache, nofun, hs.request_become trivial⟩
  | evictRefs => exact ⟨nofun, hs.packCache, hs.request⟩
  | @evictPack key =>
    refine ⟨hs.refsCache, ?_, hs.request⟩
    intro ids entries hentries
    change update s.packCache _ _ _ = _ at hentries
    by_cases hkey : server.wantKey ids = key
    · rw [hkey, update_self] at hentries
      cases hentries
    · rw [update_of_ne hkey] at hentries
      exact hs.packCache ids entries hentries

/-- Where no request has arrived. -/
def Initial (s : State δ) : Prop := ∀ r, s.request r = .unborn

omit [DecidableEq δ] in
lemma Initial.flushed (hs : Initial s) : Flushed s := by
  constructor
  · intro q hq
    rw [hs q] at hq
    exact hq.elim
  · intro q hq
    rw [hs q] at hq
    exact hq.elim

omit [DecidableEq δ] in
/-- Of a request that is not on its way to a cache, only the answer counts. -/
lemma Request.fresh_of_not_fills {p : Request} (hrefs : ¬ p.FillsRefs) (hpacks : ¬ p.FillsPacks) :
    p.Fresh server S (p = .unborn) := by
  rcases p with _ | _ | _ | _ | _ | _ | _ | _ | _ | _ | _ | _ | _ | _ | _ | answer
  all_goals try trivial
  · exact absurd trivial hrefs
  · exact absurd trivial hrefs
  · exact absurd trivial hpacks
  · exact absurd trivial hpacks
  · cases answer <;> first | trivial | exact nofun

/-- When an update returns, the caches are empty and nobody is on the way to them. -/
lemma current_of_finish {q n f : ℕ} {ok : Bool} (hs : Flushed s) (hq : s.request q = .finish n f)
    (hn : 0 < n) (h : server.step s (.proceed q ok) = some s') :
    Current server S {r | s'.request r = .unborn} s' := by
  obtain ⟨hrefs, hfillsRefs⟩ := hs.refs q (by rwa [hq])
  obtain ⟨hpacks, hfillsPacks⟩ := hs.packs q (by rwa [hq])
  simp only [Server.step, Server.proceed, hq, some.injEq] at h
  subst h
  refine ⟨?_, ?_, ?_⟩
  · intro out hout
    exact nomatch hrefs.symm.trans hout
  · intro ids entries hentries
    exact nomatch (hpacks _).symm.trans hentries
  · intro r
    by_cases hr : r = q
    · rw [hr, State.answer, request_become_self]
      trivial
    · have hsame : (s.answer q (.updated n f)).request r = s.request r := request_become_of_ne hr
      rw [Set.mem_ofPred, hsame]
      exact Request.fresh_of_not_fills (hfillsRefs r) (hfillsPacks r)

/-- Readers are answered with what was there since the update has returned, in every run in which no
reader is on its way to a cache while the cache is emptied. -/
theorem fresh_after_update (hdigest : Function.Injective server.digest) {s₀ s₁ s₂ : State δ}
    {before after : List (Event δ)} {q n f r : ℕ} {ok : Bool} (hs₀ : Initial s₀)
    (hbefore : Machine.run server.step s₀ before = some s)
    (hquiet : Machine.Always server.step (Undisturbed server) s₀ before)
    (hq : s.request q = .finish n f) (hn : 0 < n)
    (hreturn : server.step s (.proceed q ok) = some s₁) (hr : s₁.request r = .unborn)
    (hafter : Machine.run server.step s₁ after = some s₂) :
    (∀ out, s₂.request r = .answered (.refs out) →
      FreshRefs {st | st ∈ Machine.trace server.step s₁ after} [] out) ∧
    ∀ ids entries, s₂.request r = .answered (.pack ids entries) →
      FreshPack server {st | st ∈ Machine.trace server.step s₁ after} ids [] entries := by
  set S : Set (State δ) := {st | st ∈ Machine.trace server.step s₁ after} with hS
  have hflushed : Flushed s :=
    Machine.run_invariant (fun _ _ _ => flushed_step) hquiet hbefore hs₀.flushed
  have hcurrent : Current server S {r | s₁.request r = .unborn} s₁ :=
    current_of_finish hflushed hq hn hreturn
  have hall : ∀ st ∈ Machine.trace server.step s₁ after,
      st ∈ S ∧ Current server S {r | s₁.request r = .unborn} st := by
    refine And.left (Machine.trace_isChain (Q := (· ∈ S)) (R := fun _ _ => True) ?_
      (Machine.always_true s₁ after) (fun _ hst => hst) ?_)
    · intro st e st' ⟨hmem, hst⟩ _ hstep hmem'
      exact ⟨⟨hmem', current_step hdigest hmem hst hstep⟩, trivial⟩
    · exact ⟨Machine.self_mem_trace s₁ after, hcurrent⟩
  have hfresh := (hall s₂ (Machine.mem_trace_of_run hafter)).2.request r
  constructor
  · intro out hout
    rw [hout] at hfresh
    exact hfresh hr
  · intro ids entries hentries
    rw [hentries] at hfresh
    exact hfresh hr

/-- A step of a request leaves the others where they are. -/
lemma request_of_proceed {r : ℕ} {ok : Bool} (h : server.proceed s r ok = some s') :
    ∃ p, s'.request = update s.request r p := by
  unfold Server.proceed at h
  split at h <;> (try split at h) <;> cases h <;> exact ⟨_, rfl⟩

/-- Nothing disturbs a request that is alone. -/
lemma undisturbed_of_alone {r : ℕ} {events : List (Event δ)}
    (hs : ∀ q ≠ r, s.request q = .unborn) (hevents : ∀ e ∈ events, ∃ ok, e = .proceed r ok) :
    Machine.Always server.step (Undisturbed server) s events := by
  induction events generalizing s with
  | nil => trivial
  | cons e events ih =>
    obtain ⟨hfirst, hrest⟩ := forall_mem_cons.mp hevents
    obtain ⟨ok, rfl⟩ := hfirst
    refine ⟨?_, fun s' hstep => ih (fun q hq => ?_) hrest⟩
    · have hall : ∀ Q : Request → Prop, ¬ Q (s.request r) → ¬ Q .unborn →
          ∀ q, ¬ Q (s.request q) := by
        intro Q hr hunborn q
        by_cases hq : q = r
        · rwa [hq]
        · rwa [hs q hq]
      unfold Undisturbed
      dsimp only
      split
      · next hr => exact fun _ => hall _ (by rw [hr]; exact not_false) not_false
      · next hr => exact fun _ => hall _ (by rw [hr]; exact not_false) not_false
      · next hr => exact hall _ (by rw [hr]; exact not_false) not_false
      · next hr => exact hall _ (by rw [hr]; exact not_false) not_false
      · trivial
    · obtain ⟨p, hp⟩ := request_of_proceed hstep
      rw [hp, update_of_ne hq, hs q hq]

end Runs

/-- A server whose keys are the lists themselves. -/
def sampleServer : Server Unit Str := ⟨noVerify, sampleConfig, sampleHash, plainXz, id⟩

/-- A repository with one branch and empty caches, where no request has arrived. -/
def sampleState : State Str := ⟨sampleStore, sampleRefs, none, fun _ => none, fun _ => .unborn⟩

/-- The steps of an update up to its return. -/
def sampleSteps : List (Event Str) :=
  .refsUpdate 1 true none (encodeRefUpdates forwardUpdates) :: List.replicate 6 (.proceed 1 true)

/-- A request that lists the references, up to the entry of lines into the cache. -/
def sampleReader (r : ℕ) : List (Event Str) := .infoRefs r :: List.replicate 4 (.proceed r true)

lemma initial_sampleState : Initial sampleState := fun _ => rfl

/-- Nothing disturbs an update that is alone. -/
lemma undisturbed_sampleSteps :
    Machine.Always sampleServer.step (Undisturbed sampleServer) sampleState sampleSteps := by
  refine ⟨trivial, fun s hs => undisturbed_of_alone (r := 1) (fun q hq => ?_) ?_⟩
  · obtain ⟨p, hp⟩ : ∃ p, sampleState.arrive 1 p = some s := ⟨_, hs⟩
    rw [State.arrive, ite_none_right_eq_some, some.injEq] at hp
    obtain ⟨-, rfl⟩ := hp
    rw [request_become_of_ne hq]
    exact initial_sampleState q
  · intro e he
    exact ⟨true, eq_of_mem_replicate he⟩

/-- A request that starts after an update gets the new value of the branch. -/
theorem fresh_after_update_sample :
    ∃ s, Machine.run sampleServer.step sampleState sampleSteps = some s ∧
      s.request 1 = .finish 1 0 ∧
      ∃ s₁, sampleServer.step s (.proceed 1 true) = some s₁ ∧
      ∃ s₂, Machine.run sampleServer.step s₁ (sampleReader 2 ++ [.proceed 2 true]) = some s₂ ∧
        s₂.request 2 = .answered (.refs [(sampleBranch, .fill 2)]) ∧
        FreshRefs {st | st ∈ Machine.trace sampleServer.step s₁
          (sampleReader 2 ++ [.proceed 2 true])} [] [(sampleBranch, .fill 2)] := by
  have hrun : ∃ s ∈ Machine.run sampleServer.step sampleState sampleSteps,
      s.request 1 = .finish 1 0 ∧
        ∃ s₁ ∈ sampleServer.step s (.proceed 1 true), s₁.request 2 = .unborn ∧
        ∃ s₂ ∈ Machine.run sampleServer.step s₁ (sampleReader 2 ++ [.proceed 2 true]),
          s₂.request 2 = .answered (.refs [(sampleBranch, .fill 2)]) := by decide +kernel
  obtain ⟨s, hs, hfinish, s₁, hs₁, hunborn, s₂, hs₂, hanswer⟩ := hrun
  have hfresh := fresh_after_update Function.injective_id initial_sampleState hs
    undisturbed_sampleSteps hfinish Nat.one_pos hs₁ hunborn hs₂
  exact ⟨s, hs, hfinish, s₁, hs₁, s₂, hs₂, hanswer, hfresh.1 _ hanswer⟩

/-- The lines of request 0 are entered, and request 2 gets its answer. -/
def sampleLate : List (Event Str) := [.proceed 0 true, .infoRefs 2, .proceed 2 true]

/-- Lines of before an update are entered after the update has emptied the cache, and are the answer
to a request that starts after the update has returned. -/
theorem stale_after_update :
    Initial sampleState ∧
      ∃ s, Machine.run sampleServer.step sampleState (sampleReader 0 ++ sampleSteps) = some s ∧
        s.request 1 = .finish 1 0 ∧
        ∃ s₁, sampleServer.step s (.proceed 1 true) = some s₁ ∧ s₁.request 2 = .unborn ∧
        ∃ s₂, Machine.run sampleServer.step s₁ sampleLate = some s₂ ∧
          s₂.request 2 = .answered (.refs [(sampleBranch, .fill 1)]) ∧
          ¬ FreshRefs {st | st ∈ Machine.trace sampleServer.step s₁ sampleLate} []
            [(sampleBranch, .fill 1)] := by
  refine ⟨initial_sampleState, ?_⟩
  have hrun : ∃ s ∈ Machine.run sampleServer.step sampleState (sampleReader 0 ++ sampleSteps),
      s.request 1 = .finish 1 0 ∧
        ∃ s₁ ∈ sampleServer.step s (.proceed 1 true), s₁.request 2 = .unborn ∧
        (∀ st ∈ Machine.trace sampleServer.step s₁ sampleLate,
            refValue st.refs sampleBranch = some (.fill 2)) ∧
        ∃ s₂ ∈ Machine.run sampleServer.step s₁ sampleLate,
          s₂.request 2 = .answered (.refs [(sampleBranch, .fill 1)]) := by decide +kernel
  obtain ⟨s, hs, hfinish, s₁, hs₁, hunborn, hvalue, s₂, hs₂, hanswer⟩ := hrun
  refine ⟨s, hs, hfinish, s₁, hs₁, hunborn, s₂, hs₂, hanswer, ?_⟩
  intro hfresh
  obtain ⟨st, hst, hstale⟩ := hfresh.listed sampleBranch (.fill 1) (mem_singleton.mpr rfl)
  rw [hvalue st hst] at hstale
  exact absurd hstale (by decide)

end Gyt.ResponseCache
