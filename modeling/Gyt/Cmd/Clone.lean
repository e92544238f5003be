import Gyt.Cmd.Fetch
import Gyt.Net.Objects

/-!
# The transfer of objects

The loop `walk_and_fetch` of `cmd/clone.rs`, by which `gyt clone` and `gyt fetch` get the objects
that the references of a server need: every round asks for the identifiers of the queue that are not
on disk, stores what comes back, and walks the queue for the identifiers of the next round.

The loop is the one that `gyt fetch` starts, without a limit of depth.  Then no commit is a shallow
boundary, and the set of them is left out.  The server is a parameter: it may answer every request
with anything.  A hash with a cycle would keep the loop going, so the number of rounds is bounded by
a parameter too.

`extends_walkAndFetch` says that the transfer only adds objects.
-/

namespace Gyt

open Command Text Wire

/-- Whether the objects of a reference are transferred. -/
def isUserVisibleRef (name : Str) : Bool :=
  ["refs/heads/", "refs/tags/", "refs/issues/", "refs/prs/", "refs/incidents/"].any
    fun dir => dir.toList.isPrefixOf name

/-- The list of wanted objects that a client sends. -/
def encodeWants (ids : List ObjectId) : Bytes :=
  ids.flatMap fun id => Utf8.encode (id.toHex ++ ['\n'])

/-- A server as the wire protocol shows it. -/
structure WireServer where
  /-- The status, the reason and the body of the response to `GET info/refs`. -/
  infoRefs : Result (ℕ × Str × Bytes)
  /-- The response to the request `POST objects/want` with the given number and body. -/
  objectsWant : ℕ → Bytes → Result (ℕ × Str × Bytes)

/-- The store and the variables of the loop; maps are lists with the last insertion first. -/
structure WalkState where
  objects : Store
  wants : List ObjectId
  downloaded : List ObjectId
  /-- The smallest depth at which a commit was seen. -/
  commitDepth : List (ObjectId × ℕ)
  /-- The depth at which the parents of a commit were walked. -/
  walkedAt : List (ObjectId × ℕ)
  commitPayloads : List (ObjectId × Bytes)
  newObjects : ℕ
  /-- The number of requests so far. -/
  requests : ℕ

namespace WalkState

/-- Putting an identifier into the queue, `enqueue_for_fetch`. -/
def enqueueForFetch (w : WalkState) (id : ObjectId) : WalkState :=
  { w with
    downloaded :=
      if !w.downloaded.contains id && (w.objects.get? id).isSome then id :: w.downloaded
      else w.downloaded
    wants := w.wants ++ [id] }

/-- Putting the value of an advertised reference into the queue. -/
def seedRef (w : WalkState) (r : RefEntry) : WalkState :=
  if isUserVisibleRef r.name then
    { w with
      commitDepth := if (w.commitDepth.lookup r.id).isSome then w.commitDepth
        else (r.id, 0) :: w.commitDepth }.enqueueForFetch r.id
  else w

/-- The state before the first round. -/
def start (s : Store) (serverRefs : List RefEntry) : WalkState :=
  serverRefs.foldl seedRef ⟨s, [], [], [], [], [], 0, 0⟩

/-- Storing an object that was received and has passed the checks. -/
def receive (w : WalkState) (id : ObjectId) (o : Object) : WalkState :=
  let known := (w.objects.get? id).isSome
  { w with
    commitPayloads :=
      if o.kind = .commit then (id, o.payload) :: w.commitPayloads else w.commitPayloads
    objects := if known then w.objects else ⟨w.objects.entries ++ [(id, o)]⟩
    newObjects := if known then w.newObjects else w.newObjects + 1
    downloaded := id :: w.downloaded }

/-- Putting the target of a tag into the queue, as a new tip. -/
def enqueueTarget (w : WalkState) (target : ObjectId) : WalkState :=
  if (w.commitDepth.lookup target).all (0 < ·) then
    { w with commitDepth := (target, 0) :: w.commitDepth }.enqueueForFetch target
  else w

/-- Putting a parent of a commit into the queue, if this is a shorter path to it. -/
def enqueueParent (nextD : ℕ) (w : WalkState) (p : ObjectId) : WalkState :=
  if (w.commitDepth.lookup p).all (nextD < ·) then
    { w with commitDepth := (p, nextD) :: w.commitDepth }.enqueueForFetch p
  else w

/-- Putting the tree and the parents of a commit at depth `d` into the queue. -/
def enqueueCommit (w : WalkState) (d : ℕ) (c : Commit) : WalkState :=
  c.parents.foldl (enqueueParent (min (d + 1) (2 ^ 32 - 1))) (w.enqueueForFetch c.tree)

end WalkState

/-- A step of the transfer. -/
abbrev WalkCmd (α : Type) := Command WalkState GytError α

def checkReceived (id : ObjectId) (o : Object) : Result Unit :=
  let refused (kind : String) (e : GytError) : GytError :=
    .net ("clone: server returned non-canonical " :: .lit kind :: " " :: .str id.toHex ::
      ": " :: e.display)
  let changed (kind : String) : GytError :=
    .net ["clone: ", .lit kind, " ", .str id.toHex,
      " bytes don't round-trip through canonical encoder"]
  match o.kind with
  | .commit => do
    let _ ← mapErr (refused "commit") (Commit.decode o.payload)
  | .tree => do
    let entries ← mapErr (refused "tree") (Tree.decode o.payload)
    ensure (Tree.encode entries = o.payload) (changed "tree")
  | .tag => do
    let t ← mapErr (refused "tag") (Tag.decode o.payload)
    ensure (Tag.encode t = o.payload) (changed "tag")
  | .blob => .ok ()

section Transfer

variable (hashBytes : Hash) (xz : Xz) (server : WireServer)

/-- Storing an entry of the answer to a request. -/
def receiveEntry (requested : List ObjectId) (entry : PackEntry) : WalkCmd Unit := do
  let raw ← lift (Compress.decode xz entry.bytes)
  let id := hashBytes raw
  lift (ensure (requested.contains id)
    (.net ["clone: server returned unsolicited object ", .str id.toHex]))
  let o ← lift (parseRaw raw)
  lift (checkReceived id o)
  act fun w => (.ok (), w.receive id o)

/-- Asking for the identifiers of the queue that are not on disk. -/
def fetchWants : WalkCmd Unit := do
  let toFetch ← gets fun w => (w.wants.filter (!w.downloaded.contains ·)).eraseDups
  if toFetch = [] then return ()
  else do
    let (status, reason, body) ← act fun w =>
      (server.objectsWant w.requests (encodeWants toFetch), { w with requests := w.requests + 1 })
    lift (ensure (status = 200)
      (.net ["POST /objects/want: status ", .num status, " ", .str reason]))
    let entries ← lift (parsePackfile xz body)
    entries.forM (receiveEntry hashBytes xz toFetch)

/-- The kind and the payload of an object; those of received commits are kept in memory. -/
def walkedObject (id : ObjectId) (w : WalkState) : Result Object :=
  match w.commitPayloads.lookup id with
  | some payload => .ok ⟨.commit, payload⟩
  | none => w.objects.read id

/-- Putting what an object mentions into the queue, `walk_one`. -/
def walkOne (id : ObjectId) : WalkCmd Unit := do
  let read ← gets (walkedObject id)
  let o ← lift read
  match o.kind with
  | .blob => return ()
  | .tree => do
    let entries ← lift (Tree.decode o.payload)
    act fun w => (.ok (), entries.foldl (fun w e => w.enqueueForFetch e.hash) w)
  | .tag => do
    let t ← lift (Tag.decode o.payload)
    act fun w => (.ok (), w.enqueueTarget t.target)
  | .commit => do
    let d ← gets fun w => (w.commitDepth.lookup id).getD 0
    let walked ← gets fun w => (w.walkedAt.lookup id).any (· ≤ d)
    if walked then return ()
    else do
      act fun w => (.ok (), { w with walkedAt := (id, d) :: w.walkedAt })
      let c ← lift (Commit.decode o.payload)
      act fun w => (.ok (), w.enqueueCommit d c)

/-- Walking an identifier of the queue; one that the server did not send is passed over. -/
def walkWant (id : ObjectId) : WalkCmd Unit := do
  let downloaded ← gets fun w => w.downloaded.contains id
  if downloaded then walkOne id else return ()

def walkRounds : ℕ → WalkCmd Unit
  | 0 => await none
  | fuel + 1 => do
    let wants ← gets (·.wants)
    if wants = [] then return ()
    else do
      fetchWants hashBytes xz server
      let batch ← act fun w => (.ok w.wants, { w with wants := [] })
      batch.forM walkWant
      walkRounds fuel

/-- The transfer of the objects that some references need, with the number of new objects. -/
def walkAndFetch (fuel : ℕ) (serverRefs : List RefEntry) (s : Store) : Option (Result ℕ × Store) :=
  ((walkRounds hashBytes xz server fuel).run (.start s serverRefs)).map
    fun (r, w) => (r.map fun _ => w.newObjects, w.objects)

/-- The server as `gyt fetch` uses it; a transfer that needs more rounds does not succeed. -/
def WireServer.client (fuel : ℕ) : Remote where
  infoRefs := server.infoRefs
  walkAndFetch serverRefs s :=
    (walkAndFetch hashBytes xz server fuel serverRefs s).getD (.error (.net []), s)

end Transfer

/-! ## The transfer only adds objects -/

/-- The store has all objects that it had. -/
def WalkState.Grows (w w' : WalkState) : Prop := w.objects.Extends w'.objects

instance : Std.Refl WalkState.Grows := ⟨fun w => .refl w.objects⟩

instance : IsTrans WalkState WalkState.Grows := ⟨fun _ _ _ h h' => h.trans h'⟩

section Grows

variable {hashBytes : Hash} {xz : Xz} {server : WireServer}

namespace WalkState

lemma objects_foldl {α : Type} {f : WalkState → α → WalkState}
    (hf : ∀ w a, (f w a).objects = w.objects) (l : List α) (w : WalkState) :
    (l.foldl f w).objects = w.objects := by
  induction l generalizing w with
  | nil => rfl
  | cons a l ih => rw [List.foldl_cons, ih, hf]

lemma objects_enqueueTarget (w : WalkState) (target : ObjectId) :
    (w.enqueueTarget target).objects = w.objects := by
  unfold enqueueTarget
  split_ifs <;> rfl

lemma objects_enqueueCommit (w : WalkState) (d : ℕ) (c : Commit) :
    (w.enqueueCommit d c).objects = w.objects := by
  unfold enqueueCommit
  rw [objects_foldl]
  · rfl
  · intro w p
    unfold enqueueParent
    split_ifs <;> rfl

lemma objects_start (s : Store) (serverRefs : List RefEntry) :
    (start s serverRefs).objects = s := by
  unfold start
  rw [objects_foldl]
  intro w r
  unfold seedRef
  split_ifs <;> rfl

lemma grows_receive (w : WalkState) (id : ObjectId) (o : Object) : w.Grows (w.receive id o) := by
  unfold receive Grows
  dsimp only
  split_ifs
  · exact .refl _
  · exact Store.extends_append _ _

end WalkState

/-- A change of the other variables leaves the store. -/
lemma within_grows_act {α : Type} {f : WalkState → Result α × WalkState}
    (hf : ∀ w, (f w).2.objects = w.objects) : Within WalkState.Grows (act f) := by
  apply within_act
  intro w
  unfold WalkState.Grows
  rw [hf]

lemma within_receiveEntry (requested : List ObjectId) (entry : PackEntry) :
    Within WalkState.Grows (receiveEntry hashBytes xz requested entry) := by
  unfold receiveEntry
  refine (within_lift _).bind fun raw => (within_lift _).bind fun _ =>
    (within_lift _).bind fun o => ?_
  refine (within_lift _).bind fun _ => within_act fun w => ?_
  exact w.grows_receive _ o

lemma within_fetchWants : Within WalkState.Grows (fetchWants hashBytes xz server) := by
  unfold fetchWants
  refine (within_gets _).bind fun toFetch => ?_
  split_ifs
  · exact within_pure ()
  · refine (within_grows_act fun w => rfl).bind fun response => (within_lift _).bind fun _ => ?_
    exact (within_lift _).bind fun entries => within_forM fun entry => within_receiveEntry _ entry

lemma within_walkOne (id : ObjectId) : Within WalkState.Grows (walkOne id) := by
  unfold walkOne
  refine (within_gets _).bind fun read => (within_lift _).bind fun o => ?_
  split
  · exact within_pure ()
  · refine (within_lift _).bind fun entries => within_grows_act fun w => ?_
    exact WalkState.objects_foldl (f := fun w e => w.enqueueForFetch e.hash)
      (fun w e => rfl) entries w
  · exact (within_lift _).bind fun t => within_grows_act fun w => w.objects_enqueueTarget t.target
  · refine (within_gets _).bind fun d => (within_gets _).bind fun walked => ?_
    split_ifs
    · exact within_pure ()
    · refine (within_grows_act fun w => rfl).bind fun _ => (within_lift _).bind fun c => ?_
      exact within_grows_act fun w => w.objects_enqueueCommit d c

lemma within_walkWant (id : ObjectId) : Within WalkState.Grows (walkWant id) := by
  unfold walkWant
  refine (within_gets _).bind fun downloaded => ?_
  split_ifs
  · exact within_walkOne id
  · exact within_pure ()

lemma within_walkRounds (fuel : ℕ) :
    Within WalkState.Grows (walkRounds hashBytes xz server fuel) := by
  induction fuel with
  | zero => exact within_await none
  | succ fuel ih =>
    refine (within_gets _).bind fun wants => ?_
    split_ifs
    · exact within_pure ()
    · refine within_fetchWants.bind fun _ => (within_grows_act fun w => rfl).bind fun batch => ?_
      exact (within_forM within_walkWant).bind fun _ => ih

/-- A transfer only adds objects, whatever the server answers. -/
theorem extends_walkAndFetch (fuel : ℕ) (serverRefs : List RefEntry) (s : Store) :
    s.Extends ((server.client hashBytes xz fuel).walkAndFetch serverRefs s).2 := by
  unfold WireServer.client walkAndFetch
  dsimp only
  cases hrun : (walkRounds hashBytes xz server fuel).run (.start s serverRefs) with
  | none => exact .refl s
  | some p =>
    obtain ⟨r, w⟩ := p
    have hgrows := within_walkRounds fuel _ r w hrun
    unfold WalkState.Grows at hgrows
    rwa [WalkState.objects_start] at hgrows

end Grows

end Gyt
