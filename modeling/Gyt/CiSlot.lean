import Gyt.Config
import Gyt.FileLock
import Gyt.Object.Id

/-!
# Slots of continuous integration

The slots of `ci_wasm.rs`: the runs of a domain take turns under a file lock, and a run in the mode
`interrupt` makes the run that has the lock give up.  For that the run with the lock publishes a
token in a file and stops when the file does not hold its token any more; a run that interrupts
overwrites the file before it waits for the lock.

The machine below has any number of processes.  Its events are the writes and reads of the file and
the calls of the file lock, in any order; a process may crash at any time.  A run that has the lock
but has not published its token yet overwrites the token of a run that interrupts it.
`preempted_iff` says that this is the only way in which an interruption is lost.
-/

namespace Gyt.CiSlot

open List FileLock FileLock.State Option Text

/-- The random bytes of a run. -/
structure Nonce where
  bytes : Bytes
  length_bytes : bytes.length = 16
  deriving DecidableEq, Repr

/-- The token of a run, from the number of its process and its random bytes. -/
def makeToken (pid : ℕ) (nonce : Nonce) : Str :=
  ofNat pid ++ ' ' :: nonce.bytes.flatMap ObjectId.hexPair

/-- What a process does in a domain. -/
inductive Phase where
  /-- Nothing. -/
  | outside
  /-- Overwriting the token of the run with the lock. -/
  | stealing (nonce : Nonce)
  /-- Waiting for the lock. -/
  | waiting (nonce : Nonce)
  /-- Publishing its token, with the lock. -/
  | acquired (nonce : Nonce)
  /-- Running, with the lock. -/
  | running (nonce : Nonce)
  /-- Removing its token. -/
  | removing
  /-- Releasing the lock. -/
  | releasing
  deriving DecidableEq, Repr

/-- The content of the file with the token, the processes, and the lock. -/
structure State where
  marker : Option Str
  phase : ℕ → Phase
  lock : FileLock.State

/-- What can happen.  Reads and writes of the file can fail, and so can waiting for the lock. -/
inductive Event where
  /-- Calling `enter`. -/
  | enter (pid : ℕ) (mode : CiJobMode) (nonce : Nonce)
  /-- The first write of a run that interrupts. -/
  | steal (pid : ℕ)
  /-- A call of the file lock while a process waits for it. -/
  | lock (pid : ℕ) (action : FileLock.Action)
  /-- The write of a run that has got the lock. -/
  | publish (pid : ℕ)
  /-- A write of the token that fails. -/
  | fail (pid : ℕ)
  /-- Calling `still_owner`. -/
  | check (pid : ℕ) (readable : Bool)
  /-- Dropping the slot, up to the read of the file. -/
  | drop (pid : ℕ) (readable : Bool)
  /-- Removing the file. -/
  | remove (pid : ℕ) (removed : Bool)
  /-- Releasing the lock. -/
  | release (pid : ℕ)
  | crash (pid : ℕ)
  | clock (now : ℕ)
  deriving DecidableEq, Repr

namespace State

variable (hasProc : Bool) (s : State) (pid : ℕ)

/-- The state with a process in another phase. -/
def become (phase : Phase) : State := { s with phase := Function.update s.phase pid phase }

/-- The state after a process wrote its token. -/
def write (nonce : Nonce) : State := { s with marker := some (makeToken pid nonce ++ ['\n']) }

/-- Whether the file holds the token of a run. -/
def holdsToken (nonce : Nonce) (readable : Bool) : Bool :=
  readable && s.marker.any fun content => trim content = makeToken pid nonce

/-- What `still_owner` answers to a run. -/
def stillOwner (readable : Bool) : Bool :=
  match s.phase pid with
  | .running nonce => s.holdsToken pid nonce readable
  | _ => false

/-- A process starts to wait for the lock. -/
def await (nonce : Nonce) : Option State :=
  (s.lock.act hasProc pid .acquire).map fun lock =>
    State.become { s with lock } pid (.waiting nonce)

/-- The phase of a process after a call of the file lock. -/
def afterLock (nonce : Nonce) : FileLock.Phase → Phase
  | .holding _ => .acquired nonce
  | .idle => .outside
  | _ => .waiting nonce

def step : Event → Option State
  | .enter pid mode nonce =>
    match s.phase pid, mode with
    | .outside, .parallel => some s
    | .outside, .queue => s.await hasProc pid nonce
    | .outside, .interrupt =>
      -- A process that has crashed enters nothing.
      if s.lock.phase pid = .idle then some (s.become pid (.stealing nonce)) else none
    | _, _ => none
  | .steal pid =>
    match s.phase pid with
    | .stealing nonce => (s.write pid nonce).await hasProc pid nonce
    | _ => none
  | .lock pid action =>
    match s.phase pid with
    | .waiting nonce =>
      if action = .proceed ∨ action = .fail then
        (s.lock.act hasProc pid action).map fun lock =>
          State.become { s with lock } pid (afterLock nonce (lock.phase pid))
      else none
    | _ => none
  | .publish pid =>
    match s.phase pid with
    | .acquired nonce => some ((s.write pid nonce).become pid (.running nonce))
    | _ => none
  | .fail pid =>
    match s.phase pid with
    | .stealing _ => some (s.become pid .outside)
    | .acquired _ => some (s.become pid .releasing)
    | _ => none
  | .check pid _ =>
    match s.phase pid with
    | .running _ => some s
    | _ => none
  | .drop pid readable =>
    match s.phase pid with
    | .running nonce =>
      some (s.become pid (if s.holdsToken pid nonce readable then .removing else .releasing))
    | _ => none
  | .remove pid removed =>
    match s.phase pid with
    | .removing =>
      some (State.become { s with marker := if removed then none else s.marker } pid .releasing)
    | _ => none
  | .release pid =>
    match s.phase pid with
    | .releasing =>
      (s.lock.act hasProc pid .release).map fun lock => State.become { s with lock } pid .outside
    | _ => none
  | .crash pid =>
    (s.lock.act hasProc pid .crash).map fun lock => State.become { s with lock } pid .outside
  | .clock now => some { s with lock := { s.lock with now } }

end State

/-! ## Interruptions -/

/-- Whether a process leaves its slot by an event. -/
def Event.Leaves (pid : ℕ) (e : Event) : Prop :=
  (∃ readable, e = .drop pid readable) ∨ e = .release pid

/-- Whether the checks of a run fail from some point on, however the processes go on: in every
sequence of events without an end, all its checks from some point on fail, until it leaves its
slot. -/
def Preempted (hasProc : Bool) (s : State) (pid : ℕ) : Prop :=
  ∀ states events, Machine.Endless (State.step hasProc) s states events →
    ∃ j, ∀ k, j ≤ k → (∀ i < k, ¬ (events i).Leaves pid) →
      ∀ readable, events k = .check pid readable → (states k).stillOwner pid readable = false

/-- Whether the checks of a run fail from now on, until it leaves its slot. -/
def PreemptedNow (hasProc : Bool) (s : State) (pid : ℕ) : Prop :=
  ∀ states events, Machine.Endless (State.step hasProc) s states events →
    ∀ k, (∀ i < k, ¬ (events i).Leaves pid) →
      ∀ readable, events k = .check pid readable → (states k).stillOwner pid readable = false

/-! ## What events change -/

def Event.pid : Event → Option ℕ
  | .enter pid _ _ | .steal pid | .lock pid _ | .publish pid | .fail pid | .check pid _
  | .drop pid _ | .remove pid _ | .release pid | .crash pid => some pid
  | .clock _ => none

/-- The phases of a process that has the lock. -/
def Phase.HasLock : Phase → Prop
  | .outside | .stealing _ | .waiting _ => False
  | .acquired _ | .running _ | .removing | .releasing => True

section Step

variable {hasProc : Bool} {s s' : State} {e : Event} {p q i : ℕ} {nonce : Nonce}

@[simp] lemma phase_become_self (s : State) (p : ℕ) (phase : Phase) :
    (s.become p phase).phase p = phase := Function.update_self ..

@[simp] lemma phase_become_of_ne {phase : Phase} (h : q ≠ p) :
    (s.become p phase).phase q = s.phase q := Function.update_of_ne h ..

/-- A call of the file lock changes the phase of its process only. -/
lemma phase_act_of_ne {st st' : FileLock.State} {action : FileLock.Action}
    (h : st.act hasProc p action = some st') (hq : q ≠ p) : st'.phase q = st.phase q := by
  cases action with
  | acquire | crash =>
    simp only [act, ite_none_left_eq_some, ite_none_right_eq_some,
      some.injEq] at h
    obtain ⟨-, rfl⟩ := h
    exact FileLock.phase_enter_of_ne hq
  | proceed =>
    simp only [act, proceed] at h
    split at h
    case h_1 | h_2 | h_3 => cases h
    case h_4 | h_8 =>
      split at h
      all_goals
        cases h
        exact FileLock.phase_enter_of_ne hq
    all_goals
      cases h
      exact FileLock.phase_enter_of_ne hq
  | fail =>
    simp only [act, fail] at h
    split at h
    case h_4 => cases h
    all_goals
      cases h
      exact FileLock.phase_enter_of_ne hq
  | release =>
    simp only [act] at h
    split at h
    · cases h
      exact FileLock.phase_enter_of_ne hq
    · cases h

/-- A process that starts to wait changes its own phases, and nothing else. -/
lemma await_eq_some (h : s.await hasProc p nonce = some s') :
    ∃ lock, s.lock.act hasProc p .acquire = some lock ∧
      s' = State.become { s with lock } p (.waiting nonce) := by
  obtain ⟨lock, hlock, rfl⟩ := map_eq_some_iff.mp h
  exact ⟨lock, hlock, rfl⟩

/-- What an event does: its process gets another phase, the lock is called for it, and the file may
be written or removed. -/
inductive Effect (hasProc : Bool) (s : State) : Event → State → Prop
  | enterParallel {p : ℕ} {nonce : Nonce} (hphase : s.phase p = .outside) :
      Effect hasProc s (.enter p .parallel nonce) s
  | enterQueue {p : ℕ} {nonce : Nonce} {lock : FileLock.State} (hphase : s.phase p = .outside)
      (hlock : s.lock.act hasProc p .acquire = some lock) :
      Effect hasProc s (.enter p .queue nonce) (State.become { s with lock } p (.waiting nonce))
  | enterInterrupt {p : ℕ} {nonce : Nonce} (hphase : s.phase p = .outside)
      (hlock : s.lock.phase p = .idle) :
      Effect hasProc s (.enter p .interrupt nonce) (s.become p (.stealing nonce))
  | steal {p : ℕ} {nonce : Nonce} {lock : FileLock.State} (hphase : s.phase p = .stealing nonce)
      (hlock : s.lock.act hasProc p .acquire = some lock) :
      Effect hasProc s (.steal p)
        (State.become { s.write p nonce with lock } p (.waiting nonce))
  | lock {p : ℕ} {nonce : Nonce} {action : FileLock.Action} {lock : FileLock.State}
      (hphase : s.phase p = .waiting nonce) (hlock : s.lock.act hasProc p action = some lock) :
      Effect hasProc s (.lock p action)
        (State.become { s with lock } p (State.afterLock nonce (lock.phase p)))
  | publish {p : ℕ} {nonce : Nonce} (hphase : s.phase p = .acquired nonce) :
      Effect hasProc s (.publish p) ((s.write p nonce).become p (.running nonce))
  | failSteal {p : ℕ} {nonce : Nonce} (hphase : s.phase p = .stealing nonce) :
      Effect hasProc s (.fail p) (s.become p .outside)
  | failPublish {p : ℕ} {nonce : Nonce} (hphase : s.phase p = .acquired nonce) :
      Effect hasProc s (.fail p) (s.become p .releasing)
  | check {p : ℕ} {nonce : Nonce} {readable : Bool} (hphase : s.phase p = .running nonce) :
      Effect hasProc s (.check p readable) s
  | drop {p : ℕ} {nonce : Nonce} {readable : Bool} (hphase : s.phase p = .running nonce) :
      Effect hasProc s (.drop p readable)
        (s.become p (if s.holdsToken p nonce readable then .removing else .releasing))
  | remove {p : ℕ} {removed : Bool} (hphase : s.phase p = .removing) :
      Effect hasProc s (.remove p removed)
        (State.become { s with marker := if removed then none else s.marker } p .releasing)
  | release {p : ℕ} {lock : FileLock.State} (hphase : s.phase p = .releasing)
      (hlock : s.lock.act hasProc p .release = some lock) :
      Effect hasProc s (.release p) (State.become { s with lock } p .outside)
  | crash {p : ℕ} {lock : FileLock.State} (hlock : s.lock.act hasProc p .crash = some lock) :
      Effect hasProc s (.crash p) (State.become { s with lock } p .outside)
  | clock {now : ℕ} : Effect hasProc s (.clock now) { s with lock := { s.lock with now } }

section

variable (h : s.step hasProc e = some s')

include h

lemma effect_of_step : Effect hasProc s e s' := by
  cases e with
  | enter p mode nonce =>
    simp only [State.step] at h
    split at h
    · next hphase =>
      cases h
      exact .enterParallel hphase
    · next hphase =>
      obtain ⟨lock, hlock, rfl⟩ := await_eq_some h
      exact .enterQueue hphase hlock
    · next hphase =>
      split_ifs at h with hlock
      cases h
      exact .enterInterrupt hphase hlock
    · cases h
  | steal p =>
    simp only [State.step] at h
    split at h
    · next nonce hphase =>
      obtain ⟨lock, hlock, rfl⟩ := await_eq_some h
      exact .steal hphase hlock
    · cases h
  | lock p action =>
    simp only [State.step] at h
    split at h
    · next nonce hphase =>
      split_ifs at h
      obtain ⟨lock, hlock, rfl⟩ := map_eq_some_iff.mp h
      exact .lock hphase hlock
    · cases h
  | publish p =>
    simp only [State.step] at h
    split at h
    · next nonce hphase =>
      cases h
      exact .publish hphase
    · cases h
  | fail p =>
    simp only [State.step] at h
    split at h
    · next nonce hphase =>
      cases h
      exact .failSteal hphase
    · next nonce hphase =>
      cases h
      exact .failPublish hphase
    · cases h
  | check p readable =>
    simp only [State.step] at h
    split at h
    · next nonce hphase =>
      cases h
      exact .check hphase
    · cases h
  | drop p readable =>
    simp only [State.step] at h
    split at h
    · next nonce hphase =>
      cases h
      exact .drop hphase
    · cases h
  | remove p removed =>
    simp only [State.step] at h
    split at h
    · next hphase =>
      cases h
      exact .remove hphase
    · cases h
  | release p =>
    simp only [State.step] at h
    split at h
    · next hphase =>
      obtain ⟨lock, hlock, rfl⟩ := map_eq_some_iff.mp h
      exact .release hphase hlock
    · cases h
  | crash p =>
    obtain ⟨lock, hlock, rfl⟩ := map_eq_some_iff.mp h
    exact .crash hlock
  | clock now =>
    cases h
    exact .clock

/-- Events of other processes leave the phases of a process. -/
lemma phase_step_of_ne (hq : e.pid ≠ some q) :
    s'.phase q = s.phase q ∧ s'.lock.phase q = s.lock.phase q := by
  have hne : ∀ {p : ℕ}, e.pid = some p → q ≠ p := by
    rintro p hp rfl
    exact hq hp
  cases effect_of_step h with
  | enterParallel | check | clock => exact ⟨rfl, rfl⟩
  | enterQueue _ hlock | steal _ hlock | lock _ hlock | release _ hlock | crash hlock =>
    exact ⟨phase_become_of_ne (hne rfl), phase_act_of_ne hlock (hne rfl)⟩
  | enterInterrupt | publish | failSteal | failPublish | drop | remove =>
    exact ⟨phase_become_of_ne (hne rfl), rfl⟩

/-- An event leaves the file, removes it, or writes the token of its process, which has another one
to write. -/
lemma marker_step : s'.marker = s.marker ∨ s'.marker = none ∨ ∃ p nonce, e.pid = some p ∧
      (s.phase p = .stealing nonce ∨ s.phase p = .acquired nonce) ∧
        s'.marker = some (makeToken p nonce ++ ['\n']) := by
  cases effect_of_step h with
  | @steal p nonce _ hphase => exact .inr (.inr ⟨p, nonce, rfl, .inl hphase, rfl⟩)
  | @publish p nonce hphase => exact .inr (.inr ⟨p, nonce, rfl, .inr hphase, rfl⟩)
  | @remove p removed _ =>
    cases removed with
    | true => exact .inr (.inl rfl)
    | false => exact .inl rfl
  | _ => exact .inl rfl

end

/-! ## Tokens -/

/-- A token does not end in whitespace. -/
lemma isWhitespace_getLast_makeToken {c : Char} (hc : (makeToken p nonce).getLast? = some c) :
    isWhitespace c = false := by
  have hpair : ∀ b : UInt8, (ObjectId.hexPair b).all (!isWhitespace ·) = true :=
    ObjectId.forall_byte (by decide +kernel)
  obtain ⟨init, b, hbytes⟩ : ∃ init b, nonce.bytes = init ++ [b] := by
    have hne : nonce.bytes ≠ [] := by
      intro hnil
      have hlen := nonce.length_bytes
      rw [hnil] at hlen
      cases hlen
    exact ⟨_, _, (dropLast_append_getLast hne).symm⟩
  have hmem : c ∈ ObjectId.hexPair b := by
    simp only [makeToken, hbytes, flatMap_append, flatMap_singleton, ObjectId.hexPair,
      getLast?_append, getLast?_cons] at hc ⊢
    simp_all
  simpa using all_eq_true.mp (hpair b) c hmem

/-- A token is read back from the file. -/
lemma trim_makeToken (p : ℕ) (nonce : Nonce) :
    trim (makeToken p nonce ++ ['\n']) = makeToken p nonce := by
  rw [trim_append_space (by decide)]
  refine trim_eq_self_of_ends ?_ fun c hc => isWhitespace_getLast_makeToken hc
  intro c hc
  have hdigits : ofNat p ≠ [] := Nat.toDigits_ne_nil
  rw [makeToken, head?_append_of_ne_nil _ hdigits] at hc
  exact isWhitespace_of_isDigit (isDigit_of_mem_ofNat (mem_of_mem_head? hc))

/-- The number of the process is read back from a token. -/
lemma splitOnce_makeToken (p : ℕ) (nonce : Nonce) : splitOnce [' '] (makeToken p nonce) =
      some (ofNat p, nonce.bytes.flatMap ObjectId.hexPair) := by
  have hdigits : ' ' ∉ ofNat p := by
    intro h
    cases isDigit_of_mem_ofNat h
  exact splitOnce_append_cons hdigits _

/-- The tokens of two processes are not the same. -/
lemma makeToken_ne (h : p ≠ q) (nonce nonce' : Nonce) :
    makeToken p nonce ≠ makeToken q nonce' := by
  intro heq
  have hsplit := splitOnce_makeToken p nonce
  rw [heq, splitOnce_makeToken] at hsplit
  have hdigits : ofNat q = ofNat p := congrArg Prod.fst (some.inj hsplit)
  apply h
  rw [← ofDigitChars_ofNat p, ← hdigits, ofDigitChars_ofNat]

/-! ## Runs -/

/-- The processes that have the lock are in a phase for it. -/
def Locked (s : State) : Prop := ∀ p i, s.lock.phase p = .holding i → (s.phase p).HasLock

lemma locked_step (hs : Locked s) (h : s.step hasProc e = some s') : Locked s' := by
  intro q i hq
  by_cases hpid : e.pid = some q
  · cases effect_of_step h with
    | enterParallel | check | clock => exact hs q i hq
    | enterQueue _ hlock | steal _ hlock =>
      -- The lock starts with the creation of its file.
      cases hpid
      simp only [State.act, ite_none_right_eq_some, some.injEq] at hlock
      obtain ⟨-, rfl⟩ := hlock
      simp [State.become] at hq
    | enterInterrupt _ hlock =>
      cases hpid
      rw [State.become, hlock] at hq
      cases hq
    | @lock p nonce _ lock _ _ =>
      cases hpid
      have hafter : lock.phase q = .holding i := hq
      rw [phase_become_self, hafter]
      trivial
    | publish | failPublish | remove =>
      cases hpid
      rw [phase_become_self]
      trivial
    | failSteal hphase =>
      cases hpid
      have hlocked := hs q i hq
      rw [hphase] at hlocked
      exact hlocked.elim
    | drop =>
      cases hpid
      rw [phase_become_self]
      split_ifs <;> trivial
    | release _ hlock =>
      cases hpid
      simp only [State.act] at hlock
      split at hlock
      · cases hlock
        simp [State.become] at hq
      · cases hlock
    | crash hlock =>
      cases hpid
      simp only [State.act, ite_none_left_eq_some, some.injEq] at hlock
      obtain ⟨-, rfl⟩ := hlock
      simp [State.become] at hq
  · obtain ⟨hphase, hlock⟩ := phase_step_of_ne h hpid
    rw [hphase]
    exact hs q i (hlock ▸ hq)

/-- Whether a run has lost its slot, until it leaves it: its token is gone from the file, or it
makes no checks any more. -/
def Lost (s : State) (q : ℕ) : Prop :=
  (∃ nonce, s.phase q = .running nonce ∧ s.holdsToken q nonce true = false) ∨
    s.phase q = .removing ∨ s.phase q = .releasing ∨
      (s.phase q = .outside ∧ s.lock.phase q = .crashed)

lemma Lost.stillOwner (h : Lost s q) (readable : Bool) : s.stillOwner q readable = false := by
  unfold State.stillOwner
  rcases h with ⟨nonce, hphase, htoken⟩ | hphase | hphase | ⟨hphase, -⟩
  · rw [hphase]
    cases readable
    · rfl
    · exact htoken
  · rw [hphase]
  · rw [hphase]
  · rw [hphase]

/-- What another process does to the file does not bring a token back. -/
lemma holdsToken_step (hq : s.phase q = .running nonce) (h : s.step hasProc e = some s')
    (htoken : s.holdsToken q nonce true = false) : s'.holdsToken q nonce true = false := by
  rcases marker_step h with hmarker | hmarker | ⟨p, nonce', -, hphase, hmarker⟩
  · rw [State.holdsToken, hmarker]
    exact htoken
  · rw [State.holdsToken, hmarker]
    rfl
  · have hne : p ≠ q := by
      rintro rfl
      rw [hq] at hphase
      rcases hphase with hphase | hphase <;> cases hphase
    rw [State.holdsToken, hmarker]
    simpa [trim_makeToken] using makeToken_ne hne nonce' nonce

/-- A run that has lost its slot does not get it back before it leaves it. -/
lemma lost_step (hs : Lost s q) (he : ¬ e.Leaves q) (h : s.step hasProc e = some s') :
    Lost s' q := by
  by_cases hpid : e.pid = some q
  · cases effect_of_step h with
    | enterParallel | check => exact hs
    | clock => cases hpid
    | drop =>
      cases hpid
      exact absurd (.inl ⟨_, rfl⟩) he
    | release =>
      cases hpid
      exact absurd (.inr rfl) he
    | remove =>
      cases hpid
      exact .inr (.inr (.inl (phase_become_self ..)))
    | crash hlock =>
      cases hpid
      simp only [State.act, ite_none_left_eq_some, some.injEq] at hlock
      obtain ⟨-, rfl⟩ := hlock
      exact .inr (.inr (.inr ⟨phase_become_self .., phase_enter_self ..⟩))
    | enterQueue hphase hlock =>
      cases hpid
      simp only [State.act, ite_none_right_eq_some] at hlock
      simp [Lost, hphase, hlock.1] at hs
    | enterInterrupt hphase hlock =>
      cases hpid
      simp [Lost, hphase, hlock] at hs
    | steal hphase | lock hphase | publish hphase | failSteal hphase | failPublish hphase =>
      cases hpid
      simp [Lost, hphase] at hs
  · obtain ⟨hphase, hlock⟩ := phase_step_of_ne h hpid
    rcases hs with ⟨nonce, hq, htoken⟩ | hq | hq | hq
    · exact .inl ⟨nonce, hphase.trans hq, holdsToken_step hq h htoken⟩
    · exact .inr (.inl (hphase.trans hq))
    · exact .inr (.inr (.inl (hphase.trans hq)))
    · exact .inr (.inr (.inr ⟨hphase.trans hq.1, hlock.trans hq.2⟩))

/-- The checks of a run that has lost its slot fail. -/
lemma Lost.preemptedNow (h : Lost s q) : PreemptedNow hasProc s q := by
  intro states events hrun k hk readable _
  have hlost : Lost (states k) q :=
    hrun.invariant (fun _ _ _ hs he hstep => lost_step hs he hstep) h hk
  exact hlost.stillOwner readable

lemma PreemptedNow.preempted (h : PreemptedNow hasProc s q) : Preempted hasProc s q := by
  intro states events hrun
  refine ⟨0, ?_⟩
  intro k _ hk
  exact h states events hrun k hk

/-- A run that is about to publish its token can do so, and find it at all its checks. -/
lemma not_preempted_of_acquired (h : s.phase q = .acquired nonce) : ¬ Preempted hasProc s q := by
  intro hpreempted
  let running : State := (s.write q nonce).become q (.running nonce)
  let states (i : ℕ) : State := i.casesOn s fun _ => running
  let events (i : ℕ) : Event := i.casesOn (.publish q) fun _ => .check q true
  have hphase : running.phase q = .running nonce := phase_become_self ..
  have hrun : Machine.Endless (State.step hasProc) s states events := by
    refine ⟨rfl, ?_⟩
    rintro (_ | k)
    · change State.step hasProc s (.publish q) = some running
      simp only [State.step, h, running]
    · change State.step hasProc running (.check q true) = some running
      simp only [State.step, hphase]
  have hleaves : ∀ i, ¬ (events i).Leaves q := by
    rintro (_ | i) (⟨_, h⟩ | h) <;> cases h
  obtain ⟨j, hj⟩ := hpreempted states events hrun
  have hcheck := hj (j + 1) (Nat.le_succ j) (fun i _ => hleaves i) true rfl
  have howner : running.stillOwner q true = true := by
    simp [State.stillOwner, State.holdsToken, running, State.become, State.write, trim_makeToken]
  exact absurd (howner.symm.trans hcheck) (by decide)

end Step

/-- Whether no process is in the domain. -/
def Initial (s : State) : Prop := ∀ p, s.phase p = .outside ∧ s.lock.phase p = .idle

lemma Initial.locked {s : State} (h : Initial s) : Locked s := by
  intro p i hp
  rw [(h p).2] at hp
  cases hp

/-- A run that holds the lock when another process overwrites its token is interrupted, whatever
happens afterwards, exactly if it has published its own token before. -/
theorem preempted_iff {hasProc : Bool} {s₀ s s' : State} {events : List Event} {p q i : ℕ}
    (hinit : Initial s₀) (hrun : Machine.run (State.step hasProc) s₀ events = some s)
    (hsteal : s.step hasProc (.steal p) = some s') (hq : s.lock.phase q = .holding i) :
    (Preempted hasProc s' q ↔ ∀ nonce, s.phase q ≠ .acquired nonce) ∧
      (PreemptedNow hasProc s' q ↔ ∀ nonce, s.phase q ≠ .acquired nonce) := by
  have hlocked : (s.phase q).HasLock :=
    Machine.run_invariant (fun _ _ _ hs _ h => locked_step hs h) (Machine.always_true _ _) hrun
      hinit.locked q i hq
  obtain ⟨nonce, hp, hmarker⟩ : ∃ nonce, s.phase p = .stealing nonce ∧
      s'.marker = some (makeToken p nonce ++ ['\n']) := by
    cases effect_of_step hsteal with
    | steal hphase => exact ⟨_, hphase, rfl⟩
  have hne : p ≠ q := by
    rintro rfl
    rw [hp] at hlocked
    exact hlocked
  obtain ⟨hphase, -⟩ := phase_step_of_ne hsteal (q := q) (by simpa [Event.pid] using hne)
  have hnow : (∀ nonce, s.phase q ≠ .acquired nonce) → PreemptedNow hasProc s' q := by
    intro hpublished
    apply Lost.preemptedNow
    rw [Lost, hphase]
    cases hcase : s.phase q with
    | running nonce' =>
      refine .inl ⟨nonce', rfl, ?_⟩
      rw [State.holdsToken, hmarker]
      simpa [trim_makeToken] using makeToken_ne hne nonce nonce'
    | removing => exact .inr (.inl rfl)
    | releasing => exact .inr (.inr (.inl rfl))
    | acquired nonce' => exact absurd hcase (hpublished nonce')
    | outside | stealing | waiting =>
      rw [hcase] at hlocked
      exact hlocked.elim
  have hpublished : Preempted hasProc s' q → ∀ nonce, s.phase q ≠ .acquired nonce := by
    intro hpreempted nonce' hacquired
    exact not_preempted_of_acquired (hphase.trans hacquired) hpreempted
  exact ⟨⟨hpublished, fun h => (hnow h).preempted⟩, fun h => hpublished h.preempted, hnow⟩

/-- A domain without files and processes. -/
def emptyDomain : State := ⟨none, fun _ => .outside, ⟨none, fun _ => .idle, 0, 0⟩⟩

def sampleNonce (b : UInt8) : Nonce := ⟨List.replicate 16 b, List.length_replicate⟩

/-- Process 1 takes the lock. -/
def acquireOne : List Event :=
  .enter 1 .queue (sampleNonce 1) :: List.replicate 8 (.lock 1 .proceed)

lemma initial_emptyDomain : Initial emptyDomain := fun _ => ⟨rfl, rfl⟩

/-- A published slot is stolen, and its holder is preempted. -/
theorem preempted_iff_published :
    ∃ s s', Machine.run (State.step true) emptyDomain
        (acquireOne ++ [.publish 1, .enter 2 .interrupt (sampleNonce 2)]) = some s ∧
      s.step true (.steal 2) = some s' ∧ s.lock.phase 1 = .holding 0 ∧ Preempted true s' 1 := by
  refine ⟨_, _, rfl, rfl, rfl, ?_⟩
  apply (@preempted_iff true emptyDomain _ _
    (acquireOne ++ [.publish 1, .enter 2 .interrupt (sampleNonce 2)]) 2 1 0 initial_emptyDomain rfl
    rfl rfl).1.mpr
  intro nonce h
  cases h

/-- Process 1 has the lock, process 2 overwrites the file, and process 1 publishes its token after
that: it may keep its slot. -/
theorem interrupt_before_publish :
    ∃ s s', Machine.run (State.step true) emptyDomain
        (acquireOne ++ [.enter 2 .interrupt (sampleNonce 2)]) = some s ∧
      s.step true (.steal 2) = some s' ∧ s.lock.phase 1 = .holding 0 ∧ ¬ Preempted true s' 1 :=
  ⟨_, _, rfl, rfl, rfl, not_preempted_of_acquired rfl⟩

end Gyt.CiSlot
