import Gyt.Errors
import Gyt.Foundation.Machine

/-!
# The file lock

The lock of `fs_util.rs`: a file that is created exclusively, that its creator marks with its
process number, and that is removed when the lock is dropped.  A file that is old and has no live
creator is taken to be left behind by a crash, and is removed by the next process that wants the
lock.

The machine below has any number of processes.  Its events are the single system calls, in any
order and with any time between them; a process may crash before each of them.  A file that is
removed lives on for those who have it open, so files have numbers, and a write through a handle
reaches the file at the path only if it is the same one.

The test for a left behind file and its removal are separate calls.  `mutual_exclusion` says that
the lock excludes in every run in which no removal hits the file of a live process, and
`two_processes_hold` is a run in which one does.
-/

namespace Gyt.FileLock

open Option Machine Text

/-- What `read_lock_marker` finds. -/
structure Marker where
  pid : Option ℕ
  mtime : ℕ
  deriving DecidableEq, Repr

structure LockFile where
  inode : ℕ
  body : Str
  mtime : ℕ
  deriving DecidableEq, Repr

/-- What a process is about to do. -/
inductive Phase where
  /-- Nothing with the lock. -/
  | idle
  /-- Creating the file. -/
  | opening
  /-- Taking the time for the marker. -/
  | created (inode : ℕ)
  /-- Writing the rest of the marker. -/
  | writing (inode : ℕ) (rest : List Str)
  /-- Working, with the lock. -/
  | holding (inode : ℕ)
  /-- Reading the metadata of the file, the second time if there is a marker to compare with. -/
  | statting (first : Option Marker)
  /-- Reading the content of the file. -/
  | reading (first : Option Marker) (mtime : ℕ)
  /-- Testing whether the file is old. -/
  | ageing (marker : Marker)
  /-- Testing whether the process of the marker lives. -/
  | probing (marker : Marker)
  /-- Removing a file that is taken to be left behind. -/
  | unlinking
  /-- Waiting for the next attempt. -/
  | polling
  | crashed
  deriving DecidableEq, Repr

/-- The file at the path of the lock, the processes, the time in nanoseconds, and the number of the
next file. -/
structure State where
  file : Option LockFile
  phase : ℕ → Phase
  now : ℕ
  nextInode : ℕ

/-- What a process can do. -/
inductive Action where
  /-- Calling `acquire`. -/
  | acquire
  | proceed
  /-- The next call with a failure, or the end of the waiting time. -/
  | fail
  /-- Dropping the lock. -/
  | release
  | crash
  deriving DecidableEq, Repr

/-- What can happen; the clock can be set to any time. -/
inductive Event where
  | act (pid : ℕ) (action : Action)
  | clock (now : ℕ)
  deriving DecidableEq, Repr

/-! ## The calls -/

/-- The age from which on a file may be removed. -/
def staleAfter : ℕ := 60 * 10 ^ 9

/-- The pieces in which the marker is written. -/
def markerPieces (pid now : ℕ) : List Str :=
  ["pid=", ofNat pid, " ts=", ofNat (now / 10 ^ 9), "\n"]

def markerPid (body : Str) : Option ℕ :=
  ((splitWhitespace body).findSome? (stripPrefix "pid=")).bind parseU32

/-- Writing through a handle. -/
def LockFile.append (f : LockFile) (inode : ℕ) (piece : Str) (now : ℕ) : LockFile :=
  if f.inode = inode then { f with body := f.body ++ piece, mtime := now } else f

namespace State

variable (hasProc : Bool) (st : State) (pid : ℕ)

/-- The state with a process in another phase. -/
def enter (phase : Phase) : State := { st with phase := Function.update st.phase pid phase }

/-- Whether a process seems to be alive; without `/proc` all do. -/
def pidAlive (pid : ℕ) : Bool := !hasProc || st.phase pid ≠ .crashed

/-- The process that the file at the path is marked with; none if the file is gone. -/
def filePid : Option ℕ := markerPid ((st.file.map (·.body)).getD [])

/-- The next call of a process. -/
def proceed : Option State :=
  match st.phase pid with
  | .idle | .holding _ | .crashed => none
  | .opening =>
    match st.file with
    | none => some (State.enter
        { st with file := some ⟨st.nextInode, [], st.now⟩, nextInode := st.nextInode + 1 }
        pid (.created st.nextInode))
    | some _ => some (st.enter pid (.statting none))
  | .created inode => some (st.enter pid (.writing inode (markerPieces pid st.now)))
  | .writing inode [] => some (st.enter pid (.holding inode))
  | .writing inode (piece :: rest) => some (State.enter
      { st with file := st.file.map (·.append inode piece st.now) } pid (.writing inode rest))
  | .statting first =>
    match st.file with
    | none => some (st.enter pid .polling)
    | some f => some (st.enter pid (.reading first f.mtime))
  | .reading none mtime => some (st.enter pid (.ageing ⟨st.filePid, mtime⟩))
  | .reading (some first) mtime =>
    some (st.enter pid (if first = ⟨st.filePid, mtime⟩ then .unlinking else .polling))
  | .ageing marker =>
    some (st.enter pid (if st.now - marker.mtime ≤ staleAfter then .polling else .probing marker))
  | .probing marker =>
    some (st.enter pid
      (if marker.pid.any (st.pidAlive hasProc) then .polling else .statting (some marker)))
  | .unlinking => some (State.enter { st with file := none } pid .opening)
  | .polling => some (st.enter pid .opening)

/-- The next call of a process with a failure.  A failure to write the marker is ignored. -/
def fail : Option State :=
  match st.phase pid with
  | .opening | .polling => some (st.enter pid .idle)
  | .writing inode _ => some (st.enter pid (.holding inode))
  | _ => none

/-- What an action of a process leads to. -/
def act : Action → Option State
  | .acquire => if st.phase pid = .idle then some (st.enter pid .opening) else none
  | .proceed => st.proceed hasProc pid
  | .fail => st.fail pid
  | .release =>
    match st.phase pid with
    | .holding _ => some (State.enter { st with file := none } pid .idle)
    | _ => none
  | .crash => if st.phase pid = .crashed then none else some (st.enter pid .crashed)

def step : Event → Option State
  | .act pid action => st.act hasProc pid action
  | .clock now => some { st with now := now }

end State

/-! ## Handles -/

/-- The file that a process has created and neither dropped nor lost by a crash. -/
def Phase.handle : Phase → Option ℕ
  | .created inode | .writing inode _ | .holding inode => some inode
  | _ => none

/-- The file that is at the path. -/
def State.inode (st : State) : Option ℕ := st.file.map (·.inode)

/-- Whether an event does not remove the file of a live process as one left behind. -/
def Sound (st : State) (e : Event) : Prop :=
  ∀ pid, e = .act pid .proceed → st.phase pid = .unlinking →
    ∀ q inode, (st.phase q).handle = some inode → st.inode ≠ some inode

variable {hasProc : Bool} {st st' : State} {e : Event} {p q i j : ℕ}

@[simp] lemma phase_enter_self (st : State) (p : ℕ) (phase : Phase) :
    (st.enter p phase).phase p = phase := Function.update_self ..

@[simp] lemma phase_enter_of_ne {phase : Phase} (h : q ≠ p) :
    (st.enter p phase).phase q = st.phase q := Function.update_of_ne h ..

/-- What an event does to the file and to the handles. -/
inductive Effect (st st' : State) : Event → Prop
  /-- The file stays, and no handle is new. -/
  | keep {e : Event} (hfile : st'.inode = st.inode)
      (hhandles : ∀ q i, (st'.phase q).handle = some i → (st.phase q).handle = some i) :
      Effect st st' e
  /-- A process creates the file. -/
  | create {p : ℕ} (hnone : st.inode = none) (hfile : st'.inode = some st.nextInode)
      (hself : (st'.phase p).handle = some st.nextInode)
      (hhandles : ∀ q, q ≠ p → (st'.phase q).handle = (st.phase q).handle) :
      Effect st st' (.act p .proceed)
  /-- A process drops the lock. -/
  | drop {p i : ℕ} (hi : (st.phase p).handle = some i)
      (hself : (st'.phase p).handle = none)
      (hhandles : ∀ q, q ≠ p → (st'.phase q).handle = (st.phase q).handle) :
      Effect st st' (.act p .release)
  /-- A process removes a file that is taken to be left behind. -/
  | unlink {p : ℕ} (hphase : st.phase p = .unlinking)
      (hhandles : ∀ q i, (st'.phase q).handle = some i → (st.phase q).handle = some i) :
      Effect st st' (.act p .proceed)

/-- A new phase without a new handle. -/
lemma effect_enter {phase : Phase} (hfile : st'.inode = st.inode) (hphase : st'.phase = st.phase)
    (h : ∀ i, phase.handle = some i → (st.phase p).handle = some i) :
    Effect st (st'.enter p phase) e := by
  refine .keep hfile fun q i hq => ?_
  by_cases hqp : q = p
  · subst hqp
    rw [phase_enter_self] at hq
    exact h i hq
  · rw [phase_enter_of_ne hqp, hphase] at hq
    exact hq

lemma inode_append (file : Option LockFile) (piece : Str) (i now : ℕ) :
    (file.map (·.append i piece now)).map (·.inode) = file.map (·.inode) := by
  rw [map_map]
  congr 1
  funext f
  simp only [Function.comp_apply, LockFile.append]
  split_ifs <;> rfl

lemma effect_of_proceed (h : st.proceed hasProc p = some st') :
    Effect st st' (.act p .proceed) := by
  unfold State.proceed at h
  split at h
  case h_1 | h_2 | h_3 => cases h
  case h_4 hphase =>
    split at h
    · next hnone =>
      cases h
      refine .create (by rw [State.inode, hnone]; rfl) rfl (by rw [phase_enter_self]; rfl) ?_
      exact fun q hq => by rw [phase_enter_of_ne hq]
    · cases h
      exact effect_enter rfl rfl (by nofun)
  case h_5 inode hphase | h_6 inode hphase =>
    cases h
    exact effect_enter rfl rfl (by rw [hphase]; exact fun i hi => hi)
  case h_7 inode piece rest hphase =>
    cases h
    exact effect_enter (inode_append _ _ _ _) rfl (by rw [hphase]; exact fun i hi => hi)
  case h_8 first hphase =>
    split at h
    all_goals
      cases h
      exact effect_enter rfl rfl (by nofun)
  case h_9 | h_14 =>
    cases h
    exact effect_enter rfl rfl (by nofun)
  case h_10 | h_11 | h_12 =>
    cases h
    split_ifs
    all_goals exact effect_enter rfl rfl (by nofun)
  case h_13 hphase =>
    cases h
    refine .unlink hphase fun q i hq => ?_
    by_cases hqp : q = p
    · subst hqp
      rw [phase_enter_self] at hq
      cases hq
    · rw [phase_enter_of_ne hqp] at hq
      exact hq

lemma effect_of_step (h : st.step hasProc e = some st') : Effect st st' e := by
  cases e with
  | clock now =>
    cases h
    exact .keep rfl fun q i hq => hq
  | act p action =>
    cases action with
    | acquire | crash =>
      simp only [State.step, State.act, ite_none_left_eq_some,
        ite_none_right_eq_some, some.injEq] at h
      obtain ⟨-, rfl⟩ := h
      exact effect_enter rfl rfl (by nofun)
    | proceed => exact effect_of_proceed h
    | fail =>
      simp only [State.step, State.act, State.fail] at h
      split at h
      · cases h
        exact effect_enter rfl rfl (by nofun)
      · cases h
        exact effect_enter rfl rfl (by nofun)
      · next inode rest hphase =>
        cases h
        exact effect_enter rfl rfl (by rw [hphase]; exact fun i hi => hi)
      · cases h
    | release =>
      simp only [State.step, State.act] at h
      split at h
      · next inode hphase =>
        cases h
        refine .drop (by rw [hphase]; rfl) (by rw [phase_enter_self]; rfl) ?_
        exact fun q hq => by rw [phase_enter_of_ne hq]
      · cases h

/-! ## Exclusion -/

/-- Every file that a live process has created and not dropped is the one at the path. -/
structure Owned (st : State) : Prop where
  file_eq : ∀ p i, (st.phase p).handle = some i → st.inode = some i
  unique : ∀ p q i, (st.phase p).handle = some i → (st.phase q).handle = some i → p = q

lemma owned_of_forall_ne (h : ∀ p i, (st.phase p).handle ≠ some i) : Owned st :=
  ⟨fun p i hp => absurd hp (h p i), fun p _ i hp => absurd hp (h p i)⟩

/-- Files keep their owners along events that do not remove the file of a live process. -/
theorem Owned.step (hst : Owned st) (he : Sound st e) (h : st.step hasProc e = some st') :
    Owned st' := by
  cases effect_of_step h with
  | keep hfile hhandles =>
    refine ⟨fun p i hp => ?_, fun p q i hp hq => ?_⟩
    · rw [hfile]
      exact hst.file_eq p i (hhandles p i hp)
    · exact hst.unique p q i (hhandles p i hp) (hhandles q i hq)
  | @create p hnone hfile hself hhandles =>
    -- Without a file at the path, nobody had one.
    have hold : ∀ q i, (st'.phase q).handle = some i → q = p ∧ i = st.nextInode := by
      intro q i hq
      by_cases hqp : q = p
      · rw [hqp, hself] at hq
        exact ⟨hqp, (some.inj hq).symm⟩
      · rw [hhandles q hqp] at hq
        cases hnone.symm.trans (hst.file_eq q i hq)
    refine ⟨fun q i hq => ?_, fun q r i hq hr => ?_⟩
    · rw [hfile, (hold q i hq).2]
    · rw [(hold q i hq).1, (hold r i hr).1]
  | @drop p i hi hself hhandles =>
    -- The file at the path was that of the process, so nobody else had one.
    refine owned_of_forall_ne fun q j hq => ?_
    by_cases hqp : q = p
    · rw [hqp, hself] at hq
      cases hq
    · rw [hhandles q hqp] at hq
      cases (hst.file_eq q j hq).symm.trans (hst.file_eq p i hi)
      exact hqp (hst.unique q p i hq hi)
  | @unlink p hphase hhandles =>
    exact owned_of_forall_ne fun q j hq =>
      he p rfl hphase q j (hhandles q j hq) (hst.file_eq q j (hhandles q j hq))

/-- If no process has the lock at first, and no file of a live process is removed as one left
behind, then at no time two processes hold the lock. -/
theorem mutual_exclusion {events : List Event}
    (hinit : ∀ p, st.phase p = .idle ∨ st.phase p = .crashed)
    (hsound : Machine.Always (State.step hasProc) Sound st events)
    (hrun : Machine.run (State.step hasProc) st events = some st')
    (hp : st'.phase p = .holding i) (hq : st'.phase q = .holding j) : p = q := by
  have hnone : ∀ p i, (st.phase p).handle ≠ some i := by
    intro p i
    rcases hinit p with h | h <;> simp [h, Phase.handle]
  have howned : Owned st' := Machine.run_invariant (fun _ _ _ hst he h => Owned.step hst he h)
    hsound hrun (owned_of_forall_ne hnone)
  have hi : (st'.phase p).handle = some i := by rw [hp]; rfl
  have hj : (st'.phase q).handle = some j := by rw [hq]; rfl
  cases (howned.file_eq p i hi).symm.trans (howned.file_eq q j hj)
  exact howned.unique p q i hi hj

/-- The next calls of a process. -/
def calls (p n : ℕ) : List Event := (List.replicate n .proceed).map (.act p)

lemma calls_add (p m n : ℕ) : calls p (m + n) = calls p m ++ calls p n := by
  rw [calls, List.replicate_add, List.map_append]
  rfl

/-- A process that writes its marker comes to hold the lock. -/
lemma exists_run_writing (hasProc : Bool) {rest : List Str} (hp : st.phase p = .writing i rest) :
    ∃ n st', run (State.step hasProc) st (calls p n) = some st' ∧
      st'.phase p = .holding i ∧ ∀ q, q ≠ p → st'.phase q = st.phase q := by
  induction rest generalizing st with
  | nil =>
    refine ⟨1, st.enter p (.holding i), ?_, phase_enter_self .., fun q hq => phase_enter_of_ne hq⟩
    simp [calls, run, State.step, State.act, State.proceed, hp]
  | cons piece rest ih =>
    obtain ⟨n, st', hrun, hhold, hkeep⟩ := ih (phase_enter_self
      { st with file := st.file.map (·.append i piece st.now) } p (.writing i rest))
    refine ⟨1 + n, st', ?_, hhold, fun q hq => (hkeep q hq).trans (phase_enter_of_ne hq)⟩
    rw [calls_add, run_append ?_]
    · exact hrun
    · simp [calls, run, State.step, State.act, State.proceed, hp]

/-- A process that has created the file can come to hold the lock. -/
lemma exists_run_holding (hasProc : Bool) (hp : (st.phase p).handle = some i) :
    ∃ n st', run (State.step hasProc) st (calls p n) = some st' ∧
      st'.phase p = .holding i ∧ ∀ q, q ≠ p → st'.phase q = st.phase q := by
  cases hphase : st.phase p <;> rw [hphase] at hp <;> cases hp
  case created =>
    obtain ⟨n, st', hrun, hhold, hkeep⟩ := exists_run_writing hasProc
      (phase_enter_self st p (.writing i (markerPieces p st.now)))
    refine ⟨1 + n, st', ?_, hhold, fun q hq => (hkeep q hq).trans (phase_enter_of_ne hq)⟩
    rw [calls_add, run_append ?_]
    · exact hrun
    · simp [calls, run, State.step, State.act, State.proceed, hphase]
  case writing rest => exact exists_run_writing hasProc hphase
  case holding => exact ⟨0, st, rfl, hphase, fun _ _ => rfl⟩

/-- The condition cannot be weakened: after a removal of the file of a live process, two processes
can hold the lock. -/
theorem exists_two_holders (he : ¬ Sound st e) :
    ∃ events st' p q i j, run (State.step hasProc) st (e :: events) = some st' ∧ p ≠ q ∧
      st'.phase p = .holding i ∧ st'.phase q = .holding j := by
  unfold Sound at he
  push Not at he
  obtain ⟨p, rfl, hp, q, j, hq, -⟩ := he
  have hqp : q ≠ p := by
    rintro rfl
    rw [hp] at hq
    cases hq
  -- The process that removed the file creates a new one, and then both finish their `acquire`.
  obtain ⟨st₁, hrun₁, hp₁, hq₁⟩ : ∃ st₁, run (State.step hasProc) st
      [.act p .proceed, .act p .proceed] = some st₁ ∧
        (st₁.phase p).handle = some st.nextInode ∧ st₁.phase q = st.phase q := by
    simp [run, State.step, State.act, State.proceed, hp, State.enter, Phase.handle, hqp]
  obtain ⟨n₂, st₂, hrun₂, hp₂, hkeep₂⟩ := exists_run_holding hasProc hp₁
  rw [← hq₁, ← hkeep₂ q hqp] at hq
  obtain ⟨n₃, st₃, hrun₃, hq₃, hkeep₃⟩ := exists_run_holding hasProc hq
  refine ⟨.act p .proceed :: (calls p n₂ ++ calls q n₃), st₃, p, q, st.nextInode, j, ?_,
    hqp.symm, ?_,
    hq₃⟩
  · have hrun := (run_append hrun₁).trans ((run_append hrun₂).trans hrun₃)
    exact hrun
  · rw [hkeep₃ p hqp.symm, hp₂]

/-- The first process holds the lock, and the others are about to remove its file. -/
theorem exists_two_holders_holding : ∃ events st' p q i j, Machine.run (State.step true)
      ⟨some ⟨0, [], 0⟩, fun p => if p = 1 then .holding 0 else .unlinking, 0, 1⟩
      (.act 2 .proceed :: events) = some st' ∧ p ≠ q ∧
      st'.phase p = .holding i ∧ st'.phase q = .holding j :=
  exists_two_holders fun h => h 2 rfl rfl 1 0 rfl rfl

/-- A lock that was left behind can be taken: if the file is old and the process that it is marked
with, if any, has crashed, then a process that asks for the lock comes to hold it by calls of its
own that all succeed, if nothing else happens. -/
theorem exists_takeover {f : LockFile} (hidle : st.phase p = .idle) (hfile : st.file = some f)
    (hstale : staleAfter + f.mtime < st.now)
    (hdead : ∀ r ∈ markerPid f.body, hasProc = true ∧ st.phase r = .crashed) :
    ∃ n st' i, run (State.step hasProc) st (.act p .acquire :: calls p n) = some st' ∧
      st'.phase p = .holding i ∧ ∀ q, q ≠ p → st'.phase q = st.phase q := by
  let probing := st.enter p (.probing ⟨markerPid f.body, f.mtime⟩)
  let created := State.enter ⟨some ⟨st.nextInode, [], st.now⟩, st.phase, st.now, st.nextInode + 1⟩ p
    (.created st.nextInode)
  have hprobe : (markerPid f.body).any (probing.pidAlive hasProc) = false := by
    rw [any_eq_false]
    intro r hr
    obtain ⟨hproc, hcrashed⟩ := hdead r hr
    have hrp : r ≠ p := by
      rintro rfl
      cases hidle.symm.trans hcrashed
    simp [State.pidAlive, hproc, probing, phase_enter_of_ne hrp, hcrashed]
  have hrun₁ : run (State.step hasProc) st (.act p .acquire :: calls p 4) = some probing := by
    simp [calls, List.replicate, run, State.step, State.act, State.proceed, State.enter,
      State.filePid, hidle, hfile, hstale.not_ge, probing]
  -- The file has not changed since it was found old, so that it is removed.
  have hrun₂ : run (State.step hasProc) probing (calls p 5) = some created := by
    simp only [probing, State.enter, hfile] at hprobe
    simp [calls, List.replicate, run, State.step, State.act, State.proceed, State.enter,
      State.filePid, hfile, hprobe, probing, created]
  have hcreated : (created.phase p).handle = some st.nextInode := by
    rw [phase_enter_self]
    rfl
  obtain ⟨n, st', hrun₃, hp, hkeep⟩ := exists_run_holding hasProc hcreated
  refine ⟨4 + (5 + n), st', _, ?_, hp, fun q hq => (hkeep q hq).trans (phase_enter_of_ne hq)⟩
  rw [calls_add, ← List.cons_append, run_append hrun₁, calls_add, run_append hrun₂, hrun₃]

/-! ## Runs -/

/-- A process that is alone removes no file of a live process. -/
lemma always_sound_alone (hothers : ∀ q, q ≠ p → (st.phase q).handle = none)
    (actions : List Action) :
    Always (State.step hasProc) Sound st (actions.map (.act p)) := by
  induction actions generalizing st with
  | nil => trivial
  | cons action actions ih =>
    refine ⟨fun pid he hphase q i hq => ?_, fun st' hstep => ih fun q hq => ?_⟩
    · cases he
      by_cases hqp : q = p
      · rw [hqp, hphase] at hq
        cases hq
      · rw [hothers q hqp] at hq
        cases hq
    · cases effect_of_step hstep with
      | keep _ hhandles | unlink _ hhandles =>
        refine eq_none_iff_forall_ne_some.mpr fun i hi => ?_
        cases (hothers q hq).symm.trans (hhandles q i hi)
      | create _ _ _ hhandles | drop _ _ hhandles => rw [hhandles q hq, hothers q hq]

/-- What a process does that finds a file and comes to take it for one left behind. -/
def suspects : List Action := .acquire :: List.replicate 7 .proceed

/-- What a process does that removes a file and creates a new one. -/
def takesOver : List Action := List.replicate 9 .proceed

/-- The lock was left behind by a crash of the first process, more than a minute ago. -/
def sampleState : State where
  file := some ⟨0, (markerPieces 1 0).flatten, 0⟩
  phase pid := if pid = 1 then .crashed else .idle
  now := 61 * 10 ^ 9
  nextInode := 1

/-- The lock of a crashed process is taken over. -/
theorem exists_takeover_crashed : ∃ n st' i, Machine.run (State.step true) sampleState
      (.act 2 .acquire :: calls 2 n) = some st' ∧
    st'.phase 2 = .holding i ∧ ∀ q, q ≠ 2 → st'.phase q = sampleState.phase q :=
  exists_takeover rfl rfl (by decide) (by decide +kernel)

/-- A process can take the lock of the crashed one, and is then the only one that holds it. -/
theorem mutual_exclusion_takeover :
    ∃ st', Machine.run (State.step true) sampleState ((suspects ++ takesOver).map (.act 2)) =
      some st' ∧ ∀ p i, st'.phase p = .holding i → p = 2 := by
  have hinit : ∀ p, sampleState.phase p = .idle ∨ sampleState.phase p = .crashed := by
    intro p
    simp only [sampleState]
    split_ifs <;> simp
  have hothers : ∀ q, q ≠ 2 → (sampleState.phase q).handle = none := by
    intro q _
    rcases hinit q with h | h <;> rw [h] <;> rfl
  have hholding : (Machine.run (State.step true) sampleState
      ((suspects ++ takesOver).map (.act 2))).map (·.phase 2) = some (.holding 1) := by
    decide +kernel
  obtain ⟨st', hrun, hphase⟩ := map_eq_some_iff.mp hholding
  exact ⟨st', hrun, fun p i hp =>
    mutual_exclusion hinit (always_sound_alone hothers _) hrun hp hphase⟩

/-- Two processes find the lock of the crashed one.  The first of them removes it and takes the
lock, then the other one removes the new file and takes the lock too. -/
theorem two_processes_hold :
    (Machine.run (State.step true) sampleState (suspects.map (.act 2) ++ suspects.map (.act 3) ++
        takesOver.map (.act 2) ++ takesOver.map (.act 3))).map
      (fun st => (st.phase 2, st.phase 3)) = some (.holding 1, .holding 2) := by decide +kernel

end Gyt.FileLock
