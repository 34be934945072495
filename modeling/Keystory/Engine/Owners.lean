/-
Several handles on one store directory. Every open asks for the lock on the `LOCK` file
before it reads anything else, and keeps it until the store is dropped, the open fails or
the process is gone. So at most one handle is ever past that point, and whatever all of
them do in turn is a run of one owner, as the rest of the development assumes.
-/

import Keystory.Engine.Linearizable

namespace Keystory

open General

/-! ### The lock -/

inductive TryLock where
  | locked
  | wouldBlock
  | unsupported
  | failed

inductive LockFailure where
  | wouldBlock (text : String)
  | os
deriving DecidableEq

/-- `lock_dir`: the handle is used even where there are no locks; `true` if it holds one. -/
def lockDir (dir : String) : TryLock → Except LockFailure Bool
  | .locked => .ok true
  | .wouldBlock =>
      .error (.wouldBlock s!"store directory {dir} is already open (locked by another Store)")
  | .unsupported => .ok false
  | .failed => .error .os

/-! ### Handles -/

structure Directory where
  segments : Wal.Segments
  files : Checkpoint.SnapFiles
  published : List (List Op)
  pending : List (List Op)
  exposed : Bool

namespace Directory

def held (dir : Directory) (phase : Phase) : System :=
  ⟨dir.segments, dir.files, phase, dir.published, dir.pending, dir.exposed⟩

end Directory

def System.directory (sys : System) : Directory :=
  ⟨sys.segments, sys.files, sys.published, sys.pending, sys.exposed⟩

structure Fleet where
  dir : Directory
  phases : Nat → Phase
  lock : Option Nat

namespace Fleet

def initial : Fleet := ⟨System.initial.directory, fun _ => .closed, none⟩

inductive Event where
  -- `open_with` as far as the lock, and the load of the checkpoint if it is granted;
  -- asking for the lock may fail on its own account
  | tryOpen (handle : Nat) (dir : String) (options : Options) (fails : Bool)
  | act (handle : Nat) (event : System.Event)
  -- the process of a handle is gone; what it wrote stays written
  | kill (handle : Nat)
  | powerLoss (cut : System.Cut)

def acts : System.Event → Bool
  | .beginOpen _ | .crash _ | .damage _ => false
  | .endOpen | .beginFlush _ | .endFlush | .publish | .beginCheckpoint | .endRotate => true
  | .endSave | .beginRemove | .endRemove | .logCall _ | .fileCall _ | .close => true

def tryLock (supported fails : Bool) (fleet : Fleet) : TryLock :=
  if fails then .failed
  else if !supported then .unsupported
  else if fleet.lock.isSome then .wouldBlock
  else .locked

/-- A handle gets the directory and its own phase back; a closed one has dropped its lock. -/
def settle (fleet : Fleet) (handle : Nat) (sys : System) : Fleet where
  dir := sys.directory
  phases := Function.update fleet.phases handle sys.phase
  lock :=
    match sys.phase with
    | .closed => if fleet.lock = some handle then none else fleet.lock
    | .opening _ | .running _ => fleet.lock

def step (supported : Bool) (faults : Faults) (fleet : Fleet) : Event → Option Fleet
  | .tryOpen handle dir options fails => do
      -- a handle comes into being with its open
      let sys ← (fleet.dir.held (fleet.phases handle)).beginOpen options
      match lockDir dir (fleet.tryLock supported fails) with
      | .error _ => return fleet
      | .ok holds =>
          return { fleet.settle handle sys with
            lock := if holds then some handle else fleet.lock }
  | .act handle event =>
      if acts event then do
        let sys ← (fleet.dir.held (fleet.phases handle)).step faults event
        return fleet.settle handle sys
      else none
  | .kill handle =>
      some (fleet.settle handle (fleet.dir.held .closed))
  | .powerLoss cut =>
      some ⟨((fleet.dir.held .closed).crash cut).directory, fun _ => .closed, none⟩

end Fleet

/-! ### One owner -/

/-- The fleet is the system of the handle that holds the lock; the other handles are closed. -/
structure Fleet.Owned (fleet : Fleet) (sys : System) : Prop where
  dir : fleet.dir = sys.directory
  phases : ∀ handle, fleet.phases handle = if fleet.lock = some handle then sys.phase else .closed
  free : fleet.lock = none → sys.phase = .closed

namespace Fleet

theorem held_directory (sys : System) : sys.directory.held sys.phase = sys := rfl

theorem Owned.initial : Owned Fleet.initial System.initial where
  dir := rfl
  phases := fun _ => rfl
  free := fun _ => rfl

variable {fleet next : Fleet} {sys : System} {faults : Faults}

theorem Owned.held_eq (owned : fleet.Owned sys) {handle : Nat} (holds : fleet.lock = some handle) :
    fleet.dir.held (fleet.phases handle) = sys := by
  rw [owned.phases, if_pos holds, owned.dir, held_directory]

theorem step_closed {event : System.Event} {after : System} (own : acts event = true)
    (closed : sys.phase = .closed) : sys.step faults event ≠ some after := by
  intro stepped
  cases System.step_moves stepped with
  | beginOpen options phase => cases own
  | crash cut => cases own
  | damage garbage phase fallback spoilt => cases own
  | _ => simp_all

theorem settle_phases (handle other : Nat) (after : System) :
    (fleet.settle handle after).phases other =
      if other = handle then after.phase else fleet.phases other :=
  Function.update_apply _ _ _ _

theorem settle_lock {handle : Nat} (holds : fleet.lock = some handle) (after : System) :
    ((fleet.settle handle after).lock = none ∧ after.phase = .closed) ∨
      (fleet.settle handle after).lock = some handle := by
  cases phase : after.phase with
  | closed =>
      left
      simp only [settle, phase, if_pos holds, and_self]
  | opening program =>
      right
      simp only [settle, phase, holds]
  | running live =>
      right
      simp only [settle, phase, holds]

theorem Owned.settle (owned : fleet.Owned sys) {handle : Nat} (holds : fleet.lock = some handle)
    (after : System) : (fleet.settle handle after).Owned after where
  dir := rfl
  phases := by
    intro other
    rw [settle_phases]
    by_cases same : other = handle
    · rw [if_pos same, same]
      rcases settle_lock holds after with ⟨released, closed⟩ | kept
      · rw [if_neg (by rw [released]; simp), closed]
      · rw [if_pos kept]
    · rw [if_neg same, owned.phases, holds, if_neg (by simpa using Ne.symm same)]
      rcases settle_lock holds after with ⟨released, closed⟩ | kept
      · rw [if_neg (by rw [released]; simp)]
      · rw [if_neg (by rw [kept]; simpa using Ne.symm same)]
  free := by
    intro released
    rcases settle_lock holds after with ⟨_, closed⟩ | kept
    · exact closed
    · rw [kept] at released
      cases released

def loose (file : Option (File UInt8)) : Nat := (file.map (·.unsynced.length)).getD 0

def keepAll (sys : System) : System.Cut where
  kept := fun number => loose (sys.segments.find? number)
  safe := fun _ => 0
  keptFile := fun
    | .tmp => loose sys.files.tmp
    | .latest => loose sys.files.latest
    | .prev => loose sys.files.prev
  safeFile := fun _ => 0

theorem map_crash_loose (file : Option (File UInt8)) :
    file.map (·.crash (loose file) 0) = file := by
  cases file with
  | none => rfl
  | some file => exact congrArg some (File.crash_whole (Nat.le_refl _))

theorem crash_keepAll (sys : System) : sys.crash (keepAll sys) = { sys with phase := .closed } := by
  have segments : Wal.crash sys.segments (keepAll sys).kept (keepAll sys).safe = sys.segments := by
    apply SortedMap.ext
    refine (List.map_congr_left fun entry member => ?_).trans (List.map_id _)
    have found := (SortedMap.find?_eq_some_iff _ _ _).mpr member
    have count : (keepAll sys).kept entry.1 = entry.2.unsynced.length := by
      change loose (sys.segments.find? entry.1) = _
      rw [found]
      rfl
    rw [count, show (keepAll sys).safe entry.1 = 0 from rfl, File.crash_whole (Nat.le_refl _)]
    rfl
  have files : sys.files.crash (keepAll sys).keptFile (keepAll sys).safeFile = sys.files :=
    Checkpoint.SnapFiles.ext (map_crash_loose _) (map_crash_loose _) (map_crash_loose _)
  rw [System.crash, segments, files]

theorem Owned.released {dir : Directory} (closed : sys.phase = .closed)
    (same : dir = sys.directory) : Owned ⟨dir, fun _ => .closed, none⟩ sys where
  dir := same
  phases := fun _ => rfl
  free := fun _ => closed

theorem lockDir_tryLock {dir : String} {fails holds : Bool}
    (answer : lockDir dir (fleet.tryLock true fails) = .ok holds) :
    fleet.lock = none ∧ holds = true := by
  cases fails with
  | true => cases answer
  | false =>
      cases lock : fleet.lock with
      | none =>
          simp only [tryLock, lock, lockDir] at answer
          exact ⟨rfl, (Except.ok.inj answer).symm⟩
      | some other =>
          simp only [tryLock, lock, lockDir] at answer
          cases answer

theorem Owned.grant (owned : fleet.Owned sys) (free : fleet.lock = none) (handle : Nat)
    {opened : System} : Owned { fleet.settle handle opened with lock := some handle } opened where
  dir := rfl
  phases := by
    intro other
    change (fleet.settle handle opened).phases other =
      if some handle = some other then opened.phase else .closed
    rw [settle_phases]
    by_cases same : other = handle
    · rw [if_pos same, if_pos (congrArg some same.symm)]
    · rw [if_neg same, owned.phases, free, if_neg (by simp), if_neg (by simpa using Ne.symm same)]
  free := fun impossible => by cases impossible

theorem Owned.bystander (owned : fleet.Owned sys) {handle : Nat}
    (without : fleet.lock ≠ some handle) :
    (fleet.settle handle (fleet.dir.held .closed)).Owned sys where
  dir := owned.dir
  phases := by
    intro other
    have lock : (fleet.settle handle (fleet.dir.held .closed)).lock = fleet.lock := if_neg without
    rw [settle_phases, lock]
    by_cases same : other = handle
    · rw [if_pos same, same, if_neg without]
      rfl
    · rw [if_neg same, owned.phases]
  free := by
    intro released
    have lock : (fleet.settle handle (fleet.dir.held .closed)).lock = fleet.lock := if_neg without
    exact owned.free (lock ▸ released)

theorem Owned.step (owned : fleet.Owned sys) {event : Event}
    (stepped : fleet.step true faults event = some next) :
    ∃ single after, runSteps (System.step faults) sys single = some after ∧ next.Owned after := by
  cases event with
  | tryOpen handle dir options fails =>
      obtain ⟨opened, begun, rest⟩ := Option.bind_eq_some_iff.mp stepped
      cases answer : lockDir dir (fleet.tryLock true fails) with
      | error failure =>
          rw [answer] at rest
          cases rest
          exact ⟨[], sys, rfl, owned⟩
      | ok holds =>
          obtain ⟨free, rfl⟩ := lockDir_tryLock answer
          rw [answer] at rest
          cases rest
          have here : fleet.dir.held (fleet.phases handle) = sys := by
            rw [owned.phases, free, if_neg (by simp), owned.dir, ← owned.free free, held_directory]
          rw [here] at begun
          exact ⟨[.beginOpen options], opened, runSteps_cons_eq_some.mpr ⟨opened, begun, rfl⟩,
            owned.grant free handle⟩
  | act handle event =>
      obtain ⟨own, taken⟩ := Option.ite_none_right_eq_some.mp stepped
      obtain ⟨after, moved, settled⟩ := Option.bind_eq_some_iff.mp taken
      cases settled
      by_cases holds : fleet.lock = some handle
      · rw [owned.held_eq holds] at moved
        exact ⟨[event], after, runSteps_cons_eq_some.mpr ⟨after, moved, rfl⟩,
          owned.settle holds after⟩
      · have closed : fleet.phases handle = .closed := by rw [owned.phases, if_neg holds]
        exact absurd moved (step_closed own closed)
  | kill handle =>
      cases stepped
      by_cases holds : fleet.lock = some handle
      · refine ⟨[.crash (keepAll sys)], { sys with phase := .closed }, ?_, ?_⟩
        · rw [← crash_keepAll]
          rfl
        · rw [owned.dir]
          exact owned.settle holds { sys with phase := .closed }
      · exact ⟨[], sys, rfl, owned.bystander holds⟩
  | powerLoss cut =>
      cases stepped
      refine ⟨[.crash cut], sys.crash cut, rfl, .released rfl ?_⟩
      rw [owned.dir]
      rfl

theorem Owned.run {events : List Event}
    (ran : runSteps (Fleet.step true faults) Fleet.initial events = some fleet) :
    ∃ single sys, runSteps (System.step faults) System.initial single = some sys ∧
      fleet.Owned sys := by
  refine runSteps_invariant (fun fleet => ∃ single sys,
    runSteps (System.step faults) System.initial single = some sys ∧ fleet.Owned sys) ?_
    ⟨[], System.initial, rfl, Owned.initial⟩ ran
  rintro before event after ⟨single, sys, run, owned⟩ stepped
  obtain ⟨more, later, went, kept⟩ := owned.step stepped
  exact ⟨single ++ more, later, runSteps_append_eq_some.mpr ⟨sys, run, went⟩, kept⟩

end Fleet

/-- Where files can be locked, for every interleaving of opens, calls, ends of processes and
power losses over any number of handles: at most one of them is open or opening, all of
them together are a run of one owner, and as long as no open publishes a record that is not
all synced, a later open finds every published commit. -/
theorem fleet_has_one_owner {faults : Faults} {events : List Fleet.Event} {fleet : Fleet}
    (ran : runSteps (Fleet.step true faults) Fleet.initial events = some fleet) :
    (∀ left right, fleet.phases left ≠ .closed → fleet.phases right ≠ .closed → left = right) ∧
      (∃ single sys, System.run faults single System.initial = some sys ∧
        fleet.dir = sys.directory ∧
        ∀ handle, fleet.phases handle = .closed ∨ fleet.phases handle = sys.phase) ∧
      (faults ≠ .any → fleet.dir.exposed = false →
        ∃ commits, fleet.dir.published <+: commits ∧
          ∀ options, (fleet.dir.held .closed).recovers options = some (stateAfter commits)) := by
  obtain ⟨single, sys, run, owned⟩ := Fleet.Owned.run ran
  have holder (handle : Nat) (busy : fleet.phases handle ≠ .closed) : fleet.lock = some handle := by
    by_contra without
    exact busy (by rw [owned.phases, if_neg without])
  refine ⟨?_, ⟨single, sys, run, owned.dir, ?_⟩, ?_⟩
  · intro left right leftBusy rightBusy
    exact Option.some.inj ((holder left leftBusy).symm.trans (holder right rightBusy))
  · intro handle
    by_cases holds : fleet.lock = some handle
    · right
      rw [owned.phases, if_pos holds]
    · left
      rw [owned.phases, if_neg holds]
  · intro honest unexposed
    rw [owned.dir] at unexposed ⊢
    obtain ⟨commits, all, _, recovered⟩ := (Inv.run honest Inv.initial run).recovers unexposed
    exact ⟨commits, all, recovered⟩

def Fleet.logCalls (handle count : Nat) : List Fleet.Event :=
  (Keystory.logCalls count).map (.act handle)

/-- A second handle is refused while the first commits, and has the directory once the
process of the first is gone. -/
def takenOver : List Fleet.Event :=
  [.tryOpen 0 "/db" {} false] ++ Fleet.logCalls 0 7 ++
    [.act 0 .endOpen, .act 0 (.beginFlush [[.put [97] [1]]]), .tryOpen 1 "db" {} false] ++
    Fleet.logCalls 0 2 ++ [.act 0 .endFlush, .act 0 .publish, .kill 0, .tryOpen 1 "db" {} false] ++
    Fleet.logCalls 1 5 ++ [.act 1 .endOpen]

theorem fleet_has_one_owner_takenOver :
    ∃ fleet, runSteps (Fleet.step true .none) Fleet.initial takenOver = some fleet ∧
      (fleet.phases 1).isRunning = true ∧ fleet.phases 0 = .closed ∧
      fleet.dir.published = [[.put [97] [1]]] := by
  have facts : (runSteps (Fleet.step true .none) Fleet.initial takenOver).map (fun fleet =>
      ((fleet.phases 1).isRunning, fleet.dir.published)) = some (true, [[.put [97] [1]]]) := by
    decide +kernel
  obtain ⟨fleet, ran, seen⟩ := Option.map_eq_some_iff.mp facts
  obtain ⟨running, published⟩ := Prod.mk.inj seen
  refine ⟨fleet, ran, running, ?_, published⟩
  by_contra busy
  have other : fleet.phases 1 ≠ .closed := by
    intro closed
    rw [closed] at running
    cases running
  cases (fleet_has_one_owner ran).1 0 1 busy other

end Keystory
