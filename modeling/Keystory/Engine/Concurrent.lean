/-
The store as its callers use it at once: the threads of group commit and of checkpoints
over the directory they write, through crashes and reopens. A step inside the queue
touches no file and a file-system call touches no queue; the append of a group, its
publication and the rotation of a checkpoint are steps of both. Whether an append
lands is what its file-system calls made of it.
-/

import Keystory.Engine.Durability
import Keystory.Engine.GroupCommit

namespace Keystory

open General

/-! ### States -/

structure World where
  sys : System
  /-- the calls on the store that is open, or that was open last -/
  queue : CommitQueue.State
  /-- the lock that serialises checkpoints -/
  ckpt : Bool
  /-- the calls made on that store -/
  calls : List Nat
  /-- what was seen of the stores before it -/
  past : List (List CommitQueue.Note)

def Phase.isRunning : Phase → Bool
  | .running _ => true
  | .closed | .opening _ => false

/-- A checkpoint is between the start of its rotation and its return. -/
def Phase.checkpointing : Phase → Bool
  | .running ⟨_, .rotate _ _, _, _⟩ | .running ⟨_, .remove _, _, _⟩ => true
  | .running ⟨_, _, _, .saving _ _ _⟩ | .running ⟨_, _, _, .saved _⟩ => true
  | .running ⟨_, _, _, .idle⟩ | .closed | .opening _ => false

namespace World

def initial : World := ⟨System.initial, .opened Snapshot.empty, false, [], []⟩

def lives (world : World) : List (List CommitQueue.Note) :=
  world.past ++ [world.queue.history]

/-! ### Steps -/

inductive Event where
  /-- a call moves on without the log -/
  | inside (event : CommitQueue.Event)
  /-- a holder of the flush flag gets the log lock, to append or to rotate -/
  | lockLog (call : Nat)
  | appended (call : Nat)
  | publish (call : Nat)
  | rotated (call : Nat)
  /-- a file-system call, or a step of a checkpoint past its exclusive instant -/
  | outside (event : System.Event)
  | endOpen
  | close
  | crash (cut : System.Cut)

/-- The steps of calls that need neither the log nor the files. -/
def admits (world : World) : CommitQueue.Event → Bool
  | .commit _ _ | .resume _ | .wake _ | .load _ | .storeIndex _ | .settle _ | .take _ => true
  | .snapshot | .index => true
  | .checkpoint _ => !world.ckpt
  -- the guard of a flush; that of a checkpoint is dropped with its rotation
  | .drop call =>
      match world.queue.phase call with
      | .releasing _ => true
      | _ => false
  | .append _ _ | .publish _ => false

/-- The steps of the directory that no queued call takes part in. -/
def aside : System.Event → Bool
  | .beginOpen _ | .logCall _ | .fileCall _ | .damage _ => true
  | .endSave | .beginRemove | .endRemove => true
  | .endOpen | .beginFlush _ | .endFlush | .publish | .beginCheckpoint | .endRotate => false
  | .close | .crash _ => false

/-- A checkpoint returns when its file or the removal of segments is done with. -/
def ckptAfter (ckpt : Bool) (phase : Phase) : System.Event → Bool
  | .endSave | .endRemove | .endRotate => phase.checkpointing
  | _ => ckpt

def callsOf : CommitQueue.Event → List Nat
  | .commit call _ | .checkpoint call => [call]
  | _ => []

def isCheckpoint : CommitQueue.Event → Bool
  | .checkpoint _ => true
  | _ => false

def failure? : Except Failure Unit → Option Failure
  | .ok _ => none
  | .error failure => some failure

def step (faults : Faults) (world : World) : Event → Option World
  | .inside event =>
      if world.sys.phase.isRunning && world.admits event then do
        let queue ← world.queue.step event
        return { world with
          queue := queue
          ckpt := world.ckpt || isCheckpoint event
          calls := callsOf event ++ world.calls }
      else none
  | .lockLog call =>
      match world.queue.phase call with
      | .staged group _ => do
          let sys ← world.sys.step faults (.beginFlush (group.map CommitQueue.Pending.ops))
          return { world with sys := sys }
      | .pinned => do
          let sys ← world.sys.step faults .beginCheckpoint
          return { world with sys := sys }
      | _ => none
  | .appended call =>
      match world.sys.phase with
      | .running ⟨_, .append _ _ (.done (result, _)), _, _⟩ => do
          let sys ← world.sys.step faults .endFlush
          let queue ← world.queue.step (.append call (failure? result))
          return { world with sys := sys, queue := queue }
      | _ => none
  | .publish call => do
      let sys ← world.sys.step faults .publish
      let queue ← world.queue.step (.publish call)
      return { world with sys := sys, queue := queue }
  | .rotated call =>
      match world.queue.phase call with
      | .pinned => do
          let sys ← world.sys.step faults .endRotate
          let queue ← world.queue.step (.drop call)
          return { world with
            sys := sys, queue := queue, ckpt := ckptAfter world.ckpt sys.phase .endRotate }
      | _ => none
  | .outside event =>
      if aside event then do
        let sys ← world.sys.step faults event
        return { world with sys := sys, ckpt := ckptAfter world.ckpt sys.phase event }
      else none
  | .endOpen =>
      match world.sys.phase with
      | .opening (.done (.ok store)) => do
          let sys ← world.sys.step faults .endOpen
          return ⟨sys, .opened store.snap, false, [], world.lives⟩
      | _ => do
          let sys ← world.sys.step faults .endOpen
          return { world with sys := sys }
  | .close =>
      -- no call still borrows the store
      if world.ckpt || world.calls.any (fun call => (world.queue.phase call).underway) then
        none
      else do
        let sys ← world.sys.step faults .close
        return { world with sys := sys }
  | .crash cut => do
      let sys ← world.sys.step faults (.crash cut)
      return { world with sys := sys }

/-! ### What a step can do -/

/-- The commits, and what a store and its callers know of them, stay as they are. -/
structure Beside (sys next : System) : Prop where
  published : next.published = sys.published
  pending : next.pending = sys.pending
  exposed : next.exposed = sys.exposed
  live : ∀ after, next.phase = .running after → ∃ before, sys.phase = .running before ∧
    after.store.snap = before.store.snap ∧ after.landed = before.landed ∧
    ∀ group staged program, after.task = .append group staged program →
      ∃ earlier, before.task = .append group staged earlier

/-- The steps in which commits reach the log, become visible or are recovered. -/
def touches : System.Event → Bool
  | .endOpen | .beginFlush _ | .endFlush | .publish => true
  | .beginOpen _ | .logCall _ | .fileCall _ | .damage _ | .close | .crash _ => false
  | .endSave | .beginRemove | .endRemove | .beginCheckpoint | .endRotate => false

theorem touches_of_aside {event : System.Event} (besides : aside event = true) :
    touches event = false := by
  cases event <;> first | rfl | cases besides

theorem Beside.history {sys next : System} (beside : Beside sys next) :
    next.history = sys.history := by
  rw [System.history, beside.published, beside.pending, System.history]

theorem Beside.stopped {sys next : System} (published : next.published = sys.published)
    (pending : next.pending = sys.pending) (exposed : next.exposed = sys.exposed)
    (stopped : ∀ after, next.phase ≠ .running after) : Beside sys next :=
  ⟨published, pending, exposed, fun after phase => absurd phase (stopped after)⟩

theorem Beside.running {sys : System} {before after : Live} {segments : Wal.Segments}
    {files : Checkpoint.SnapFiles} (phase : sys.phase = .running before)
    (snap : after.store.snap = before.store.snap) (landed : after.landed = before.landed)
    (task : ∀ group staged program, after.task = .append group staged program →
      ∃ earlier, before.task = .append group staged earlier) :
    Beside sys { sys with segments := segments, files := files, phase := .running after } := by
  refine ⟨rfl, rfl, rfl, ?_⟩
  intro live same
  cases same
  exact ⟨before, phase, snap, landed, task⟩

theorem beside_of_step {faults : Faults} {sys next : System} {event : System.Event}
    (untouched : touches event = false) (stepped : sys.step faults event = some next) :
    Beside sys next := by
  cases System.step_moves stepped with
  | opened store phase => cases untouched
  | refused failure phase => cases untouched
  | beginFlush group store stage phase nonempty checked bound => cases untouched
  | flushed store group staged wal stage phase => cases untouched
  | flushFailed store group staged failure wal landed stage phase => cases untouched
  | publish store task staged stage phase => cases untouched
  | beginOpen options phase => exact .stopped rfl rfl rfl (by simp)
  | openCall fate program outcome phase served => exact .stopped rfl rfl rfl (by simp)
  | close store phase => exact .stopped rfl rfl rfl (by simp)
  | crash cut => exact .stopped rfl rfl rfl (by simp [System.crash])
  | damage garbage phase fallback spoilt => exact .stopped rfl rfl rfl (by simp [phase])
  | beginCheckpoint store phase small => exact .running phase rfl rfl (by simp)
  | rotated store cur boundary wal landed stage phase => exact .running phase rfl rfl (by simp)
  | rotateFailed store cur failure wal landed stage phase => exact .running phase rfl rfl (by simp)
  | beginRemove store landed covered phase => exact .running phase rfl rfl (by simp)
  | removed store result landed stage phase => exact .running phase rfl rfl (by simp)
  | rotateCall fate store cur landed stage program outcome phase served =>
      exact .running phase rfl rfl (by simp)
  | removeCall fate store landed stage program outcome phase served =>
      exact .running phase rfl rfl (by simp)
  | appendCall fate store group staged landed stage program outcome phase served =>
      refine .running phase rfl rfl ?_
      intro other also later same
      cases same
      exact ⟨program, rfl⟩
  | saved store task landed cur boundary phase =>
      exact .running phase rfl rfl (fun _ _ program same => ⟨program, same⟩)
  | saveFailed store task landed cur boundary failure phase =>
      exact .running phase rfl rfl (fun _ _ program same => ⟨program, same⟩)
  | fileCall fate store task landed cur boundary program outcome phase served =>
      exact .running phase rfl rfl (fun _ _ program same => ⟨program, same⟩)

/-- The kinds of steps, with what each needs. -/
inductive Moves (faults : Faults) (world : World) : World → Prop
  | inside {event : CommitQueue.Event} {queue : CommitQueue.State} {live : Live}
      (phase : world.sys.phase = .running live) (admitted : world.admits event = true)
      (moved : world.queue.step event = some queue) :
      Moves faults world
        { world with
          queue := queue
          ckpt := world.ckpt || isCheckpoint event
          calls := callsOf event ++ world.calls }
  | beginFlush {call : Nat} {group : List CommitQueue.Pending} {staged : Store.Staged}
      {sys : System} (here : world.queue.phase call = .staged group staged)
      (stepped : world.sys.step faults (.beginFlush (group.map CommitQueue.Pending.ops)) =
        some sys) :
      Moves faults world { world with sys := sys }
  | beginCheckpoint {call : Nat} {sys : System} (here : world.queue.phase call = .pinned)
      (stepped : world.sys.step faults .beginCheckpoint = some sys) :
      Moves faults world { world with sys := sys }
  | appended {call : Nat} {store : Store} {group : List (List Op)} {staged : Store.Staged}
      {result : Except Failure Unit} {wal : Wal} {landed : Option Store.Staged} {stage : Stage}
      {sys : System} {queue : CommitQueue.State}
      (phase : world.sys.phase =
        .running ⟨store, .append group staged (.done (result, wal)), landed, stage⟩)
      (stepped : world.sys.step faults .endFlush = some sys)
      (moved : world.queue.step (.append call (failure? result)) = some queue) :
      Moves faults world { world with sys := sys, queue := queue }
  | publish {call : Nat} {sys : System} {queue : CommitQueue.State}
      (stepped : world.sys.step faults .publish = some sys)
      (moved : world.queue.step (.publish call) = some queue) :
      Moves faults world { world with sys := sys, queue := queue }
  | rotated {call : Nat} {sys : System} {queue : CommitQueue.State}
      (here : world.queue.phase call = .pinned)
      (stepped : world.sys.step faults .endRotate = some sys)
      (moved : world.queue.step (.drop call) = some queue) :
      Moves faults world
        { world with sys := sys, queue := queue, ckpt := sys.phase.checkpointing }
  | outside {event : System.Event} {sys : System} (besides : aside event = true)
      (stepped : world.sys.step faults event = some sys) :
      Moves faults world
        { world with sys := sys, ckpt := ckptAfter world.ckpt sys.phase event }
  /-- a failed open, a close or a crash -/
  | stopped {event : System.Event} {sys : System} (beside : Beside world.sys sys)
      (stops : ∀ live, sys.phase ≠ .running live)
      (stepped : world.sys.step faults event = some sys) :
      Moves faults world { world with sys := sys }
  | opened {store : Store} {sys : System}
      (phase : world.sys.phase = .opening (.done (.ok store)))
      (stepped : world.sys.step faults .endOpen = some sys) :
      Moves faults world ⟨sys, .opened store.snap, false, [], world.lives⟩

theorem step_moves {faults : Faults} {world next : World} {event : Event}
    (stepped : world.step faults event = some next) : Moves faults world next := by
  cases event with
  | inside event =>
      rw [step, Option.ite_none_right_eq_some, Bool.and_eq_true] at stepped
      obtain ⟨⟨running, admitted⟩, stepped⟩ := stepped
      obtain ⟨queue, moved, same⟩ := Option.bind_eq_some_iff.mp stepped
      cases same
      cases phase : world.sys.phase with
      | running live => exact .inside phase admitted moved
      | closed => simp [phase, Phase.isRunning] at running
      | opening program => simp [phase, Phase.isRunning] at running
  | lockLog call =>
      rw [step] at stepped
      split at stepped
      case h_1 group staged here =>
          obtain ⟨sys, moved, same⟩ := Option.bind_eq_some_iff.mp stepped
          cases same
          exact .beginFlush here moved
      case h_2 here =>
          obtain ⟨sys, moved, same⟩ := Option.bind_eq_some_iff.mp stepped
          cases same
          exact .beginCheckpoint here moved
      case h_3 => cases stepped
  | appended call =>
      rw [step] at stepped
      split at stepped
      case h_1 phase =>
          obtain ⟨sys, moved, rest⟩ := Option.bind_eq_some_iff.mp stepped
          obtain ⟨queue, also, same⟩ := Option.bind_eq_some_iff.mp rest
          cases same
          exact .appended phase moved also
      case h_2 => cases stepped
  | publish call =>
      rw [step] at stepped
      obtain ⟨sys, moved, rest⟩ := Option.bind_eq_some_iff.mp stepped
      obtain ⟨queue, also, same⟩ := Option.bind_eq_some_iff.mp rest
      cases same
      exact .publish moved also
  | rotated call =>
      rw [step] at stepped
      split at stepped
      case h_1 here =>
          obtain ⟨sys, moved, rest⟩ := Option.bind_eq_some_iff.mp stepped
          obtain ⟨queue, also, same⟩ := Option.bind_eq_some_iff.mp rest
          cases same
          exact .rotated here moved also
      case h_2 => cases stepped
  | outside event =>
      rw [step, Option.ite_none_right_eq_some] at stepped
      obtain ⟨besides, stepped⟩ := stepped
      obtain ⟨sys, moved, same⟩ := Option.bind_eq_some_iff.mp stepped
      cases same
      exact .outside besides moved
  | endOpen =>
      rw [step] at stepped
      split at stepped
      case h_1 store phase =>
          obtain ⟨sys, moved, same⟩ := Option.bind_eq_some_iff.mp stepped
          cases same
          exact .opened phase moved
      case h_2 unopened =>
          obtain ⟨sys, moved, same⟩ := Option.bind_eq_some_iff.mp stepped
          cases same
          cases System.step_moves moved with
          | opened store phase => exact absurd phase (unopened store)
          | refused failure phase =>
              exact .stopped (.stopped rfl rfl rfl (by simp)) (by simp) moved
  | close =>
      rw [step, Option.ite_none_left_eq_some] at stepped
      obtain ⟨sys, moved, same⟩ := Option.bind_eq_some_iff.mp stepped.2
      cases same
      refine .stopped (beside_of_step rfl moved) ?_ moved
      cases System.step_moves moved
      simp
  | crash cut =>
      rw [step] at stepped
      obtain ⟨sys, moved, same⟩ := Option.bind_eq_some_iff.mp stepped
      cases same
      refine .stopped (beside_of_step rfl moved) ?_ moved
      cases System.step_moves moved
      simp [System.crash]

end World

end Keystory
