/-
A store directory over its whole life: opens, group flushes and checkpoints whose
file-system calls interleave as the store's locks allow, any of which may be cut
short by a crash, and the loss of `snap.dat` while the store is closed.

The log lock is held by one program at a time. The flush flag excludes a second
group until the first is published, and the rotation of a checkpoint; the write
of the checkpoint file runs beside the flushes. Beside the directory and the
store the system keeps the commits that were published and those that may have
reached the log without being published.
-/

import Keystory.Engine.Store
import Keystory.Wal.Recovery

namespace Keystory

open General Wal

/-! ### States -/

inductive Task where
  | free
  | append (group : List (List Op)) (staged : Store.Staged)
      (program : SegmentProgram (Except Failure Unit × Wal))
  | rotate (cur : Snapshot) (program : SegmentProgram (Except Failure Nat × Wal))
  | remove (program : SegmentProgram (Except Failure Nat))

/-- How far a checkpoint has come since its rotation. -/
inductive Stage where
  | idle
  | saving (cur : Snapshot) (boundary : Nat)
      (program : Checkpoint.FileProgram (Except Failure Unit))
  | saved (covered : Nat)

structure Live where
  store : Store
  task : Task
  /-- a group that is durable and not yet published -/
  landed : Option Store.Staged
  stage : Stage

inductive Phase where
  | closed
  | opening (program : SegmentProgram (Except Failure Store))
  | running (live : Live)

structure System where
  segments : Segments
  files : Checkpoint.SnapFiles
  phase : Phase
  /-- the commits of the last snapshot that was published -/
  published : List (List Op)
  /-- the commits of the last group that may be in the log and was not published -/
  pending : List (List Op)
  /-- some open published a record that is not all synced -/
  exposed : Bool

namespace System

def initial : System := ⟨SortedMap.empty, .empty, .closed, [], [], false⟩

/-! ### Steps -/

def beginOpen (options : Options) (sys : System) : Option System :=
  match sys.phase with
  | .closed => some { sys with phase := .opening (Store.openWith options sys.files) }
  | _ => none

/-- The recovered snapshot is the first that the new store publishes. -/
def endOpen (sys : System) : Option System :=
  match sys.phase with
  | .opening (.done (.ok store)) =>
      some
        { sys with
          phase := .running ⟨store, .free, none, .idle⟩
          published := (sys.published ++ sys.pending).take store.snap.index
          pending := []
          exposed := sys.exposed || !settledTail sys.segments }
  | .opening (.done (.error _)) => some { sys with phase := .closed }
  | _ => none

/-- A writer takes the queue as one group. Each commit in it passed `check_ops`, and
indices stay within their 64 bits. -/
def beginFlush (group : List (List Op)) (sys : System) : Option System :=
  match sys.phase with
  | .running ⟨store, .free, none, stage⟩ =>
      if group ≠ [] ∧ (∀ ops ∈ group, (checkOps ops).isOk = true) ∧
          store.snap.index + group.length < 2 ^ 64 then
        let staged := Store.stageGroup store.snap group
        some
          { sys with
            phase := .running
              ⟨store, .append group staged (store.wal.appendMany staged.records), none, stage⟩
            -- a poisoned log refuses the group, so the earlier one stays in doubt
            pending := if store.wal.poisoned = none then group else sys.pending }
      else none
  | _ => none

def endFlush (sys : System) : Option System :=
  match sys.phase with
  | .running ⟨store, .append group staged (.done (.ok (), wal)), none, stage⟩ =>
      some { sys with
        phase := .running ⟨store.landed wal group.length, .free, some staged, stage⟩ }
  | .running ⟨store, .append _ _ (.done (.error _, wal)), landed, stage⟩ =>
      some
        { sys with
          phase := .running ⟨{ store with wal := wal }, .free, landed, stage⟩
          pending := if wal.poisoned = none then [] else sys.pending }
  | _ => none

def publish (sys : System) : Option System :=
  match sys.phase with
  | .running ⟨store, task, some staged, stage⟩ =>
      some
        { sys with
          phase := .running ⟨store.publish staged, task, none, stage⟩
          published := sys.published ++ sys.pending
          pending := [] }
  | _ => none

/-- The exclusive instant of a checkpoint; the map fits in memory. -/
def beginCheckpoint (sys : System) : Option System :=
  match sys.phase with
  | .running ⟨store, .free, none, .idle⟩ =>
      if store.snap.data.size < 2 ^ 64 then
        some
          { sys with
            phase := .running ⟨store, .rotate store.snap store.wal.rotateSegment, none, .idle⟩ }
      else none
  | _ => none

def endRotate (sys : System) : Option System :=
  match sys.phase with
  | .running ⟨store, .rotate cur (.done (.ok boundary, wal)), landed, _⟩ =>
      some { sys with
        phase := .running ⟨{ store with wal := wal }, .free, landed,
          .saving cur boundary (Checkpoint.write cur store.replaced)⟩ }
  | .running ⟨store, .rotate _ (.done (.error _, wal)), landed, stage⟩ =>
      some { sys with phase := .running ⟨{ store with wal := wal }, .free, landed, stage⟩ }
  | _ => none

def endSave (sys : System) : Option System :=
  match sys.phase with
  | .running ⟨store, task, landed, .saving _ boundary (.done (.ok ()))⟩ =>
      some { sys with
        phase := .running ⟨store.saved boundary, task, landed, .saved store.prevBoundary⟩ }
  | .running ⟨store, task, landed, .saving _ _ (.done (.error _))⟩ =>
      some { sys with phase := .running ⟨store, task, landed, .idle⟩ }
  | _ => none

def beginRemove (sys : System) : Option System :=
  match sys.phase with
  | .running ⟨store, .free, landed, .saved covered⟩ =>
      some { sys with
        phase := .running
          ⟨store, .remove (store.wal.removeSegmentsBefore covered), landed, .idle⟩ }
  | _ => none

def endRemove (sys : System) : Option System :=
  match sys.phase with
  | .running ⟨store, .remove (.done _), landed, stage⟩ =>
      some { sys with phase := .running ⟨store, .free, landed, stage⟩ }
  | _ => none

def logCall (faults : Faults) (fate : Fate) (sys : System) : Option System :=
  match sys.phase with
  | .opening program => do
      let (program, segments) ← program.step (Wal.directory faults) fate sys.segments
      return { sys with segments := segments, phase := .opening program }
  | .running ⟨store, .append group staged program, landed, stage⟩ => do
      let (program, segments) ← program.step (Wal.directory faults) fate sys.segments
      return { sys with
        segments := segments
        phase := .running ⟨store, .append group staged program, landed, stage⟩ }
  | .running ⟨store, .rotate cur program, landed, stage⟩ => do
      let (program, segments) ← program.step (Wal.directory faults) fate sys.segments
      return { sys with
        segments := segments
        phase := .running ⟨store, .rotate cur program, landed, stage⟩ }
  | .running ⟨store, .remove program, landed, stage⟩ => do
      let (program, segments) ← program.step (Wal.directory faults) fate sys.segments
      return { sys with
        segments := segments, phase := .running ⟨store, .remove program, landed, stage⟩ }
  | _ => none

def fileCall (faults : Faults) (fate : Fate) (sys : System) : Option System :=
  match sys.phase with
  | .running ⟨store, task, landed, .saving cur boundary program⟩ => do
      let (program, files) ← program.step (Checkpoint.directory faults) fate sys.files
      return { sys with
        files := files
        phase := .running ⟨store, task, landed, .saving cur boundary program⟩ }
  | _ => none

def close (sys : System) : Option System :=
  match sys.phase with
  | .running ⟨_, .free, none, .idle⟩ => some { sys with phase := .closed }
  | _ => none

/-- How much of each file a crash leaves; see `File.crash`. -/
structure Cut where
  kept : Nat → Nat
  safe : Nat → Nat
  keptFile : Checkpoint.Name → Nat
  safeFile : Checkpoint.Name → Nat

def crash (cut : Cut) (sys : System) : System :=
  { sys with
    segments := Wal.crash sys.segments cut.kept cut.safe
    files := sys.files.crash cut.keptFile cut.safeFile
    phase := .closed }

def garbled (bytes : Bytes) : Bool :=
  match Checkpoint.decode bytes with
  | .error failure => failure.kind = .invalidData
  | .ok _ => false

/-- What can be in the place of `snap.dat` when it is lost: nothing, or garbage. -/
def spoilt : Option Bytes → Bool
  | none => true
  | some bytes => garbled bytes

def spoil (files : Checkpoint.SnapFiles) (garbage : Option Bytes) : Checkpoint.SnapFiles :=
  { files with latest := garbage.map File.settled }

def damage (garbage : Option Bytes) (sys : System) : Option System :=
  match sys.phase with
  | .closed =>
      if sys.files.prev.isSome ∧ spoilt garbage then
        some { sys with files := spoil sys.files garbage }
      else none
  | _ => none

inductive Event where
  | beginOpen (options : Options)
  | endOpen
  | beginFlush (group : List (List Op))
  | endFlush
  | publish
  | beginCheckpoint
  | endRotate
  | endSave
  | beginRemove
  | endRemove
  | logCall (fate : Fate)
  | fileCall (fate : Fate)
  | close
  | crash (cut : Cut)
  | damage (garbage : Option Bytes)

def step (faults : Faults) (sys : System) : Event → Option System
  | .beginOpen options => sys.beginOpen options
  | .endOpen => sys.endOpen
  | .beginFlush group => sys.beginFlush group
  | .endFlush => sys.endFlush
  | .publish => sys.publish
  | .beginCheckpoint => sys.beginCheckpoint
  | .endRotate => sys.endRotate
  | .endSave => sys.endSave
  | .beginRemove => sys.beginRemove
  | .endRemove => sys.endRemove
  | .logCall fate => sys.logCall faults fate
  | .fileCall fate => sys.fileCall faults fate
  | .close => sys.close
  | .crash cut => some (sys.crash cut)
  | .damage garbage => sys.damage garbage

def run (faults : Faults) (events : List Event) (sys : System) : Option System :=
  events.foldlM (step faults) sys

/-! ### What a step can do -/

/-- The steps by what they need of the state and what they make of it. -/
inductive Moves (faults : Faults) (sys : System) : Event → System → Prop
  | beginOpen (options : Options) (phase : sys.phase = .closed) :
      Moves faults sys (.beginOpen options)
        { sys with phase := .opening (Store.openWith options sys.files) }
  | opened (store : Store) (phase : sys.phase = .opening (.done (.ok store))) :
      Moves faults sys .endOpen
        { sys with
          phase := .running ⟨store, .free, none, .idle⟩
          published := (sys.published ++ sys.pending).take store.snap.index
          pending := []
          exposed := sys.exposed || !settledTail sys.segments }
  | refused (failure : Failure) (phase : sys.phase = .opening (.done (.error failure))) :
      Moves faults sys .endOpen { sys with phase := .closed }
  | beginFlush (group : List (List Op)) (store : Store) (stage : Stage)
      (phase : sys.phase = .running ⟨store, .free, none, stage⟩) (nonempty : group ≠ [])
      (checked : ∀ ops ∈ group, (checkOps ops).isOk = true)
      (bound : store.snap.index + group.length < 2 ^ 64) :
      Moves faults sys (.beginFlush group)
        { sys with
          phase := .running ⟨store, .append group (Store.stageGroup store.snap group)
            (store.wal.appendMany (Store.stageGroup store.snap group).records), none, stage⟩
          pending := if store.wal.poisoned = none then group else sys.pending }
  | flushed (store : Store) (group : List (List Op)) (staged : Store.Staged) (wal : Wal)
      (stage : Stage)
      (phase : sys.phase =
        .running ⟨store, .append group staged (.done (.ok (), wal)), none, stage⟩) :
      Moves faults sys .endFlush
        { sys with
          phase := .running ⟨store.landed wal group.length, .free, some staged, stage⟩ }
  | flushFailed (store : Store) (group : List (List Op)) (staged : Store.Staged)
      (failure : Failure) (wal : Wal) (landed : Option Store.Staged) (stage : Stage)
      (phase : sys.phase =
        .running ⟨store, .append group staged (.done (.error failure, wal)), landed, stage⟩) :
      Moves faults sys .endFlush
        { sys with
          phase := .running ⟨{ store with wal := wal }, .free, landed, stage⟩
          pending := if wal.poisoned = none then [] else sys.pending }
  | publish (store : Store) (task : Task) (staged : Store.Staged) (stage : Stage)
      (phase : sys.phase = .running ⟨store, task, some staged, stage⟩) :
      Moves faults sys .publish
        { sys with
          phase := .running ⟨store.publish staged, task, none, stage⟩
          published := sys.published ++ sys.pending
          pending := [] }
  | beginCheckpoint (store : Store) (phase : sys.phase = .running ⟨store, .free, none, .idle⟩)
      (small : store.snap.data.size < 2 ^ 64) :
      Moves faults sys .beginCheckpoint
        { sys with
          phase := .running ⟨store, .rotate store.snap store.wal.rotateSegment, none, .idle⟩ }
  | rotated (store : Store) (cur : Snapshot) (boundary : Nat) (wal : Wal)
      (landed : Option Store.Staged) (stage : Stage)
      (phase : sys.phase =
        .running ⟨store, .rotate cur (.done (.ok boundary, wal)), landed, stage⟩) :
      Moves faults sys .endRotate
        { sys with
          phase := .running ⟨{ store with wal := wal }, .free, landed,
            .saving cur boundary (Checkpoint.write cur store.replaced)⟩ }
  | rotateFailed (store : Store) (cur : Snapshot) (failure : Failure) (wal : Wal)
      (landed : Option Store.Staged) (stage : Stage)
      (phase : sys.phase =
        .running ⟨store, .rotate cur (.done (.error failure, wal)), landed, stage⟩) :
      Moves faults sys .endRotate
        { sys with phase := .running ⟨{ store with wal := wal }, .free, landed, stage⟩ }
  | saved (store : Store) (task : Task) (landed : Option Store.Staged) (cur : Snapshot)
      (boundary : Nat)
      (phase : sys.phase =
        .running ⟨store, task, landed, .saving cur boundary (.done (.ok ()))⟩) :
      Moves faults sys .endSave
        { sys with
          phase := .running ⟨store.saved boundary, task, landed, .saved store.prevBoundary⟩ }
  | saveFailed (store : Store) (task : Task) (landed : Option Store.Staged) (cur : Snapshot)
      (boundary : Nat) (failure : Failure)
      (phase : sys.phase =
        .running ⟨store, task, landed, .saving cur boundary (.done (.error failure))⟩) :
      Moves faults sys .endSave { sys with phase := .running ⟨store, task, landed, .idle⟩ }
  | beginRemove (store : Store) (landed : Option Store.Staged) (covered : Nat)
      (phase : sys.phase = .running ⟨store, .free, landed, .saved covered⟩) :
      Moves faults sys .beginRemove
        { sys with
          phase := .running
            ⟨store, .remove (store.wal.removeSegmentsBefore covered), landed, .idle⟩ }
  | removed (store : Store) (result : Except Failure Nat) (landed : Option Store.Staged)
      (stage : Stage)
      (phase : sys.phase = .running ⟨store, .remove (.done result), landed, stage⟩) :
      Moves faults sys .endRemove { sys with phase := .running ⟨store, .free, landed, stage⟩ }
  | openCall (fate : Fate) (program : SegmentProgram (Except Failure Store))
      (outcome : SegmentProgram (Except Failure Store) × Segments)
      (phase : sys.phase = .opening program)
      (served : program.step (Wal.directory faults) fate sys.segments = some outcome) :
      Moves faults sys (.logCall fate)
        { sys with segments := outcome.2, phase := .opening outcome.1 }
  | appendCall (fate : Fate) (store : Store) (group : List (List Op)) (staged : Store.Staged)
      (landed : Option Store.Staged) (stage : Stage)
      (program : SegmentProgram (Except Failure Unit × Wal))
      (outcome : SegmentProgram (Except Failure Unit × Wal) × Segments)
      (phase : sys.phase = .running ⟨store, .append group staged program, landed, stage⟩)
      (served : program.step (Wal.directory faults) fate sys.segments = some outcome) :
      Moves faults sys (.logCall fate)
        { sys with
          segments := outcome.2
          phase := .running ⟨store, .append group staged outcome.1, landed, stage⟩ }
  | rotateCall (fate : Fate) (store : Store) (cur : Snapshot) (landed : Option Store.Staged)
      (stage : Stage) (program : SegmentProgram (Except Failure Nat × Wal))
      (outcome : SegmentProgram (Except Failure Nat × Wal) × Segments)
      (phase : sys.phase = .running ⟨store, .rotate cur program, landed, stage⟩)
      (served : program.step (Wal.directory faults) fate sys.segments = some outcome) :
      Moves faults sys (.logCall fate)
        { sys with
          segments := outcome.2
          phase := .running ⟨store, .rotate cur outcome.1, landed, stage⟩ }
  | removeCall (fate : Fate) (store : Store) (landed : Option Store.Staged) (stage : Stage)
      (program : SegmentProgram (Except Failure Nat))
      (outcome : SegmentProgram (Except Failure Nat) × Segments)
      (phase : sys.phase = .running ⟨store, .remove program, landed, stage⟩)
      (served : program.step (Wal.directory faults) fate sys.segments = some outcome) :
      Moves faults sys (.logCall fate)
        { sys with
          segments := outcome.2
          phase := .running ⟨store, .remove outcome.1, landed, stage⟩ }
  | fileCall (fate : Fate) (store : Store) (task : Task) (landed : Option Store.Staged)
      (cur : Snapshot) (boundary : Nat)
      (program : Checkpoint.FileProgram (Except Failure Unit))
      (outcome : Checkpoint.FileProgram (Except Failure Unit) × Checkpoint.SnapFiles)
      (phase : sys.phase = .running ⟨store, task, landed, .saving cur boundary program⟩)
      (served : program.step (Checkpoint.directory faults) fate sys.files = some outcome) :
      Moves faults sys (.fileCall fate)
        { sys with
          files := outcome.2
          phase := .running ⟨store, task, landed, .saving cur boundary outcome.1⟩ }
  | close (store : Store) (phase : sys.phase = .running ⟨store, .free, none, .idle⟩) :
      Moves faults sys .close { sys with phase := .closed }
  | crash (cut : Cut) : Moves faults sys (.crash cut) (sys.crash cut)
  | damage (garbage : Option Bytes) (phase : sys.phase = .closed)
      (fallback : sys.files.prev.isSome = true) (spoilt : spoilt garbage = true) :
      Moves faults sys (.damage garbage) { sys with files := spoil sys.files garbage }

section Moves

variable {faults : Faults} {sys next : System} {fate : Fate}

theorem logCall_moves (stepped : sys.logCall faults fate = some next) :
    Moves faults sys (.logCall fate) next := by
  unfold logCall at stepped
  split at stepped
  · rename_i program phase
    obtain ⟨outcome, served, same⟩ := Option.bind_eq_some_iff.mp stepped
    cases same
    exact .openCall fate program outcome phase served
  · rename_i store group staged program landed stage phase
    obtain ⟨outcome, served, same⟩ := Option.bind_eq_some_iff.mp stepped
    cases same
    exact .appendCall fate store group staged landed stage program outcome phase served
  · rename_i store cur program landed stage phase
    obtain ⟨outcome, served, same⟩ := Option.bind_eq_some_iff.mp stepped
    cases same
    exact .rotateCall fate store cur landed stage program outcome phase served
  · rename_i store program landed stage phase
    obtain ⟨outcome, served, same⟩ := Option.bind_eq_some_iff.mp stepped
    cases same
    exact .removeCall fate store landed stage program outcome phase served
  · cases stepped

theorem step_moves {event : Event} (stepped : sys.step faults event = some next) :
    Moves faults sys event next := by
  cases event with
  | beginOpen options =>
      simp only [step, beginOpen] at stepped
      split at stepped <;> cases stepped
      exact .beginOpen options ‹_›
  | endOpen =>
      simp only [step, endOpen] at stepped
      split at stepped <;> cases stepped
      · exact .opened _ ‹_›
      · exact .refused _ ‹_›
  | beginFlush group =>
      simp only [step, beginFlush] at stepped
      split at stepped
      · rename_i store stage phase
        rw [Option.ite_none_right_eq_some] at stepped
        obtain ⟨⟨nonempty, checked, bound⟩, same⟩ := stepped
        cases same
        exact .beginFlush group store stage phase nonempty checked bound
      · cases stepped
  | endFlush =>
      simp only [step, endFlush] at stepped
      split at stepped <;> cases stepped
      · exact .flushed _ _ _ _ _ ‹_›
      · exact .flushFailed _ _ _ _ _ _ _ ‹_›
  | publish =>
      simp only [step, publish] at stepped
      split at stepped <;> cases stepped
      exact .publish _ _ _ _ ‹_›
  | beginCheckpoint =>
      simp only [step, beginCheckpoint] at stepped
      split at stepped
      · rename_i store phase
        rw [Option.ite_none_right_eq_some] at stepped
        obtain ⟨small, same⟩ := stepped
        cases same
        exact .beginCheckpoint store phase small
      · cases stepped
  | endRotate =>
      simp only [step, endRotate] at stepped
      split at stepped <;> cases stepped
      · exact .rotated _ _ _ _ _ _ ‹_›
      · exact .rotateFailed _ _ _ _ _ _ ‹_›
  | endSave =>
      simp only [step, endSave] at stepped
      split at stepped <;> cases stepped
      · exact .saved _ _ _ _ _ ‹_›
      · exact .saveFailed _ _ _ _ _ _ ‹_›
  | beginRemove =>
      simp only [step, beginRemove] at stepped
      split at stepped <;> cases stepped
      exact .beginRemove _ _ _ ‹_›
  | endRemove =>
      simp only [step, endRemove] at stepped
      split at stepped <;> cases stepped
      exact .removed _ _ _ _ ‹_›
  | logCall fate => exact logCall_moves stepped
  | fileCall fate =>
      simp only [step, fileCall] at stepped
      split at stepped
      · rename_i store task landed cur boundary program phase
        obtain ⟨outcome, served, same⟩ := Option.bind_eq_some_iff.mp stepped
        cases same
        exact .fileCall fate store task landed cur boundary program outcome phase served
      · cases stepped
  | close =>
      simp only [step, close] at stepped
      split at stepped <;> cases stepped
      exact .close _ ‹_›
  | crash cut =>
      cases stepped
      exact .crash cut
  | damage garbage =>
      simp only [step, damage] at stepped
      split at stepped
      · rename_i phase
        rw [Option.ite_none_right_eq_some] at stepped
        obtain ⟨⟨fallback, lost⟩, same⟩ := stepped
        cases same
        exact .damage garbage phase fallback lost
      · cases stepped

end Moves

/-- The snapshot that an open publishes when nothing fails, if it succeeds. -/
def recovers (options : Options) (sys : System) : Option Snapshot :=
  match ((Store.openWith options sys.files).exec (Wal.directory .none) .ok sys.segments).1 with
  | .ok store => some store.snap
  | .error _ => none

end System

end Keystory
