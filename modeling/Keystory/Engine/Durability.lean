/-
What a store directory guarantees over its whole life: an open recovers every
commit that was ever published, and the older checkpoint generation is always
enough. Each holds under one condition on the file system that the code does not
itself ensure, and a run shows what happens without it.
-/

import Keystory.Engine.Steps
import Keystory.Wal.Faults

namespace Keystory

open General Wal Checkpoint

section Recovery

variable {faults : Faults} {sys : System}

/-- An open in which nothing fails gives the state after the commits that the log is
found to hold, with any files that can be loaded. -/
theorem recovers_eq {lo : Nat} {base commits : List (List Op)} {sure maybe : List Record}
    {entries : List (Nat × Record)} {ending : Option Nat} {files : SnapFiles}
    (sound : Sound sys lo base sure maybe)
    (recoverable : Recoverable sys.segments sure maybe entries ending) (inside : commits <+: base)
    (logged : untag entries = stamp lo (commits.drop lo))
    (atLeast : lo + sure.length ≤ commits.length)
    (generations : Generations sys.history lo (lo + sure.length) files) (options : Options) :
    System.recovers options { sys with files := files } = some (stateAfter commits) := by
  have spec : (Store.openWith options files).Spec (Wal.directory .none) _ _ sys.segments :=
    sound.openWith_spec recoverable inside logged atLeast generations
  have allowed : ∀ call, (Wal.directory .none).allows call .ok := fun _ => rfl
  obtain ⟨_, post⟩ := spec.exec allowed
  unfold System.recovers
  cases outcome : ((Store.openWith options files).exec (Wal.directory .none) .ok
      sys.segments).1 with
  | error failure =>
      rw [outcome] at post
      exact absurd rfl post
  | ok store =>
      rw [outcome] at post
      exact congrArg some post.snap

end Recovery

/-! ### Nothing published is lost -/

/-- In every run in which no open publishes a record that is not all synced: the
store's snapshot is the state after the published commits, and wherever the run
stops the next open gives the state after all of them, followed by the first few
commits of the one group that was on its way. -/
theorem recovery_keeps_published {faults : Faults} {events : List System.Event} {sys : System}
    (honest : faults ≠ .any) (ran : System.run faults events System.initial = some sys)
    (unexposed : sys.exposed = false) :
    (∀ live, sys.phase = .running live → live.store.snap = stateAfter sys.published ∧
      live.store.index = live.store.snap.index) ∧
    (sys.phase = .closed → ∀ options, ∃ count, count ≤ sys.pending.length ∧
      sys.recovers options = some (stateAfter (sys.published ++ sys.pending.take count))) := by
  have inv := Inv.run honest Inv.initial ran
  constructor
  · intro live phase
    obtain ⟨lo, base, sure, maybe, running⟩ := inv.running phase
    exact ⟨running.snap, running.index⟩
  · intro _ options
    obtain ⟨lo, base, sure, maybe, sound, generations, readable⟩ := inv.atRest
    obtain ⟨entries, ending, recoverable⟩ := readable.recoverable
    obtain ⟨commits, inside, logged, atLeast⟩ := sound.recovered recoverable
    have recovered := recovers_eq sound recoverable inside logged atLeast generations options
    have within : commits <+: sys.published ++ sys.pending := inside.trans sound.inside
    have all : sys.published.length ≤ commits.length := (sound.certain unexposed).trans atLeast
    refine ⟨commits.length - sys.published.length, ?_, ?_⟩
    · have bound := within.length_le
      rw [List.length_append] at bound
      omega
    · have same := List.prefix_iff_eq_take.mp within
      rw [List.take_append, List.take_of_length_le all] at same
      rw [← same]
      exact recovered

def logCalls (count : Nat) : List System.Event := List.replicate count (.logCall .ok)

def firstOpen : List System.Event := [.beginOpen {}] ++ logCalls 7 ++ [.endOpen]

def crashKeeping (kept : Nat) : System.Event :=
  .crash ⟨fun _ => kept, fun _ => 0, fun _ => 0, fun _ => 0⟩

def Phase.isClosed : Phase → Bool
  | .closed => true
  | _ => false

theorem Phase.eq_closed {phase : Phase} (closed : phase.isClosed = true) : phase = .closed := by
  cases phase with
  | closed => rfl
  | opening program => cases closed
  | running live => cases closed

/-- A commit is published, a second one is cut short in its write, and the first is
recovered. -/
theorem recovery_keeps_published_when_torn :
    ∃ events sys count, System.run .none events System.initial = some sys ∧
      sys.phase = .closed ∧ sys.published = [[.put [97] [1]]] ∧ sys.pending = [[.delete [97]]] ∧
      count ≤ 1 ∧
      sys.recovers {} =
        some (stateAfter ([[.put [97] [1]]] ++ [[.delete [97]]].take count)) := by
  have facts : (System.run .none (firstOpen ++ [.beginFlush [[.put [97] [1]]]] ++ logCalls 2 ++
      [.endFlush, .publish, .beginFlush [[.delete [97]]]] ++ logCalls 1 ++ [crashKeeping 20])
      System.initial).map (fun sys =>
        (sys.phase.isClosed, sys.exposed, sys.published, sys.pending)) =
      some (true, false, [[.put [97] [1]]], [[.delete [97]]]) := by
    decide +kernel
  obtain ⟨sys, ran, seen⟩ := Option.map_eq_some_iff.mp facts
  obtain ⟨closed, unexposed, published, pending⟩ :
      sys.phase.isClosed = true ∧ sys.exposed = false ∧ sys.published = [[.put [97] [1]]] ∧
        sys.pending = [[.delete [97]]] := by
    simpa using seen
  obtain ⟨count, bound, recovered⟩ :=
    (recovery_keeps_published (by decide) ran unexposed).2 (Phase.eq_closed closed) {}
  rw [published, pending] at recovered
  rw [pending] at bound
  exact ⟨_, sys, count, ran, Phase.eq_closed closed, published, pending, bound, recovered⟩

/-- The write of a group is cut short between its bytes and their sync, and the bytes
outlive the crash; the next open publishes the group without syncing them, and
another crash takes it away. -/
theorem unsynced_record_is_lost :
    ∃ events sys, System.run .none events System.initial = some sys ∧ sys.phase = .closed ∧
      sys.published = [[.put [97] [1]]] ∧ sys.recovers {} = some Snapshot.empty := by
  have facts : (System.run .none (firstOpen ++ [.beginFlush [[.put [97] [1]]]] ++ logCalls 1 ++
      [crashKeeping 35, .beginOpen {}] ++ logCalls 5 ++ [.endOpen, crashKeeping 0])
      System.initial).map (fun sys => (sys.phase.isClosed, sys.published, sys.recovers {})) =
      some (true, [[.put [97] [1]]], some Snapshot.empty) := by
    decide +kernel
  obtain ⟨sys, ran, seen⟩ := Option.map_eq_some_iff.mp facts
  obtain ⟨closed, published, recovered⟩ :
      sys.phase.isClosed = true ∧ sys.published = [[.put [97] [1]]] ∧
        sys.recovers {} = some Snapshot.empty := by
    simpa using seen
  exact ⟨_, sys, ran, Phase.eq_closed closed, published, recovered⟩

/-! ### The fall-back generation suffices -/

theorem Generations.decoded {commits : List (List Op)} {lo hi : Nat} {files : SnapFiles}
    {file : File UInt8} {snapshot : Snapshot} (generations : Generations commits lo hi files)
    (here : files.latest = some file ∨ files.prev = some file)
    (decoded : decode file.bytes = .ok snapshot) : Covers commits lo hi snapshot := by
  have good : ∀ {slot : Option (File UInt8)}, slot = some file → Slot commits lo hi slot →
      Covers commits lo hi snapshot := by
    intro slot same holds
    rw [same] at holds
    rcases holds with none | ⟨bytes, other, settled, read, covers⟩
    · cases none
    · rw [Option.some.inj settled, File.bytes_settled, read] at decoded
      cases decoded
      exact covers
  rcases here with latest | prev
  · rcases generations.latest with slot | ⟨⟨bytes, same, garbage⟩, _⟩
    · exact good latest slot
    · rw [latest] at same
      cases same
      rw [System.garbled, ← File.bytes_settled bytes, decoded] at garbage
      cases garbage
  · exact good prev generations.prev

/-- In every run in which no probe for a file fails: the segments hold, without a gap,
every record newer than any good checkpoint on disk; and while the store is closed and
`snap.prev` exists, losing `snap.dat` changes nothing that an open recovers. -/
theorem fallback_suffices {faults : Faults} {events : List System.Event} {sys : System}
    (honest : faults ≠ .any) (ran : System.run faults events System.initial = some sys) :
    (∃ first commits torn,
      replayed sys.segments = .ok (stamp first (commits.drop first), torn) ∧
      (∀ file snapshot, sys.files.latest = some file ∨ sys.files.prev = some file →
        decode file.bytes = .ok snapshot →
        first ≤ snapshot.index ∧ snapshot.index ≤ commits.length ∧
          snapshot = stateAfter (commits.take snapshot.index)) ∧
      ∀ options, sys.recovers options = some (stateAfter commits)) ∧
    (sys.phase = .closed → sys.files.prev.isSome = true → ∀ garbage,
      System.spoilt garbage = true → ∀ options,
      (sys.recovers options).isSome = true ∧
        System.recovers options { sys with files := System.spoil sys.files garbage } =
          sys.recovers options) := by
  have inv := Inv.run honest Inv.initial ran
  obtain ⟨lo, base, sure, maybe, sound, generations, readable⟩ := inv.atRest
  obtain ⟨entries, ending, recoverable⟩ := readable.recoverable
  obtain ⟨commits, inside, logged, atLeast⟩ := sound.recovered recoverable
  have recovered := recovers_eq sound recoverable inside logged atLeast generations
  constructor
  · refine ⟨lo, commits, ending, ?_, ?_, recovered⟩
    · rw [recoverable.replays.replayed_eq, logged]
    · intro file snapshot here decoded
      have agree := (take_agree (inside.trans sound.inside) atLeast).symm
      have covers := (generations.mono (Nat.le_refl lo) (Nat.le_refl _) agree).decoded here decoded
      exact ⟨covers.low, covers.high.trans atLeast, covers.state⟩
  · intro _ present garbage spoilt options
    have fallback := generations.spoil (Option.isSome_iff_ne_none.mp present) spoilt
    have fallen := recovers_eq sound recoverable inside logged atLeast fallback options
    have intact : sys.recovers options = some (stateAfter commits) := recovered options
    rw [intact, fallen]
    exact ⟨rfl, rfl⟩

def fileCalls (count : Nat) : List System.Event := List.replicate count (.fileCall .ok)

def commit (ops : List Op) : List System.Event :=
  [.beginFlush [ops]] ++ logCalls 2 ++ [.endFlush, .publish]

def checkpoint (writing : List System.Event) (removal : Nat) : List System.Event :=
  [.beginCheckpoint] ++ logCalls 5 ++ [.endRotate] ++ writing ++ [.endSave, .beginRemove] ++
    logCalls removal ++ [.endRemove]

def twoGenerations : List System.Event :=
  firstOpen ++ commit [.put [97] [1]] ++ checkpoint (fileCalls 15) 1 ++
    commit [.put [97] [2]] ++ checkpoint (fileCalls 16) 3

/-- Falling back from the second generation to the first, with `snap.dat` deleted. -/
theorem fallback_suffices_after_two_checkpoints :
    ∃ events sys, System.run .none events System.initial = some sys ∧ sys.phase = .closed ∧
      sys.files.prev.isSome = true ∧
      System.recovers {} { sys with files := System.spoil sys.files none } = sys.recovers {} ∧
      sys.recovers {} = some (stateAfter [[.put [97] [1]], [.put [97] [2]]]) := by
  have facts : (System.run .none (twoGenerations ++ [.close]) System.initial).map (fun sys =>
      (sys.phase.isClosed, sys.files.prev.isSome, sys.recovers {})) =
      some (true, true, some (stateAfter [[.put [97] [1]], [.put [97] [2]]])) := by
    decide +kernel
  obtain ⟨sys, ran, seen⟩ := Option.map_eq_some_iff.mp facts
  obtain ⟨closed, present, recovered⟩ :
      sys.phase.isClosed = true ∧ sys.files.prev.isSome = true ∧
        sys.recovers {} = some (stateAfter [[.put [97] [1]], [.put [97] [2]]]) := by
    simpa using seen
  have fallen := (fallback_suffices (by decide) ran).2 (Phase.eq_closed closed) present none rfl {}
  exact ⟨_, sys, ran, Phase.eq_closed closed, present, fallen.2, recovered⟩

/-- The third checkpoint asks whether `snap.dat` exists and the question fails: it is
overwritten instead of retained, the record after `snap.prev` is reclaimed all the
same, and the fall-back has a gap. -/
theorem misled_checkpoint_breaks_fallback :
    ∃ events sys, System.run .any events System.initial = some sys ∧ sys.phase = .closed ∧
      sys.files.prev.isSome = true ∧
      sys.recovers {} =
        some (stateAfter [[.put [97] [1]], [.put [97] [2]], [.put [97] [3]]]) ∧
      System.recovers {} { sys with files := System.spoil sys.files none } = none := by
  have facts : (System.run .any (twoGenerations ++ commit [.put [97] [3]] ++
      checkpoint (fileCalls 12 ++ [.fileCall (.fail 0)] ++ fileCalls 2) 3 ++ [.close])
      System.initial).map (fun sys =>
        (sys.phase.isClosed, sys.files.prev.isSome, sys.recovers {},
          System.recovers {} { sys with files := System.spoil sys.files none })) =
      some (true, true, some (stateAfter [[.put [97] [1]], [.put [97] [2]], [.put [97] [3]]]),
        none) := by
    decide +kernel
  obtain ⟨sys, ran, seen⟩ := Option.map_eq_some_iff.mp facts
  obtain ⟨closed, present, recovered, broken⟩ :
      sys.phase.isClosed = true ∧ sys.files.prev.isSome = true ∧
        sys.recovers {} =
          some (stateAfter [[.put [97] [1]], [.put [97] [2]], [.put [97] [3]]]) ∧
        System.recovers {} { sys with files := System.spoil sys.files none } = none := by
    simpa using seen
  exact ⟨_, sys, ran, Phase.eq_closed closed, present, recovered, broken⟩

end Keystory
