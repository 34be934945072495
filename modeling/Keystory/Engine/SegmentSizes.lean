/-
The size of the segment files over the whole life of a store. Whatever fails and wherever a
crash comes, no file of the log outgrows the larger of the configured segment size and a
header with the largest group that was ever committed.
-/

import Keystory.Engine.Durability
import Keystory.Wal.Size

namespace Keystory

open General Wal

/-! ### Groups -/

def groupBytes : List (List Op) → Nat
  | [] => 0
  | ops :: group => (4 + payloadLen ops + 4) + groupBytes group

theorem length_frames_stamp (first : Nat) (group : List (List Op)) :
    (frames (stamp first group)).length = groupBytes group := by
  induction group generalizing first with
  | nil => rfl
  | cons ops group ih =>
      rw [stamp, frames_cons, List.length_append, length_frame, length_encodePayload, ih]
      rfl

theorem length_frames_stageGroup (snap : Snapshot) (group : List (List Op)) :
    (frames (Store.stageGroup snap group).records).length = groupBytes group := by
  rw [records_stageGroup, length_frames_stamp]

/-! ### Phases -/

variable {faults : Faults} {limit : Nat} {segments : Segments}

theorem Wal.Sized.crash (sized : Sized limit segments) (kept safe : Nat → Nat) :
    Sized limit (Wal.crash segments kept safe) := by
  intro seq file found
  obtain ⟨⟨number, before⟩, member, same⟩ :=
    List.mem_map.mp ((SortedMap.find?_eq_some_iff _ seq file).mp found)
  cases same
  have there := (SortedMap.find?_eq_some_iff segments number before).mpr member
  exact (File.bytes_crash _ _).length_le.trans (sized number before there)

def Task.Bounded (faults : Faults) (limit : Nat) (wal : Wal) (segments : Segments) : Task → Prop
  | .free => wal.Within limit segments
  | .append _ _ program =>
      program.Spec (directory faults) (Sized limit) (fun outcome => outcome.2.Within limit)
        segments
  | .rotate _ program =>
      program.Spec (directory faults) (Sized limit) (fun outcome => outcome.2.Within limit)
        segments
  | .remove program =>
      program.Spec (directory faults) (wal.Within limit) (fun _ => wal.Within limit) segments

def OpenedWithin (limit : Nat) (result : Except Failure Store) (segments : Segments) : Prop :=
  ∀ store, result = .ok store → store.wal.Within limit segments

theorem OpenedWithin.failed {failure : Failure} : OpenedWithin limit (.error failure) segments :=
  fun _ impossible => by cases impossible

def Phase.Bounded (faults : Faults) (limit : Nat) (segments : Segments) : Phase → Prop
  | .closed => Sized limit segments
  | .opening program =>
      program.Spec (directory faults) (Sized limit) (OpenedWithin limit) segments
  | .running live => live.task.Bounded faults limit live.store.wal segments

theorem Task.Bounded.sized {task : Task} {wal : Wal}
    (bounded : task.Bounded faults limit wal segments) : Sized limit segments := by
  cases task with
  | free => exact Within.sized bounded
  | append group staged program => exact Program.Spec.now bounded
  | rotate cur program => exact Program.Spec.now bounded
  | remove program => exact (Program.Spec.now bounded).sized

theorem Phase.Bounded.sized {phase : Phase} (bounded : phase.Bounded faults limit segments) :
    Sized limit segments := by
  cases phase with
  | closed => exact bounded
  | opening program => exact Program.Spec.now bounded
  | running live => exact Task.Bounded.sized bounded

theorem openWith_within (sized : Sized limit segments) {options : Options}
    (room : max options.walSegmentSize (headerLen + minRecord) ≤ limit)
    (files : Checkpoint.SnapFiles) :
    (Store.openWith options files).Spec (directory faults) (Sized limit) (OpenedWithin limit)
      segments := by
  unfold Store.openWith
  cases Checkpoint.load files with
  | error failure => exact ⟨sized, .failed⟩
  | ok loaded =>
      apply spec_readDir sized
      split
      · exact ⟨sized, .failed⟩
      · apply Program.Spec.bind
        refine (openLog_within sized room).mono (fun _ sized => sized) ?_
        intro result later now fitted
        cases result with
        | error failure => exact ⟨now, .failed⟩
        | ok wal =>
            refine ⟨now, fun store opened => ?_⟩
            cases opened
            exact fitted wal rfl

/-! ### Runs -/

/-- Stores are opened with segments of at most this size, and commit groups of at most so many
bytes. -/
def System.Event.Modest (size largest : Nat) : System.Event → Prop
  | .beginOpen options => options.walSegmentSize ≤ size
  | .beginFlush group => groupBytes group ≤ largest
  | _ => True

def segmentLimit (size largest : Nat) : Nat :=
  max (max size (headerLen + minRecord)) (headerLen + largest)

theorem Phase.Bounded.step {size largest : Nat} {sys next : System} {event : System.Event}
    (modest : event.Modest size largest)
    (bounded : sys.phase.Bounded faults (segmentLimit size largest) sys.segments)
    (stepped : sys.step faults event = some next) :
    next.phase.Bounded faults (segmentLimit size largest) next.segments := by
  have sized := bounded.sized
  cases System.step_moves stepped with
  | beginOpen options phase =>
      have small : options.walSegmentSize ≤ size := modest
      refine openWith_within sized ?_ sys.files
      unfold segmentLimit
      omega
  | opened store phase =>
      rw [phase] at bounded
      exact bounded.2 store rfl
  | refused failure phase => exact sized
  | beginFlush group store stage phase nonempty checked bound =>
      have small : groupBytes group ≤ largest := modest
      rw [phase] at bounded
      refine appendMany_within bounded ?_
      rw [length_frames_stageGroup]
      unfold segmentLimit
      omega
  | flushed store group staged wal stage phase =>
      rw [phase] at bounded
      exact bounded.2
  | flushFailed store group staged failure wal landed stage phase =>
      rw [phase] at bounded
      exact bounded.2
  | publish store task staged stage phase =>
      rw [phase] at bounded
      exact bounded
  | beginCheckpoint store phase small =>
      rw [phase] at bounded
      have header : headerLen ≤ segmentLimit size largest := by
        unfold segmentLimit
        omega
      exact (rotateSegment_within bounded header).mono (fun _ sized => sized)
        (fun _ _ _ turned => turned.1)
  | rotated store cur boundary wal landed stage phase =>
      rw [phase] at bounded
      exact bounded.2
  | rotateFailed store cur failure wal landed stage phase =>
      rw [phase] at bounded
      exact bounded.2
  | saved store task landed cur boundary phase =>
      rw [phase] at bounded
      exact bounded
  | saveFailed store task landed cur boundary failure phase =>
      rw [phase] at bounded
      exact bounded
  | beginRemove store landed covered phase =>
      rw [phase] at bounded
      exact removeSegmentsBefore_within bounded covered
  | removed store result landed stage phase =>
      rw [phase] at bounded
      exact bounded.2
  | openCall fate program outcome phase served =>
      rw [phase] at bounded
      exact Program.Spec.step bounded served
  | appendCall fate store group staged landed stage program outcome phase served =>
      rw [phase] at bounded
      exact Program.Spec.step bounded served
  | rotateCall fate store cur landed stage program outcome phase served =>
      rw [phase] at bounded
      exact Program.Spec.step bounded served
  | removeCall fate store landed stage program outcome phase served =>
      rw [phase] at bounded
      exact Program.Spec.step bounded served
  | fileCall fate store task landed cur boundary program outcome phase served =>
      rw [phase] at bounded
      exact bounded
  | close store phase => exact sized
  | crash cut => exact sized.crash cut.kept cut.safe
  | damage garbage phase fallback spoilt =>
      rw [phase] at bounded
      exact phase ▸ bounded

/-- No segment outgrows its limit, whatever fails, is rolled back or is cut short. -/
theorem segments_stay_bounded {events : List System.Event} {sys : System} {size largest : Nat}
    (modest : ∀ event ∈ events, event.Modest size largest)
    (ran : System.run faults events System.initial = some sys) :
    ∀ entry ∈ sys.segments.entries, entry.2.bytes.length ≤ segmentLimit size largest := by
  have empty : Sized (segmentLimit size largest) System.initial.segments := by
    intro seq file found
    cases found
  have bounded : sys.phase.Bounded faults (segmentLimit size largest) sys.segments :=
    runSteps_invariant_of (System.Event.Modest size largest)
      (fun state => state.phase.Bounded faults (segmentLimit size largest) state.segments)
      Phase.Bounded.step modest empty ran
  rintro ⟨seq, file⟩ member
  exact bounded.sized seq file ((SortedMap.find?_eq_some_iff sys.segments seq file).mpr member)

/-- A full segment, and a second one that a write to it was cut short in. -/
theorem segments_stay_bounded_when_torn :
    ∃ events sys, System.run .any events System.initial = some sys ∧
      sys.segments.entries.map (fun entry => entry.2.bytes.length) = [47, 21] ∧
      ∀ entry ∈ sys.segments.entries, entry.2.bytes.length ≤ 47 := by
  let events := [.beginOpen ⟨0⟩] ++ logCalls 7 ++ [.endOpen, .beginFlush [[.put [97] [1]]]] ++
    logCalls 2 ++ [.endFlush, .publish, .beginFlush [[.put [98] [2]]]] ++ logCalls 5 ++
    [.logCall (.fail 9)]
  have facts : (System.run .any events System.initial).map
      (fun sys => sys.segments.entries.map (fun entry => entry.2.bytes.length)) =
        some [47, 21] := by
    decide +kernel
  obtain ⟨sys, ran, lengths⟩ := Option.map_eq_some_iff.mp facts
  have modest : ∀ event ∈ events, System.Event.Modest 0 35 event := by
    intro event member
    cases event with
    | beginOpen options =>
        have same : options = ⟨0⟩ := by simpa [events, logCalls] using member
        subst same
        exact Nat.le_refl 0
    | beginFlush group =>
        have same : group = [[.put [97] [1]]] ∨ group = [[.put [98] [2]]] := by
          simpa [events, logCalls] using member
        rcases same with rfl | rfl <;> exact Nat.le_refl 35
    | _ => trivial
  exact ⟨events, sys, ran, lengths, segments_stay_bounded modest ran⟩

end Keystory
