/-
Handles over the life of a log without power losses: ids only grow, and a handle
reads as the bytes that were put until a compaction drops its blob, and as absent
from then on.
-/

import Keystory.ValueStore.System

namespace Keystory.ValueStore

open General

def Note.storedId? : Note → Option Nat
  | .stored ref _ => some ref.id
  | .compacted _ => none

/-- What the notes say of the handles, the records of the log bear out. -/
structure Tracks (notes : List Note) (records : List LogRecord) : Prop where
  ids : (notes.filterMap Note.storedId?).Pairwise (· < ·)
  below : ∀ ref value, .stored ref value ∈ notes →
    ref.id < nextIdOf records ∧ ref.id ≠ fenceId ∧ ref.len = value.length
  held : ∀ earlier ref value later, notes = earlier ++ .stored ref value :: later →
    (∀ live, .compacted live ∈ later → ref.id ∈ live) → ⟨ref.id, value⟩ ∈ records
  dropped : ∀ earlier ref value later live, notes = earlier ++ .stored ref value :: later →
    .compacted live ∈ later → ref.id ∉ live → ∀ payload, ⟨ref.id, payload⟩ ∉ records

theorem Tracks.new : Tracks [] [] where
  ids := List.Pairwise.nil
  below := fun ref value member => absurd member List.not_mem_nil
  held := fun earlier ref value later same => by simp at same
  dropped := fun earlier ref value later live same => by simp at same

section Law

variable {notes : List Note} {records : List LogRecord}

theorem Tracks.append (tracks : Tracks notes records) (payload : Bytes) :
    Tracks notes (records ++ [⟨nextIdOf records, payload⟩]) where
  ids := tracks.ids
  below := by
    intro ref value member
    obtain ⟨below, rest⟩ := tracks.below ref value member
    refine ⟨below.trans_le ?_, rest⟩
    exact nextIdOf_mono (List.prefix_append _ _)
  held := fun earlier ref value later same kept =>
    List.mem_append_left _ (tracks.held earlier ref value later same kept)
  dropped := by
    intro earlier ref value later live same compaction dead payload' member
    rcases List.mem_append.mp member with old | new
    · exact tracks.dropped earlier ref value later live same compaction dead payload' old
    · have below := (tracks.below ref value (by simp [same])).1
      have same : ref.id = nextIdOf records :=
        congrArg LogRecord.id (List.mem_singleton.mp new)
      omega

theorem mem_of_mem_concat {live : List Nat} {ref : BlobRef} {value : Bytes}
    (member : .compacted live ∈ notes ++ [.stored ref value]) : .compacted live ∈ notes := by
  simpa using member

theorem Tracks.stored (tracks : Tracks notes records) (blob : nextIdOf records ≠ fenceId)
    (offset : Nat) (value : Bytes) :
    Tracks (notes ++ [.stored ⟨nextIdOf records, offset, value.length⟩ value])
      (records ++ [⟨nextIdOf records, value⟩]) := by
  have grown := tracks.append value
  refine ⟨?_, ?_, ?_, ?_⟩
  · rw [List.filterMap_append, List.pairwise_append]
    refine ⟨tracks.ids, List.pairwise_singleton _ _, ?_⟩
    intro old member new last
    obtain ⟨note, stored, named⟩ := List.mem_filterMap.mp member
    cases note with
    | compacted live => cases named
    | stored ref bytes =>
        cases named
        cases List.mem_singleton.mp last
        exact (tracks.below ref bytes stored).1
  · intro ref bytes member
    rcases List.mem_append.mp member with old | new
    · exact grown.below ref bytes old
    · cases List.mem_singleton.mp new
      have inside : (⟨nextIdOf records, value⟩ : LogRecord) ∈
          records ++ [⟨nextIdOf records, value⟩] := by simp
      exact ⟨lt_nextIdOf inside blob, blob, rfl⟩
  · intro earlier ref bytes later same kept
    rcases concat_eq_append_cons_iff.mp same with ⟨_, new, _⟩ | ⟨rest, rfl, old⟩
    · cases new
      simp
    · exact grown.held earlier ref bytes rest old
        (fun live member => kept live (List.mem_append_left _ member))
  · intro earlier ref bytes later live same compaction dead
    rcases concat_eq_append_cons_iff.mp same with ⟨_, _, rfl⟩ | ⟨rest, rfl, old⟩
    · exact absurd compaction List.not_mem_nil
    · exact grown.dropped earlier ref bytes rest live old (mem_of_mem_concat compaction) dead

theorem Tracks.compact (tracks : Tracks notes records)
    (fits : ∀ record ∈ records, record.Fits) (live : List Nat) :
    Tracks (notes ++ [.compacted live]) (compacted live records) := by
  have old : ∀ {ref value}, .stored ref value ∈ notes ++ [.compacted live] →
      .stored ref value ∈ notes := by
    intro ref value member
    simpa using member
  -- the fence is no blob
  have among : ∀ {ref : BlobRef} {payload : Bytes}, ref.id ≠ fenceId →
      ⟨ref.id, payload⟩ ∈ compacted live records →
      ⟨ref.id, payload⟩ ∈ records ∧ ref.id ∈ live := by
    intro ref payload blob member
    rcases List.mem_append.mp member with kept | fence
    · exact ⟨(mem_keptOf.mp kept).1, (mem_keptOf.mp kept).2.2⟩
    · exact absurd (congrArg LogRecord.id (List.mem_singleton.mp fence)) blob
  refine ⟨?_, ?_, ?_, ?_⟩
  · have same : (notes ++ [Note.compacted live]).filterMap Note.storedId? =
        notes.filterMap Note.storedId? := by
      simp [List.filterMap_append, Note.storedId?]
    rw [same]
    exact tracks.ids
  · intro ref value member
    rw [nextIdOf_compacted fits]
    exact tracks.below ref value (old member)
  · intro earlier ref value later same kept
    rcases concat_eq_append_cons_iff.mp same with ⟨_, new, _⟩ | ⟨rest, rfl, before⟩
    · cases new
    · have inside := tracks.held earlier ref value rest before
        (fun live' member => kept live' (List.mem_append_left _ member))
      have blob := (tracks.below ref value (by simp [before])).2.1
      refine List.mem_append_left _ (mem_keptOf.mpr ⟨inside, blob, ?_⟩)
      exact kept live (by simp)
  · intro earlier ref value later live' same compaction dead payload member
    rcases concat_eq_append_cons_iff.mp same with ⟨_, new, _⟩ | ⟨rest, rfl, before⟩
    · cases new
    · have blob := (tracks.below ref value (by simp [before])).2.1
      obtain ⟨inside, alive⟩ := among blob member
      rcases List.mem_append.mp compaction with earlierOne | thisOne
      · exact tracks.dropped earlier ref value rest live' before earlierOne dead payload inside
      · cases List.mem_singleton.mp thisOne
        exact dead alive

end Law

theorem tracks_law : Law Tracks (fun _ => True) (fun _ => True) where
  append := fun tracks _ => tracks.append _
  stored := fun tracks _ _ blob => tracks.stored blob _ _
  compact := fun _ tracks fits => tracks.compact fits _
  synced := fun _ _ => trivial
  compacted := fun _ _ _ _ => trivial

theorem tracked_of_run {events : List Event} {sys : System}
    (powered : ∀ restore kept, Event.powerLoss restore kept ∉ events)
    (ran : runSteps System.step System.new events = some sys) :
    Inv Tracks (fun _ => True) sys := by
  have start : Inv Tracks (fun _ => True) System.new :=
    ⟨⟨trivial, Tracks.new⟩, trivial, trivial⟩
  refine runSteps_invariant_of (fun event => event ∈ events) _ ?_ (fun _ member => member)
    start ran
  intro state event next member holds stepped
  exact holds.step tracks_law (fun restore kept same => powered restore kept (same ▸ member))
    (fun _ _ => trivial) stepped

theorem Ready.bytes {inner : Inner} {file : File UInt8} {sure records : List LogRecord}
    (ready : Ready inner file sure records) :
    ∃ rest, file.bytes = image records ++ rest ∧ ∀ record ∈ records, record.Fits := by
  obtain ⟨held, keeps, behind⟩ := ready.held
  obtain ⟨torn, _, layout⟩ := keeps.holds.layout
  obtain ⟨more, rfl⟩ := behind.isPrefix
  refine ⟨image more ++ torn, ?_, ?_⟩
  · rw [layout, image_append, List.append_assoc]
  · exact fun record member => keeps.holds.fits record (List.mem_append_left _ member)

/-- Ids are given out in increasing order over the whole life of a log, and a handle reads as
the bytes that were put if every compaction since has kept its id, and as absent otherwise.
Calls may fail and the process may be killed anywhere; only the power is not lost. -/
theorem handles_stable {events : List Event} {sys : System}
    (powered : ∀ restore kept, Event.powerLoss restore kept ∉ events)
    (ran : runSteps System.step System.new events = some sys) :
    (sys.disk.notes.filterMap Note.storedId?).Pairwise (· < ·) ∧
      ∀ inner, sys.phase = .idle inner → ∀ earlier ref value later,
        sys.disk.notes = earlier ++ .stored ref value :: later →
        ((∀ live, .compacted live ∈ later → ref.id ∈ live) →
          inner.get (sys.disk.bytes inner.file) ref = some value) ∧
        ((¬ ∀ live, .compacted live ∈ later → ref.id ∈ live) →
          inner.get (sys.disk.bytes inner.file) ref = none) := by
  have inv := tracked_of_run powered ran
  constructor
  · have sound := (inv.sound tracks_law).log
    cases named : sys.disk.log with
    | none =>
        rw [named] at sound
        exact sound.2.ids
    | some number =>
        rw [named] at sound
        obtain ⟨_, _, _, _, _, _, tracked⟩ := sound
        exact tracked.ids
  · intro inner idle earlier ref value later same
    obtain ⟨disk, phase⟩ := sys
    cases idle
    obtain ⟨file, sure, records, there, ready, _, tracked⟩ := Rests.ready inv
    obtain ⟨rest, layout, fits⟩ := ready.bytes
    change disk.notes = _ at same
    obtain ⟨_, blob, length⟩ := tracked.below ref value (by simp [same])
    constructor
    · intro kept
      have member := tracked.held earlier ref value later same kept
      change inner.get (disk.bytes inner.file) ref = some value
      rw [bytes_eq there, layout]
      exact ready.index.get_of_mem fits member blob length
    · intro lost
      push Not at lost
      obtain ⟨live, compaction, dead⟩ := lost
      exact ready.index.get_of_absent _
        (tracked.dropped earlier ref value later live same compaction dead)

/-- A put killed in the middle of its record, a compaction that drops one of two blobs, and two
reopens. -/
theorem handles_stable_torn :
    ∃ (events : List Event) (sys : System) (inner : Inner),
      runSteps System.step System.new events = some sys ∧ sys.phase = .idle inner ∧
      sys.disk.notes = [.stored ⟨0, 0, 1⟩ [7], .stored ⟨1, 21, 2⟩ [8, 9], .compacted [1]] ∧
      inner.get (sys.disk.bytes inner.file) ⟨0, 0, 1⟩ = none ∧
      inner.get (sys.disk.bytes inner.file) ⟨1, 21, 2⟩ = some [8, 9] := by
  let calls (count : Nat) : List Event := List.replicate count (.call .ok)
  let events : List Event :=
    [.start] ++ calls 6 ++ [.finish, .put [7]] ++ calls 2 ++ [.finish, .put [8], .kill 5, .start] ++
      calls 7 ++ [.finish, .put [8, 9]] ++ calls 2 ++ [.finish, .compact [1]] ++ calls 8 ++
      [.finish, .kill 0, .start] ++ calls 5 ++ [.finish]
  have powered : ∀ restore kept, Event.powerLoss restore kept ∉ events := by
    simp [events, calls]
  have observed : (runSteps System.step System.new events).map
      (fun sys => (sys.disk.notes, sys.phase.inner?.isSome)) =
        some ([.stored ⟨0, 0, 1⟩ [7], .stored ⟨1, 21, 2⟩ [8, 9], .compacted [1]], true) := by
    decide +kernel
  obtain ⟨sys, ran, seen⟩ := Option.map_eq_some_iff.mp observed
  obtain ⟨notes, running⟩ := Prod.mk.inj seen
  obtain ⟨inner, there⟩ := Option.isSome_iff_exists.mp running
  have idle := inner?_eq_some_iff.mp there
  obtain ⟨_, reads⟩ := handles_stable powered ran
  refine ⟨events, sys, inner, ran, idle, notes, ?_, ?_⟩
  · refine (reads inner idle [] ⟨0, 0, 1⟩ [7] _ notes).2 ?_
    simp
  · refine (reads inner idle [.stored ⟨0, 0, 1⟩ [7]] ⟨1, 21, 2⟩ [8, 9] [.compacted [1]] notes).1 ?_
    simp

end Keystory.ValueStore
