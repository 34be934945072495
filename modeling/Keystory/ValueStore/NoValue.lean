/-
The handle that stands for no value. It is made of an id, an offset and a length
that a blob can have: the empty byte string, put first into a log that has no
record yet, is given that very handle, and any empty blob with the first id is
what a read of it returns. Every other put keeps clear of it.
-/

import Keystory.ValueStore.Handles
import Keystory.ValueStore.Power

namespace Keystory.ValueStore

open General

/-- `BlobRef::default()`, which denotes "no value". -/
def BlobRef.default : BlobRef := ⟨0, 0, 0⟩

/-! ### Reading it -/

theorem mem_located_iff {record : LogRecord} {records : List LogRecord} (start : Nat) :
    (∃ offset, ⟨record.id, offset, record.payload⟩ ∈ located start records) ↔
      record ∈ records := by
  induction records generalizing start with
  | nil => simp [located]
  | cons first records ih =>
      rw [List.mem_cons, ← ih (start + first.bytes.length)]
      constructor
      · rintro ⟨offset, member⟩
        rcases List.mem_cons.mp member with here | later
        · left
          obtain ⟨sameId, _, samePayload⟩ := Found.mk.inj here
          cases record
          cases first
          cases sameId
          cases samePayload
          rfl
        · exact Or.inr ⟨offset, later⟩
      · rintro (rfl | ⟨offset, later⟩)
        · exact ⟨start, List.mem_cons_self⟩
        · exact ⟨offset, List.mem_cons_of_mem _ later⟩

section Idle

variable {inner : Inner} {file : File UInt8} {sure records : List LogRecord}

theorem Ready.scan_front (ready : Ready inner file sure records) :
    scanRecords (file.bytes.take inner.endOffset) =
      (located 0 records, (image records).length) := by
  obtain ⟨held, keeps, _⟩ := ready.held
  obtain ⟨rest, layout, fits⟩ := ready.bytes
  have front : file.bytes.take inner.endOffset = image records := by
    rw [ready.endOffset, layout, List.take_left]
  have size := keeps.size
  rw [layout, List.length_append] at size
  rw [front]
  refine Holds.scan ⟨lt_of_le_maxFileLen (by omega), fits, [], Torn.nil, ?_⟩
  rw [List.append_nil]

theorem Ready.get_default_eq_none_iff (ready : Ready inner file sure records) :
    inner.get file.bytes BlobRef.default = none ↔ ⟨0, []⟩ ∉ records := by
  constructor
  · intro absent member
    obtain ⟨rest, layout, fits⟩ := ready.bytes
    have found : inner.get (image records ++ rest) BlobRef.default = some [] :=
      ready.index.get_of_mem fits member (by decide) rfl
    rw [← layout, absent] at found
    cases found
  · intro absent
    by_contra known
    obtain ⟨value, found⟩ := Option.ne_none_iff_exists'.mp known
    obtain ⟨⟨offset, len⟩, place, read⟩ := Option.bind_eq_some_iff.mp found
    obtain ⟨_, before, payload, after, listing, _, length⟩ := (ready.index _ _ _).mp place
    by_cases empty : len = 0
    · rw [empty] at length
      rw [List.eq_nil_of_length_eq_zero length.symm] at listing
      apply absent
      rw [listing]
      exact List.mem_append_right before List.mem_cons_self
    · -- a blob with that id and another length fails the length check
      have differs : len ≠ BlobRef.default.len := empty
      dsimp only at read
      rw [if_pos differs] at read
      cases read

theorem Ready.place_eq_default_iff (ready : Ready inner file sure records) (value : Bytes) :
    (⟨nextIdOf records, (image records).length, value.length⟩ : BlobRef) = BlobRef.default ↔
      value = [] ∧ inner.endOffset = 0 := by
  rw [ready.endOffset]
  constructor
  · intro same
    obtain ⟨_, start, empty⟩ := BlobRef.mk.inj same
    exact ⟨List.eq_nil_of_length_eq_zero empty, start⟩
  · rintro ⟨rfl, start⟩
    have none : records = [] := by
      have least := length_le_image records
      exact List.eq_nil_of_length_eq_zero (by omega)
    rw [none]
    rfl

end Idle

/-! ### Puts that return -/

theorem returned_of_calls {disk : Disk} {value : Bytes}
    {program : DiskProgram (Except Failure BlobRef × Inner)} {stopped : Disk → Prop}
    {post : Except Failure BlobRef × Inner → Disk → Prop}
    (spec : program.Spec directory stopped post disk) {fates : List Fate} {after : System}
    (ran : runSteps System.step ⟨disk, .putting value program⟩ (fates.map .call) = some after)
    {result : Except Failure BlobRef × Inner}
    (returns : after.phase = .putting value (.done result)) :
    post result after.disk := by
  have moves : ∀ fate program disk, System.step ⟨disk, .putting value program⟩ (.call fate) =
      (program.step directory fate disk).map (fun next => ⟨next.2, .putting value next.1⟩) := by
    intro fate program disk
    exact (Option.map_eq_bind ..).symm
  obtain ⟨rest, reached, rfl, left⟩ := spec.runSteps moves ran
  cases returns
  exact left.2

/-- In every idle state that a store can get into, a read of the no-value handle finds nothing
unless the log has an empty blob with the first id. A put from there that returns gives a handle
that differs from the no-value one unless the value is empty and the log too; and, short of
power losses, from every handle before. -/
theorem default_avoided_iff {events : List Event} {before : System} {inner : Inner}
    (reached : runSteps System.step System.new events = some before)
    (idle : before.phase = .idle inner) :
    (inner.get (before.disk.bytes inner.file) BlobRef.default = none ↔
      ∀ offset, ⟨0, offset, []⟩ ∉
        (scanRecords ((before.disk.bytes inner.file).take inner.endOffset)).1) ∧
      ∀ (value : Bytes) (fates : List Fate) (after : System) (ref : BlobRef) (final : Inner),
        runSteps System.step before (.put value :: fates.map .call) = some after →
        after.phase = .putting value (.done (.ok ref, final)) →
        (ref ≠ BlobRef.default ↔ ¬ (value = [] ∧ inner.endOffset = 0)) ∧
          ((∀ restore kept, Event.powerLoss restore kept ∉ events) →
            ∀ other bytes, .stored other bytes ∈ before.disk.notes → other ≠ ref) := by
  have inv := inv_of_run reached
  obtain ⟨disk, phase⟩ := before
  change phase = _ at idle
  subst idle
  obtain ⟨file, sure, records, there, ready, _⟩ := Rests.ready inv
  constructor
  · change inner.get (disk.bytes inner.file) _ = none ↔ ∀ offset, _ ∉ (scanRecords
      ((disk.bytes inner.file).take inner.endOffset)).1
    rw [bytes_eq there, ready.get_default_eq_none_iff, ready.scan_front,
      ← mem_located_iff 0, not_exists]
  · intro value fates after ref final ran returns
    obtain ⟨begun, stepped, rest⟩ := runSteps_cons_eq_some.mp ran
    obtain ⟨slice, same⟩ := Option.ite_none_right_eq_some.mp stepped
    cases same
    obtain ⟨_, _, _, place, _⟩ := returned_of_calls (put_spec there ready slice) rest returns
    constructor
    · rw [place, ne_eq, ready.place_eq_default_iff]
    · intro powered other bytes stored same
      have tracked : Inv Tracks (fun _ => True) ⟨disk, .idle inner⟩ :=
        tracked_of_run powered reached
      obtain ⟨file', _, records', there', ready', _, tracks⟩ := Rests.ready tracked
      have below := (tracks.below other bytes stored).1
      rw [same, place, ← ready'.nextId, ready.nextId] at below
      exact absurd below (lt_irrefl _)

/-- A first blob that is not empty: its handle differs, and the no-value handle reads as
absent before the put. -/
theorem default_avoided_iff_first :
    ∃ (events : List Event) (before after : System) (inner final : Inner) (ref : BlobRef),
      runSteps System.step System.new events = some before ∧ before.phase = .idle inner ∧
      inner.get (before.disk.bytes inner.file) BlobRef.default = none ∧
      runSteps System.step before [.put [7], .call .ok, .call .ok] = some after ∧
      after.phase = .putting [7] (.done (.ok ref, final)) ∧ ref ≠ BlobRef.default := by
  let events : List Event := [.start] ++ List.replicate 6 (.call .ok) ++ [.finish]
  have observed : (runSteps System.step System.new events).bind (fun before =>
      before.phase.inner?.bind (fun inner =>
        (runSteps System.step before [.put [7], .call .ok, .call .ok]).map (fun after =>
          (after.phase.returns?.map Prod.fst,
            (scanRecords ((before.disk.bytes inner.file).take inner.endOffset)).1)))) =
      some (some [7], []) := by
    decide +kernel
  obtain ⟨before, reached, observed⟩ := Option.bind_eq_some_iff.mp observed
  obtain ⟨inner, rested, observed⟩ := Option.bind_eq_some_iff.mp observed
  obtain ⟨after, ran, seen⟩ := Option.map_eq_some_iff.mp observed
  obtain ⟨returning, empty⟩ := Prod.mk.inj seen
  obtain ⟨⟨value, ref, final⟩, returned, same⟩ := Option.map_eq_some_iff.mp returning
  cases same
  have idle := inner?_eq_some_iff.mp rested
  have returns := returns?_eq_some_iff.mp returned
  obtain ⟨reads, puts⟩ := default_avoided_iff reached idle
  refine ⟨events, before, after, inner, final, ref, reached, idle, reads.mpr ?_, ran, returns, ?_⟩
  · intro offset
    rw [empty]
    exact List.not_mem_nil
  · refine (puts [7] [.ok, .ok] after ref final ran returns).1.mpr ?_
    simp

def emptyFirst : List Event :=
  [.start] ++ List.replicate 6 (.call .ok) ++ [.finish, .put []] ++ List.replicate 2 (.call .ok)

/-- The put returns the no-value handle, which from then on reads as the empty value. -/
theorem empty_first_put_returns_default :
    (runSteps System.step System.new emptyFirst).map
        (fun sys => sys.phase.returns?.map (fun returned => (returned.1, returned.2.1))) =
      some (some ([], BlobRef.default)) ∧
    (runSteps System.step System.new (emptyFirst ++ [.finish])).map
        (fun sys => sys.phase.inner?.map
          (fun inner => inner.get (sys.disk.bytes inner.file) BlobRef.default)) =
      some (some (some [])) := by
  decide +kernel

end Keystory.ValueStore
