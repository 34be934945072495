/-
What each operation of the log does to the directory, whatever calls fail and
wherever it is stopped: the certain records stay, and a log that is not poisoned
still matches its directory.
-/

import Mathlib.Data.List.TakeWhile
import Keystory.General.Search
import Keystory.Wal.Shape

namespace Keystory.Wal

open General

/-! ### Calls -/

section Calls

variable {Result : Type} {faults : Faults} {stopped : Segments → Prop}
  {post : Result → Segments → Prop} {segments : Segments}

theorem spec_request (call : Call) {next : call.Reply → SegmentProgram Result}
    (now : stopped segments)
    (succeeds : (next (serve call .ok segments).1).Spec (directory faults) stopped post
      (serve call .ok segments).2)
    (fails : ∀ extent, faults ≠ .none →
      (next (serve call (.fail extent) segments).1).Spec (directory faults) stopped post
        (serve call (.fail extent) segments).2) :
    (Program.request call >>= next).Spec (directory faults) stopped post segments := by
  rw [Program.spec_request_bind]
  refine ⟨now, ?_⟩
  intro fate allowed
  cases fate with
  | ok => exact succeeds
  | fail extent =>
      apply fails extent
      intro none
      rw [none] at allowed
      cases allowed

theorem spec_sync {seq : Nat} {next : Bool → SegmentProgram Result} (now : stopped segments)
    (succeeds : (next true).Spec (directory faults) stopped post (modify segments seq (·.sync)))
    (fails : ∀ extent, faults ≠ .none → (next false).Spec (directory faults) stopped post
      (modify segments seq (·.harden extent))) :
    (sync seq >>= next).Spec (directory faults) stopped post segments :=
  spec_request (.sync seq) now succeeds fails

theorem spec_write {seq : Nat} {position : Option Nat} {data : Bytes}
    {next : Bool × Nat → SegmentProgram Result} (now : stopped segments)
    (succeeds : (next (true, data.length)).Spec (directory faults) stopped post
      (modify segments seq (writeFile · position data)))
    (fails : ∀ extent, faults ≠ .none →
      (next (false, (data.take extent).length)).Spec (directory faults) stopped post
        (modify segments seq (writeFile · position (data.take extent)))) :
    (write seq position data >>= next).Spec (directory faults) stopped post segments :=
  spec_request (.write seq position data) now succeeds fails

theorem spec_setLen {seq length : Nat} {next : Bool → SegmentProgram Result}
    (now : stopped segments)
    (succeeds : (next true).Spec (directory faults) stopped post
      (modify segments seq (·.setLen 0 length)))
    (ignored : faults ≠ .none → (next false).Spec (directory faults) stopped post segments)
    (fails : faults ≠ .none → (next false).Spec (directory faults) stopped post
      (modify segments seq (·.setLen 0 length))) :
    (setLen seq length >>= next).Spec (directory faults) stopped post segments := by
  apply spec_request (.setLen seq length) now succeeds
  intro extent considered
  by_cases none : extent = 0
  · simpa only [serve, if_pos none] using ignored considered
  · simpa only [serve, if_neg none] using fails considered

theorem spec_syncDir {next : Bool → SegmentProgram Result} (now : stopped segments)
    (succeeds : (next true).Spec (directory faults) stopped post segments)
    (fails : faults ≠ .none → (next false).Spec (directory faults) stopped post segments) :
    (syncDir >>= next).Spec (directory faults) stopped post segments :=
  spec_request .syncDir now succeeds (fun _ considered => fails considered)

theorem spec_readDir {next : List (Nat × Bytes) → SegmentProgram Result}
    (now : stopped segments)
    (tells : (next (files segments)).Spec (directory faults) stopped post segments) :
    (readDir >>= next).Spec (directory faults) stopped post segments :=
  spec_request .readDir now tells (fun _ _ => tells)

theorem spec_seek {seq position : Nat} {next : Bool → SegmentProgram Result}
    (now : stopped segments)
    (succeeds : (next true).Spec (directory faults) stopped post segments)
    (fails : faults ≠ .none → (next false).Spec (directory faults) stopped post segments) :
    (seek seq position >>= next).Spec (directory faults) stopped post segments :=
  spec_request (.seek seq position) now succeeds (fun _ considered => fails considered)

theorem spec_lstat {seq : Nat} {next : Bool → SegmentProgram Result} (honest : faults ≠ .any)
    (now : stopped segments)
    (tells : (next (segments.find? seq).isSome).Spec (directory faults) stopped post segments) :
    (lstat seq >>= next).Spec (directory faults) stopped post segments := by
  refine ⟨now, ?_⟩
  intro fate allowed
  cases fate with
  | ok => exact tells
  | fail extent =>
      exfalso
      cases faults with
      | none => cases allowed
      | honest => cases allowed
      | any => exact honest rfl

theorem spec_createNew {seq : Nat} {next : Bool → SegmentProgram Result}
    (absent : segments.find? seq = none) (now : stopped segments)
    (succeeds : (next true).Spec (directory faults) stopped post (segments.insert seq .empty))
    (ignored : faults ≠ .none → (next false).Spec (directory faults) stopped post segments)
    (fails : faults ≠ .none → (next false).Spec (directory faults) stopped post
      (segments.insert seq .empty)) :
    (createNew seq >>= next).Spec (directory faults) stopped post segments := by
  have created : touch segments seq = segments.insert seq .empty := by
    rw [touch, absent]
  apply spec_request (.createNew seq) now
  · simpa only [serve, created, absent, Option.isNone_none] using succeeds
  · intro extent considered
    by_cases none : extent = 0
    · simpa only [serve, if_pos none] using ignored considered
    · simpa only [serve, if_neg none, created] using fails considered

theorem spec_remove {seq : Nat} {next : Bool → SegmentProgram Result}
    (present : (segments.find? seq).isSome = true) (now : stopped segments)
    (succeeds : (next true).Spec (directory faults) stopped post (segments.erase seq))
    (ignored : faults ≠ .none → (next false).Spec (directory faults) stopped post segments)
    (fails : faults ≠ .none →
      (next false).Spec (directory faults) stopped post (segments.erase seq)) :
    (remove seq >>= next).Spec (directory faults) stopped post segments := by
  apply spec_request (.remove seq) now
  · simpa only [serve, present] using succeeds
  · intro extent considered
    by_cases none : extent = 0
    · simpa only [serve, if_pos none] using ignored considered
    · simpa only [serve, if_neg none] using fails considered

end Calls

end Keystory.Wal

namespace Keystory

open General Wal

/-! ### A log and its directory -/

/-- The directory holds what the log needs; unless the log is poisoned, the last
segment is the current one, whole, and the handle writes at its end. -/
structure Wal.Backed (wal : Wal) (segments : Segments) (closed : List (Nat × List Record))
    (last : Nat) (file : File UInt8) (kept extra : List Record) : Prop where
  shape : Shape segments closed last file kept extra
  behind : wal.segSeq ≤ last
  current : wal.poisoned = none → wal.segSeq = last ∧ wal.file.seq = last
  whole : wal.poisoned = none → file.bytes = segmentBytes (kept ++ extra)
  counted : wal.poisoned = none → wal.segBytes = (segmentBytes (kept ++ extra)).length
  atEnd : wal.poisoned = none →
    wal.file.position = none ∨ wal.file.position = some wal.segBytes

def Wal.Keeps (wal : Wal) (segments : Segments) (sure maybe : List (Nat × Record)) : Prop :=
  ∃ closed last file kept extra, wal.Backed segments closed last file kept extra ∧
    sure = tagged closed ++ tag last kept ∧ maybe = tag last extra

namespace Wal

variable {wal : Wal} {segments : Segments} {closed : List (Nat × List Record)} {last : Nat}
  {file : File UInt8} {kept extra : List Record} {sure maybe : List (Nat × Record)}
  {faults : Faults}

theorem Keeps.readable (keeps : wal.Keeps segments sure maybe) :
    Readable segments (untag sure) (untag maybe) := by
  obtain ⟨closed, last, file, kept, extra, backed, rfl, rfl⟩ := keeps
  simpa using backed.shape.readable

theorem Backed.ofPoisoned (shape : Shape segments closed last file kept extra)
    (behind : wal.segSeq ≤ last) (refuses : wal.poisoned ≠ none) :
    wal.Backed segments closed last file kept extra where
  shape := shape
  behind := behind
  current := fun usable => absurd usable refuses
  whole := fun usable => absurd usable refuses
  counted := fun usable => absurd usable refuses
  atEnd := fun usable => absurd usable refuses

theorem Backed.writeFile_eq (backed : wal.Backed segments closed last file kept extra)
    (usable : wal.poisoned = none) (data : Bytes) :
    writeFile file wal.file.position data = file.append data := by
  rcases backed.atEnd usable with appending | placed
  · rw [appending]
    rfl
  · rw [placed, backed.counted usable, ← backed.whole usable]
    exact File.writeAt_end 0 data

/-! ### Append -/

/-- What a failed append leaves: the log as it was, or a poisoned one whose last
segment may hold part of the append. -/
def Undone (before : Wal) (closed : List (Nat × List Record)) (last : Nat)
    (kept extra records : List Record) (wal : Wal) (segments : Segments) : Prop :=
  wal.segSeq = before.segSeq ∧ ∃ file extra', wal.Backed segments closed last file kept extra' ∧
    (extra' = extra ∨ wal.poisoned ≠ none ∧ extra' = extra ++ records)

theorem Undone.ofPoisoned {records : List Record} {before : Wal} (why : String)
    (shape : Shape segments closed last file kept (extra ++ records))
    (same : wal.segSeq = before.segSeq) (current : before.segSeq = last) :
    Undone before closed last kept extra records (wal.poison why) segments := by
  have refuses : (wal.poison why).poisoned ≠ none := by simp [poison]
  exact ⟨same, file, extra ++ records,
    Backed.ofPoisoned shape (Nat.le_of_eq (same.trans current)) refuses, Or.inr ⟨refuses, rfl⟩⟩

/-- Cutting a failed append off restores the log, or poisons it. -/
theorem rollBack_spec {records : List Record} (cause : Failure)
    (shape : Shape segments closed last file kept (extra ++ records))
    (start : segmentBytes (kept ++ extra) <+: file.bytes)
    (current : wal.segSeq = last ∧ wal.file.seq = last)
    (counted : wal.segBytes = (segmentBytes (kept ++ extra)).length) :
    (wal.rollBack cause).Spec (directory faults)
      (fun segments => Readable segments (untag (tagged closed) ++ kept) (extra ++ records))
      (Undone wal closed last kept extra records) segments := by
  obtain ⟨isCurrent, rfl⟩ := current
  have fits : ∀ record ∈ kept ++ (extra ++ records), Fits record.ops := shape.fits
  rw [← List.append_assoc] at fits
  have within : wal.segBytes ≤ file.bytes.length := by
    rw [counted]
    exact start.length_le
  have cutBytes : (file.setLen 0 wal.segBytes).bytes = segmentBytes (kept ++ extra) := by
    rw [File.bytes_setLen 0 within, counted]
    exact (List.prefix_iff_eq_take.mp start).symm
  have cutSafe : kept = [] ∨ segmentBytes kept <+: (file.setLen 0 wal.segBytes).synced := by
    refine shape.safe.imp_right (fun there => File.synced_setLen 0 there ?_)
    rw [counted, segmentBytes_append, List.length_append]
    exact Nat.le_add_right _ _
  -- cut back, the segment has its records and nothing of the failed append
  have cut : Shape (modify segments wal.file.seq (·.setLen 0 wal.segBytes)) closed
      wal.file.seq (file.setLen 0 wal.segBytes) kept extra :=
    shape.updated _ (by rw [cutBytes]) cutSafe
      (fun record member => fits record (List.mem_append_left _ member))
  have loose := cut.loosen (fun record member => fits record (List.mem_append_right _ member))
  apply spec_setLen shape.readable
  · apply spec_seek loose.readable
    · apply spec_sync loose.readable
      · refine ⟨loose.synced.readable, rfl, (file.setLen 0 wal.segBytes).sync, extra, ?_,
          Or.inl rfl⟩
        refine ⟨cut.synced, Nat.le_of_eq isCurrent, fun _ => ⟨isCurrent, rfl⟩, fun _ => ?_,
          fun _ => counted, fun _ => ?_⟩
        · rw [File.bytes_sync, cutBytes]
        · cases placed : wal.file.position with
          | none => exact Or.inl (by simp [Handle.seekTo, placed])
          | some position => exact Or.inr (by simp [Handle.seekTo, placed])
      · intro extent _
        have hardened := loose.hardened extent
        exact ⟨hardened.readable, Undone.ofPoisoned _ hardened rfl isCurrent⟩
    · intro _
      exact ⟨loose.readable, Undone.ofPoisoned _ loose rfl isCurrent⟩
  · intro _
    exact ⟨shape.readable, Undone.ofPoisoned _ shape rfl isCurrent⟩
  · intro _
    exact ⟨loose.readable, Undone.ofPoisoned _ loose rfl isCurrent⟩

theorem Backed.written (backed : wal.Backed segments closed last file kept extra)
    (usable : wal.poisoned = none) {records : List Record} {part : Bytes}
    (inside : part <+: frames records) (fits : ∀ record ∈ records, Fits record.ops) :
    Shape (modify segments last (writeFile · wal.file.position part)) closed last
      (file.append part) kept (extra ++ records) := by
  have loose := backed.shape.loosen fits
  rw [← backed.writeFile_eq usable part]
  refine loose.updated _ ?_ ?_ loose.fits
  · rw [backed.writeFile_eq usable, File.bytes_append, backed.whole usable, ← List.append_assoc,
      segmentBytes_append (kept ++ extra)]
    exact (List.prefix_append_right_inj _).mpr inside
  · rw [backed.writeFile_eq usable]
    exact loose.safe

theorem Backed.extended (backed : wal.Backed segments closed last file kept extra)
    (usable : wal.poisoned = none) {records : List Record}
    (fits : ∀ record ∈ records, Fits record.ops) :
    ({ wal with
        file := wal.file.advance (frames records).length
        segBytes := wal.segBytes + (frames records).length } : Wal).Backed
      (modify (modify segments last (writeFile · wal.file.position (frames records))) last
        (·.sync)) closed last (.settled (segmentBytes (kept ++ extra ++ records)))
      (kept ++ extra ++ records) [] := by
  have full : (file.append (frames records)).bytes =
      segmentBytes (kept ++ (extra ++ records)) := by
    rw [File.bytes_append, backed.whole usable, ← List.append_assoc,
      segmentBytes_append (kept ++ extra)]
  have settled := (backed.written usable List.prefix_rfl fits).settle full
  rw [← List.append_assoc] at settled
  refine ⟨settled, backed.behind, backed.current, fun _ => by simp, fun _ => ?_, fun _ => ?_⟩
  · rw [List.append_nil, segmentBytes_append (kept ++ extra), List.length_append,
      backed.counted usable]
  · rcases backed.atEnd usable with appending | placed
    · exact Or.inl (by simp [Handle.advance, appending])
    · exact Or.inr (by simp [Handle.advance, placed])

def Wrote (before : Wal) (closed : List (Nat × List Record)) (last : Nat)
    (kept extra records : List Record) (outcome : Except Failure Unit × Wal)
    (segments : Segments) : Prop :=
  match outcome.1 with
  | .ok () => outcome.2.poisoned = none ∧ outcome.2.segSeq = before.segSeq ∧
      ∃ file, outcome.2.Backed segments closed last file (kept ++ extra ++ records) []
  | .error _ => Undone before closed last kept extra records outcome.2 segments

theorem writeGroup_spec {records : List Record}
    (backed : wal.Backed segments closed last file kept extra) (usable : wal.poisoned = none)
    (fits : ∀ record ∈ records, Fits record.ops) :
    (wal.writeGroup (frames records)).Spec (directory faults)
      (fun segments => Readable segments (untag (tagged closed) ++ kept) (extra ++ records))
      (Wrote wal closed last kept extra records) segments := by
  obtain ⟨isCurrent, rfl⟩ := backed.current usable
  have before := backed.shape.loosen fits
  -- both ways of failing come to the same roll-back
  have undo : ∀ {segments : Segments} {part : Bytes} (count : Nat) {file' : File UInt8},
      Shape segments closed wal.file.seq file' kept (extra ++ records) →
        file'.bytes = file.bytes ++ part →
      (({ wal with file := wal.file.advance count }.rollBack .os) >>=
        fun wal => (pure (.error .os, wal) : SegmentProgram (Except Failure Unit × Wal))).Spec
        (directory faults)
        (fun segments => Readable segments (untag (tagged closed) ++ kept) (extra ++ records))
        (Wrote wal closed wal.file.seq kept extra records) segments := by
    intro segments part count file' shape same
    have start : segmentBytes (kept ++ extra) <+: file'.bytes := by
      rw [same, backed.whole usable]
      exact List.prefix_append _ _
    have rolled : ({ wal with file := wal.file.advance count }.rollBack .os).Spec
        (directory faults)
        (fun segments => Readable segments (untag (tagged closed) ++ kept) (extra ++ records))
        (Undone wal closed wal.file.seq kept extra records) segments :=
      rollBack_spec .os shape start ⟨isCurrent, rfl⟩ (backed.counted usable)
    apply Program.Spec.bind
    exact rolled.mono (fun _ readable => readable)
      (fun _ _ readable undone => ⟨readable, undone⟩)
  apply spec_write before.readable
  · have shape := backed.written usable List.prefix_rfl fits
    apply spec_sync shape.readable
    · exact ⟨shape.synced.readable, usable, rfl, _, backed.extended usable fits⟩
    · intro extent _
      exact undo _ (shape.hardened extent) (by rw [File.bytes_harden, File.bytes_append])
  · intro extent _
    exact undo _ (backed.written usable (List.take_prefix extent _) fits) (File.bytes_append _)

theorem certain_only {sure sure' maybe' : List (Nat × Record)} (same : sure' ++ maybe' = sure)
    (more : sure <+: sure') : sure' = sure ∧ maybe' = [] := by
  obtain ⟨rest, rfl⟩ := more
  rw [List.append_assoc, List.append_right_eq_self, List.append_eq_nil_iff] at same
  rw [same.1, same.2, List.append_nil]
  exact ⟨rfl, rfl⟩

/-! ### A poisoned log -/

theorem appendMany_poisoned {wal : Wal} (poisoned : wal.poisoned ≠ none) (records : List Record) :
    ∃ failure, wal.appendMany records = pure (.error failure, wal) := by
  obtain ⟨why, same⟩ := Option.ne_none_iff_exists'.mp poisoned
  simp only [appendMany, checkUsable, same]
  exact ⟨_, rfl⟩

theorem rotateSegment_poisoned {wal : Wal} (poisoned : wal.poisoned ≠ none) :
    ∃ failure, wal.rotateSegment = pure (.error failure, wal) := by
  obtain ⟨why, same⟩ := Option.ne_none_iff_exists'.mp poisoned
  simp only [rotateSegment, checkUsable, same]
  exact ⟨_, rfl⟩

/-! ### Rotation -/

/-- What a rotation leaves: the same records, all of them certain and a fresh
segment open if it succeeded. -/
def Rotated (before : Wal) (sure maybe : List (Nat × Record))
    (outcome : Except Failure Nat × Wal) (segments : Segments) : Prop :=
  before.segSeq ≤ outcome.2.segSeq ∧ ∃ sure' maybe', outcome.2.Keeps segments sure' maybe' ∧
    sure' ++ maybe' = sure ++ maybe ∧ sure <+: sure' ∧
    ∀ next, outcome.1 = .ok next →
      outcome.2.poisoned = none ∧ outcome.2.segSeq = next ∧ maybe' = []

section Rotation

variable {before : Segments} {base : List Record} {next : Nat}

/-- The directory while the next segment is being born. -/
abbrev Born (segments : Segments) (closed : List (Nat × List Record)) (last : Nat)
    (base : List Record) (next : Nat) (file : File UInt8) : Prop :=
  Shape segments (closed ++ [(last, base)]) next file [] []

theorem Born.readable (born : Born segments closed last base next file) :
    Readable segments (untag (tagged closed) ++ base) [] := by
  simpa using Shape.readable born

theorem Born.written (born : Born segments closed last base next .empty) {part : Bytes}
    (inside : part <+: segmentHeader) :
    Born (modify segments next (writeFile · (some 0) part)) closed last base next
      (File.empty.append part) := by
  have same : writeFile .empty (some 0) part = File.empty.append part :=
    (File.writeAt_end 0 part :
      File.empty.writeAt 0 (File.empty : File UInt8).bytes.length part = _)
  rw [← same]
  refine born.updated _ ?_ (Or.inl rfl) born.fits
  rw [same, File.bytes_append, File.bytes_empty, List.nil_append, List.nil_append]
  exact inside.trans (List.prefix_append _ _)

theorem Born.settled (born : Born segments closed last base next .empty) :
    Born (modify (modify segments next (writeFile · (some 0) segmentHeader)) next (·.sync))
      closed last base next (.settled (segmentBytes [])) :=
  Shape.settle (born.written List.prefix_rfl) (by simp [segmentBytes, File.bytes_empty])

theorem Born.opened (born : Born segments closed last base next .empty) :
    ({ wal with
        file := ⟨next, some segmentHeader.length⟩
        segSeq := next
        segBytes := headerLen } : Wal).Backed
      (modify (modify segments next (writeFile · (some 0) segmentHeader)) next (·.sync))
      (closed ++ [(last, base)]) next (.settled (segmentBytes [])) [] [] := by
  refine ⟨born.settled, Nat.le_refl next, fun _ => ⟨rfl, rfl⟩, fun _ => by simp, fun _ => ?_,
    fun _ => Or.inr ?_⟩
  · simp [segmentBytes, length_segmentHeader]
  · simp [length_segmentHeader]

theorem Backed.unborn
    (backed : wal.Backed before closed last (.settled (segmentBytes base)) base [])
    (born : Born segments closed last base next file) :
    wal.Backed (segments.erase next) closed last (.settled (segmentBytes base)) base [] where
  shape := by
    refine ⟨?_, backed.shape.part, backed.shape.safe, backed.shape.closedFits,
      backed.shape.fits⟩
    have erased := SortedMap.entries_erase born.entries
    simpa [closedFiles] using erased
  behind := backed.behind
  current := backed.current
  whole := backed.whole
  counted := backed.counted
  atEnd := backed.atEnd

theorem Rotated.failed {failure : Failure} {after : Wal} (keeps : after.Keeps segments sure maybe)
    (same : after.segSeq = wal.segSeq) :
    Rotated wal sure maybe (.error failure, after) segments :=
  ⟨Nat.le_of_eq same.symm, sure, maybe, keeps, rfl, List.prefix_rfl, fun _ impossible => by
    cases impossible⟩

theorem Rotated.ofSettled {outcome : Except Failure Nat × Wal}
    (rotated : Rotated wal (sure ++ maybe) [] outcome segments) :
    Rotated wal sure maybe outcome segments := by
  obtain ⟨order, sure', maybe', keeps, same, certain, succeeded⟩ := rotated
  rw [List.append_nil] at same
  exact ⟨order, sure', maybe', keeps, same, (List.prefix_append _ _).trans certain, succeeded⟩

/-- Poisoned, with a newer segment beside the current one. -/
theorem Rotated.beside
    (backed : wal.Backed before closed last (.settled (segmentBytes base)) base [])
    (born : Born segments closed last base next file) (above : last < next) (why : String) :
    Rotated wal (tagged closed ++ tag last base) [] (.error .os, wal.poison why) segments := by
  refine Rotated.failed ⟨_, next, file, [], [], Backed.ofPoisoned born ?_ ?_, ?_, rfl⟩ rfl
  · exact Nat.le_of_lt (Nat.lt_of_le_of_lt backed.behind above)
  · simp [poison]
  · simp

theorem Rotated.restored
    (backed : wal.Backed before closed last (.settled (segmentBytes base)) base [])
    (born : Born segments closed last base next file) :
    Rotated wal (tagged closed ++ tag last base) [] (.error .os, wal) (segments.erase next) :=
  Rotated.failed ⟨closed, last, _, base, [], backed.unborn born, rfl, rfl⟩ rfl

theorem Rotated.doubted
    (backed : wal.Backed before closed last (.settled (segmentBytes base)) base [])
    (born : Born segments closed last base next file) (why : String) :
    Rotated wal (tagged closed ++ tag last base) [] (.error .os, wal.poison why)
      (segments.erase next) :=
  Rotated.failed ⟨closed, last, _, base, [],
    Backed.ofPoisoned (backed.unborn born).shape backed.behind (by simp [poison]), rfl, rfl⟩ rfl

theorem startSegment_spec
    (backed : wal.Backed before closed last (.settled (segmentBytes base)) base [])
    (born : Born segments closed last base next .empty) (above : last < next)
    (usable : wal.poisoned = none) :
    (wal.startSegment next).Spec (directory faults)
      (fun segments => Readable segments (untag (tagged closed) ++ base) [])
      (Rotated wal (tagged closed ++ tag last base) []) segments := by
  -- a half-born segment is removed again
  have cleanup : ∀ {segments : Segments} {file : File UInt8} (why : String),
      Born segments closed last base next file →
      (remove next >>= fun removed =>
        if removed then syncDir >>= fun synced =>
          if synced then pure (.error .os, wal) else pure (.error .os, wal.poison why)
        else (pure (.error .os, wal.poison why) : SegmentProgram (Except Failure Nat × Wal))).Spec
        (directory faults)
        (fun segments => Readable segments (untag (tagged closed) ++ base) [])
        (Rotated wal (tagged closed ++ tag last base) []) segments := by
    intro segments file why born
    have present : (segments.find? next).isSome = true := by
      rw [Shape.find? born]
      rfl
    have gone := (backed.unborn born).shape.readable
    apply spec_remove present born.readable
    · apply spec_syncDir gone
      · exact ⟨gone, Rotated.restored backed born⟩
      · intro _
        exact ⟨gone, Rotated.doubted backed born why⟩
    · intro _
      exact ⟨born.readable, Rotated.beside backed born above why⟩
    · intro _
      exact ⟨gone, Rotated.doubted backed born why⟩
  apply spec_write born.readable
  · have written := born.written List.prefix_rfl
    apply spec_sync written.readable
    · have settled := born.settled
      apply spec_syncDir settled.readable
      · refine ⟨settled.readable, Nat.le_of_lt (Nat.lt_of_le_of_lt backed.behind above), _, [],
          ⟨_, next, _, [], [], born.opened, rfl, rfl⟩, ?_, ?_, ?_⟩
        · simp
        · simp
        · intro number same
          cases same
          exact ⟨usable, rfl, rfl⟩
      · intro _
        exact ⟨settled.readable, Rotated.beside backed settled above _⟩
    · intro extent _
      exact cleanup _ (Shape.hardened written extent)
  · intro extent _
    exact cleanup _ (born.written (List.take_prefix extent _))

theorem Backed.synced (backed : wal.Backed segments closed last file kept extra)
    (usable : wal.poisoned = none) :
    wal.Backed (modify segments last (·.sync)) closed last
      (.settled (segmentBytes (kept ++ extra))) (kept ++ extra) [] :=
  ⟨backed.shape.settle (backed.whole usable), backed.behind, backed.current,
    fun _ => by simp, fun _ => by simpa using backed.counted usable, backed.atEnd⟩

theorem Backed.born
    (backed : wal.Backed segments closed last (.settled (segmentBytes base)) base [])
    (above : last < next) : Born (segments.insert next .empty) closed last base next .empty := by
  refine ⟨?_, List.nil_prefix, Or.inl rfl, ?_, by simp⟩
  · rw [SortedMap.entries_insert_beyond backed.shape.entries above]
    simp [closedFiles]
  · intro entry member
    rw [tagged_append, List.mem_append, tagged_singleton] at member
    rcases member with old | new
    · exact backed.shape.closedFits entry old
    · obtain ⟨record, inside, rfl⟩ := List.mem_map.mp new
      exact backed.shape.fits record (List.mem_append_left [] inside)

theorem rotateSegment_spec (honest : faults ≠ .any) (keeps : wal.Keeps segments sure maybe) :
    wal.rotateSegment.Spec (directory faults)
      (fun segments => Readable segments (untag sure) (untag maybe))
      (Rotated wal sure maybe) segments := by
  have readable := keeps.readable
  cases state : wal.poisoned with
  | some why =>
      simp only [rotateSegment, checkUsable, state]
      exact ⟨readable, Rotated.failed keeps rfl⟩
  | none =>
      obtain ⟨closed, last, file, kept, extra, backed, rfl, rfl⟩ := keeps
      obtain ⟨isCurrent, rfl⟩ := backed.current state
      have settled := backed.synced state
      have joined : tagged closed ++ tag wal.file.seq kept ++ tag wal.file.seq extra =
          tagged closed ++ tag wal.file.seq (kept ++ extra) := by
        simp
      have weaken : ∀ segments, Readable segments (untag (tagged closed) ++ (kept ++ extra)) [] →
          Readable segments (untag (tagged closed ++ tag wal.file.seq kept))
            (untag (tag wal.file.seq extra)) := by
        intro segments readable
        apply readable.weaken <;> simp
      have finish : ∀ outcome segments,
          Rotated wal (tagged closed ++ tag wal.file.seq (kept ++ extra)) [] outcome segments →
          Rotated wal (tagged closed ++ tag wal.file.seq kept) (tag wal.file.seq extra) outcome
            segments := by
        intro outcome segments rotated
        rw [← joined] at rotated
        exact rotated.ofSettled
      have now := weaken _ settled.shape.readable
      simp only [rotateSegment, checkUsable, state]
      apply spec_sync readable
      · by_cases exhausted : wal.segSeq = 4294967295
        · rw [if_pos rfl, if_pos exhausted]
          exact ⟨now, finish _ _
            (Rotated.failed ⟨closed, _, _, _, [], settled, rfl, rfl⟩ rfl)⟩
        · rw [if_pos rfl, if_neg exhausted]
          have above : wal.file.seq < wal.segSeq + 1 := by omega
          have absent := SortedMap.find?_beyond settled.shape.entries above
          have born := settled.born above
          apply spec_createNew absent now
          · exact (startSegment_spec settled born above state).mono weaken
              (fun outcome segments _ rotated => finish outcome segments rotated)
          · intro _
            apply spec_lstat honest now
            rw [absent]
            exact ⟨now, finish _ _
              (Rotated.failed ⟨closed, _, _, _, [], settled, rfl, rfl⟩ rfl)⟩
          · intro _
            apply spec_lstat honest (weaken _ born.readable)
            rw [Shape.find? born]
            exact ⟨weaken _ born.readable, finish _ _ (Rotated.beside settled born above _)⟩
      · intro extent _
        have hardened := backed.shape.hardened extent
        refine ⟨by simpa using hardened.readable, Rotated.failed ⟨closed, _, _, kept, extra,
          ⟨hardened, backed.behind, backed.current, fun usable => ?_, backed.counted,
            backed.atEnd⟩, rfl, rfl⟩ rfl⟩
        rw [File.bytes_harden, backed.whole usable]

end Rotation

/-! ### Group append -/

/-- What an append leaves: the records there were, then all of the new ones, or
none of them, or, in a poisoned log, possibly some. New records are in the segment
that was current, or in later ones. -/
def Appended (before : Wal) (sure maybe : List (Nat × Record)) (records : List Record)
    (outcome : Except Failure Unit × Wal) (segments : Segments) : Prop :=
  before.segSeq ≤ outcome.2.segSeq ∧ ∃ sure' maybe' new,
    outcome.2.Keeps segments sure' maybe' ∧ sure' ++ maybe' = sure ++ maybe ++ new ∧
    sure <+: sure' ∧ (∀ entry ∈ new, before.segSeq ≤ entry.1) ∧
    match outcome.1 with
    | .ok () => outcome.2.poisoned = none ∧ untag new = records ∧ (records ≠ [] → maybe' = [])
    | .error _ => new = [] ∨ outcome.2.poisoned ≠ none ∧ untag new = records

theorem Appended.refused {records : List Record} {after : Wal} {failure : Failure}
    (keeps : after.Keeps segments sure maybe) (order : wal.segSeq ≤ after.segSeq) :
    Appended wal sure maybe records (.error failure, after) segments :=
  ⟨order, sure, maybe, [], keeps, by simp, List.prefix_rfl, by simp, Or.inl rfl⟩

theorem mem_tag {seq : Nat} {records : List Record} {entry : Nat × Record}
    (member : entry ∈ tag seq records) : entry.1 = seq := by
  obtain ⟨record, _, rfl⟩ := List.mem_map.mp member
  rfl

theorem Wrote.appended {records : List Record} {outcome : Except Failure Unit × Wal}
    (current : wal.segSeq = last)
    (wrote : Wrote wal closed last kept extra records outcome segments) :
    Appended wal (tagged closed ++ tag last kept) (tag last extra) records outcome segments := by
  obtain ⟨result, after⟩ := outcome
  have placed : ∀ entry ∈ tag last records, wal.segSeq ≤ entry.1 := by
    intro entry member
    rw [mem_tag member, current]
  cases result with
  | ok value =>
      obtain ⟨usable, same, file, backed⟩ := wrote
      refine ⟨Nat.le_of_eq same.symm, _, _, tag last records,
        ⟨closed, last, file, _, [], backed, rfl, rfl⟩, ?_, ?_, placed, usable, ?_, ?_⟩ <;> simp
  | error failure =>
      obtain ⟨same, file, extra', backed, which⟩ := wrote
      rcases which with rfl | ⟨refuses, rfl⟩
      · exact Appended.refused ⟨closed, last, file, kept, _, backed, rfl, rfl⟩
          (Nat.le_of_eq same.symm)
      · refine ⟨Nat.le_of_eq same.symm, _, _, tag last records,
          ⟨closed, last, file, kept, _, backed, rfl, rfl⟩, ?_, List.prefix_rfl, placed,
          Or.inr ⟨refuses, untag_tag last records⟩⟩
        simp

theorem writeGroup_appends {records : List Record} (keeps : wal.Keeps segments sure maybe)
    (usable : wal.poisoned = none) (fits : ∀ record ∈ records, Fits record.ops) :
    (wal.writeGroup (frames records)).Spec (directory faults)
      (fun segments => Readable segments (untag sure) (untag maybe ++ records))
      (Appended wal sure maybe records) segments := by
  obtain ⟨closed, last, file, kept, extra, backed, rfl, rfl⟩ := keeps
  refine (writeGroup_spec backed usable fits).mono ?_
    (fun _ _ _ wrote => wrote.appended (backed.current usable).1)
  intro segments readable
  simpa using readable

theorem frameAll_ok {records : List Record} {buf : Bytes} (framed : frameAll records = .ok buf) :
    buf = frames records ∧ ∀ record ∈ records, Fits record.ops := by
  induction records generalizing buf with
  | nil =>
      cases framed
      exact ⟨rfl, fun _ member => absurd member List.not_mem_nil⟩
  | cons record records ih =>
      rw [frameAll] at framed
      cases checked : checkOps record.ops with
      | error failure =>
          rw [checked] at framed
          cases framed
      | ok value =>
          cases rest : frameAll records with
          | error failure =>
              rw [checked, rest] at framed
              cases framed
          | ok more =>
              rw [checked, rest] at framed
              cases framed
              obtain ⟨rfl, later⟩ := ih rest
              refine ⟨rfl, ?_⟩
              intro other member
              rcases List.mem_cons.mp member with rfl | inRest
              · exact (checkOps_eq_ok_iff _).mp checked
              · exact later other inRest

theorem appendMany_spec (honest : faults ≠ .any) (keeps : wal.Keeps segments sure maybe)
    (records : List Record) :
    (wal.appendMany records).Spec (directory faults)
      (fun segments => Readable segments (untag sure) (untag maybe ++ records))
      (Appended wal sure maybe records) segments := by
  have now : Readable segments (untag sure) (untag maybe ++ records) :=
    keeps.readable.weaken List.prefix_rfl (by simp)
  cases state : wal.poisoned with
  | some why =>
      simp only [appendMany, checkUsable, state]
      exact ⟨now, Appended.refused keeps (Nat.le_refl _)⟩
  | none =>
      simp only [appendMany, checkUsable, state]
      by_cases empty : records = []
      · rw [if_pos (by simp [empty])]
        refine ⟨now, Nat.le_refl _, sure, maybe, [], keeps, by simp, List.prefix_rfl, by simp,
          state, empty.symm, fun some => absurd empty some⟩
      · rw [if_neg (by simp [empty])]
        cases framed : frameAll records with
        | error failure => exact ⟨now, Appended.refused keeps (Nat.le_refl _)⟩
        | ok buf =>
            obtain ⟨rfl, fits⟩ := frameAll_ok framed
            by_cases full : wal.segBytes + (frames records).length > wal.maxSegBytes ∧
                wal.segBytes > headerLen
            · simp only [if_pos full]
              apply Program.Spec.bind
              refine (rotateSegment_spec honest keeps).mono ?_ ?_
              · intro segments readable
                exact readable.weaken List.prefix_rfl (by simp)
              · intro outcome segments readable rotated
                obtain ⟨order, sure', maybe', keeps', same, certain, succeeded⟩ := rotated
                obtain ⟨result, after⟩ := outcome
                cases result with
                | error failure =>
                    refine ⟨readable.weaken List.prefix_rfl (by simp), order, sure', maybe', [],
                      keeps', by simpa using same, certain, by simp, Or.inl rfl⟩
                | ok next =>
                    obtain ⟨usable, _, rfl⟩ := succeeded next rfl
                    rw [List.append_nil] at same
                    subst same
                    refine (writeGroup_appends keeps' usable fits).mono ?_ ?_
                    · intro segments readable
                      apply readable.weaken <;> simp
                    · intro outcome segments _ appended
                      obtain ⟨later, sure', maybe', new, keeps', same, more, placed, ending⟩ :=
                        appended
                      refine ⟨Nat.le_trans order later, sure', maybe', new, keeps',
                        by simpa using same, certain.trans more, ?_, ending⟩
                      intro entry member
                      exact Nat.le_trans order (placed entry member)
            · simp only [if_neg full]
              exact writeGroup_appends keeps state fits

/-! ### Removal of old segments -/

section Removal

variable {gone rest : List (Nat × List Record)}

theorem Backed.removed {seq : Nat} {records : List Record}
    (backed : wal.Backed segments ((seq, records) :: closed) last file kept extra) :
    wal.Backed (segments.erase seq) closed last file kept extra where
  shape := by
    have listing : segments.entries =
        [] ++ (seq, File.settled (segmentBytes records)) :: (closedFiles closed ++ [(last, file)]) :=
      backed.shape.entries
    have erased := SortedMap.entries_erase listing
    refine ⟨erased, backed.shape.part, backed.shape.safe, ?_, backed.shape.fits⟩
    intro entry member
    exact backed.shape.closedFits entry (List.mem_append_right (tag seq records) member)
  behind := backed.behind
  current := backed.current
  whole := backed.whole
  counted := backed.counted
  atEnd := backed.atEnd

theorem Backed.find?_oldest {segment : Nat × List Record}
    (backed : wal.Backed segments (segment :: closed) last file kept extra) :
    (segments.find? segment.1).isSome = true := by
  have listing : segments.entries = [] ++ (segment.1, .settled (segmentBytes segment.2)) ::
      (closedFiles closed ++ [(last, file)]) := backed.shape.entries
  rw [SortedMap.find?_of_entries listing]
  rfl

def Dropped (wal : Wal) (gone rest : List (Nat × List Record)) (last : Nat) (file : File UInt8)
    (kept extra : List Record) (segments : Segments) : Prop :=
  ∃ dropped left, gone = dropped ++ left ∧
    wal.Backed segments (left ++ rest) last file kept extra

theorem removeAll_spec (backed : wal.Backed segments (gone ++ rest) last file kept extra) :
    (removeAll (gone.map Prod.fst)).Spec (directory faults)
      (Dropped wal gone rest last file kept extra)
      (fun _ => Dropped wal gone rest last file kept extra) segments := by
  induction gone generalizing segments with
  | nil =>
      have dropped : Dropped wal [] rest last file kept extra segments := ⟨[], [], rfl, backed⟩
      exact ⟨dropped, dropped⟩
  | cons segment gone ih =>
      have none : Dropped wal (segment :: gone) rest last file kept extra segments :=
        ⟨[], segment :: gone, rfl, backed⟩
      have one : Dropped wal (segment :: gone) rest last file kept extra
          (segments.erase segment.1) :=
        ⟨[segment], gone, rfl, backed.removed⟩
      have more : ∀ segments, Dropped wal gone rest last file kept extra segments →
          Dropped wal (segment :: gone) rest last file kept extra segments := by
        rintro segments ⟨dropped, left, rfl, kept⟩
        exact ⟨segment :: dropped, left, rfl, kept⟩
      apply spec_remove backed.find?_oldest none
      · exact (ih backed.removed).mono more (fun _ segments _ => more segments)
      · intro _
        exact ⟨none, none⟩
      · intro _
        exact ⟨one, one⟩

def Trimmed (wal : Wal) (bound : Nat) (sure maybe : List (Nat × Record)) (segments : Segments) :
    Prop :=
  ∃ gone sure', sure = gone ++ sure' ∧ (∀ entry ∈ gone, entry.1 < bound) ∧
    wal.Keeps segments sure' maybe

theorem Dropped.trimmed {bound : Nat}
    (dropped : Dropped wal gone rest last file kept extra segments)
    (below : ∀ segment ∈ gone, segment.1 < bound) :
    Trimmed wal bound (tagged (gone ++ rest) ++ tag last kept) (tag last extra) segments := by
  obtain ⟨removed, left, rfl, backed⟩ := dropped
  refine ⟨tagged removed, tagged (left ++ rest) ++ tag last kept, ?_, ?_,
    ⟨_, last, file, kept, extra, backed, rfl, rfl⟩⟩
  · simp
  · intro entry member
    obtain ⟨segment, inRemoved, inSegment⟩ := List.mem_flatMap.mp member
    rw [mem_tag inSegment]
    exact below segment (List.mem_append_left left inRemoved)

theorem Backed.doomed (backed : wal.Backed segments closed last file kept extra) {bound : Nat}
    (within : bound ≤ wal.segSeq) :
    ∃ gone rest, closed = gone ++ rest ∧ (∀ segment ∈ gone, segment.1 < bound) ∧
      (∀ segment ∈ rest, bound ≤ segment.1) ∧
      segments.keys.filter (fun number => decide (number < bound ∧ number ≠ wal.segSeq)) =
        gone.map Prod.fst := by
  let old : Nat × List Record → Bool := fun segment => decide (segment.1 < bound)
  have listing : segments.keys = closed.map Prod.fst ++ [last] := by
    simp [SortedMap.keys, backed.shape.entries, closedFiles]
  have partitioned : Partitioned old closed := by
    have all := segments.keys_sorted
    rw [listing] at all
    exact partitioned_lt Prod.fst (List.pairwise_map.mp (List.pairwise_append.mp all).1) bound
  refine ⟨closed.takeWhile old, closed.dropWhile old, List.takeWhile_append_dropWhile.symm,
    ?_, ?_, ?_⟩
  · intro segment member
    have passes := List.mem_takeWhile_imp member
    exact of_decide_eq_true passes
  · intro segment member
    rw [partitioned.dropWhile_eq] at member
    simpa [old] using (List.mem_filter.mp member).2
  · have notLast : ¬ last < bound := by
      have order := backed.behind
      omega
    have simpler : ∀ number ∈ segments.keys,
        decide (number < bound ∧ number ≠ wal.segSeq) = decide (number < bound) := by
      intro number _
      apply decide_eq_decide.mpr
      omega
    rw [List.filter_congr simpler, listing, List.filter_append,
      List.filter_cons_of_neg (by simpa using notLast), List.filter_nil, List.append_nil,
      partitioned.takeWhile_eq, List.filter_map]
    rfl

theorem removeSegmentsBefore_spec {bound : Nat} (keeps : wal.Keeps segments sure maybe)
    (within : bound ≤ wal.segSeq) :
    (wal.removeSegmentsBefore bound).Spec (directory faults) (Trimmed wal bound sure maybe)
      (fun _ => Trimmed wal bound sure maybe) segments := by
  obtain ⟨closed, last, file, kept, extra, backed, rfl, rfl⟩ := keeps
  obtain ⟨gone, rest, rfl, below, _, doomed⟩ := backed.doomed within
  have trim : ∀ segments, Dropped wal gone rest last file kept extra segments →
      Trimmed wal bound (tagged (gone ++ rest) ++ tag last kept) (tag last extra) segments :=
    fun segments dropped => dropped.trimmed below
  have now := trim segments ⟨[], gone, rfl, backed⟩
  apply spec_request .list now
  · simp only [serve, doomed]
    apply Program.Spec.bind
    refine (removeAll_spec backed).mono trim ?_
    intro removed segments _ dropped
    have after := trim segments dropped
    cases removed with
    | false => exact ⟨after, after⟩
    | true =>
        by_cases none : (gone.map Prod.fst).isEmpty
        · rw [if_pos rfl, if_pos none]
          exact ⟨after, after⟩
        · rw [if_pos rfl, if_neg none]
          apply spec_syncDir after
          · exact ⟨after, after⟩
          · intro _
            exact ⟨after, after⟩
  · intro extent _
    exact ⟨now, now⟩

end Removal

end Wal

end Keystory
