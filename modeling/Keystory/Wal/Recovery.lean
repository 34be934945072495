/-
Opening a log: whatever a crash or a poisoned log left behind, the last segment
is repaired or created, and the log holds exactly the records replay reads.
-/

import Keystory.Wal.Operations

namespace Keystory

open General Wal

namespace Wal

variable {wal : Wal} {segments : Segments} {closed : List (Nat × List Record)} {last : Nat}
  {file : File UInt8} {kept extra : List Record} {sure maybe : List (Nat × Record)}
  {faults : Faults}

/-! ### Reading a log that is open -/

theorem Keeps.replays (keeps : wal.Keeps segments sure maybe) (usable : wal.poisoned = none) :
    Replays segments (sure ++ maybe) none := by
  obtain ⟨closed, last, file, kept, extra, backed, rfl, rfl⟩ := keeps
  have clean : Reads file.bytes (kept ++ extra) none := backed.whole usable
  have replays := backed.shape.replays clean List.prefix_rfl
  simpa using replays

def settledTail (segments : Segments) : Bool :=
  match segments.entries.getLast? with
  | none => true
  | some (_, file) => file.unsynced = [] || file.bytes.length ≤ headerLen

theorem Backed.settle (backed : wal.Backed segments closed last file kept extra)
    (usable : wal.poisoned = none) (settled : settledTail segments = true) :
    wal.Backed segments closed last file (kept ++ extra) [] := by
  have whole := backed.whole usable
  have safe : kept ++ extra = [] ∨ segmentBytes (kept ++ extra) <+: file.synced := by
    rw [settledTail, backed.shape.entries, List.getLast?_concat] at settled
    rcases Bool.or_eq_true_iff.mp settled with synced | short
    · right
      have none : file.unsynced = [] := of_decide_eq_true synced
      rw [← whole, File.bytes, none, List.append_nil]
    · left
      have length := of_decide_eq_true short
      rw [whole, segmentBytes, List.length_append, length_segmentHeader] at length
      have counted := length_le_frames (kept ++ extra)
      exact List.length_eq_zero_iff.mp (by omega)
  have fits := backed.shape.fits
  rw [← List.append_nil (kept ++ extra)] at whole fits
  exact ⟨⟨backed.shape.entries, by rw [whole], safe, backed.shape.closedFits, fits⟩,
    backed.behind, backed.current, fun _ => whole,
    fun _ => by simpa using backed.counted usable, backed.atEnd⟩

/-! ### Repair -/

def Mended (segments : Segments) (closed : List (Nat × List Record)) (last : Nat)
    (kept extra : List Record) : Prop :=
  ∃ file, Shape segments closed last file kept extra ∧
    (file.bytes = segmentBytes (kept ++ extra) ∨ file.bytes = [] ∧ kept ++ extra = [])

theorem repairTail_spec {whole : List Record} {ending : Option Nat}
    (shape : Shape segments closed last file kept extra)
    (reads : Reads file.bytes (kept ++ whole) ending) (inside : whole <+: extra) :
    (repairTail last file.bytes).Spec (directory faults)
      (fun segments => Readable segments (untag (tagged closed) ++ kept) extra)
      (fun result segments =>
        match result with
        | .ok () => Mended segments closed last kept whole
        | .error _ => faults ≠ .none) segments := by
  have fits : ∀ record ∈ kept ++ whole, Fits record.ops := by
    intro record member
    apply shape.fits record
    exact ((List.prefix_append_right_inj kept).mpr inside).subset member
  have scanned : scanSegment (segmentPath last) (fun _ _ => .ok ()) file.bytes () =
      .ok ((), ending) := by
    rw [scanSegment_reads reads fits]
    have collected : (kept ++ whole).foldlM (fun (_ : Unit) (_ : Record) =>
        (.ok () : Except Failure Unit)) () = .ok () := by
      induction kept ++ whole with
      | nil => rfl
      | cons record rest ih =>
          rw [List.foldlM_cons, ok_bind]
          exact ih
    rw [collected]
    rfl
  have now := shape.readable
  rw [repairTail, scanned]
  cases ending with
  | none =>
      refine ⟨now, file, ⟨shape.entries, ?_, shape.safe, shape.closedFits, fits⟩, Or.inl reads⟩
      rw [show file.bytes = segmentBytes (kept ++ whole) from reads]
  | some offset =>
      -- the cut falls after the last whole record, or before the header
      obtain ⟨within, cutBytes, covers⟩ : offset ≤ file.bytes.length ∧
          (file.bytes.take offset = segmentBytes (kept ++ whole) ∨
            file.bytes.take offset = [] ∧ kept ++ whole = []) ∧
          (kept = [] ∨ (segmentBytes kept).length ≤ offset) := by
        rcases reads with ⟨_, none, rfl⟩ | ⟨torn, _, _, same, rfl⟩
        · exact ⟨Nat.zero_le _, Or.inr ⟨rfl, none⟩, Or.inl (List.append_eq_nil_iff.mp none).1⟩
        · refine ⟨?_, Or.inl ?_, Or.inr ?_⟩
          · rw [same, List.length_append]
            exact Nat.le_add_right _ _
          · rw [same, List.take_left]
          · rw [segmentBytes_append, List.length_append]
            exact Nat.le_add_right _ _
      have cut : Shape (modify segments last (·.setLen 0 offset)) closed last
          (file.setLen 0 offset) kept whole := by
        refine shape.updated _ ?_ ?_ fits
        · rw [File.bytes_setLen 0 within]
          rcases cutBytes with ends | ⟨nothing, _⟩
          · rw [ends]
          · rw [nothing]
            exact List.nil_prefix
        · rcases covers with none | long
          · exact Or.inl none
          · exact shape.safe.imp_right (fun there => File.synced_setLen 0 there long)
      have bytes := File.bytes_setLen 0 within
      obtain ⟨missing, whole_append⟩ := inside
      have loosen : ∀ segments, Readable segments (untag (tagged closed) ++ kept) whole →
          Readable segments (untag (tagged closed) ++ kept) extra := by
        intro segments readable
        apply readable.weaken List.prefix_rfl
        rw [← whole_append]
        simp
      apply spec_setLen now
      · apply spec_sync (loosen _ cut.readable)
        · refine ⟨loosen _ cut.synced.readable, _, cut.synced, ?_⟩
          rw [File.bytes_sync, bytes]
          exact cutBytes
        · intro extent considered
          exact ⟨loosen _ (cut.hardened extent).readable, considered⟩
      · intro considered
        exact ⟨now, considered⟩
      · intro considered
        exact ⟨loosen _ cut.readable, considered⟩

/-! ### Resuming -/

theorem spec_openAppend {Result : Type} {stopped : Segments → Prop}
    {post : Result → Segments → Prop} {seq : Nat} {next : Bool → SegmentProgram Result}
    (now : stopped segments)
    (succeeds : (next true).Spec (directory faults) stopped post (touch segments seq))
    (ignored : faults ≠ .none → (next false).Spec (directory faults) stopped post segments)
    (fails : faults ≠ .none →
      (next false).Spec (directory faults) stopped post (touch segments seq)) :
    (openAppend seq >>= next).Spec (directory faults) stopped post segments := by
  apply spec_request (.openAppend seq) now succeeds
  intro extent considered
  by_cases none : extent = 0
  · simpa only [serve, if_pos none] using ignored considered
  · simpa only [serve, if_neg none] using fails considered

theorem spec_len {Result : Type} {stopped : Segments → Prop} {post : Result → Segments → Prop}
    {next : Nat → SegmentProgram Result} (shape : Shape segments closed last file kept extra)
    (now : stopped segments)
    (tells : (next file.bytes.length).Spec (directory faults) stopped post segments) :
    (len last >>= next).Spec (directory faults) stopped post segments := by
  have answer : ((segments.find? last).map (·.bytes.length)).getD (0 : Nat) =
      file.bytes.length := by
    rw [shape.find?]
    rfl
  rw [← answer] at tells
  exact spec_request (.len last) now tells (fun _ _ => tells)

def Resumed (faults : Faults) (closed : List (Nat × List Record)) (last : Nat)
    (kept extra : List Record) (result : Except Failure Wal) (segments : Segments) : Prop :=
  match result with
  | .ok wal => wal.poisoned = none ∧ ∃ file, wal.Backed segments closed last file kept extra
  | .error _ => faults ≠ .none

theorem adopt_spec {maxSegBytes : Nat} (mended : Mended segments closed last kept extra) :
    (adopt maxSegBytes last).Spec (directory faults)
      (fun segments => Readable segments (untag (tagged closed) ++ kept) extra)
      (Resumed faults closed last kept extra) segments := by
  obtain ⟨file, shape, ends⟩ := mended
  have now := shape.readable
  apply spec_len shape now
  by_cases empty : file.bytes.length = 0
  · rw [if_pos empty]
    have nothing : file.bytes = [] := List.length_eq_zero_iff.mp empty
    have recordless : kept ++ extra = [] := by
      rcases ends with whole | ⟨_, recordless⟩
      · exfalso
        have length := length_segmentHeader
        rw [whole, segmentBytes, List.length_append, length] at empty
        exact absurd (Nat.eq_zero_of_add_eq_zero_right empty) (by decide)
      · exact recordless
    obtain ⟨rfl, rfl⟩ := List.append_eq_nil_iff.mp recordless
    have written : ∀ {part : Bytes}, part <+: segmentHeader →
        Shape (modify segments last (writeFile · none part)) closed last (file.append part)
          [] [] := by
      intro part inside
      refine shape.updated (writeFile · none part) ?_ (Or.inl rfl) shape.fits
      change (file.append part).bytes <+: _
      rw [File.bytes_append, nothing, List.nil_append]
      exact inside.trans (List.prefix_append _ _)
    apply spec_write now
    · have header := written List.prefix_rfl
      apply spec_sync header.readable
      · have settled := header.settle (by simp [File.bytes_append, nothing, segmentBytes])
        apply spec_syncDir settled.readable
        · refine ⟨settled.readable, rfl, _, settled, Nat.le_refl last, fun _ => ⟨rfl, rfl⟩,
            fun _ => by simp, fun _ => ?_, fun _ => Or.inl rfl⟩
          simp [atSegment, segmentBytes, length_segmentHeader]
        · intro considered
          exact ⟨settled.readable, considered⟩
      · intro extent considered
        exact ⟨(header.hardened extent).readable, considered⟩
    · intro extent considered
      exact ⟨(written (List.take_prefix extent _)).readable, considered⟩
  · rw [if_neg empty]
    have whole : file.bytes = segmentBytes (kept ++ extra) := by
      rcases ends with whole | ⟨nothing, _⟩
      · exact whole
      · exact absurd (List.length_eq_zero_iff.mpr nothing) empty
    apply spec_syncDir now
    · refine ⟨now, rfl, file, shape, Nat.le_refl last, fun _ => ⟨rfl, rfl⟩, fun _ => whole,
        fun _ => ?_, fun _ => Or.inl rfl⟩
      simp [atSegment, whole]
    · intro considered
      exact ⟨now, considered⟩

theorem resume_spec {maxSegBytes : Nat} (mended : Mended segments closed last kept extra) :
    (resume maxSegBytes last).Spec (directory faults)
      (fun segments => Readable segments (untag (tagged closed) ++ kept) extra)
      (Resumed faults closed last kept extra) segments := by
  obtain ⟨file, shape, ends⟩ := mended
  have now := shape.readable
  have present : touch segments last = segments := by
    rw [touch, shape.find?]
  apply spec_openAppend now
  · rw [present]
    exact adopt_spec ⟨file, shape, ends⟩
  · intro considered
    exact ⟨now, considered⟩
  · intro considered
    rw [present]
    exact ⟨now, considered⟩

theorem resume_first {maxSegBytes : Nat} (empty : segments.entries = []) :
    (resume maxSegBytes 1).Spec (directory faults) (fun segments => Readable segments [] [])
      (Resumed faults [] 1 [] []) segments := by
  have absent : segments.find? 1 = none := by
    rw [SortedMap.find?_eq_none_iff, empty]
    simp
  have now : Readable segments [] [] := Or.inl ⟨empty, rfl⟩
  have born : Shape (touch segments 1) [] 1 .empty [] [] := by
    refine ⟨?_, List.nil_prefix, Or.inl rfl, by simp, by simp⟩
    rw [touch, absent]
    change SortedMap.insertEntry 1 .empty segments.entries = _
    rw [empty]
    rfl
  apply spec_openAppend now
  · exact adopt_spec ⟨.empty, born, Or.inr ⟨rfl, rfl⟩⟩
  · intro considered
    exact ⟨now, considered⟩
  · intro considered
    exact ⟨born.readable, considered⟩

/-! ### Opening -/

/-- The log an open returns holds exactly the records replay read, in order; all of
them are certain if the last segment has nothing a crash could take. -/
def Opened (faults : Faults) (sure : List Record) (entries : List (Nat × Record))
    (result : Except Failure Wal) (segments : Segments) : Prop :=
  match result with
  | .ok wal => wal.poisoned = none ∧ (∀ entry ∈ entries, entry.1 ≤ wal.segSeq) ∧
      (∃ sure' maybe', wal.Keeps segments sure' maybe' ∧ sure' ++ maybe' = entries ∧
        sure <+: untag sure') ∧
      (settledTail segments = true → wal.Keeps segments entries [])
  | .error _ => faults ≠ .none

theorem Shape.tag_lt (shape : Shape segments closed last file kept extra)
    {entry : Nat × Record} (member : entry ∈ tagged closed) : entry.1 < last := by
  obtain ⟨segment, inClosed, inSegment⟩ := List.mem_flatMap.mp member
  rw [mem_tag inSegment]
  exact (SortedMap.lt_of_entries shape.entries).1 (segment.1, _) (List.mem_map_of_mem inClosed)

theorem Shape.tags_sorted (shape : Shape segments closed last file kept extra)
    (records : List Record) :
    (tagged closed ++ tag last records).Pairwise (fun left right => left.1 ≤ right.1) := by
  have sorted := segments.sorted
  rw [shape.entries, List.pairwise_append, closedFiles, List.pairwise_map] at sorted
  rw [List.pairwise_append]
  refine ⟨?_, ?_, ?_⟩
  · rw [tagged, List.pairwise_flatMap]
    constructor
    · intro segment _
      rw [List.pairwise_map]
      exact List.pairwise_of_forall (fun _ _ => Nat.le_refl _)
    · refine sorted.1.imp ?_
      intro left right below first firstIn second secondIn
      rw [mem_tag firstIn, mem_tag secondIn]
      exact Nat.le_of_lt below
  · rw [tag, List.pairwise_map]
    exact List.pairwise_of_forall (fun _ _ => Nat.le_refl _)
  · intro first firstIn second secondIn
    rw [mem_tag secondIn]
    exact Nat.le_of_lt (shape.tag_lt firstIn)

theorem Resumed.opened {records : List Record} {result : Except Failure Wal}
    (resumed : Resumed faults closed last kept extra result segments)
    (certain : records <+: untag (tagged closed) ++ kept) :
    Opened faults records (tagged closed ++ tag last (kept ++ extra)) result segments := by
  cases result with
  | error failure => exact resumed
  | ok wal =>
      obtain ⟨usable, file, backed⟩ := resumed
      refine ⟨usable, ?_, ?_, ?_⟩
      · intro entry member
        rw [(backed.current usable).1]
        rcases List.mem_append.mp member with inClosed | inLast
        · exact Nat.le_of_lt (backed.shape.tag_lt inClosed)
        · exact Nat.le_of_eq (mem_tag inLast)
      · exact ⟨_, _, ⟨closed, last, file, kept, extra, backed, rfl, rfl⟩, by simp,
          by simpa using certain⟩
      · intro settled
        exact ⟨closed, last, file, _, [], backed.settle usable settled, rfl, rfl⟩

/-- A directory that can be read is opened with what replay reads from it. -/
structure Recoverable (segments : Segments) (sure maybe : List Record)
    (entries : List (Nat × Record)) (ending : Option Nat) : Prop where
  replays : Replays segments entries ending
  sorted : entries.Pairwise (fun left right => left.1 ≤ right.1)
  certain : sure <+: untag entries
  possible : untag entries <+: sure ++ maybe
  opens : ∀ faults maxSegBytes, (openLog maxSegBytes).Spec (directory faults)
    (fun segments => Readable segments sure maybe) (Opened faults sure entries) segments

theorem openLog_spec {found : List Record} {ending : Option Nat} {maxSegBytes : Nat}
    (shape : Shape segments closed last file kept extra)
    (reads : Reads file.bytes (kept ++ found) ending) (inside : found <+: extra) :
    (openLog maxSegBytes).Spec (directory faults)
      (fun segments => Readable segments (untag (tagged closed) ++ kept) extra)
      (Resumed faults closed last kept found) segments := by
  apply spec_readDir shape.readable
  have latest : (files segments).getLast? = some (last, file.bytes) := by
    simp [files, shape.entries]
  rw [latest]
  apply Program.Spec.bind
  refine (repairTail_spec shape reads inside).mono (fun _ readable => readable) ?_
  intro result segments readable repaired
  cases result with
  | error failure => exact ⟨readable, repaired⟩
  | ok value =>
      refine (resume_spec repaired).mono ?_ (fun _ _ _ resumed => resumed)
      intro segments readable
      exact readable.weaken List.prefix_rfl ((List.prefix_append_right_inj _).mpr inside)

theorem Readable.recoverable {sure maybe : List Record} (readable : Readable segments sure maybe) :
    ∃ entries ending, Recoverable segments sure maybe entries ending := by
  rcases readable with ⟨empty, rfl⟩ | ⟨closed, last, file, kept, extra, shape, low, high⟩
  · refine ⟨[], none, ?_, List.Pairwise.nil, List.prefix_rfl, List.nil_prefix, ?_⟩
    · intro Collected sink collected
      rw [files, empty]
      rfl
    · intro faults maxSegBytes
      apply spec_readDir (Or.inl ⟨empty, rfl⟩)
      simp only [files, empty, List.map_nil, List.getLast?_nil]
      exact (resume_first empty).mono
        (fun _ readable => readable.weaken List.prefix_rfl List.nil_prefix)
        (fun _ _ _ resumed => resumed.opened List.nil_prefix)
  · obtain ⟨whole, ending, reads, ⟨found, rfl⟩, inside⟩ := shape.exists_reads
    have found_inside : found <+: extra := (List.prefix_append_right_inj _).mp inside
    refine ⟨tagged closed ++ tag last (kept ++ found), ending, shape.replays reads inside,
      shape.tags_sorted _, ?_, ?_, ?_⟩
    · simpa using low.trans (List.prefix_append _ found)
    · have covered : untag (tagged closed) ++ kept ++ found <+:
          untag (tagged closed) ++ kept ++ extra :=
        (List.prefix_append_right_inj _).mpr found_inside
      simpa using covered.trans high
    · intro faults maxSegBytes
      exact (openLog_spec shape reads found_inside).mono
        (fun _ readable => readable.weaken low high) (fun _ _ _ resumed => resumed.opened low)

end Wal

end Keystory
