/-
Opening the log of any directory at all, when no call fails: the last segment is
repaired, or the first one started, and opening again then changes nothing.
-/

import Keystory.Wal.Shape

namespace Keystory.Wal

open General

/-- What an open leaves of the last segment: all of it, what ends with its last intact
record, or a fresh header where there never was one. -/
inductive Repaired (path : String) (bytes : Bytes) : List Record → Bytes → Prop where
  | whole {records : List Record}
      (clean : scanSegment path collect bytes [] = .ok (records, none)) :
      Repaired path bytes records bytes
  | cut {records : List Record} {offset : Nat}
      (torn : scanSegment path collect bytes [] = .ok (records, some offset))
      (behind : headerLen ≤ offset) (within : offset ≤ bytes.length) :
      Repaired path bytes records (bytes.take offset)
  | reborn (unborn : scanSegment path collect bytes [] = .ok ([], some 0)) :
      Repaired path bytes [] segmentHeader

theorem readSegment_segmentHeader (path : String) :
    readSegment path segmentHeader = ([], .ok none) :=
  readSegment_reads (show Reads segmentHeader [] none from (List.append_nil _).symm)
    (fun _ member => absurd member List.not_mem_nil)

theorem Repaired.clean {path : String} {bytes left : Bytes} {records : List Record}
    (repaired : Repaired path bytes records left) :
    readSegment path left = (records, .ok none) := by
  cases repaired with
  | whole clean => exact scanSegment_collect_eq_ok_iff.mp clean
  | cut torn behind within =>
      rcases readSegment_cut (scanSegment_collect_eq_ok_iff.mp torn) with ⟨start, _, _⟩ | cut
      · rw [start] at behind
        exact absurd behind (by decide)
      · exact cut.2.2
  | reborn unborn => exact readSegment_segmentHeader path

/-! ### Scanning without a sink -/

theorem deliver_ignore {Item : Type} (read : List Item × Except Failure (Option Nat)) :
    deliver (fun (_ : Unit) (_ : Item) => .ok ()) read () = (do
      let ending ← read.2
      return ((), ending)) := by
  have ignored : read.1.foldlM (fun (_ : Unit) (_ : Item) =>
      (.ok () : Except Failure Unit)) () = .ok () := by
    induction read.1 with
    | nil => rfl
    | cons item items ih => exact ih
  rw [deliver, ignored]
  rfl

/-! ### Opening -/

section Open

variable {segments : Segments} {front : List (Nat × File UInt8)} {seq : Nat} {file : File UInt8}

theorem modify_last (listing : segments.entries = front ++ [(seq, file)])
    (change : File UInt8 → File UInt8) :
    (modify segments seq change).entries = front ++ [(seq, change file)] := by
  rw [modify, SortedMap.find?_of_entries listing]
  exact SortedMap.entries_insert_last listing _

theorem adopt_exec (listing : segments.entries = front ++ [(seq, file)]) (maxSegBytes : Nat) :
    (adopt maxSegBytes seq).exec (directory .none) .ok segments =
      if file.bytes = [] then
        (.ok (atSegment maxSegBytes seq headerLen),
          modify (modify segments seq (·.append segmentHeader)) seq (·.sync))
      else (.ok (atSegment maxSegBytes seq file.bytes.length), segments) := by
  have measured : (len seq).exec (directory .none) .ok segments =
      (file.bytes.length, segments) := by
    change (((segments.find? seq).map (·.bytes.length)).getD 0, segments) = _
    rw [SortedMap.find?_of_entries listing]
    rfl
  rw [adopt, Program.exec_bind, measured]
  by_cases empty : file.bytes = []
  · rw [if_pos empty, if_pos (List.length_eq_zero_iff.mpr empty)]
    rfl
  · rw [if_neg empty, if_neg (fun zero => empty (List.length_eq_zero_iff.mp zero))]
    rfl

theorem resume_exec (maxSegBytes seq : Nat) (segments : Segments) :
    (resume maxSegBytes seq).exec (directory .none) .ok segments =
      (adopt maxSegBytes seq).exec (directory .none) .ok (touch segments seq) := by
  have opened : (openAppend seq).exec (directory .none) .ok segments =
      (true, touch segments seq) := rfl
  rw [resume, Program.exec_bind, opened, if_pos rfl]

theorem touch_last (listing : segments.entries = front ++ [(seq, file)]) :
    touch segments seq = segments := by
  rw [touch, SortedMap.find?_of_entries listing]

theorem repairTail_exec (seq : Nat) (bytes : Bytes) (segments : Segments) :
    (repairTail seq bytes).exec (directory .none) .ok segments =
      match (readSegment (segmentPath seq) bytes).2 with
      | .error failure => (.error failure, segments)
      | .ok none => (.ok (), segments)
      | .ok (some offset) =>
          (.ok (), modify (modify segments seq (·.setLen 0 offset)) seq (·.sync)) := by
  rw [repairTail, scanSegment_eq, deliver_ignore]
  rcases readSegment (segmentPath seq) bytes with ⟨records, failure | ending⟩
  · rfl
  · cases ending <;> rfl

theorem openLog_empty_exec (nothing : segments.entries = []) (maxSegBytes : Nat) :
    ∃ after, (openLog maxSegBytes).exec (directory .none) .ok segments =
        (.ok (atSegment maxSegBytes 1 headerLen), after) ∧
      after.entries = [(1, File.settled segmentHeader)] := by
  have touched : touch segments 1 = segments.insert 1 .empty := by
    have missing : segments.find? 1 = none := by
      rw [SortedMap.find?_eq_none_iff, nothing]
      exact fun value member => absurd member List.not_mem_nil
    rw [touch, missing]
  have listing : (segments.insert 1 File.empty).entries = [] ++ [(1, File.empty)] := by
    change SortedMap.insertEntry 1 File.empty segments.entries = _
    rw [nothing]
    rfl
  have read : readDir.exec (directory .none) .ok segments = ([], segments) := by
    change (segments.entries.map _, segments) = _
    rw [nothing]
    rfl
  refine ⟨modify (modify (segments.insert 1 File.empty) 1 (·.append segmentHeader)) 1 (·.sync),
    ?_, ?_⟩
  · rw [openLog, Program.exec_bind, read]
    change (resume maxSegBytes 1).exec (directory .none) .ok segments = _
    rw [resume_exec, touched, adopt_exec listing, if_pos File.bytes_empty]
  · exact modify_last (modify_last listing _) _

/-- Opening the log of a directory that has segments: a refusal comes from the scan of
the last one and leaves everything alone; otherwise that segment is repaired. -/
theorem openLog_exec (listing : segments.entries = front ++ [(seq, file)]) (maxSegBytes : Nat) :
    match readSegment (segmentPath seq) file.bytes with
    | (_, .error failure) =>
        (openLog maxSegBytes).exec (directory .none) .ok segments = (.error failure, segments)
    | (records, .ok ending) =>
        ∃ left after, Repaired (segmentPath seq) file.bytes records left.bytes ∧
          (openLog maxSegBytes).exec (directory .none) .ok segments =
            (.ok (atSegment maxSegBytes seq left.bytes.length), after) ∧
          after.entries = front ++ [(seq, left)] ∧ (ending = none → after = segments) := by
  have read : readDir.exec (directory .none) .ok segments = (files segments, segments) := rfl
  have last : (files segments).getLast? = some (seq, file.bytes) := by
    rw [files, listing, List.map_append]
    simp
  have repaired := repairTail_exec seq file.bytes segments
  rw [openLog, Program.exec_bind, read]
  dsimp only
  rw [last]
  dsimp only
  rw [Program.exec_bind]
  rcases whole : readSegment (segmentPath seq) file.bytes with ⟨records, failure | ending⟩
  · rw [whole] at repaired
    rw [repaired]
    rfl
  · have scanned := scanSegment_collect_eq_ok_iff.mpr whole
    rw [whole] at repaired
    cases ending with
    | none =>
        have some : file.bytes ≠ [] := by
          intro empty
          rw [empty] at whole
          cases whole
        refine ⟨file, segments, .whole scanned, ?_, listing, fun _ => rfl⟩
        rw [repaired]
        dsimp only
        rw [resume_exec, touch_last listing, adopt_exec listing, if_neg some]
    | some offset =>
        have cut := modify_last (modify_last listing (·.setLen 0 offset)) (·.sync)
        have bytes : offset ≤ file.bytes.length →
            (file.setLen 0 offset).sync.bytes = file.bytes.take offset := fun within => by
          rw [File.bytes_sync, File.bytes_setLen 0 within]
        rw [repaired]
        dsimp only
        rw [resume_exec, touch_last cut, adopt_exec cut]
        rcases readSegment_cut whole with ⟨rfl, rfl, _⟩ | ⟨behind, within, _⟩
        · have emptied := bytes (Nat.zero_le _)
          rw [List.take_zero] at emptied
          have born := modify_last (modify_last cut (·.append segmentHeader)) (·.sync)
          refine ⟨((file.setLen 0 0).sync.append segmentHeader).sync, _, ?_, ?_,
            born, fun impossible => by cases impossible⟩
          · rw [File.bytes_sync, File.bytes_append, emptied, List.nil_append]
            exact .reborn scanned
          · rw [if_pos emptied, File.bytes_sync, File.bytes_append, emptied, List.nil_append,
              length_segmentHeader]
        · have some : (file.setLen 0 offset).sync.bytes ≠ [] := by
            intro empty
            rw [bytes within] at empty
            have length := congrArg List.length empty
            rw [List.length_take_of_le within, List.length_nil] at length
            rw [length] at behind
            exact absurd behind (by decide)
          refine ⟨(file.setLen 0 offset).sync, _, ?_, by rw [if_neg some], cut,
            fun impossible => by cases impossible⟩
          rw [bytes within]
          exact .cut scanned behind within

end Open

/-! ### What an open leaves -/

/-- Only the last segment differs, and only by its repair; or the first was started. -/
inductive LastMended (before after : List (Nat × Bytes)) : Prop where
  | started (nothing : before = []) (created : after = [(1, segmentHeader)])
  | repaired {front : List (Nat × Bytes)} {seq : Nat} {bytes left : Bytes}
      {records : List Record} (was : before = front ++ [(seq, bytes)])
      (repaired : Repaired (segmentPath seq) bytes records left)
      (became : after = front ++ [(seq, left)])

theorem files_of_entries {segments : Segments} {front : List (Nat × File UInt8)} {seq : Nat}
    {file : File UInt8} (listing : segments.entries = front ++ [(seq, file)]) :
    files segments = front.map (fun entry => (entry.1, entry.2.bytes)) ++ [(seq, file.bytes)] := by
  rw [files, listing, List.map_append]
  rfl

theorem Scans.replays {segments : Segments} {found : List (Nat × Record)} {ending : Option Nat}
    (scans : Scans (files segments) found ending) : Replays segments found ending := by
  intro Collected sink collected
  rw [replay_eq, readLog_eq_ok_iff.mpr scans]
  rfl

theorem openLog_clean_exec {segments : Segments} {front : List (Nat × File UInt8)} {seq : Nat}
    {file : File UInt8} {records : List Record}
    (listing : segments.entries = front ++ [(seq, file)])
    (clean : readSegment (segmentPath seq) file.bytes = (records, .ok none))
    (maxSegBytes : Nat) :
    (openLog maxSegBytes).exec (directory .none) .ok segments =
      (.ok (atSegment maxSegBytes seq file.bytes.length), segments) := by
  have opened := openLog_exec listing maxSegBytes
  rw [clean] at opened
  obtain ⟨left, after, _, opened, became, unchanged⟩ := opened
  have same := unchanged rfl
  subst same
  rw [listing] at became
  cases List.append_cancel_left became
  exact opened

theorem openLog_scans {segments : Segments} {found : List (Nat × Record)} {ending : Option Nat}
    (scans : Scans (files segments) found ending) (maxSegBytes : Nat) :
    ∃ wal after, (openLog maxSegBytes).exec (directory .none) .ok segments = (.ok wal, after) ∧
      LastMended (files segments) (files after) ∧ Scans (files after) found none ∧
      (openLog maxSegBytes).exec (directory .none) .ok after = (.ok wal, after) := by
  rcases List.eq_nil_or_concat' segments.entries with nothing | ⟨front, ⟨seq, file⟩, listing⟩
  · obtain ⟨after, opened, became⟩ := openLog_empty_exec nothing maxSegBytes
    have before : files segments = [] := by
      rw [files, nothing]
      rfl
    have left : files after = [(1, segmentHeader)] := by
      rw [files, became]
      simp
    have clean : readSegment (segmentPath 1) (File.settled segmentHeader).bytes =
        ([], .ok none) := by
      rw [File.bytes_settled]
      exact readSegment_segmentHeader _
    rw [before] at scans
    cases scans
    refine ⟨_, after, opened, .started before left, ?_, ?_⟩
    · rw [left]
      exact .last (scanSegment_collect_eq_ok_iff.mpr (readSegment_segmentHeader _))
    · have listing : after.entries = [] ++ [(1, File.settled segmentHeader)] := became
      rw [openLog_clean_exec listing clean, File.bytes_settled, length_segmentHeader]
  · have before := files_of_entries listing
    rw [before] at scans
    obtain ⟨records, scanned, replaced⟩ := scans.last_segment
    have opened := openLog_exec listing maxSegBytes
    rw [scanSegment_collect_eq_ok_iff.mp scanned] at opened
    obtain ⟨left, after, repaired, opened, became, _⟩ := opened
    have afterFiles := files_of_entries became
    refine ⟨_, after, opened, .repaired before repaired afterFiles, ?_,
      openLog_clean_exec became repaired.clean maxSegBytes⟩
    rw [afterFiles]
    exact replaced left.bytes none (scanSegment_collect_eq_ok_iff.mpr repaired.clean)

end Keystory.Wal
