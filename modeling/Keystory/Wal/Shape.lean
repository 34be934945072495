/-
What the segment directory can look like: whole segments that are safely on
disk, then a last one that is some leading part of a well-formed segment. A
crash stays within it, and replay reads every record that is certainly there and
a leading part of those that may be.
-/

import Keystory.Wal.Log
import Keystory.Wal.Scan

namespace Keystory.Wal

open General

/-! ### Shapes of the directory -/

def closedFiles (closed : List (Nat × List Record)) : List (Nat × File UInt8) :=
  closed.map (fun segment => (segment.1, File.settled (segmentBytes segment.2)))

/-- The last segment certainly keeps the records `kept`, and holds some leading
part of the records `extra` after them. -/
structure Shape (segments : Segments) (closed : List (Nat × List Record)) (last : Nat)
    (file : File UInt8) (kept extra : List Record) : Prop where
  entries : segments.entries = closedFiles closed ++ [(last, file)]
  part : file.bytes <+: segmentBytes (kept ++ extra)
  safe : kept = [] ∨ segmentBytes kept <+: file.synced
  closedFits : ∀ entry ∈ tagged closed, Fits entry.2.ops
  fits : ∀ record ∈ kept ++ extra, Fits record.ops

/-- Replay would find the records `sure` and then a leading part of `maybe`,
now and after any crash. -/
def Readable (segments : Segments) (sure maybe : List Record) : Prop :=
  (segments.entries = [] ∧ sure = []) ∨
    ∃ closed last file kept extra, Shape segments closed last file kept extra ∧
      sure <+: untag (tagged closed) ++ kept ∧
      untag (tagged closed) ++ kept ++ extra <+: sure ++ maybe

section Shape

variable {segments : Segments} {closed : List (Nat × List Record)} {last : Nat}
  {file : File UInt8} {kept extra sure maybe : List Record}

theorem Shape.find? (shape : Shape segments closed last file kept extra) :
    segments.find? last = some file :=
  SortedMap.find?_of_entries shape.entries

theorem Shape.modify_eq (shape : Shape segments closed last file kept extra)
    (change : File UInt8 → File UInt8) :
    modify segments last change = segments.insert last (change file) := by
  rw [modify, shape.find?]

theorem Shape.updated (shape : Shape segments closed last file kept extra)
    (change : File UInt8 → File UInt8) {kept' extra' : List Record}
    (part : (change file).bytes <+: segmentBytes (kept' ++ extra'))
    (safe : kept' = [] ∨ segmentBytes kept' <+: (change file).synced)
    (fits : ∀ record ∈ kept' ++ extra', Fits record.ops) :
    Shape (modify segments last change) closed last (change file) kept' extra' where
  entries := by
    rw [shape.modify_eq]
    exact SortedMap.entries_insert_last shape.entries _
  part := part
  safe := safe
  closedFits := shape.closedFits
  fits := fits

theorem Shape.synced (shape : Shape segments closed last file kept extra) :
    Shape (modify segments last (·.sync)) closed last file.sync kept extra := by
  refine shape.updated _ ?_ ?_ shape.fits
  · rw [File.bytes_sync]
    exact shape.part
  · exact shape.safe.imp_right (fun there => there.trans File.synced_isPrefix)

theorem Shape.hardened (shape : Shape segments closed last file kept extra) (count : Nat) :
    Shape (modify segments last (·.harden count)) closed last (file.harden count) kept extra := by
  refine shape.updated _ ?_ ?_ shape.fits
  · rw [File.bytes_harden]
    exact shape.part
  · exact shape.safe.imp_right (fun there => there.trans (File.synced_harden count))

theorem Shape.settle (shape : Shape segments closed last file kept extra)
    (whole : file.bytes = segmentBytes (kept ++ extra)) :
    Shape (modify segments last (·.sync)) closed last
      (File.settled (segmentBytes (kept ++ extra))) (kept ++ extra) [] := by
  have fits := shape.fits
  have synced : file.sync = File.settled (segmentBytes (kept ++ extra)) := by
    rw [File.sync, whole]
  rw [← List.append_nil (kept ++ extra)] at fits
  rw [← synced]
  refine shape.updated _ ?_ (Or.inr ?_) fits
  · rw [File.bytes_sync, whole, List.append_nil]
  · rw [synced]
    exact List.prefix_rfl

theorem Shape.loosen (shape : Shape segments closed last file kept extra) {more : List Record}
    (fits : ∀ record ∈ more, Fits record.ops) :
    Shape segments closed last file kept (extra ++ more) where
  entries := shape.entries
  part := by
    rw [← List.append_assoc, segmentBytes_append]
    exact shape.part.trans (List.prefix_append _ _)
  safe := shape.safe
  closedFits := shape.closedFits
  fits := by
    intro record member
    rw [← List.append_assoc, List.mem_append] at member
    exact member.elim (shape.fits record) (fits record)

theorem Shape.readable (shape : Shape segments closed last file kept extra) :
    Readable segments (untag (tagged closed) ++ kept) extra :=
  Or.inr ⟨closed, last, file, kept, extra, shape, List.prefix_rfl, List.prefix_rfl⟩

theorem Readable.weaken {fewer more : List Record} (readable : Readable segments sure maybe)
    (certain : fewer <+: sure) (possible : sure ++ maybe <+: fewer ++ more) :
    Readable segments fewer more := by
  rcases readable with ⟨none, nothing⟩ | ⟨closed, last, file, kept, extra, shape, low, high⟩
  · rw [nothing] at certain
    exact Or.inl ⟨none, List.prefix_nil.mp certain⟩
  · exact Or.inr ⟨closed, last, file, kept, extra, shape, certain.trans low,
      high.trans possible⟩

/-! ### Crashes -/

/-- What a crash leaves of the directory; `kept` and `safe` say how many of each
file's unsynced bytes survive and how many of those are safe from the next one. -/
def crash (segments : Segments) (kept safe : Nat → Nat) : Segments where
  entries := segments.entries.map
    (fun entry => (entry.1, entry.2.crash (kept entry.1) (safe entry.1)))
  sorted := by
    rw [List.pairwise_map]
    exact segments.sorted

theorem Readable.crash (readable : Readable segments sure maybe) (survive safe : Nat → Nat) :
    Readable (crash segments survive safe) sure maybe := by
  rcases readable with ⟨none, nothing⟩ | ⟨closed, last, file, kept, extra, shape, low, high⟩
  · refine Or.inl ⟨?_, nothing⟩
    simp [Wal.crash, none]
  · refine Or.inr ⟨closed, last, file.crash (survive last) (safe last), kept, extra, ?_, low, high⟩
    constructor
    · simp [Wal.crash, shape.entries, closedFiles]
    · exact (File.bytes_crash _ _).trans shape.part
    · exact shape.safe.imp_right (fun there => there.trans (File.synced_crash _ _))
    · exact shape.closedFits
    · exact shape.fits

/-! ### Replay -/

def files (segments : Segments) : List (Nat × Bytes) :=
  segments.entries.map (fun entry => (entry.1, entry.2.bytes))

def Replays (segments : Segments) (entries : List (Nat × Record)) (ending : Option Nat) : Prop :=
  ∀ (Collected : Type) (sink : Collected → Nat → Record → Except Failure Collected)
    (collected : Collected), replay sink (files segments) collected = (do
      let collected ← entries.foldlM (fun collected entry => sink collected entry.1 entry.2)
        collected
      return (collected, ending))

theorem Shape.replays (shape : Shape segments closed last file kept extra)
    {whole : List Record} {ending : Option Nat} (reads : Reads file.bytes whole ending)
    (inside : whole <+: kept ++ extra) :
    Replays segments (tagged closed ++ tag last whole) ending := by
  intro Collected sink collected
  have fits : ∀ record ∈ whole, Fits record.ops :=
    fun record member => shape.fits record (inside.subset member)
  have closedFits : ∀ segment ∈ closed, ∀ record ∈ segment.2, Fits record.ops := by
    intro segment member record inSegment
    apply shape.closedFits (segment.1, record)
    exact List.mem_flatMap.mpr ⟨segment, member, List.mem_map_of_mem inSegment⟩
  have listing : files segments =
      closed.map (fun segment => (segment.1, segmentBytes segment.2)) ++ [(last, file.bytes)] := by
    simp [files, shape.entries, closedFiles]
  rw [replay_eq, listing, readLog_append closed _ closedFits,
    readLog_last (readSegment_reads reads fits)]
  rfl

theorem Shape.exists_reads (shape : Shape segments closed last file kept extra) :
    ∃ whole ending, Reads file.bytes whole ending ∧ kept <+: whole ∧ whole <+: kept ++ extra := by
  obtain ⟨whole, ending, inside, reads⟩ := Wal.exists_reads shape.part shape.fits
  refine ⟨whole, ending, reads, ?_, inside⟩
  rcases shape.safe with none | there
  · rw [none]
    exact List.nil_prefix
  · exact reads.contains (there.trans File.synced_isPrefix) inside (List.prefix_append _ _)
      shape.fits

end Shape

end Keystory.Wal
