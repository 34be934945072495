/-
Damage to a checkpoint file, or to the header of a segment, is seen as damage:
never as valid data and never as another version of the format.
-/

import Keystory.Checkpoint.Files
import Keystory.Wal.Damage

namespace Keystory.Checkpoint

open General

theorem length_fileBytes (snapshot : Snapshot) :
    (fileBytes snapshot).length = (bodyBytes snapshot).length + 4 := by
  rw [fileBytes, List.length_append, length_toLe]

theorem decode_burst {snapshot : Snapshot} {damaged : Bytes}
    (burst : Burst (fileBytes snapshot) damaged) :
    ∃ text, decode damaged = .error (.invalidData text) := by
  have width : damaged.length = (bodyBytes snapshot).length + 4 := by
    rw [burst.length_eq, length_fileBytes]
  have long : ¬ damaged.length < magic.length + 4 + 4 := by
    rw [width, bodyBytes]
    simp only [List.length_append, length_toLe]
    omega
  have split : Burst (bodyBytes snapshot ++ toLe 4 (crc32 (bodyBytes snapshot)).toNat)
      (damaged.take (damaged.length - 4) ++ damaged.drop (damaged.length - 4)) := by
    rw [List.take_append_drop]
    exact burst
  have mismatch : (crc32 (damaged.take (damaged.length - 4))).toNat ≠
      ofLe (damaged.drop (damaged.length - 4)) := by
    refine split.crc32_ne (length_toLe _ _) ?_ (ofLe_toLe_u32 _).symm
    rw [List.length_drop]
    omega
  unfold decode
  rw [if_neg long]
  by_cases start : damaged.take 4 ≠ magic
  · rw [if_pos start]
    exact ⟨_, rfl⟩
  · rw [if_neg start]
    dsimp only
    rw [if_pos mismatch]
    exact ⟨_, rfl⟩

theorem load_of_damaged {files : SnapFiles} {file : File UInt8} {previous : Snapshot}
    {text : String} (latest : files.latest = some file)
    (damaged : decode file.bytes = .error (.invalidData text))
    (usable : loadFile snapshotPrev files.prev = .ok (some previous)) :
    load files = .ok ⟨some previous, true⟩ := by
  have refused : loadFile snapshotName files.latest =
      .error ((Failure.invalidData text).within snapshotName) := by
    rw [latest, loadFile, damaged]
  have kind : ((Failure.invalidData text).within snapshotName).kind = .invalidData := rfl
  rw [load, refused]
  dsimp only
  rw [if_pos kind, usable]
  rfl

/-- The file a checkpoint streams, and the header of a segment, survive no burst: it is
damage in the checkpoint, which falls back, and damage or an unborn segment in the log. -/
theorem burst_is_damage {snapshot : Snapshot}
    (lengths : ∀ entry ∈ snapshot.data.entries,
      entry.1.length < 256 ^ 4 ∧ entry.2.value.length < 256 ^ 4) :
    (∃ chunks, writeBody snapshot = (chunks, .ok ()) ∧
      ∀ damaged, Burst (chunks.flatten ++
          toLe 4 (chunks.foldl Crc.update Crc.new).finish.toNat) damaged →
        (∃ text, decode damaged = .error (.invalidData text)) ∧
        ∀ (files : SnapFiles) (file : File UInt8) (previous : Snapshot),
          files.latest = some file → file.bytes = damaged →
          loadFile snapshotPrev files.prev = .ok (some previous) →
            load files = .ok ⟨some previous, true⟩) ∧
      ∀ header, Burst Wal.segmentHeader header → ∀ path rest, ∃ text,
        ∀ {Collected : Type} (sink : Collected → Wal.Record → Except Failure Collected)
          (collected : Collected),
          Wal.scanSegment path sink (header ++ rest) collected =
            if rest = [] then .ok (collected, some 0) else .error (.invalidData text) := by
  constructor
  · obtain ⟨chunks, streamed, file⟩ := writeBody_eq lengths
    refine ⟨chunks, streamed, ?_⟩
    intro damaged burst
    rw [file] at burst
    obtain ⟨text, refused⟩ := decode_burst burst
    refine ⟨⟨text, refused⟩, ?_⟩
    rintro files file previous latest rfl usable
    exact load_of_damaged latest refused usable
  · exact fun header burst path rest => Wal.scanSegment_header_burst burst path rest

def oneEntry : Snapshot := ⟨1, SortedMap.empty.insert [107] ⟨[118], 1⟩⟩

theorem burst_is_damage_oneEntry :
    ∃ chunks, writeBody oneEntry = (chunks, .ok ()) ∧
      ∀ damaged, Burst (chunks.flatten ++
          toLe 4 (chunks.foldl Crc.update Crc.new).finish.toNat) damaged →
        ∃ text, decode damaged = .error (.invalidData text) := by
  have lengths : ∀ entry ∈ oneEntry.data.entries,
      entry.1.length < 256 ^ 4 ∧ entry.2.value.length < 256 ^ 4 := by decide
  obtain ⟨chunks, streamed, refused⟩ := (burst_is_damage lengths).1
  exact ⟨chunks, streamed, fun damaged burst => (refused damaged burst).1⟩

end Keystory.Checkpoint
