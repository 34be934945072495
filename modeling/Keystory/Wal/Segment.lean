/-
Segment files: the header, the framing of records, the scan that tells intact
records from a torn tail, and the replay of a list of segments.
-/

import Keystory.General.Frames
import Keystory.Wal.Codec

namespace Keystory.Wal

open General

def segmentMagic : Bytes := [75, 83, 87, 76]

def segmentVersion : Nat := 1

def headerLen : Nat := 12

def headerFor (version : Nat) : Bytes :=
  let start := segmentMagic ++ toLe 4 version
  start ++ toLe 4 (crc32 start).toNat

def segmentHeader : Bytes := headerFor segmentVersion

/-- The file name of a segment; the directory it is in is left out. -/
def segmentPath (seq : Nat) : String :=
  let digits := toString seq
  "wal-".pushn '0' (10 - digits.length) ++ digits ++ ".log"

def frame (record : Record) : Bytes :=
  let payload := encodePayload record
  toLe 4 payload.length ++ payload ++ toLe 4 (crc32 payload).toNat

def frames (records : List Record) : Bytes := records.flatMap frame

def segmentBytes (records : List Record) : Bytes := segmentHeader ++ frames records

/-! ### Scanning and replay -/

section Scan

variable {Collected : Type}

/-- The loop of `scan_segment`: `rest` is what lies from `pos` to the end. A round
consumes bytes, so the length of the segment is fuel enough. -/
def scanRecords (path : String) (sink : Collected → Record → Except Failure Collected) :
    Nat → Nat → Bytes → Collected → Except Failure (Collected × Option Nat)
  | 0, pos, rest, collected => .ok (collected, if rest = [] then none else some pos)
  | fuel + 1, pos, rest, collected =>
      if rest.length < 4 then .ok (collected, if rest = [] then none else some pos)
      else
        let payloadLen := ofLe (rest.take 4)
        if payloadLen < minPayload then .ok (collected, some pos)
        else
          let total := 4 + payloadLen + 4
          if rest.length < total then .ok (collected, some pos)
          else
            let payload := (rest.drop 4).take payloadLen
            let stored := ofLe ((rest.drop (4 + payloadLen)).take 4)
            if (crc32 payload).toNat ≠ stored then .ok (collected, some pos)
            else
              match decodePayload payload with
              | .error e =>
                  let why := e.text
                  .error (.invalidData
                    (s!"WAL segment {path} holds a record at byte {pos} whose checksum is valid "
                      ++ s!"but which does not decode ({why}); no torn write produces one, so "
                      ++ "recovery refuses it rather than truncating the log there"))
              | .ok record => do
                  let collected ← sink collected record
                  scanRecords path sink fuel (pos + total) (rest.drop total) collected

/-- Hand each intact record to the sink, and report where a torn tail begins. -/
def scanSegment (path : String) (sink : Collected → Record → Except Failure Collected)
    (bytes : Bytes) (collected : Collected) : Except Failure (Collected × Option Nat) :=
  let len := bytes.length
  -- a creation cut short before its header was durable
  if len < headerLen then .ok (collected, some 0)
  else
    let header := bytes.take headerLen
    let storedCrc := ofLe (header.drop 8)
    if header.take 4 ≠ segmentMagic ∨ (crc32 (header.take 8)).toNat ≠ storedCrc then
      if len = headerLen then .ok (collected, some 0)
      else
        let behind := len - headerLen
        .error (.invalidData
          s!"{path} is not an intact keystory WAL segment: bad header in front of {behind} bytes")
    else
      let version := ofLe ((header.drop 4).take 4)
      if version ≠ segmentVersion then
        .error (.unsupported
          (s!"WAL segment {path} has format version {version}; this build reads version "
            ++ s!"{segmentVersion}"))
      else scanRecords path sink len headerLen (bytes.drop headerLen) collected

def collect (seen : List Record) (record : Record) : Except Failure (List Record) :=
  .ok (seen ++ [record])

/-- Replay segments in append order; a torn tail is legitimate in the last only. -/
def replay (sink : Collected → Nat → Record → Except Failure Collected) :
    List (Nat × Bytes) → Collected → Except Failure (Collected × Option Nat)
  | [], collected => .ok (collected, none)
  | (seq, bytes) :: files, collected => do
      let (collected, torn) ←
        scanSegment (segmentPath seq) (fun collected => sink collected seq) bytes collected
      match torn with
      | none => replay sink files collected
      | some offset =>
          let later := files.length
          if later > 0 then
            let path := segmentPath seq
            .error (.invalidData
              (s!"WAL segment {path} is corrupt at byte {offset} but {later} later segment(s) "
                ++ "exist; refusing to replay past corruption"))
          else .ok (collected, some offset)

end Scan

/-! ### Frames -/

theorem length_segmentHeader : segmentHeader.length = headerLen := by
  simp [segmentHeader, headerFor, segmentMagic, headerLen]

theorem length_frame (record : Record) :
    (frame record).length = 4 + (encodePayload record).length + 4 := by
  simp [frame, Nat.add_assoc]

@[simp] theorem frames_nil : frames [] = [] := rfl

@[simp] theorem frames_cons (record : Record) (records : List Record) :
    frames (record :: records) = frame record ++ frames records := rfl

@[simp] theorem frames_append (first second : List Record) :
    frames (first ++ second) = frames first ++ frames second :=
  List.flatMap_append

theorem segmentBytes_append (first second : List Record) :
    segmentBytes (first ++ second) = segmentBytes first ++ frames second := by
  simp [segmentBytes]

theorem length_encodePayload_lt {record : Record} (fits : Fits record.ops) :
    (encodePayload record).length < 256 ^ 4 := by
  rw [length_encodePayload]
  exact Nat.lt_succ_of_le fits.bound

/-- What is left of an append that was cut short: less than one whole record. -/
def Torn (torn : Bytes) : Prop :=
  ∃ record, Fits record.ops ∧ torn <+: frame record ∧ torn ≠ frame record

/-- A leading part of some records' frames is the frames of the first few of them
and less than one more. -/
theorem exists_cut {records : List Record} {part : Bytes} (start : part <+: frames records)
    (fits : ∀ record ∈ records, Fits record.ops) :
    ∃ whole torn, whole <+: records ∧ part = frames whole ++ torn ∧ (torn = [] ∨ Torn torn) := by
  obtain ⟨whole, torn, inside, same, cut⟩ := General.exists_cut frame start
  refine ⟨whole, torn, inside, same, ?_⟩
  rcases cut with rfl | ⟨record, following, partly, different⟩
  · exact Or.inl rfl
  · have member := following.subset (List.mem_append_right whole List.mem_cons_self)
    exact Or.inr ⟨record, fits record member, partly, different⟩

theorem lengthField_frame {record : Record} (fits : Fits record.ops) :
    ofLe ((frame record).take 4) = (encodePayload record).length := by
  simp [frame, ofLe_toLe (length_encodePayload_lt fits)]

theorem Torn.not_frame {torn : Bytes} {record : Record} (cut : Torn torn)
    (fits : Fits record.ops) : ¬ frame record <+: torn := by
  intro start
  obtain ⟨other, otherFits, inside, different⟩ := cut
  have least : 4 ≤ (frame record).length := by
    rw [length_frame]
    omega
  have sameField : (frame other).take 4 = (frame record).take 4 := by
    obtain ⟨rest, whole⟩ := start.trans inside
    rw [← whole, List.take_append_of_le_length least]
  have sameLength : (frame other).length = (frame record).length := by
    rw [length_frame, length_frame, ← lengthField_frame fits, ← lengthField_frame otherFits,
      sameField]
  have bound := start.length_le
  exact different (inside.eq_of_length (Nat.le_antisymm inside.length_le (by omega)))

end Keystory.Wal
