/-
The blob log as bytes: its records, the scan that ends at the first torn or
corrupt one, the positioned read of one blob, and what a log that was appended
to and cut short reads back as. Ids only grow along a log; a fence carries the id
counter across a compaction.
-/

import Keystory.General.BigEndian
import Keystory.General.Frames
import Keystory.General.Steps
import Keystory.Storage.Crc

namespace Keystory.ValueStore

open General

def recHdr : Nat := 16

def recTrail : Nat := 4

/-- The reserved id of a fence record, `u64::MAX`. -/
def fenceId : Nat := 18446744073709551615

structure LogRecord where
  id : Nat
  payload : Bytes
deriving DecidableEq, Repr

def writeRecord (id : Nat) (payload : Bytes) : Bytes :=
  let hdr := toBe 8 id
  let lenb := toBe 8 payload.length
  let crc := ((Crc.new.update hdr).update lenb).update payload
  hdr ++ lenb ++ payload ++ toBe 4 crc.finish.toNat

def checkedAdd (left right : Nat) : Option Nat :=
  if left + right < 18446744073709551616 then some (left + right) else none

/-- What the scan hands to its sink. -/
structure Found where
  id : Nat
  offset : Nat
  payload : Bytes
deriving DecidableEq, Repr

/-- The loop of `scan_records`, at a position with the rest of the file. A record is at least
one byte long, so the file's length bounds the number of turns. -/
def scanFrom (fileLen : Nat) : (fuel pos : Nat) → Bytes → List Found × Nat
  | 0, pos, _ => ([], pos)
  | fuel + 1, pos, rest =>
      if pos + (recHdr + recTrail) > fileLen then ([], pos)
      else
        let hdr := rest.take recHdr
        let id := ofBe (hdr.take 8)
        let len := ofBe (hdr.drop 8)
        match (checkedAdd len (recHdr + recTrail)).bind (checkedAdd pos) with
        | none => ([], pos)
        | some next =>
            if next > fileLen then ([], pos)
            else
              let payload := (rest.drop recHdr).take len
              let crcb := (rest.drop (recHdr + len)).take recTrail
              let crc := (Crc.new.update hdr).update payload
              if crc.finish.toNat ≠ ofBe crcb then ([], pos)
              else
                let (found, stop) := scanFrom fileLen fuel next (rest.drop (next - pos))
                (⟨id, pos, payload⟩ :: found, stop)

/-- The intact records of a log in order, and the offset where they end. -/
def scanRecords (bytes : Bytes) : List Found × Nat :=
  scanFrom bytes.length bytes.length 0 bytes

/-- `read_or_eof` on what is left of the file from the read position. -/
def readOrEof (rest : Bytes) (count : Nat) : Option (Bytes × Bytes) :=
  if rest.length < count then none else some (rest.take count, rest.drop count)

/-- The positioned read of `get`: the blob `id` of length `len` at an offset. -/
def readBlob (bytes : Bytes) (id offset len : Nat) : Option Bytes := do
  let (hdr, rest) ← readOrEof (bytes.drop offset) recHdr
  let diskId := ofBe (hdr.take 8)
  let diskLen := ofBe (hdr.drop 8)
  if diskId ≠ id ∨ diskLen ≠ len then none
  else
    let (payload, rest) ← readOrEof rest len
    let (crcb, _) ← readOrEof rest recTrail
    let crc := (Crc.new.update hdr).update payload
    if crc.finish.toNat ≠ ofBe crcb then none else some payload

/-! ### One record -/

def LogRecord.bytes (record : LogRecord) : Bytes := writeRecord record.id record.payload

/-- Ids and lengths have 64 bits. -/
structure LogRecord.Fits (record : LogRecord) : Prop where
  id : record.id < 256 ^ 8
  payload : record.payload.length < 256 ^ 8

theorem length_writeRecord (id : Nat) (payload : Bytes) :
    (writeRecord id payload).length = recHdr + payload.length + recTrail := by
  simp only [writeRecord, List.length_append, length_toBe, recHdr, recTrail]

theorem LogRecord.bytes_ne_nil (record : LogRecord) : record.bytes ≠ [] := by
  intro empty
  have length := length_writeRecord record.id record.payload
  rw [← LogRecord.bytes, empty, recHdr, recTrail, List.length_nil] at length
  omega

section Layout

variable {record : LogRecord}

theorem LogRecord.bytes_eq (record : LogRecord) :
    ∃ hdr crcb, record.bytes = hdr ++ record.payload ++ crcb ∧ hdr.length = recHdr ∧
      crcb.length = recTrail ∧ hdr.take 8 = toBe 8 record.id ∧
      hdr.drop 8 = toBe 8 record.payload.length ∧
      ((Crc.new.update hdr).update record.payload).finish.toNat = ofBe crcb := by
  refine ⟨toBe 8 record.id ++ toBe 8 record.payload.length, _, rfl, ?_, ?_, ?_, ?_, ?_⟩
  · simp [recHdr]
  · simp [recTrail]
  · exact List.take_left' (length_toBe 8 record.id)
  · exact List.drop_left' (length_toBe 8 record.id)
  · rw [Crc.update_append, ofBe_toBe (UInt32.toNat_lt _)]

theorem readBlob_of_isPrefix (fits : record.Fits) {bytes : Bytes} {offset : Nat}
    (there : record.bytes <+: bytes.drop offset) :
    readBlob bytes record.id offset record.payload.length = some record.payload := by
  obtain ⟨later, same⟩ := there
  obtain ⟨hdr, crcb, layout, hdrLength, crcLength, idField, lenField, checksum⟩ := record.bytes_eq
  have first : readOrEof (bytes.drop offset) recHdr =
      some (hdr, record.payload ++ (crcb ++ later)) := by
    rw [← same, layout, readOrEof, if_neg (by simp [hdrLength]), List.append_assoc,
      List.append_assoc, List.take_left' hdrLength, List.drop_left' hdrLength]
  have second : readOrEof (record.payload ++ (crcb ++ later)) record.payload.length =
      some (record.payload, crcb ++ later) := by
    rw [readOrEof, if_neg (by simp), List.take_left, List.drop_left]
  have third : readOrEof (crcb ++ later) recTrail = some (crcb, later) := by
    rw [readOrEof, if_neg (by simp [crcLength]), List.take_left' crcLength,
      List.drop_left' crcLength]
  simp [readBlob, first, idField, lenField, ofBe_toBe fits.id, ofBe_toBe fits.payload, second,
    third, checksum]

theorem scanFrom_record (fits : record.Fits) {fileLen fuel pos : Nat} {later : Bytes}
    (size : fileLen = pos + (record.bytes ++ later).length) (small : fileLen < 256 ^ 8) :
    scanFrom fileLen (fuel + 1) pos (record.bytes ++ later) =
      (⟨record.id, pos, record.payload⟩ ::
          (scanFrom fileLen fuel (pos + record.bytes.length) later).1,
        (scanFrom fileLen fuel (pos + record.bytes.length) later).2) := by
  obtain ⟨hdr, crcb, layout, hdrLength, crcLength, idField, lenField, checksum⟩ := record.bytes_eq
  have total : record.bytes.length = record.payload.length + (recHdr + recTrail) := by
    rw [LogRecord.bytes, length_writeRecord]
    omega
  have hdrTaken : (record.bytes ++ later).take recHdr = hdr := by
    rw [layout, List.append_assoc, List.append_assoc, List.take_left' hdrLength]
  have payloadTaken : ((record.bytes ++ later).drop recHdr).take record.payload.length =
      record.payload := by
    rw [layout, List.append_assoc, List.append_assoc, List.drop_left' hdrLength, List.take_left]
  have crcTaken : ((record.bytes ++ later).drop (recHdr + record.payload.length)).take recTrail =
      crcb := by
    rw [layout, List.append_assoc, List.drop_left' (by simp [hdrLength]),
      List.take_left' crcLength]
  have next : (checkedAdd record.payload.length (recHdr + recTrail)).bind (checkedAdd pos) =
      some (pos + record.bytes.length) := by
    rw [List.length_append] at size
    rw [checkedAdd, if_pos (by omega), Option.bind_some, checkedAdd, if_pos (by omega), total]
  have room : ¬ pos + (recHdr + recTrail) > fileLen := by
    rw [size, List.length_append]
    omega
  have within : ¬ pos + record.bytes.length > fileLen := by
    rw [size, List.length_append]
    omega
  rw [scanFrom, if_neg room]
  simp only [hdrTaken, idField, lenField, ofBe_toBe fits.id, ofBe_toBe fits.payload, next,
    if_neg within, payloadTaken, crcTaken, checksum, ne_eq, not_true_eq_false, if_false,
    Nat.add_sub_cancel_left, List.drop_left]

def Torn (torn : Bytes) : Prop :=
  ∃ record : LogRecord, record.Fits ∧ torn <+: record.bytes ∧ torn ≠ record.bytes

theorem scanFrom_torn {torn : Bytes} (cut : Torn torn) (fileLen fuel pos : Nat)
    (size : fileLen = pos + torn.length) : scanFrom fileLen fuel pos torn = ([], pos) := by
  cases fuel with
  | zero => rfl
  | succ fuel =>
      obtain ⟨record, fits, start, different⟩ := cut
      have shorter : torn.length < record.bytes.length :=
        Nat.lt_of_le_of_ne start.length_le (fun same => different (start.eq_of_length same))
      obtain ⟨hdr, crcb, layout, hdrLength, _, _, lenField, _⟩ := record.bytes_eq
      rw [LogRecord.bytes, length_writeRecord] at shorter
      rw [scanFrom]
      by_cases room : pos + (recHdr + recTrail) > fileLen
      · rw [if_pos room]
      · have hdrTaken : torn.take recHdr = hdr := by
          have long : recHdr ≤ torn.length := by omega
          obtain ⟨rest, whole⟩ := start
          rw [← List.take_append_of_le_length long, whole, layout, List.append_assoc,
            List.take_left' hdrLength]
        rw [if_neg room]
        simp only [hdrTaken, lenField, ofBe_toBe fits.payload]
        split
        · rfl
        · rename_i next added
          obtain ⟨total, first, second⟩ := Option.bind_eq_some_iff.mp added
          have beyond : next > fileLen := by
            unfold checkedAdd at first second
            split at first <;> split at second <;> simp at first second
            omega
          rw [if_pos beyond]

end Layout

/-! ### A log -/

def image (records : List LogRecord) : Bytes := records.flatMap LogRecord.bytes

def located (pos : Nat) : List LogRecord → List Found
  | [] => []
  | record :: records =>
      ⟨record.id, pos, record.payload⟩ :: located (pos + record.bytes.length) records

@[simp] theorem image_nil : image [] = [] := rfl

@[simp] theorem image_cons (record : LogRecord) (records : List LogRecord) :
    image (record :: records) = record.bytes ++ image records := rfl

@[simp] theorem image_append (first second : List LogRecord) :
    image (first ++ second) = image first ++ image second :=
  List.flatMap_append

theorem located_append (pos : Nat) (first second : List LogRecord) :
    located pos (first ++ second) =
      located pos first ++ located (pos + (image first).length) second := by
  induction first generalizing pos with
  | nil => rfl
  | cons record first ih =>
      simp [located, ih, Nat.add_assoc]

theorem length_le_image (records : List LogRecord) : records.length ≤ (image records).length := by
  induction records with
  | nil => exact Nat.le_refl 0
  | cons record records ih =>
      have positive := List.length_pos_iff.mpr record.bytes_ne_nil
      rw [image_cons, List.length_append, List.length_cons]
      omega

theorem scanFrom_image {records : List LogRecord} {torn : Bytes} (cut : Torn torn)
    (fits : ∀ record ∈ records, record.Fits) {fileLen fuel pos : Nat}
    (size : fileLen = pos + (image records ++ torn).length) (small : fileLen < 256 ^ 8)
    (enough : records.length ≤ fuel) :
    scanFrom fileLen fuel pos (image records ++ torn) =
      (located pos records, pos + (image records).length) := by
  induction records generalizing fuel pos with
  | nil => exact scanFrom_torn cut fileLen fuel pos size
  | cons record records ih =>
      obtain ⟨fuel, rfl⟩ := Nat.exists_eq_add_one_of_ne_zero
        (show fuel ≠ 0 by rintro rfl; exact absurd enough (by simp))
      have split : image (record :: records) ++ torn =
          record.bytes ++ (image records ++ torn) := by
        simp
      rw [split] at size ⊢
      rw [scanFrom_record (fits record List.mem_cons_self) size small]
      rw [List.length_append] at size
      rw [ih (fun other member => fits other (List.mem_cons_of_mem record member))
        (by omega) (Nat.le_of_succ_le_succ enough)]
      simp [located, Nat.add_assoc]

/-- These bytes are a log of these records, with at most a torn one behind them. -/
structure Holds (bytes : Bytes) (records : List LogRecord) : Prop where
  small : bytes.length < 256 ^ 8
  fits : ∀ record ∈ records, record.Fits
  layout : ∃ torn, Torn torn ∧ bytes = image records ++ torn

theorem Torn.nil : Torn [] :=
  ⟨⟨0, []⟩, ⟨by decide, by decide⟩, List.nil_prefix, (LogRecord.bytes_ne_nil _).symm⟩

theorem Holds.scan {bytes : Bytes} {records : List LogRecord} (holds : Holds bytes records) :
    scanRecords bytes = (located 0 records, (image records).length) := by
  obtain ⟨torn, cut, rfl⟩ := holds.layout
  have enough : records.length ≤ (image records ++ torn).length := by
    have least := length_le_image records
    rw [List.length_append]
    omega
  rw [scanRecords, scanFrom_image cut holds.fits (Nat.zero_add _).symm holds.small enough,
    Nat.zero_add]

theorem Holds.cut {bytes part : Bytes} {records sure : List LogRecord}
    (holds : Holds bytes records) (start : part <+: bytes) (certain : sure <+: records)
    (covered : image sure <+: part) :
    ∃ kept, Holds part kept ∧ sure <+: kept ∧ kept <+: records := by
  obtain ⟨torn, ⟨next, nextFits, partly, different⟩, rfl⟩ := holds.layout
  have fits : ∀ record ∈ records ++ [next], record.Fits := by
    intro record member
    rcases List.mem_append.mp member with old | new
    · exact holds.fits record old
    · rw [List.mem_singleton.mp new]
      exact nextFits
  have whole : part <+: (records ++ [next]).flatMap LogRecord.bytes := by
    refine start.trans ?_
    rw [← image, image_append, image_cons, image_nil, List.append_nil]
    exact (List.prefix_append_right_inj _).mpr partly
  obtain ⟨kept, rest, inside, same, cut⟩ := exists_cut LogRecord.bytes whole
  have among : kept <+: records := by
    rcases List.prefix_concat_iff.mp inside with all | among
    · -- then the torn record would be whole
      have longer := start.length_le
      have shorter : torn.length < next.bytes.length :=
        Nat.lt_of_le_of_ne partly.length_le (fun equal => different (partly.eq_of_length equal))
      rw [same, all, ← image, image_append, image_cons, image_nil] at longer
      simp only [List.length_append, List.length_nil] at longer
      omega
    · exact among
  refine ⟨kept, ⟨?_, ?_, rest, ?_, same⟩, ?_, among⟩
  · exact Nat.lt_of_le_of_lt start.length_le holds.small
  · exact fun record member => holds.fits record (among.subset member)
  · rcases cut with rfl | ⟨record, following, short, unequal⟩
    · exact Torn.nil
    · exact ⟨record, fits record (following.subset (by simp)), short, unequal⟩
  · rw [same] at covered
    exact cut.covers LogRecord.bytes_ne_nil inside
      (certain.trans (List.prefix_append _ _)) covered

end Keystory.ValueStore
