/-
The checkpoint decoder with the positions and slices of the source, where a range
that leaves the bytes is a panic. It never is one: the decoder over what is left
to read gives the same result on every input. The format is thereby exact.
-/

import Keystory.Checkpoint.Format

namespace Keystory.Checkpoint

open General

/-! ### Slices and positions -/

/-- The slice between two positions; none is the panic of a range that is out of bounds. -/
def slice (bytes : Bytes) (start stop : Nat) : Option Bytes :=
  if start ≤ stop ∧ stop ≤ bytes.length then some ((bytes.drop start).take (stop - start))
  else none

/-- A difference of lengths; none is the panic of an underflow. -/
def minus (left right : Nat) : Option Nat :=
  if right ≤ left then some (left - right) else none

/-- The table of `build_table` as an array, and the checksum that looks bytes up in it. -/
def crcEntries : List UInt32 := (List.range 256).map (fun index => crcTable (UInt32.ofNat index))

def crcByteIndexed (crc : UInt32) (byte : UInt8) : Option UInt32 := do
  let entry ← crcEntries[((crc ^^^ byte.toUInt32) &&& 0xFF).toNat]?
  return (crc >>> 8) ^^^ entry

def crc32Indexed (data : Bytes) : Option UInt32 := do
  let crc ← data.foldlM crcByteIndexed 0xFFFFFFFF
  return ~~~ crc

/-- Code that may fail with an error, and panics where the option is none. -/
abbrev Checked := ExceptT Failure Option

def readAt (body : Bytes) (count : Nat) (what : String) (pos : Nat) : Checked (Bytes × Nat) := do
  if pos + count > body.length then throw (.invalidData what)
  else
    let chunk ← slice body pos (pos + count)
    return (chunk, pos + count)

def readLeAt (body : Bytes) (width : Nat) (what : String) (pos : Nat) : Checked (Nat × Nat) := do
  let (chunk, pos) ← readAt body width what pos
  return (ofLe chunk, pos)

def decodeEntryAt (body : Bytes) (pos : Nat) : Checked ((Bytes × Entry) × Nat) := do
  let (keyLen, pos) ← readLeAt body 4 "corrupt entry: short key length" pos
  let (key, pos) ← readAt body keyLen "corrupt entry: short key body" pos
  let (valueLen, pos) ← readLeAt body 4 "corrupt entry: short value length" pos
  let (value, pos) ← readAt body valueLen "corrupt entry: short value body" pos
  let (version, pos) ← readLeAt body 8 "corrupt entry: short version" pos
  return ((key, ⟨value, version⟩), pos)

def decodeEntriesAt (body : Bytes) : Nat → Nat → Map → Checked (Map × Nat)
  | 0, pos, data => return (data, pos)
  | count + 1, pos, data => do
      let ((key, entry), pos) ← decodeEntryAt body pos
      if (data.find? key).isSome then throw (.invalidData "corrupt entry: duplicate key")
      else decodeEntriesAt body count pos (data.insert key entry)

def decodeBodyIndexed (bytes body : Bytes) : Checked Snapshot := do
  let index := ofLe (← slice bytes 8 16)
  let count := ofLe (← slice bytes 16 24)
  let room ← minus body.length headerLen
  if count > room / minEntryLen then
    throw (.invalidData s!"entry count {count} exceeds what the body can hold")
  else
    let (data, pos) ← decodeEntriesAt body count headerLen SortedMap.empty
    if pos ≠ body.length then
      let left ← minus body.length pos
      throw (.invalidData s!"{left} trailing bytes after the last entry")
    else return ⟨index, data⟩

def decodeIndexed (bytes : Bytes) : Checked Snapshot := do
  if bytes.length < magic.length + 4 + 4 then
    throw (.invalidData "too short to be a keystory checkpoint")
  else if (← slice bytes 0 4) ≠ magic then
    throw (.invalidData "bad magic: not a keystory checkpoint")
  else
    let stored := ofLe (← slice bytes (← minus bytes.length 4) bytes.length)
    let body ← slice bytes 0 (← minus bytes.length 4)
    if (← crc32Indexed body).toNat ≠ stored then
      throw (.invalidData "crc mismatch: truncated or corrupt checkpoint")
    else
      let version := ofLe (← slice bytes 4 8)
      if version ≠ format then
        throw (.unsupported
          s!"checkpoint format version {version}; this build reads version {format}")
      else if bytes.length < headerLen + 4 then
        throw (.invalidData "snapshot too short for header + crc")
      else decodeBodyIndexed bytes body

theorem slice_eq_some {bytes : Bytes} {start stop : Nat} (order : start ≤ stop)
    (bound : stop ≤ bytes.length) :
    slice bytes start stop = some ((bytes.drop start).take (stop - start)) :=
  if_pos ⟨order, bound⟩

theorem minus_eq_some {left right : Nat} (order : right ≤ left) :
    minus left right = some (left - right) :=
  if_pos order

theorem crcByteIndexed_eq (crc : UInt32) (byte : UInt8) :
    crcByteIndexed crc byte = some (crcByte crc byte) := by
  have bound : ((crc ^^^ byte.toUInt32) &&& 0xFF).toNat < 256 := by
    rw [UInt32.toNat_and]
    exact Nat.lt_succ_of_le Nat.and_le_right
  have entry : crcEntries[((crc ^^^ byte.toUInt32) &&& 0xFF).toNat]? =
      some (crcTable ((crc ^^^ byte.toUInt32) &&& 0xFF)) := by
    unfold crcEntries
    rw [List.getElem?_map, List.getElem?_range bound, Option.map_some, UInt32.ofNat_toNat]
  unfold crcByteIndexed
  rw [entry]
  rfl

theorem crc32Indexed_eq (data : Bytes) : crc32Indexed data = some (crc32 data) := by
  have folded : ∀ crc, data.foldlM crcByteIndexed crc = some (data.foldl crcByte crc) := by
    induction data with
    | nil => exact fun crc => rfl
    | cons byte data ih =>
        intro crc
        rw [List.foldlM_cons, crcByteIndexed_eq, List.foldl_cons]
        exact ih _
  unfold crc32Indexed crc32
  rw [folded]
  rfl

/-! ### Positions as what is left to read -/

/-- A read by positions that agrees with one over the rest of the bytes: the same
error, or the same value with the position where the rest begins. -/
inductive Agrees {Value : Type} (body : Bytes) :
    Checked (Value × Nat) → Except Failure (Value × Bytes) → Prop where
  | ok (value : Value) {pos : Nat} (bound : pos ≤ body.length) :
      Agrees body (pure (value, pos)) (.ok (value, body.drop pos))
  | error (failure : Failure) : Agrees body (throw failure) (.error failure)

section Agreement

variable {Value Next : Type} {body : Bytes}

theorem Agrees.bind {read : Checked (Value × Nat)} {taken : Except Failure (Value × Bytes)}
    {next : Value × Nat → Checked (Next × Nat)}
    {later : Value × Bytes → Except Failure (Next × Bytes)} (first : Agrees body read taken)
    (rest : ∀ value pos, pos ≤ body.length →
      Agrees body (next (value, pos)) (later (value, body.drop pos))) :
    Agrees body (read >>= next) (taken >>= later) := by
  cases first with
  | ok value bound => exact rest value _ bound
  | error failure => exact Agrees.error failure

theorem agrees_readAt (count : Nat) (what : String) {pos : Nat} (bound : pos ≤ body.length) :
    Agrees body (readAt body count what pos) (takeBytes count what (body.drop pos)) := by
  unfold readAt takeBytes
  by_cases short : pos + count > body.length
  · have few : (body.drop pos).length < count := by
      rw [List.length_drop]
      omega
    rw [if_pos short, if_pos few]
    exact Agrees.error _
  · have enough : ¬ (body.drop pos).length < count := by
      rw [List.length_drop]
      omega
    rw [if_neg short, if_neg enough, List.drop_drop,
      slice_eq_some (Nat.le_add_right pos count) (Nat.not_lt.mp short), Nat.add_sub_cancel_left]
    exact Agrees.ok _ (Nat.not_lt.mp short)

theorem agrees_readLeAt (width : Nat) (what : String) {pos : Nat} (bound : pos ≤ body.length) :
    Agrees body (readLeAt body width what pos) (takeLe width what (body.drop pos)) :=
  (agrees_readAt width what bound).bind (fun chunk _ within => Agrees.ok (ofLe chunk) within)

theorem agrees_decodeEntryAt {pos : Nat} (bound : pos ≤ body.length) :
    Agrees body (decodeEntryAt body pos) (decodeEntry (body.drop pos)) := by
  refine (agrees_readLeAt 4 _ bound).bind (fun keyLen pos bound => ?_)
  refine (agrees_readAt keyLen _ bound).bind (fun key pos bound => ?_)
  refine (agrees_readLeAt 4 _ bound).bind (fun valueLen pos bound => ?_)
  refine (agrees_readAt valueLen _ bound).bind (fun value pos bound => ?_)
  exact (agrees_readLeAt 8 _ bound).bind (fun version pos bound => Agrees.ok _ bound)

theorem agrees_decodeEntriesAt (count : Nat) (data : Map) {pos : Nat}
    (bound : pos ≤ body.length) :
    Agrees body (decodeEntriesAt body count pos data)
      (decodeEntries count (body.drop pos) data) := by
  induction count generalizing pos data with
  | zero => exact Agrees.ok data bound
  | succ count ih =>
      refine (agrees_decodeEntryAt bound).bind (fun entry pos bound => ?_)
      dsimp only
      split
      · exact Agrees.error _
      · exact ih _ bound

end Agreement

/-! ### The whole decoder -/

theorem checked_bind_some {Value Next : Type} (value : Value) (next : Value → Checked Next) :
    ((liftM (some value) : Checked Value) >>= next) = next value := rfl

theorem Agrees.run_bind {Value Result : Type} {body : Bytes} {read : Checked (Value × Nat)}
    {taken : Except Failure (Value × Bytes)} {next : Value × Nat → Checked Result}
    {later : Value × Bytes → Except Failure Result} (agrees : Agrees body read taken)
    (rest : ∀ value pos, pos ≤ body.length →
      (next (value, pos)).run = some (later (value, body.drop pos))) :
    (read >>= next).run = some (taken >>= later) := by
  cases agrees with
  | ok value bound => exact rest value _ bound
  | error failure => rfl

theorem decodeBodyIndexed_eq {bytes : Bytes} (room : headerLen + 4 ≤ bytes.length) :
    (decodeBodyIndexed bytes (bytes.take (bytes.length - 4))).run =
      some (decodeBody (bytes.take (bytes.length - 4))) := by
  have bodyLength : (bytes.take (bytes.length - 4)).length = bytes.length - 4 := by
    rw [List.length_take]
    omega
  unfold headerLen at room
  have index : slice bytes 8 16 = some (((bytes.take (bytes.length - 4)).drop 8).take 8) := by
    rw [slice_eq_some (by decide) (by omega), List.drop_take, List.take_take,
      show min 8 (bytes.length - 4 - 8) = 8 by omega]
  have count : slice bytes 16 24 = some (((bytes.take (bytes.length - 4)).drop 16).take 8) := by
    rw [slice_eq_some (by decide) (by omega), List.drop_take, List.take_take,
      show min 8 (bytes.length - 4 - 16) = 8 by omega]
  generalize bytes.take (bytes.length - 4) = body at *
  have within : headerLen ≤ body.length := by
    unfold headerLen
    omega
  unfold decodeBodyIndexed decodeBody
  simp only [index, count, minus_eq_some within, checked_bind_some]
  split
  · rfl
  · refine (agrees_decodeEntriesAt _ _ within).run_bind (fun data pos bound => ?_)
    dsimp only
    have left : (body.drop pos).length = body.length - pos := List.length_drop
    by_cases trailing : pos ≠ body.length
    · rw [if_pos trailing, if_pos (by omega), left, minus_eq_some bound]
      rfl
    · rw [if_neg trailing, if_neg (by omega)]
      rfl

/-- No range of the decoder leaves the bytes, and no difference of lengths underflows. -/
theorem decodeIndexed_eq (bytes : Bytes) : (decodeIndexed bytes).run = some (decode bytes) := by
  unfold decodeIndexed decode
  by_cases short : bytes.length < magic.length + 4 + 4
  · rw [if_pos short, if_pos short]
    rfl
  · have long : 12 ≤ bytes.length := Nat.not_lt.mp short
    have start : slice bytes 0 4 = some (bytes.take 4) := slice_eq_some (by decide) (by omega)
    have crc : slice bytes (bytes.length - 4) bytes.length =
        some (bytes.drop (bytes.length - 4)) := by
      rw [slice_eq_some (Nat.sub_le _ _) (Nat.le_refl _), List.take_of_length_le]
      rw [List.length_drop]
    have body : slice bytes 0 (bytes.length - 4) = some (bytes.take (bytes.length - 4)) :=
      slice_eq_some (Nat.zero_le _) (Nat.sub_le _ _)
    have version : slice bytes 4 8 = some ((bytes.drop 4).take 4) :=
      slice_eq_some (by decide) (by omega)
    have four : minus bytes.length 4 = some (bytes.length - 4) := minus_eq_some (by omega)
    rw [if_neg short, if_neg short]
    simp only [start, four, crc, body, version, crc32Indexed_eq, checked_bind_some]
    split_ifs with otherMagic damaged otherVersion shortHeader
    · rfl
    · rfl
    · rfl
    · rfl
    · exact decodeBodyIndexed_eq (Nat.not_lt.mp shortHeader)

/-- The decoder accepts exactly its format and inverts the streaming writer, and
no input makes it index out of bounds. -/
theorem decode_exact :
    (∀ (bytes : Bytes) (snapshot : Snapshot), decode bytes = .ok snapshot ↔
      Fits snapshot ∧ ∃ listing, listing.Perm snapshot.data.entries ∧
        bytes = layout snapshot.index listing ++
          toLe 4 (crc32 (layout snapshot.index listing)).toNat) ∧
    (∀ snapshot, Fits snapshot → ∃ chunks, writeBody snapshot = (chunks, .ok ()) ∧
      decode (chunks.flatten ++ toLe 4 (chunks.foldl Crc.update Crc.new).finish.toNat) =
        .ok snapshot) ∧
    ∀ bytes, (decodeIndexed bytes).run = some (decode bytes) := by
  refine ⟨fun _ _ => decode_eq_ok_iff, fun snapshot fits => ?_, decodeIndexed_eq⟩
  obtain ⟨chunks, written, file⟩ := writeBody_eq fits.lengths
  refine ⟨chunks, written, ?_⟩
  rw [file]
  exact decode_fileBytes fits

/-- Two entries, with the later key first in the file. -/
theorem decode_exact_reversed :
    let snapshot : Snapshot :=
      ⟨2, (SortedMap.empty.insert [1] ⟨[7], 1⟩).insert [2] ⟨[8], 2⟩⟩
    let body := layout 2 snapshot.data.entries.reverse
    Fits snapshot ∧ decode (body ++ toLe 4 (crc32 body).toNat) = .ok snapshot := by
  intro snapshot body
  have fits : Fits snapshot := by
    refine ⟨by decide, by decide, ?_⟩
    unfold EntryFits
    decide
  exact ⟨fits, (decode_exact.1 _ _).mpr ⟨fits, _, List.reverse_perm _, rfl⟩⟩

end Keystory.Checkpoint
