/-
The checkpoint file: the streamed body with its checksum, and the decoder. The
files that decode to a snapshot are its entries, each once and in any order,
between the header and the checksum; the one the writer streams is among them.
-/

import Keystory.Storage.Crc
import Keystory.Storage.Cursor

namespace Keystory.Checkpoint

open General

def magic : Bytes := [75, 83, 78, 49]

def format : Nat := 1

def headerLen : Nat := 4 + 4 + 8 + 8

def minEntryLen : Nat := 4 + 4 + 8

/-! ### Writing -/

/-- A length as its 32-bit field, refused if it does not fit. -/
def len32 (len : Nat) : Except Failure Bytes :=
  if len ≤ 4294967295 then .ok (toLe 4 len)
  else
    .error (.invalidInput
      s!"a {len}-byte key or value exceeds the checkpoint's u32 framing")

/-- What the body emits for one entry; a length that does not fit ends it there. -/
def entryChunks (key : Bytes) (entry : Entry) : List Bytes × Except Failure Unit :=
  match len32 key.length with
  | .error failure => ([], .error failure)
  | .ok keyLen =>
      match len32 entry.value.length with
      | .error failure => ([keyLen, key], .error failure)
      | .ok valueLen => ([keyLen, key, valueLen, entry.value, toLe 8 entry.version], .ok ())

def entriesChunks : List (Bytes × Entry) → List Bytes × Except Failure Unit
  | [] => ([], .ok ())
  | (key, entry) :: rest =>
      match entryChunks key entry with
      | (chunks, .error failure) => (chunks, .error failure)
      | (chunks, .ok ()) =>
          let (more, outcome) := entriesChunks rest
          (chunks ++ more, outcome)

/-- `write_body`: the chunks it emits, in order, and whether it got to the end. -/
def writeBody (snapshot : Snapshot) : List Bytes × Except Failure Unit :=
  let (entries, outcome) := entriesChunks snapshot.data.entries
  ([magic, toLe 4 format, toLe 8 snapshot.index, toLe 8 snapshot.data.size] ++ entries, outcome)

/-! ### Reading -/

def decodeEntry (cursor : Bytes) : Except Failure ((Bytes × Entry) × Bytes) := do
  let (keyLen, cursor) ← takeLe 4 "corrupt entry: short key length" cursor
  let (key, cursor) ← takeBytes keyLen "corrupt entry: short key body" cursor
  let (valueLen, cursor) ← takeLe 4 "corrupt entry: short value length" cursor
  let (value, cursor) ← takeBytes valueLen "corrupt entry: short value body" cursor
  let (version, cursor) ← takeLe 8 "corrupt entry: short version" cursor
  return ((key, ⟨value, version⟩), cursor)

def decodeEntries : Nat → Bytes → Map → Except Failure (Map × Bytes)
  | 0, cursor, data => return (data, cursor)
  | count + 1, cursor, data => do
      let ((key, entry), cursor) ← decodeEntry cursor
      if (data.find? key).isSome then throw (.invalidData "corrupt entry: duplicate key")
      else decodeEntries count cursor (data.insert key entry)

/-- The part of `decode` after the checks every version shares. -/
def decodeBody (body : Bytes) : Except Failure Snapshot := do
  let index := ofLe ((body.drop 8).take 8)
  let count := ofLe ((body.drop 16).take 8)
  if count > (body.length - headerLen) / minEntryLen then
    throw (.invalidData s!"entry count {count} exceeds what the body can hold")
  else
    let (data, rest) ← decodeEntries count (body.drop headerLen) SortedMap.empty
    if rest.length ≠ 0 then
      let left := rest.length
      throw (.invalidData s!"{left} trailing bytes after the last entry")
    else return ⟨index, data⟩

def decode (bytes : Bytes) : Except Failure Snapshot :=
  if bytes.length < magic.length + 4 + 4 then
    .error (.invalidData "too short to be a keystory checkpoint")
  else if bytes.take 4 ≠ magic then
    .error (.invalidData "bad magic: not a keystory checkpoint")
  else
    let stored := ofLe (bytes.drop (bytes.length - 4))
    let body := bytes.take (bytes.length - 4)
    if (crc32 body).toNat ≠ stored then
      .error (.invalidData "crc mismatch: truncated or corrupt checkpoint")
    else
      let version := ofLe ((bytes.drop 4).take 4)
      if version ≠ format then
        .error (.unsupported
          s!"checkpoint format version {version}; this build reads version {format}")
      else if bytes.length < headerLen + 4 then
        .error (.invalidData "snapshot too short for header + crc")
      else decodeBody body

/-! ### The file of a snapshot decodes to it -/

def EntryFits (entry : Bytes × Entry) : Prop :=
  entry.1.length < 256 ^ 4 ∧ entry.2.value.length < 256 ^ 4 ∧ entry.2.version < 256 ^ 8

structure Fits (snapshot : Snapshot) : Prop where
  index : snapshot.index < 256 ^ 8
  count : snapshot.data.size < 256 ^ 8
  entries : ∀ entry ∈ snapshot.data.entries, EntryFits entry

def entryBytes (entry : Bytes × Entry) : Bytes :=
  toLe 4 entry.1.length ++ entry.1 ++ toLe 4 entry.2.value.length ++ entry.2.value ++
    toLe 8 entry.2.version

theorem len32_eq {len : Nat} (bound : len < 256 ^ 4) : len32 len = .ok (toLe 4 len) :=
  if_pos (Nat.le_of_lt_succ bound)

theorem entriesChunks_eq {entries : List (Bytes × Entry)}
    (fits : ∀ entry ∈ entries,
      entry.1.length < 256 ^ 4 ∧ entry.2.value.length < 256 ^ 4) :
    ∃ chunks, entriesChunks entries = (chunks, .ok ()) ∧
      chunks.flatten = entries.flatMap entryBytes := by
  induction entries with
  | nil => exact ⟨[], rfl, rfl⟩
  | cons entry entries ih =>
      obtain ⟨key, entry⟩ := entry
      obtain ⟨keyBound, valueBound⟩ := fits _ List.mem_cons_self
      obtain ⟨chunks, same, flat⟩ :=
        ih (fun other member => fits other (List.mem_cons_of_mem _ member))
      refine ⟨[toLe 4 key.length, key, toLe 4 entry.value.length, entry.value,
        toLe 8 entry.version] ++ chunks, ?_, ?_⟩
      · rw [entriesChunks, entryChunks, len32_eq keyBound, len32_eq valueBound, same]
      · rw [List.flatten_append, flat]
        simp [entryBytes]

theorem decodeEntry_eq_ok_iff {cursor rest : Bytes} {entry : Bytes × Entry} :
    decodeEntry cursor = .ok (entry, rest) ↔
      EntryFits entry ∧ cursor = entryBytes entry ++ rest := by
  constructor
  · intro read
    obtain ⟨⟨keyLen, atKey⟩, keyRead, afterKeyLen⟩ := bind_eq_ok_iff.mp read
    obtain ⟨⟨key, atLen⟩, keyTaken, afterKey⟩ := bind_eq_ok_iff.mp afterKeyLen
    obtain ⟨⟨valueLen, atValue⟩, valueRead, afterLen⟩ := bind_eq_ok_iff.mp afterKey
    obtain ⟨⟨value, atVersion⟩, valueTaken, afterValue⟩ := bind_eq_ok_iff.mp afterLen
    obtain ⟨⟨version, left⟩, versionRead, done⟩ := bind_eq_ok_iff.mp afterValue
    clear read afterKeyLen afterKey afterLen afterValue
    cases done
    obtain ⟨keyBound, rfl⟩ := takeLe_eq_ok_iff.mp keyRead
    obtain ⟨rfl, rfl⟩ := takeBytes_eq_ok_iff.mp keyTaken
    obtain ⟨valueBound, rfl⟩ := takeLe_eq_ok_iff.mp valueRead
    obtain ⟨rfl, rfl⟩ := takeBytes_eq_ok_iff.mp valueTaken
    obtain ⟨versionBound, rfl⟩ := takeLe_eq_ok_iff.mp versionRead
    exact ⟨⟨keyBound, valueBound, versionBound⟩, by simp [entryBytes]⟩
  · rintro ⟨⟨keyBound, valueBound, versionBound⟩, rfl⟩
    simp only [decodeEntry, entryBytes, List.append_assoc, takeLe_toLe _ _ keyBound,
      takeLe_toLe _ _ valueBound, takeBytes_append, ok_bind]
    rw [takeLe_toLe _ _ versionBound]
    rfl

theorem find?_eq_none_of_perm {map data : Map} {entry : Bytes × Entry}
    {later : List (Bytes × Entry)} (order : map.entries.Perm (data.entries ++ entry :: later)) :
    data.find? entry.1 = none := by
  have distinct : (data.entries ++ entry :: later).Pairwise (fun left right => left.1 ≠ right.1) :=
    order.pairwise (map.sorted.imp (fun below => ne_of_lt below)) (fun apart => apart.symm)
  rw [SortedMap.find?_eq_none_iff]
  intro value member
  exact (List.pairwise_append.mp distinct).2.2 _ member entry List.mem_cons_self rfl

theorem decodeEntries_eq_ok_iff {count : Nat} {cursor rest : Bytes} {data map : Map} :
    decodeEntries count cursor data = .ok (map, rest) ↔
      ∃ listing, listing.length = count ∧ (∀ entry ∈ listing, EntryFits entry) ∧
        cursor = listing.flatMap entryBytes ++ rest ∧
        map.entries.Perm (data.entries ++ listing) := by
  induction count generalizing cursor data with
  | zero =>
      constructor
      · intro read
        cases read
        exact ⟨[], rfl, by simp, rfl, by simp⟩
      · rintro ⟨listing, none, _, rfl, order⟩
        obtain rfl := List.length_eq_zero_iff.mp none
        rw [List.append_nil] at order
        have same : data = map := SortedMap.ext_find? (fun key => by
          apply Option.ext
          intro entry
          rw [SortedMap.find?_eq_some_iff, SortedMap.find?_eq_some_iff, order.mem_iff])
        rw [same]
        rfl
  | succ count ih =>
      constructor
      · intro read
        obtain ⟨⟨entry, atNext⟩, entryRead, afterEntry⟩ := bind_eq_ok_iff.mp read
        clear read
        obtain ⟨entryFits, rfl⟩ := decodeEntry_eq_ok_iff.mp entryRead
        dsimp only at afterEntry
        split_ifs at afterEntry with duplicate
        obtain ⟨listing, rfl, fits, rfl, order⟩ := ih.mp afterEntry
        have absent : data.find? entry.1 = none := by simpa using duplicate
        refine ⟨entry :: listing, rfl, List.forall_mem_cons.mpr ⟨entryFits, fits⟩, by simp, ?_⟩
        have added := (SortedMap.entries_insert_perm absent entry.2).append_right listing
        exact (order.trans added).trans List.perm_middle.symm
      · rintro ⟨listing, length, fits, rfl, order⟩
        cases listing with
        | nil => cases length
        | cons entry listing =>
            obtain ⟨entryFits, fits⟩ := List.forall_mem_cons.mp fits
            have absent := find?_eq_none_of_perm order
            have added := (SortedMap.entries_insert_perm absent entry.2).append_right listing
            have later := ih.mpr ⟨listing, Nat.succ.inj length, fits, rfl,
              (order.trans List.perm_middle).trans added.symm⟩
            rw [decodeEntries, List.flatMap_cons, List.append_assoc,
              decodeEntry_eq_ok_iff.mpr ⟨entryFits, rfl⟩, ok_bind]
            dsimp only
            rw [absent, Option.isSome_none, if_neg Bool.false_ne_true, later]

theorem length_entryBytes (entry : Bytes × Entry) : minEntryLen ≤ (entryBytes entry).length := by
  simp only [entryBytes, List.length_append, length_toLe, minEntryLen]
  omega

theorem length_mul_le_flatMap (entries : List (Bytes × Entry)) :
    minEntryLen * entries.length ≤ (entries.flatMap entryBytes).length := by
  induction entries with
  | nil => exact Nat.le_refl 0
  | cons entry entries ih =>
      have one := length_entryBytes entry
      simp only [List.flatMap_cons, List.length_append, List.length_cons, Nat.mul_add]
      omega

def bodyBytes (snapshot : Snapshot) : Bytes :=
  magic ++ toLe 4 format ++ toLe 8 snapshot.index ++ toLe 8 snapshot.data.size ++
    snapshot.data.entries.flatMap entryBytes

def fileBytes (snapshot : Snapshot) : Bytes :=
  bodyBytes snapshot ++ toLe 4 (crc32 (bodyBytes snapshot)).toNat

theorem writeBody_eq {snapshot : Snapshot} (fits : ∀ entry ∈ snapshot.data.entries,
    entry.1.length < 256 ^ 4 ∧ entry.2.value.length < 256 ^ 4) :
    ∃ chunks, writeBody snapshot = (chunks, .ok ()) ∧
      chunks.flatten ++ toLe 4 (chunks.foldl Crc.update Crc.new).finish.toNat =
        fileBytes snapshot := by
  obtain ⟨chunks, same, flat⟩ := entriesChunks_eq fits
  have body : ([magic, toLe 4 format, toLe 8 snapshot.index, toLe 8 snapshot.data.size] ++
      chunks).flatten = bodyBytes snapshot := by
    simp [flat, bodyBytes]
  refine ⟨_, by rw [writeBody, same], ?_⟩
  rw [Crc.foldl_update, body, Crc.finish_new_update, fileBytes]

theorem Fits.lengths {snapshot : Snapshot} (fits : Fits snapshot) :
    ∀ entry ∈ snapshot.data.entries,
      entry.1.length < 256 ^ 4 ∧ entry.2.value.length < 256 ^ 4 :=
  fun entry member => ⟨(fits.entries entry member).1, (fits.entries entry member).2.1⟩

/-! ### The files that decode -/

def layout (index : Nat) (listing : List (Bytes × Entry)) : Bytes :=
  magic ++ toLe 4 format ++ toLe 8 index ++ toLe 8 listing.length ++ listing.flatMap entryBytes

theorem layout_eq (index : Nat) (listing : List (Bytes × Entry)) :
    layout index listing = (magic ++ toLe 4 format) ++
      (toLe 8 index ++ (toLe 8 listing.length ++ listing.flatMap entryBytes)) := by
  simp [layout]

theorem decodeBody_eq {head rest : Bytes} {index count : Nat} (headLength : head.length = 8)
    (indexBound : index < 256 ^ 8) (countBound : count < 256 ^ 8) :
    decodeBody (head ++ (toLe 8 index ++ (toLe 8 count ++ rest))) =
      if count > rest.length / minEntryLen then
        .error (.invalidData s!"entry count {count} exceeds what the body can hold")
      else
        decodeEntries count rest SortedMap.empty >>= fun (data, rest) =>
          if rest.length ≠ 0 then
            let left := rest.length
            throw (.invalidData s!"{left} trailing bytes after the last entry")
          else return ⟨index, data⟩ := by
  have after8 : (head ++ (toLe 8 index ++ (toLe 8 count ++ rest))).drop 8 =
      toLe 8 index ++ (toLe 8 count ++ rest) := List.drop_left' headLength
  have after16 : (head ++ (toLe 8 index ++ (toLe 8 count ++ rest))).drop 16 =
      toLe 8 count ++ rest := by
    rw [show 16 = 8 + 8 from rfl, ← List.drop_drop, after8]
    exact List.drop_left' (length_toLe _ _)
  have after24 : (head ++ (toLe 8 index ++ (toLe 8 count ++ rest))).drop headerLen = rest := by
    rw [show headerLen = 16 + 8 from rfl, ← List.drop_drop, after16]
    exact List.drop_left' (length_toLe _ _)
  have length : (head ++ (toLe 8 index ++ (toLe 8 count ++ rest))).length - headerLen =
      rest.length := by
    rw [← List.length_drop, after24]
  unfold decodeBody
  simp only [after8, after16, after24, length, List.take_left' (length_toLe _ _),
    ofLe_toLe indexBound, ofLe_toLe countBound]
  rfl

theorem decodeBody_eq_ok_iff {head rest : Bytes} {index count : Nat} {snapshot : Snapshot}
    (headLength : head.length = 8) (indexBound : index < 256 ^ 8) (countBound : count < 256 ^ 8) :
    decodeBody (head ++ (toLe 8 index ++ (toLe 8 count ++ rest))) = .ok snapshot ↔
      snapshot.index = index ∧ ∃ listing, listing.length = count ∧
        (∀ entry ∈ listing, EntryFits entry) ∧ rest = listing.flatMap entryBytes ∧
        snapshot.data.entries.Perm listing := by
  rw [decodeBody_eq headLength indexBound countBound]
  constructor
  · intro decoded
    split_ifs at decoded with bogus
    obtain ⟨⟨data, left⟩, read, done⟩ := bind_eq_ok_iff.mp decoded
    clear decoded
    dsimp only at done
    split_ifs at done with trailing
    cases done
    obtain ⟨listing, rfl, fits, rfl, order⟩ := decodeEntries_eq_ok_iff.mp read
    rw [List.length_eq_zero_iff.mp (not_not.mp trailing), List.append_nil]
    exact ⟨rfl, listing, rfl, fits, rfl, order⟩
  · rintro ⟨rfl, listing, rfl, fits, rfl, order⟩
    have possible : ¬ listing.length > (listing.flatMap entryBytes).length / minEntryLen := by
      rw [Nat.not_lt, Nat.le_div_iff_mul_le (by decide), Nat.mul_comm]
      exact length_mul_le_flatMap listing
    have read : decodeEntries listing.length (listing.flatMap entryBytes) SortedMap.empty =
        .ok (snapshot.data, []) :=
      decodeEntries_eq_ok_iff.mpr ⟨listing, rfl, fits, (List.append_nil _).symm, order⟩
    rw [if_neg possible, read, ok_bind]
    rfl

theorem exists_header {body : Bytes} (room : headerLen ≤ body.length) :
    ∃ index count rest, index < 256 ^ 8 ∧ count < 256 ^ 8 ∧
      body = body.take 8 ++ (toLe 8 index ++ (toLe 8 count ++ rest)) := by
  unfold headerLen at room
  have indexLength : ((body.drop 8).take 8).length = 8 := by
    rw [List.length_take, List.length_drop]
    omega
  have countLength : ((body.drop 16).take 8).length = 8 := by
    rw [List.length_take, List.length_drop]
    omega
  refine ⟨ofLe ((body.drop 8).take 8), ofLe ((body.drop 16).take 8), body.drop 24, ?_, ?_, ?_⟩
  · have bound := ofLe_lt ((body.drop 8).take 8)
    rwa [indexLength] at bound
  · have bound := ofLe_lt ((body.drop 16).take 8)
    rwa [countLength] at bound
  · have count : (body.drop 16).take 8 ++ body.drop 24 = body.drop 16 := by
      rw [show 24 = 16 + 8 from rfl, ← List.drop_drop, List.take_append_drop]
    have index : (body.drop 8).take 8 ++ body.drop 16 = body.drop 8 := by
      rw [show 16 = 8 + 8 from rfl, ← List.drop_drop, List.take_append_drop]
    rw [toLe_ofLe indexLength, toLe_ofLe countLength, count, index, List.take_append_drop]

theorem decode_eq_ok_iff_body {bytes : Bytes} {snapshot : Snapshot} :
    decode bytes = .ok snapshot ↔
      ∃ body, bytes = body ++ toLe 4 (crc32 body).toNat ∧ headerLen ≤ body.length ∧
        body.take 8 = magic ++ toLe 4 format ∧ decodeBody body = .ok snapshot := by
  constructor
  · intro decoded
    unfold decode at decoded
    dsimp only at decoded
    split_ifs at decoded with short otherMagic damaged otherVersion shortHeader
    have long := Nat.not_lt.mp shortHeader
    unfold headerLen at long
    have crcLength : (bytes.drop (bytes.length - 4)).length = 4 := by
      rw [List.length_drop]
      omega
    have versionLength : ((bytes.drop 4).take 4).length = 4 := by
      rw [List.length_take, List.length_drop]
      omega
    refine ⟨bytes.take (bytes.length - 4), ?_, ?_, ?_, decoded⟩
    · rw [not_not.mp damaged, toLe_ofLe crcLength, List.take_append_drop]
    · rw [List.length_take]
      unfold headerLen
      omega
    · have eight : min 8 (bytes.length - 4) = 4 + 4 := by omega
      rw [List.take_take, eight, List.take_add, not_not.mp otherMagic,
        ← not_not.mp otherVersion, toLe_ofLe versionLength]
  · rintro ⟨body, rfl, room, start, decoded⟩
    generalize crcBytes : toLe 4 (crc32 body).toNat = crc
    have crcLength : crc.length = 4 := by rw [← crcBytes, length_toLe]
    have stored : ofLe crc = (crc32 body).toNat := by rw [← crcBytes, ofLe_toLe_u32]
    have total : (body ++ crc).length - 4 = body.length := by
      rw [List.length_append, crcLength, Nat.add_sub_cancel]
    have long : ¬ (body ++ crc).length < headerLen + 4 := by
      rw [List.length_append, crcLength]
      omega
    have longer : ¬ (body ++ crc).length < magic.length + 4 + 4 := by
      have less : magic.length + 4 + 4 ≤ headerLen + 4 := by decide
      omega
    have whole : body ++ crc = magic ++ (toLe 4 format ++ (body.drop 8 ++ crc)) := by
      rw [← List.append_assoc, ← List.append_assoc, ← start, List.take_append_drop]
    have named : (body ++ crc).take 4 = magic := by
      rw [whole]
      exact List.take_left' rfl
    have version : ofLe (((body ++ crc).drop 4).take 4) = format := by
      have magicLength : magic.length = 4 := rfl
      rw [whole, List.drop_left' magicLength, List.take_left' (length_toLe _ _)]
      rfl
    unfold decode
    simp only [if_neg longer, named, ne_eq, not_true_eq_false, if_false, total, List.drop_left,
      List.take_left, stored, version, if_neg long]
    exact decoded

/-- A file decodes to a snapshot exactly when it is the snapshot's entries, in
some order, between the header and the checksum. -/
theorem decode_eq_ok_iff {bytes : Bytes} {snapshot : Snapshot} :
    decode bytes = .ok snapshot ↔
      Fits snapshot ∧ ∃ listing, listing.Perm snapshot.data.entries ∧
        bytes = layout snapshot.index listing ++
          toLe 4 (crc32 (layout snapshot.index listing)).toNat := by
  rw [decode_eq_ok_iff_body]
  have headLength : (magic ++ toLe 4 format).length = 8 := rfl
  constructor
  · rintro ⟨body, rfl, room, start, decoded⟩
    obtain ⟨index, count, rest, indexBound, countBound, split⟩ := exists_header room
    rw [start] at split
    rw [split] at decoded
    obtain ⟨rfl, listing, rfl, fits, rfl, order⟩ :=
      (decodeBody_eq_ok_iff headLength indexBound countBound).mp decoded
    refine ⟨⟨indexBound, ?_, fun entry member => fits entry (order.mem_iff.mp member)⟩,
      listing, order.symm, ?_⟩
    · rw [SortedMap.size, order.length_eq]
      exact countBound
    · rw [split, layout_eq]
  · rintro ⟨fits, listing, order, rfl⟩
    have countBound : listing.length < 256 ^ 8 := by
      rw [order.length_eq]
      exact fits.count
    refine ⟨layout snapshot.index listing, rfl, ?_, ?_, ?_⟩
    · rw [layout_eq]
      simp only [List.length_append, length_toLe, headerLen, magic, List.length_cons,
        List.length_nil]
      omega
    · rw [layout_eq]
      exact List.take_left' headLength
    · rw [layout_eq]
      exact (decodeBody_eq_ok_iff headLength fits.index countBound).mpr
        ⟨rfl, listing, rfl, fun entry member => fits.entries entry (order.mem_iff.mp member),
          rfl, order.symm⟩

theorem decode_fileBytes {snapshot : Snapshot} (fits : Fits snapshot) :
    decode (fileBytes snapshot) = .ok snapshot :=
  decode_eq_ok_iff.mpr ⟨fits, snapshot.data.entries, List.Perm.refl _, rfl⟩

end Keystory.Checkpoint
