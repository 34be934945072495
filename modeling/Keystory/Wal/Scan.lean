/-
The scan apart from its sink: on any bytes at all, the records it hands over and
how it ends are settled before the sink sees the first of them. On any leading
part of a well-formed segment they are exactly the records wholly in it.
-/

import Keystory.Wal.Segment

namespace Keystory.Wal

open General

/-- What one round of the loop finds at a position. -/
inductive Head where
  | stop (outcome : Except Failure (Option Nat))
  | record (record : Record) (total : Nat)

def head (path : String) (pos : Nat) (rest : Bytes) : Head :=
  if rest.length < 4 then .stop (.ok (if rest = [] then none else some pos))
  else
    let payloadLen := ofLe (rest.take 4)
    if payloadLen < minPayload then .stop (.ok (some pos))
    else
      let total := 4 + payloadLen + 4
      if rest.length < total then .stop (.ok (some pos))
      else
        let payload := (rest.drop 4).take payloadLen
        let stored := ofLe ((rest.drop (4 + payloadLen)).take 4)
        if (crc32 payload).toNat ≠ stored then .stop (.ok (some pos))
        else
          match decodePayload payload with
          | .error e =>
              let why := e.text
              .stop (.error (.invalidData
                (s!"WAL segment {path} holds a record at byte {pos} whose checksum is valid "
                  ++ s!"but which does not decode ({why}); no torn write produces one, so "
                  ++ "recovery refuses it rather than truncating the log there")))
          | .ok record => .record record total

def readRecords (path : String) : Nat → Nat → Bytes → List Record × Except Failure (Option Nat)
  | 0, pos, rest => ([], .ok (if rest = [] then none else some pos))
  | fuel + 1, pos, rest =>
      match head path pos rest with
      | .stop outcome => ([], outcome)
      | .record record total =>
          let (later, outcome) := readRecords path fuel (pos + total) (rest.drop total)
          (record :: later, outcome)

def readSegment (path : String) (bytes : Bytes) : List Record × Except Failure (Option Nat) :=
  let len := bytes.length
  if len < headerLen then ([], .ok (some 0))
  else
    let header := bytes.take headerLen
    let storedCrc := ofLe (header.drop 8)
    if header.take 4 ≠ segmentMagic ∨ (crc32 (header.take 8)).toNat ≠ storedCrc then
      if len = headerLen then ([], .ok (some 0))
      else
        let behind := len - headerLen
        ([], .error (.invalidData
          s!"{path} is not an intact keystory WAL segment: bad header in front of {behind} bytes"))
    else
      let version := ofLe ((header.drop 4).take 4)
      if version ≠ segmentVersion then
        ([], .error (.unsupported
          (s!"WAL segment {path} has format version {version}; this build reads version "
            ++ s!"{segmentVersion}")))
      else readRecords path len headerLen (bytes.drop headerLen)

/-! ### The sink only sees what was read -/

section Sink

variable {Item Collected : Type}

/-- What was read, handed to a sink: its refusal comes before how the reading ended. -/
def deliver (sink : Collected → Item → Except Failure Collected)
    (read : List Item × Except Failure (Option Nat)) (collected : Collected) :
    Except Failure (Collected × Option Nat) := do
  let collected ← read.1.foldlM sink collected
  let ending ← read.2
  return (collected, ending)

theorem deliver_append {sink : Collected → Item → Except Failure Collected} (first : List Item)
    (read : List Item × Except Failure (Option Nat)) (collected : Collected) :
    deliver sink (first ++ read.1, read.2) collected = (do
      let collected ← first.foldlM sink collected
      deliver sink read collected) := by
  rw [deliver, List.foldlM_append, bind_assoc]
  rfl

variable {sink : Collected → Record → Except Failure Collected}

theorem scanRecords_succ (path : String) (fuel pos : Nat) (rest : Bytes) (collected : Collected) :
    scanRecords path sink (fuel + 1) pos rest collected =
      match head path pos rest with
      | .stop outcome => deliver sink ([], outcome) collected
      | .record record total => (do
          let collected ← sink collected record
          scanRecords path sink fuel (pos + total) (rest.drop total) collected) := by
  rw [scanRecords]
  unfold head
  dsimp only
  split_ifs with short tiny unfinished damaged <;> try rfl
  cases decodePayload (List.take (ofLe (List.take 4 rest)) (List.drop 4 rest)) with
  | error failure => rfl
  | ok record => rfl

theorem scanRecords_eq (path : String) (fuel pos : Nat) (rest : Bytes) (collected : Collected) :
    scanRecords path sink fuel pos rest collected =
      deliver sink (readRecords path fuel pos rest) collected := by
  induction fuel generalizing pos rest collected with
  | zero => rfl
  | succ fuel ih =>
      rw [scanRecords_succ, readRecords]
      cases head path pos rest with
      | stop outcome => rfl
      | record record total =>
          change _ = deliver sink ([record] ++ (readRecords path fuel _ _).1, _) collected
          rw [deliver_append, List.foldlM_cons, bind_assoc]
          exact bind_congr (fun collected => ih _ _ collected)

theorem scanSegment_eq (path : String) (bytes : Bytes) (collected : Collected) :
    scanSegment path sink bytes collected = deliver sink (readSegment path bytes) collected := by
  unfold scanSegment readSegment
  dsimp only
  split_ifs <;> try rfl
  exact scanRecords_eq path _ _ _ collected

end Sink

/-! ### Rounds -/

section Rounds

variable {path : String} {pos total : Nat} {rest : Bytes} {record : Record}

theorem head_eq_record_iff :
    head path pos rest = .record record total ↔
      total = 4 + ofLe (rest.take 4) + 4 ∧ total ≤ rest.length ∧
        minPayload ≤ ofLe (rest.take 4) ∧
        (crc32 ((rest.drop 4).take (ofLe (rest.take 4)))).toNat =
          ofLe ((rest.drop (4 + ofLe (rest.take 4))).take 4) ∧
        decodePayload ((rest.drop 4).take (ofLe (rest.take 4))) = .ok record := by
  unfold head
  dsimp only
  split_ifs with short tiny unfinished damaged
  · exact ⟨fun found => (by cases found), fun ⟨_, _, _, _⟩ => by omega⟩
  · exact ⟨fun found => (by cases found), fun ⟨_, _, _, _⟩ => by omega⟩
  · exact ⟨fun found => (by cases found), fun ⟨_, _, _, _⟩ => by omega⟩
  · exact ⟨fun found => (by cases found), fun ⟨_, _, _, valid, _⟩ => absurd valid damaged⟩
  · cases decoded : decodePayload (List.take (ofLe (List.take 4 rest)) (List.drop 4 rest)) with
    | error failure =>
        exact ⟨fun found => (by cases found), fun ⟨_, _, _, _, found⟩ => (by cases found)⟩
    | ok other =>
        constructor
        · intro found
          cases found
          exact ⟨rfl, Nat.not_lt.mp unfinished, Nat.not_lt.mp tiny, not_not.mp damaged, rfl⟩
        · rintro ⟨rfl, _, _, _, same⟩
          rw [Except.ok.inj same]

theorem head_take (found : head path pos rest = .record record total) {count : Nat}
    (enough : total ≤ count) : head path pos (rest.take count) = .record record total := by
  rw [head_eq_record_iff] at found ⊢
  obtain ⟨size, present, least, valid, decoded⟩ := found
  have field : (rest.take count).take 4 = rest.take 4 := by
    rw [List.take_take, Nat.min_eq_left (by omega)]
  have payload : ((rest.take count).drop 4).take (ofLe (rest.take 4)) =
      (rest.drop 4).take (ofLe (rest.take 4)) := by
    rw [List.drop_take, List.take_take, Nat.min_eq_left (by omega)]
  have stored : ((rest.take count).drop (4 + ofLe (rest.take 4))).take 4 =
      (rest.drop (4 + ofLe (rest.take 4))).take 4 := by
    rw [List.drop_take, List.take_take, Nat.min_eq_left (by omega)]
  rw [field, payload, stored, List.length_take]
  exact ⟨size, by omega, least, valid, decoded⟩

theorem head_eq_torn {offset : Nat} (stopped : head path pos rest = .stop (.ok (some offset))) :
    offset = pos := by
  unfold head at stopped
  dsimp only at stopped
  split_ifs at stopped with short empty tiny unfinished damaged
  all_goals try cases stopped
  all_goals try rfl
  split at stopped <;> cases stopped

@[simp] theorem head_nil : head path pos [] = .stop (.ok none) := rfl

end Rounds

/-! ### Whole readings -/

section Readings

variable {path : String} {pos total : Nat} {rest : Bytes} {record : Record}

theorem readRecords_stop {outcome : Except Failure (Option Nat)}
    (stopped : head path pos rest = .stop outcome) (fuel : Nat) :
    readRecords path (fuel + 1) pos rest = ([], outcome) := by
  rw [readRecords, stopped]

theorem readRecords_record (found : head path pos rest = .record record total) (fuel : Nat) :
    readRecords path (fuel + 1) pos rest =
      (record :: (readRecords path fuel (pos + total) (rest.drop total)).1,
        (readRecords path fuel (pos + total) (rest.drop total)).2) := by
  rw [readRecords, found]

theorem readRecords_nil (path : String) (fuel pos : Nat) :
    readRecords path fuel pos [] = ([], .ok none) := by
  cases fuel <;> rfl

/-- A round consumes bytes, so any fuel as long as the bytes will do. -/
theorem readRecords_fuel {fuel other : Nat} (enough : rest.length ≤ fuel)
    (otherEnough : rest.length ≤ other) :
    readRecords path fuel pos rest = readRecords path other pos rest := by
  induction fuel generalizing other pos rest with
  | zero =>
      rw [List.length_eq_zero_iff.mp (Nat.le_zero.mp enough), readRecords_nil, readRecords_nil]
  | succ fuel ih =>
      cases other with
      | zero =>
          rw [List.length_eq_zero_iff.mp (Nat.le_zero.mp otherEnough), readRecords_nil,
            readRecords_nil]
      | succ other =>
          cases found : head path pos rest with
          | stop outcome => rw [readRecords_stop found, readRecords_stop found]
          | record record total =>
              obtain ⟨size, _⟩ := head_eq_record_iff.mp found
              have shorter : (rest.drop total).length ≤ rest.length - 1 := by
                rw [List.length_drop]
                omega
              have same : readRecords path fuel (pos + total) (rest.drop total) =
                  readRecords path other (pos + total) (rest.drop total) :=
                ih (by omega) (by omega)
              rw [readRecords_record found, readRecords_record found, same]

theorem readRecords_cut_here (path : String) (fuel pos : Nat) (rest : Bytes) :
    pos ≤ pos ∧ pos - pos ≤ rest.length ∧
      readRecords path fuel pos (rest.take (pos - pos)) = ([], .ok none) := by
  rw [Nat.sub_self, List.take_zero, readRecords_nil]
  exact ⟨Nat.le_refl _, Nat.zero_le _, rfl⟩

/-- Cut back to where a torn tail begins, the records are the same and end cleanly. -/
theorem readRecords_cut {fuel offset : Nat} {records : List Record}
    (read : readRecords path fuel pos rest = (records, .ok (some offset))) :
    pos ≤ offset ∧ offset - pos ≤ rest.length ∧
      readRecords path fuel pos (rest.take (offset - pos)) = (records, .ok none) := by
  induction fuel generalizing pos rest records with
  | zero =>
      rw [readRecords] at read
      split at read
      case isTrue => cases read
      case isFalse =>
          cases read
          exact readRecords_cut_here path 0 _ rest
  | succ fuel ih =>
      cases found : head path pos rest with
      | stop outcome =>
          rw [readRecords_stop found] at read
          cases read
          rw [head_eq_torn found]
          exact readRecords_cut_here path (fuel + 1) pos rest
      | record record total =>
          obtain ⟨_, present, _⟩ := head_eq_record_iff.mp found
          rw [readRecords_record found] at read
          obtain ⟨rfl, ended⟩ := Prod.mk.inj read
          obtain ⟨after, inside, clean⟩ := ih (Prod.ext rfl ended)
          rw [List.length_drop] at inside
          have kept : head path pos (rest.take (offset - pos)) = .record record total :=
            head_take found (by omega)
          have rest' : (rest.take (offset - pos)).drop total =
              (rest.drop total).take (offset - (pos + total)) := by
            rw [List.drop_take, Nat.sub_sub]
          rw [readRecords_record kept, rest', clean]
          exact ⟨by omega, by omega, rfl⟩

theorem foldlM_collect (records seen : List Record) :
    records.foldlM collect seen = .ok (seen ++ records) := by
  induction records generalizing seen with
  | nil =>
      rw [List.append_nil]
      rfl
  | cons record records ih =>
      rw [List.foldlM_cons, collect, ok_bind, ih, List.append_assoc, List.singleton_append]

theorem scanSegment_collect_eq_ok_iff {bytes : Bytes} {records : List Record}
    {ending : Option Nat} :
    scanSegment path collect bytes [] = .ok (records, ending) ↔
      readSegment path bytes = (records, .ok ending) := by
  rw [scanSegment_eq, deliver, foldlM_collect, ok_bind, List.nil_append]
  cases readSegment path bytes with
  | mk found outcome =>
      cases outcome with
      | error failure => simp
      | ok ended => simp [pure, Except.pure]

theorem readSegment_short {bytes : Bytes} (short : bytes.length < headerLen) :
    readSegment path bytes = ([], .ok (some 0)) := by
  rw [readSegment, if_pos short]

/-- A torn tail begins at the very start, in what never became a segment, or behind the
header; cut back to there, the segment has the same records and ends cleanly. -/
theorem readSegment_cut {bytes : Bytes} {records : List Record} {offset : Nat}
    (read : readSegment path bytes = (records, .ok (some offset))) :
    (offset = 0 ∧ records = [] ∧ bytes.length ≤ headerLen) ∨
      (headerLen ≤ offset ∧ offset ≤ bytes.length ∧
        readSegment path (bytes.take offset) = (records, .ok none)) := by
  unfold readSegment at read
  dsimp only at read
  split_ifs at read with short bad alone version
  · cases read
    exact Or.inl ⟨rfl, rfl, Nat.le_of_lt short⟩
  · cases read
    exact Or.inl ⟨rfl, rfl, Nat.le_of_eq alone⟩
  · cases read
  · cases read
  · right
    obtain ⟨after, inside, clean⟩ := readRecords_cut read
    rw [List.length_drop] at inside
    have size : (bytes.take offset).length = offset := List.length_take_of_le (by omega)
    have header : (bytes.take offset).take headerLen = bytes.take headerLen := by
      rw [List.take_take, Nat.min_eq_left after]
    have behind : (bytes.take offset).drop headerLen =
        (bytes.drop headerLen).take (offset - headerLen) := List.drop_take ..
    have length : ((bytes.drop headerLen).take (offset - headerLen)).length ≤ offset := by
      rw [List.length_take]
      omega
    refine ⟨after, by omega, ?_⟩
    unfold readSegment
    dsimp only
    rw [size, if_neg (Nat.not_lt.mpr after), header, if_neg bad, if_neg version, behind,
      ← clean]
    exact readRecords_fuel length (by omega)

end Readings

/-! ### Well-formed segments -/

def Reads (bytes : Bytes) (whole : List Record) : Option Nat → Prop
  | none => bytes = segmentBytes whole
  | some offset =>
      (bytes.length < headerLen ∧ whole = [] ∧ offset = 0) ∨
        ∃ torn, Torn torn ∧ torn ≠ [] ∧ bytes = segmentBytes whole ++ torn ∧
          offset = (segmentBytes whole).length

section Exact

variable {path : String} {pos : Nat}

theorem head_frame (path : String) (pos : Nat) {record : Record} (fits : Fits record.ops)
    (rest : Bytes) :
    head path pos (frame record ++ rest) = .record record (frame record).length := by
  have bound := length_encodePayload_lt fits
  have length := length_frame record
  have lengthField : ofLe ((frame record ++ rest).take 4) = (encodePayload record).length := by
    simp [frame, ofLe_toLe bound]
  have payloadField : ((frame record ++ rest).drop 4).take (encodePayload record).length =
      encodePayload record := by
    simp [frame]
  have crcField : ofLe (((frame record ++ rest).drop (4 + (encodePayload record).length)).take 4) =
      (crc32 (encodePayload record)).toNat := by
    rw [← List.drop_drop]
    simp [frame, ofLe_toLe_u32]
  have least : minPayload ≤ (encodePayload record).length := by
    rw [length_encodePayload]
    exact minPayload_le fits.nonempty
  rw [head_eq_record_iff, lengthField, payloadField, crcField, List.length_append]
  exact ⟨length, Nat.le_add_right _ _, least, rfl, decodePayload_encodePayload fits⟩

theorem head_torn (path : String) (pos : Nat) {torn : Bytes} (cut : torn = [] ∨ Torn torn) :
    head path pos torn = .stop (.ok (if torn = [] then none else some pos)) := by
  rcases cut with rfl | ⟨record, fits, ⟨missing, whole⟩, different⟩
  · rfl
  · unfold head
    by_cases short : torn.length < 4
    · rw [if_pos short]
    · have nonempty : torn ≠ [] := by
        rintro rfl
        exact short (by decide)
      have lengthField : ofLe (torn.take 4) = (encodePayload record).length := by
        rw [← lengthField_frame fits, ← whole,
          List.take_append_of_le_length (Nat.not_lt.mp short)]
      have least : ¬ (encodePayload record).length < minPayload := by
        rw [length_encodePayload]
        exact Nat.not_lt.mpr (minPayload_le fits.nonempty)
      have unfinished : torn.length < 4 + (encodePayload record).length + 4 := by
        have positive : missing.length ≠ 0 := by
          intro none
          rw [List.length_eq_zero_iff.mp none, List.append_nil] at whole
          exact different whole
        rw [← length_frame, ← whole, List.length_append]
        omega
      simp only [if_neg short, lengthField, if_neg least, if_pos unfinished, if_neg nonempty]

theorem readRecords_frames {records : List Record} (fits : ∀ record ∈ records, Fits record.ops)
    (fuel : Nat) (rest : Bytes) :
    readRecords path (records.length + fuel) pos (frames records ++ rest) =
      (records ++ (readRecords path fuel (pos + (frames records).length) rest).1,
        (readRecords path fuel (pos + (frames records).length) rest).2) := by
  induction records generalizing pos with
  | nil =>
      rw [List.length_nil, Nat.zero_add]
      rfl
  | cons record records ih =>
      have later : ∀ other ∈ records, Fits other.ops :=
        fun other member => fits other (List.mem_cons_of_mem record member)
      have whole := head_frame path pos (fits record List.mem_cons_self) (frames records ++ rest)
      have size : records.length + 1 + fuel = (records.length + fuel) + 1 := by omega
      rw [List.length_cons, size, frames_cons, List.append_assoc, readRecords_record whole,
        List.drop_left, ih later, List.length_append, ← Nat.add_assoc]
      rfl

theorem readSegment_header (path : String) (rest : Bytes) :
    readSegment path (segmentHeader ++ rest) =
      readRecords path (segmentHeader ++ rest).length headerLen rest := by
  have length := length_segmentHeader
  have long : ¬ (segmentHeader ++ rest).length < headerLen := by
    rw [List.length_append]
    omega
  have start : (segmentHeader ++ rest).take headerLen = segmentHeader := by
    rw [← length, List.take_left]
  have after : (segmentHeader ++ rest).drop headerLen = rest := by
    rw [← length, List.drop_left]
  have intact : ¬ (segmentHeader.take 4 ≠ segmentMagic ∨
      (crc32 (segmentHeader.take 8)).toNat ≠ ofLe (segmentHeader.drop 8)) := by
    have checked : segmentHeader.drop 8 =
        toLe 4 (crc32 (segmentMagic ++ toLe 4 segmentVersion)).toNat := rfl
    rw [checked, ofLe_toLe_u32]
    simp [segmentHeader, headerFor, segmentMagic, toLe]
  have version : ofLe ((segmentHeader.drop 4).take 4) = segmentVersion := rfl
  unfold readSegment
  simp only [if_neg long, start, if_neg intact, version, ne_eq, not_true_eq_false, if_false,
    after]

theorem length_le_frames (records : List Record) : records.length ≤ (frames records).length := by
  induction records with
  | nil => exact Nat.le_refl 0
  | cons record records ih =>
      have length := length_frame record
      rw [frames_cons, List.length_append, List.length_cons]
      omega

theorem readSegment_frames {records : List Record} (fits : ∀ record ∈ records, Fits record.ops)
    (rest : Bytes) :
    readSegment path (segmentBytes records ++ rest) =
      (records ++ (readRecords path rest.length (segmentBytes records).length rest).1,
        (readRecords path rest.length (segmentBytes records).length rest).2) := by
  have counted := length_le_frames records
  have place : headerLen + (frames records).length = (segmentBytes records).length := by
    rw [segmentBytes, List.length_append, length_segmentHeader]
  obtain ⟨spare, fuel⟩ := Nat.exists_eq_add_of_le
    (show records.length ≤ (segmentHeader ++ (frames records ++ rest)).length by
      rw [List.length_append, List.length_append]; omega)
  have enough : rest.length ≤ spare := by
    rw [List.length_append, List.length_append] at fuel
    omega
  rw [segmentBytes, List.append_assoc, readSegment_header, fuel, readRecords_frames fits,
    ← segmentBytes, place, readRecords_fuel enough (Nat.le_refl _)]

theorem readSegment_reads {bytes : Bytes} {whole : List Record} {ending : Option Nat}
    (reads : Reads bytes whole ending) (fits : ∀ record ∈ whole, Fits record.ops) :
    readSegment path bytes = (whole, .ok ending) := by
  cases ending with
  | none =>
      have same : bytes = segmentBytes whole ++ [] := by
        rw [List.append_nil]
        exact reads
      rw [same, readSegment_frames fits, readRecords_nil, List.append_nil]
  | some offset =>
      rcases reads with ⟨short, rfl, rfl⟩ | ⟨torn, cut, some, rfl, rfl⟩
      · exact readSegment_short short
      · have stopped := head_torn path (segmentBytes whole).length (Or.inr cut)
        obtain ⟨rest, length⟩ := Nat.exists_eq_succ_of_ne_zero
          (List.length_eq_zero_iff.not.mpr some)
        rw [readSegment_frames fits, length, readRecords_stop stopped, List.append_nil,
          if_neg some]

theorem scanSegment_reads {Collected : Type}
    {sink : Collected → Record → Except Failure Collected} {bytes : Bytes}
    {whole : List Record} {ending : Option Nat} (reads : Reads bytes whole ending)
    (fits : ∀ record ∈ whole, Fits record.ops) (collected : Collected) :
    scanSegment path sink bytes collected = (do
      let collected ← whole.foldlM sink collected
      return (collected, ending)) := by
  rw [scanSegment_eq, readSegment_reads reads fits]
  rfl

end Exact

/-- Any leading part of a well-formed segment can be read: its whole records are
the first few of the segment's. -/
theorem exists_reads {records : List Record} {bytes : Bytes}
    (start : bytes <+: segmentBytes records) (fits : ∀ record ∈ records, Fits record.ops) :
    ∃ whole ending, whole <+: records ∧ Reads bytes whole ending := by
  by_cases short : bytes.length < headerLen
  · exact ⟨[], some 0, List.nil_prefix, Or.inl ⟨short, rfl, rfl⟩⟩
  · rcases List.prefix_or_prefix_of_prefix start (List.prefix_append segmentHeader _) with
      inside | ⟨part, long⟩
    · have same : bytes = segmentHeader := by
        apply List.IsPrefix.eq_of_length inside
        have bound := inside.length_le
        rw [length_segmentHeader] at bound ⊢
        omega
      exact ⟨[], none, List.nil_prefix, by rw [same]; rfl⟩
    · rw [segmentBytes, ← long, List.prefix_append_right_inj] at start
      obtain ⟨whole, torn, inside, same, cut⟩ := exists_cut start fits
      have split : bytes = segmentBytes whole ++ torn := by
        rw [← long, same, segmentBytes, List.append_assoc]
      by_cases clean : torn = []
      · refine ⟨whole, none, inside, ?_⟩
        rw [split, clean, List.append_nil]
        rfl
      · exact ⟨whole, some _, inside,
          Or.inr ⟨torn, cut.resolve_left clean, clean, split, rfl⟩⟩

theorem Reads.contains {bytes : Bytes} {kept whole records : List Record} {ending : Option Nat}
    (reads : Reads bytes whole ending) (there : segmentBytes kept <+: bytes)
    (inside : whole <+: records) (first : kept <+: records)
    (fits : ∀ record ∈ records, Fits record.ops) : kept <+: whole := by
  rcases List.prefix_or_prefix_of_prefix first inside with within | ⟨missing, more⟩
  · exact within
  · cases missing with
    | nil =>
        rw [← more, List.append_nil]
    | cons record missing =>
        exfalso
        have recordFits : Fits record.ops := by
          apply fits record
          apply first.subset
          rw [← more]
          simp
        rw [← more, segmentBytes_append, frames_cons] at there
        cases ending with
        | none =>
            have same : bytes = segmentBytes whole := reads
            have bound := there.length_le
            have length := length_frame record
            rw [same, List.length_append, List.length_append] at bound
            omega
        | some offset =>
            rcases reads with ⟨short, _, _⟩ | ⟨torn, cut, _, same, _⟩
            · have bound := there.length_le
              have length := length_segmentHeader
              rw [List.length_append, segmentBytes, List.length_append] at bound
              omega
            · rw [same, List.prefix_append_right_inj] at there
              exact cut.not_frame recordFits ((List.prefix_append _ _).trans there)

/-! ### Records with their segments -/

def tag (seq : Nat) (records : List Record) : List (Nat × Record) :=
  records.map (fun record => (seq, record))

def untag (entries : List (Nat × Record)) : List Record := entries.map Prod.snd

def tagged (log : List (Nat × List Record)) : List (Nat × Record) :=
  log.flatMap (fun segment => segment.2.map (fun record => (segment.1, record)))

@[simp] theorem untag_tag (seq : Nat) (records : List Record) :
    untag (tag seq records) = records := by
  simp [untag, tag]

@[simp] theorem untag_nil : untag [] = [] := rfl

@[simp] theorem untag_append (first second : List (Nat × Record)) :
    untag (first ++ second) = untag first ++ untag second :=
  List.map_append

@[simp] theorem tag_append (seq : Nat) (first second : List Record) :
    tag seq (first ++ second) = tag seq first ++ tag seq second :=
  List.map_append

@[simp] theorem tag_nil (seq : Nat) : tag seq [] = [] := rfl

@[simp] theorem tagged_nil : tagged [] = [] := rfl

theorem tagged_cons (seq : Nat) (records : List Record) (log : List (Nat × List Record)) :
    tagged ((seq, records) :: log) = tag seq records ++ tagged log := rfl

@[simp] theorem tagged_append (first second : List (Nat × List Record)) :
    tagged (first ++ second) = tagged first ++ tagged second :=
  List.flatMap_append

@[simp] theorem tagged_singleton (seq : Nat) (records : List Record) :
    tagged [(seq, records)] = tag seq records := by
  simp [tagged, tag]

/-! ### Replay of a log -/

def readLog : List (Nat × Bytes) → List (Nat × Record) × Except Failure (Option Nat)
  | [] => ([], .ok none)
  | (seq, bytes) :: files =>
      match readSegment (segmentPath seq) bytes with
      | (records, .error failure) => (tag seq records, .error failure)
      | (records, .ok none) =>
          let (later, outcome) := readLog files
          (tag seq records ++ later, outcome)
      | (records, .ok (some offset)) =>
          let later := files.length
          (tag seq records,
            if later > 0 then
              let path := segmentPath seq
              .error (.invalidData
                (s!"WAL segment {path} is corrupt at byte {offset} but {later} later segment(s) "
                  ++ "exist; refusing to replay past corruption"))
            else .ok (some offset))

section Replay

variable {Collected : Type} {sink : Collected → Nat → Record → Except Failure Collected}

theorem foldlM_tag (seq : Nat) (records : List Record) (collected : Collected) :
    (tag seq records).foldlM (fun collected entry => sink collected entry.1 entry.2) collected =
      records.foldlM (fun collected => sink collected seq) collected := by
  rw [tag, List.foldlM_map]

theorem replay_eq (files : List (Nat × Bytes)) (collected : Collected) :
    replay sink files collected =
      deliver (fun collected entry => sink collected entry.1 entry.2) (readLog files) collected := by
  induction files generalizing collected with
  | nil => rfl
  | cons file files ih =>
      obtain ⟨seq, bytes⟩ := file
      rw [replay, readLog, scanSegment_eq, deliver, bind_assoc]
      rcases readSegment (segmentPath seq) bytes with ⟨records, failure | ending⟩
      · rw [deliver, foldlM_tag]
        rfl
      · cases ending with
        | none =>
            change _ = deliver _ (tag seq records ++ (readLog files).1, (readLog files).2) collected
            rw [deliver_append, foldlM_tag]
            exact bind_congr (fun collected => ih collected)
        | some offset =>
            rw [deliver, foldlM_tag]
            refine bind_congr (fun collected => ?_)
            dsimp only
            split_ifs <;> rfl

theorem readLog_clean {seq : Nat} {bytes : Bytes} {records : List Record}
    (clean : readSegment (segmentPath seq) bytes = (records, .ok none))
    (files : List (Nat × Bytes)) :
    readLog ((seq, bytes) :: files) =
      (tag seq records ++ (readLog files).1, (readLog files).2) := by
  rw [readLog, clean]

theorem readLog_last {seq : Nat} {bytes : Bytes} {records : List Record} {ending : Option Nat}
    (read : readSegment (segmentPath seq) bytes = (records, .ok ending)) :
    readLog [(seq, bytes)] = (tag seq records, .ok ending) := by
  rw [readLog, read]
  cases ending with
  | none => exact Prod.ext (List.append_nil _) rfl
  | some offset => rfl

/-- Every segment but the last scans to its end, and the last to its end or to a torn
tail; these are the records found. -/
inductive Scans : List (Nat × Bytes) → List (Nat × Record) → Option Nat → Prop where
  | none : Scans [] [] none
  | last {seq : Nat} {bytes : Bytes} {records : List Record} {ending : Option Nat}
      (scanned : scanSegment (segmentPath seq) collect bytes [] = .ok (records, ending)) :
      Scans [(seq, bytes)] (tag seq records) ending
  | more {seq : Nat} {bytes : Bytes} {records : List Record} {files : List (Nat × Bytes)}
      {found : List (Nat × Record)} {ending : Option Nat} (later : files ≠ [])
      (clean : scanSegment (segmentPath seq) collect bytes [] = .ok (records, Option.none))
      (scans : Scans files found ending) :
      Scans ((seq, bytes) :: files) (tag seq records ++ found) ending

theorem readLog_eq_ok_iff {files : List (Nat × Bytes)} {found : List (Nat × Record)}
    {ending : Option Nat} : readLog files = (found, .ok ending) ↔ Scans files found ending := by
  constructor
  · intro read
    induction files generalizing found with
    | nil =>
        cases read
        exact .none
    | cons file files ih =>
        obtain ⟨seq, bytes⟩ := file
        rcases whole : readSegment (segmentPath seq) bytes with ⟨records, failure | ended⟩
        · rw [readLog, whole] at read
          cases read
        · have scanned := scanSegment_collect_eq_ok_iff.mpr whole
          by_cases none : files = []
          · rw [none, readLog_last whole] at read
            cases read
            rw [none]
            exact .last scanned
          · cases ended with
            | none =>
                rw [readLog_clean whole] at read
                obtain ⟨rfl, ended⟩ := Prod.mk.inj read
                exact .more none scanned (ih (Prod.ext rfl ended))
            | some offset =>
                rw [readLog, whole] at read
                dsimp only at read
                rw [if_pos (List.length_pos_iff.mpr none)] at read
                cases read
  · intro scans
    induction scans with
    | none => rfl
    | last scanned => exact readLog_last (scanSegment_collect_eq_ok_iff.mp scanned)
    | more later clean scans ih =>
        rw [readLog_clean (scanSegment_collect_eq_ok_iff.mp clean), ih]

/-- The last segment decides how a log ends, and another with the same records does as
well in its place. -/
theorem Scans.last_segment {files : List (Nat × Bytes)} {seq : Nat} {bytes : Bytes}
    {found : List (Nat × Record)} {ending : Option Nat}
    (scans : Scans (files ++ [(seq, bytes)]) found ending) :
    ∃ records, scanSegment (segmentPath seq) collect bytes [] = .ok (records, ending) ∧
      ∀ left ended, scanSegment (segmentPath seq) collect left [] = .ok (records, ended) →
        Scans (files ++ [(seq, left)]) found ended := by
  induction files generalizing found with
  | nil =>
      cases scans with
      | last scanned => exact ⟨_, scanned, fun left ended same => .last same⟩
      | more later clean scans => exact absurd rfl later
  | cons file files ih =>
      rw [List.cons_append] at scans
      have some : ∀ last, files ++ [last] ≠ [] := fun last => by simp
      generalize whole : files ++ [(seq, bytes)] = rest at scans
      cases scans with
      | last _ => exact absurd whole (some _)
      | more later clean scans =>
          subst whole
          obtain ⟨records, scanned, replaced⟩ := ih scans
          exact ⟨records, scanned,
            fun left ended same => .more (some _) clean (replaced left ended same)⟩

theorem readLog_append (closed : List (Nat × List Record)) (files : List (Nat × Bytes))
    (fits : ∀ segment ∈ closed, ∀ record ∈ segment.2, Fits record.ops) :
    readLog (closed.map (fun segment => (segment.1, segmentBytes segment.2)) ++ files) =
      (tagged closed ++ (readLog files).1, (readLog files).2) := by
  induction closed with
  | nil => rfl
  | cons segment closed ih =>
      have clean : Reads (segmentBytes segment.2) segment.2 none := rfl
      have later := ih (fun other member => fits other (List.mem_cons_of_mem _ member))
      rw [List.map_cons, List.cons_append,
        readLog_clean (readSegment_reads clean (fits segment List.mem_cons_self)), later,
        tagged_cons, List.append_assoc]

end Replay

/-! ### The framing check, exactly -/

/-- A number that a `u32` field can hold, and is read back from. -/
structure Kept32 (number : Nat) : Prop where
  bound : number < 256 ^ 4
  readBack : ofLe (toLe 4 number) = number

theorem kept32_of_le {number : Nat} (bound : number ≤ maxPayload) : Kept32 number := by
  have small : number < 256 ^ 4 := Nat.lt_succ_of_le bound
  exact ⟨small, ofLe_toLe small⟩

theorem bodyLen_eq (op : Op) :
    bodyLen op = 4 + op.key.length + 4 + (op.written.getD []).length := by
  cases op <;> rfl

theorem Fits.fields {ops : List Op} (fits : Fits ops) {op : Op} (member : op ∈ ops) :
    Kept32 op.key.length ∧ Kept32 (op.written.getD []).length := by
  have whole := (bodyLen_le_payloadLen member).trans fits.bound
  rw [bodyLen_eq] at whole
  exact ⟨kept32_of_le (by omega), kept32_of_le (by omega)⟩

theorem scanRecords_frame {Collected : Type}
    (sink : Collected → Record → Except Failure Collected) (path : String) (fuel pos : Nat)
    {record : Record} (fits : Fits record.ops) (rest : Bytes) (collected : Collected) :
    scanRecords path sink (fuel + 1) pos (frame record ++ rest) collected = (do
      let collected ← sink collected record
      scanRecords path sink fuel (pos + (frame record).length) rest collected) := by
  rw [scanRecords_succ, head_frame path pos fits rest]
  dsimp only
  rw [List.drop_left]

/-- The computed size of a payload is its size. Ops that pass the check have every number that
the encoder and the framing cast to 32 bits small enough for that, and are found again by the
scan, whatever follows them. Ops that do not pass are none at all or too large. -/
theorem checkOps_exact (ops : List Op) :
    (∀ record : Record, record.ops = ops → payloadLen ops = (encodePayload record).length) ∧
      (checkOps ops = .ok () →
        Kept32 ops.length ∧
          (∀ op ∈ ops, Kept32 op.key.length ∧ Kept32 (op.written.getD []).length) ∧
          ∀ record : Record, record.ops = ops →
            Kept32 (encodePayload record).length ∧
              minPayload ≤ (encodePayload record).length ∧
              ∀ {Collected : Type} (sink : Collected → Record → Except Failure Collected)
                (path : String) (fuel pos : Nat) (rest : Bytes) (collected : Collected),
                scanRecords path sink (fuel + 1) pos (frame record ++ rest) collected = (do
                  let collected ← sink collected record
                  scanRecords path sink fuel (pos + (frame record).length) rest collected)) ∧
      ∀ failure, checkOps ops = .error failure →
        ops = [] ∨ ∀ record : Record, record.ops = ops →
          maxPayload < (encodePayload record).length := by
  have sized : ∀ record : Record, record.ops = ops →
      payloadLen ops = (encodePayload record).length := by
    rintro record rfl
    exact (length_encodePayload record).symm
  refine ⟨sized, ?_, ?_⟩
  · intro accepted
    have fits := (checkOps_eq_ok_iff ops).mp accepted
    refine ⟨⟨fits.count, ofLe_toLe fits.count⟩, fun op member => fits.fields member, ?_⟩
    rintro record rfl
    refine ⟨kept32_of_le ?_, ?_, ?_⟩
    · rw [length_encodePayload]
      exact fits.bound
    · rw [length_encodePayload]
      exact minPayload_le fits.nonempty
    · intro Collected sink path fuel pos rest collected
      exact scanRecords_frame sink path fuel pos fits rest collected
  · intro failure refused
    by_cases empty : ops = []
    · exact Or.inl empty
    · right
      intro record same
      rw [← sized record same]
      by_contra small
      have accepted := (checkOps_eq_ok_iff ops).mpr ⟨empty, Nat.not_lt.mp small⟩
      rw [accepted] at refused
      cases refused

/-- A put of one byte under a key of one byte passes, and is the first thing a scan finds. -/
theorem checkOps_exact_put :
    checkOps [.put [107] [118]] = .ok () ∧ minPayload ≤ payloadLen [.put [107] [118]] ∧
      ∀ rest, scanRecords "wal" collect 1 12 (frame ⟨1, 1, [.put [107] [118]]⟩ ++ rest) [] =
        scanRecords "wal" collect 0 47 rest [⟨1, 1, [.put [107] [118]]⟩] := by
  have accepted : checkOps [.put [107] [118]] = .ok () := rfl
  obtain ⟨sized, passed, _⟩ := checkOps_exact [.put [107] [118]]
  obtain ⟨_, _, found⟩ := passed accepted
  obtain ⟨_, least, scanned⟩ := found ⟨1, 1, [.put [107] [118]]⟩ rfl
  refine ⟨accepted, ?_, fun rest => scanned collect "wal" 0 12 rest []⟩
  rw [sized ⟨1, 1, [.put [107] [118]]⟩ rfl]
  exact least

end Keystory.Wal
