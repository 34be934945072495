/-
What the scan makes of segments that are not whole: cut anywhere, or damaged in
one place. A cut loses exactly the records it cuts into, and damage to a record
ends the scan there.
-/

import Keystory.Storage.Burst
import Keystory.Wal.Scan

namespace Keystory.Wal

open General

/-! ### Cuts -/

def boundary (records : List Record) (count : Nat) : Nat :=
  (segmentBytes (records.take count)).length

theorem headerLen_le_boundary (records : List Record) (count : Nat) :
    headerLen ≤ boundary records count := by
  rw [boundary, segmentBytes, List.length_append, length_segmentHeader]
  omega

theorem segmentBytes_mono {first second : List Record} (inside : first <+: second) :
    segmentBytes first <+: segmentBytes second := by
  obtain ⟨more, rfl⟩ := inside
  rw [segmentBytes_append]
  exact List.prefix_append _ _

theorem boundary_mono (records : List Record) {first second : Nat} (order : first ≤ second) :
    boundary records first ≤ boundary records second :=
  (segmentBytes_mono (List.take_prefix_take_left order)).length_le

theorem Reads.length_le {bytes : Bytes} {whole : List Record} {ending : Option Nat}
    (reads : Reads bytes whole ending) (long : headerLen ≤ bytes.length) :
    (segmentBytes whole).length ≤ bytes.length := by
  cases ending with
  | none => exact Nat.le_of_eq (congrArg List.length (show bytes = _ from reads).symm)
  | some offset =>
      rcases reads with ⟨short, _, _⟩ | ⟨torn, _, _, same, _⟩
      · omega
      · rw [same, List.length_append]
        omega

theorem Reads.ending_short {bytes : Bytes} {whole : List Record} {ending : Option Nat}
    (reads : Reads bytes whole ending) (short : bytes.length < headerLen) :
    whole = [] ∧ ending = some 0 := by
  have header := length_segmentHeader
  cases ending with
  | none =>
      rw [show bytes = _ from reads, segmentBytes, List.length_append] at short
      omega
  | some offset =>
      rcases reads with ⟨_, none, start⟩ | ⟨torn, _, _, same, _⟩
      · exact ⟨none, congrArg some start⟩
      · rw [same, segmentBytes, List.length_append, List.length_append] at short
        omega

theorem Reads.lt_length_iff {records whole : List Record} {part : Bytes} {ending : Option Nat}
    (reads : Reads part whole ending) (inside : whole <+: records)
    (start : part <+: segmentBytes records) (fits : ∀ record ∈ records, Fits record.ops)
    {number : Nat} (bound : number < records.length) :
    number < whole.length ↔ boundary records (number + 1) ≤ part.length := by
  constructor
  · intro counted
    have long : headerLen ≤ part.length := by
      by_contra short
      rw [(reads.ending_short (Nat.not_le.mp short)).1] at counted
      exact absurd counted (Nat.not_lt_zero number)
    have earlier : records.take (number + 1) <+: whole := by
      rw [List.prefix_iff_eq_take.mp inside]
      exact List.take_prefix_take_left counted
    exact Nat.le_trans (segmentBytes_mono earlier).length_le (reads.length_le long)
  · intro ends
    have there : segmentBytes (records.take (number + 1)) <+: part :=
      List.prefix_of_prefix_length_le (segmentBytes_mono (List.take_prefix _ _)) start ends
    have among := (reads.contains there inside (List.take_prefix _ _) fits).length_le
    rw [List.length_take, Nat.min_eq_left bound] at among
    exact among

/-- On any leading part of a segment the scan hands over exactly the records wholly in
it, and reports where the last of them ends unless nothing follows it. -/
theorem scanSegment_exact (path : String) {records : List Record}
    (accepted : ∀ record ∈ records, checkOps record.ops = .ok ()) :
    (∀ part, part <+: segmentBytes records →
      ∃ count ending, count ≤ records.length ∧
        (∀ number < records.length,
          (number < count ↔ boundary records (number + 1) ≤ part.length)) ∧
        (part.length < headerLen → ending = some 0) ∧
        ((∃ number ≤ records.length, part.length = boundary records number) → ending = none) ∧
        (headerLen ≤ part.length →
          (∀ number ≤ records.length, part.length ≠ boundary records number) →
            ending = some (boundary records count)) ∧
        scanSegment path collect part [] = .ok (records.take count, ending) ∧
        ∀ {Collected : Type} (sink : Collected → Record → Except Failure Collected)
          (collected : Collected), scanSegment path sink part collected = (do
            let collected ← (records.take count).foldlM sink collected
            return (collected, ending))) ∧
      scanSegment path collect (segmentBytes records) [] = .ok (records, none) := by
  have fits : ∀ record ∈ records, Fits record.ops :=
    fun record member => (checkOps_eq_ok_iff _).mp (accepted record member)
  constructor
  · intro part start
    obtain ⟨whole, ending, inside, reads⟩ := exists_reads start fits
    have wholeFits : ∀ record ∈ whole, Fits record.ops :=
      fun record member => fits record (inside.subset member)
    have taken : records.take whole.length = whole := (List.prefix_iff_eq_take.mp inside).symm
    have lastBoundary : boundary records whole.length = (segmentBytes whole).length := by
      rw [boundary, taken]
    have counted : ∀ number < records.length,
        (number < whole.length ↔ boundary records (number + 1) ≤ part.length) :=
      fun number bound => reads.lt_length_iff inside start fits bound
    have scanned : ∀ {Collected : Type} (sink : Collected → Record → Except Failure Collected)
        (collected : Collected), scanSegment path sink part collected = (do
          let collected ← (records.take whole.length).foldlM sink collected
          return (collected, ending)) := by
      intro Collected sink collected
      rw [taken]
      exact scanSegment_reads reads wholeFits collected
    have gathered : scanSegment path collect part [] = .ok (records.take whole.length, ending) := by
      rw [scanned, foldlM_collect]
      rfl
    refine ⟨whole.length, ending, inside.length_le, counted, ?_, ?_, ?_, gathered, scanned⟩
    · exact fun short => (reads.ending_short short).2
    · rintro ⟨number, bound, ends⟩
      have least := headerLen_le_boundary records number
      have atEnd : number ≤ whole.length := by
        cases number with
        | zero => exact Nat.zero_le _
        | succ number => exact (counted number bound).mpr (Nat.le_of_eq ends.symm)
      have below := boundary_mono records atEnd
      rw [lastBoundary] at below
      cases ending with
      | none => rfl
      | some offset =>
          rcases reads with ⟨short, _, _⟩ | ⟨torn, _, some, same, _⟩
          · omega
          · have positive := List.length_pos_iff.mpr some
            rw [same, List.length_append] at ends
            omega
    · intro long between
      cases ending with
      | none =>
          have ends : part.length = boundary records whole.length := by
            rw [lastBoundary, show part = _ from reads]
          exact absurd ends (between whole.length inside.length_le)
      | some offset =>
          rcases reads with ⟨short, _, _⟩ | ⟨torn, _, _, _, place⟩
          · omega
          · rw [place, lastBoundary]
  · have clean : Reads (segmentBytes records) records none := rfl
    rw [scanSegment_reads clean fits, foldlM_collect]
    rfl

def putRecord : Record := ⟨1, 1, [.put [107] [118]]⟩
def deleteRecord : Record := ⟨1, 2, [.delete [107]]⟩
def batchRecord : Record := ⟨1, 3, [.put [107] [], .put [107] [119]]⟩

def mixedRecords : List Record := [putRecord, deleteRecord, batchRecord]

theorem scanSegment_exact_mixed :
    (∀ record ∈ mixedRecords, checkOps record.ops = .ok ()) ∧
      (∃ count ending, scanSegment "wal-0000000001.log" collect
        ((segmentBytes mixedRecords).take 60) [] = .ok (mixedRecords.take count, ending)) ∧
      scanSegment "wal-0000000001.log" collect (segmentBytes mixedRecords) [] =
        .ok (mixedRecords, none) := by
  have accepted : ∀ record ∈ mixedRecords, checkOps record.ops = .ok () := by
    simp [mixedRecords, putRecord, deleteRecord, batchRecord, checkOps, payloadLen, bodyLen,
      maxPayload]
  obtain ⟨cuts, whole⟩ := scanSegment_exact "wal-0000000001.log" accepted
  obtain ⟨count, ending, _, _, _, _, _, scanned, _⟩ := cuts _ (List.take_prefix 60 _)
  exact ⟨accepted, ⟨count, ending, scanned⟩, whole⟩

/-! ### Damaged headers -/

/-- A burst in the header is never taken for another version of the format. -/
theorem scanSegment_header_burst {header : Bytes} (burst : Burst segmentHeader header)
    (path : String) (rest : Bytes) :
    ∃ text, ∀ {Collected : Type} (sink : Collected → Record → Except Failure Collected)
      (collected : Collected), scanSegment path sink (header ++ rest) collected =
        if rest = [] then .ok (collected, some 0) else .error (.invalidData text) := by
  have width : header.length = headerLen := burst.length_eq.trans length_segmentHeader
  have start : (header ++ rest).take headerLen = header := List.take_left' width
  have long : ¬ (header ++ rest).length < headerLen := by
    rw [List.length_append]
    omega
  have split : Burst ((segmentMagic ++ toLe 4 segmentVersion) ++
      toLe 4 (crc32 (segmentMagic ++ toLe 4 segmentVersion)).toNat)
      (header.take 8 ++ header.drop 8) := by
    rw [List.take_append_drop]
    exact burst
  have bad : header.take 4 ≠ segmentMagic ∨
      (crc32 (header.take 8)).toNat ≠ ofLe (header.drop 8) := by
    right
    refine split.crc32_ne (length_toLe _ _) ?_ (ofLe_toLe_u32 _).symm
    rw [List.length_drop, width]
    rfl
  have alone : (header ++ rest).length = headerLen ↔ rest = [] := by
    rw [List.length_append, width, Nat.add_eq_left, List.length_eq_zero_iff]
  apply Exists.intro
  intro Collected sink collected
  unfold scanSegment
  simp only [if_neg long, start, if_pos bad, alone]
  rfl

/-! ### Damaged records -/

def guarded (record : Record) : Bytes :=
  encodePayload record ++ toLe 4 (crc32 (encodePayload record)).toNat

/-- A frame with another length field, or with a burst behind its length field. -/
inductive FrameDamage (record : Record) : Bytes → Prop where
  | length (field : Bytes) (width : field.length = 4)
      (other : field ≠ toLe 4 (encodePayload record).length) :
      FrameDamage record (field ++ guarded record)
  | region (changed : Bytes) (burst : Burst (guarded record) changed) :
      FrameDamage record (toLe 4 (encodePayload record).length ++ changed)

def Stops (pos : Nat) (outcome : Except Failure (Option Nat)) : Prop :=
  outcome = .ok (some pos) ∨ ∃ text, outcome = .error (.invalidData text)

theorem length_guarded (record : Record) :
    (guarded record).length = (encodePayload record).length + 4 := by
  rw [guarded, List.length_append, length_toLe]

theorem head_eq_stop {path : String} {pos : Nat} {rest : Bytes}
    {outcome : Except Failure (Option Nat)} (stopped : head path pos rest = .stop outcome)
    (some : rest ≠ []) : Stops pos outcome := by
  unfold head at stopped
  dsimp only at stopped
  split_ifs at stopped with short tiny unfinished damaged
  · cases stopped
    exact Or.inl rfl
  · cases stopped
    exact Or.inl rfl
  · cases stopped
    exact Or.inl rfl
  · cases stopped
    exact Or.inl rfl
  · split at stopped
    · cases stopped
      exact Or.inr ⟨_, rfl⟩
    · cases stopped

/-- Read with another length a payload does not decode, even if some checksum matches. -/
theorem head_length_ne (path : String) {record found : Record} (fits : Fits record.ops)
    {field : Bytes} (width : field.length = 4)
    (other : field ≠ toLe 4 (encodePayload record).length) (pos total : Nat) (rest : Bytes) :
    head path pos (field ++ guarded record ++ rest) ≠ .record found total := by
  intro reached
  have start : (field ++ (guarded record ++ rest)).take 4 = field := List.take_left' width
  have behind : (field ++ (guarded record ++ rest)).drop 4 = guarded record ++ rest :=
    List.drop_left' width
  rw [List.append_assoc, head_eq_record_iff, start, behind] at reached
  obtain ⟨size, present, _, _, decoded⟩ := reached
  have payload : encodePayload record <+: guarded record ++ rest := by
    rw [guarded, List.append_assoc]
    exact List.prefix_append _ _
  have same := decodePayload_unique (List.take_prefix _ _) payload decoded
    (decodePayload_encodePayload fits)
  rw [List.length_append, width] at present
  rw [List.length_take_of_le (by omega)] at same
  apply other
  apply ofLe_inj (by rw [width, length_toLe])
  rw [same, ofLe_toLe (length_encodePayload_lt fits)]

theorem head_burst_ne (path : String) {record found : Record} (fits : Fits record.ops)
    {changed : Bytes} (burst : Burst (guarded record) changed) (pos total : Nat) (rest : Bytes) :
    head path pos (toLe 4 (encodePayload record).length ++ changed ++ rest) ≠
      .record found total := by
  intro reached
  have width : changed.length = (encodePayload record).length + 4 := by
    rw [burst.length_eq, length_guarded]
  have start : (toLe 4 (encodePayload record).length ++ (changed ++ rest)).take 4 =
      toLe 4 (encodePayload record).length := List.take_left' (length_toLe _ _)
  have behind : (toLe 4 (encodePayload record).length ++ (changed ++ rest)).drop 4 =
      changed ++ rest := List.drop_left' (length_toLe _ _)
  have field := ofLe_toLe (length_encodePayload_lt fits)
  rw [List.append_assoc, head_eq_record_iff, start, ← List.drop_drop, behind, field] at reached
  obtain ⟨_, _, _, valid, _⟩ := reached
  have payload : (changed ++ rest).take (encodePayload record).length =
      changed.take (encodePayload record).length :=
    List.take_append_of_le_length (by omega)
  have stored : ((changed ++ rest).drop (encodePayload record).length).take 4 =
      changed.drop (encodePayload record).length := by
    rw [List.drop_append_of_le_length (by omega)]
    exact List.take_left' (by rw [List.length_drop]; omega)
  rw [payload, stored] at valid
  have split : Burst (encodePayload record ++ toLe 4 (crc32 (encodePayload record)).toNat)
      (changed.take (encodePayload record).length ++
        changed.drop (encodePayload record).length) := by
    rw [List.take_append_drop]
    exact burst
  exact split.crc32_ne (length_toLe _ _) (by rw [List.length_drop]; omega)
    (ofLe_toLe_u32 _).symm valid

theorem FrameDamage.head_stop {record : Record} {damaged : Bytes}
    (damage : FrameDamage record damaged) (fits : Fits record.ops) (path : String) (pos : Nat)
    (rest : Bytes) :
    ∃ outcome, Stops pos outcome ∧ head path pos (damaged ++ rest) = .stop outcome := by
  have some : damaged ++ rest ≠ [] := by
    intro empty
    have length := congrArg List.length empty
    cases damage with
    | length field width other =>
        rw [List.length_append, List.length_append, width, List.length_nil] at length
        omega
    | region changed burst =>
        rw [List.length_append, List.length_append, length_toLe, List.length_nil] at length
        omega
  cases reached : head path pos (damaged ++ rest) with
  | stop outcome => exact ⟨outcome, head_eq_stop reached some, rfl⟩
  | record found total =>
      exfalso
      cases damage with
      | length field width other =>
          exact head_length_ne path fits width other pos total rest reached
      | region changed burst => exact head_burst_ne path fits burst pos total rest reached

theorem FrameDamage.readSegment_eq {before : List Record} {record : Record} {damaged : Bytes}
    (damage : FrameDamage record damaged) (beforeFits : ∀ other ∈ before, Fits other.ops)
    (fits : Fits record.ops) (path : String) (rest : Bytes) :
    ∃ outcome, Stops (segmentBytes before).length outcome ∧
      readSegment path (segmentBytes before ++ (damaged ++ rest)) = (before, outcome) := by
  obtain ⟨outcome, stops, stopped⟩ :=
    damage.head_stop fits path (segmentBytes before).length rest
  refine ⟨outcome, stops, ?_⟩
  have some : (damaged ++ rest).length ≠ 0 := by
    intro none
    rw [List.length_eq_zero_iff.mp none, head_nil] at stopped
    cases stopped
    rcases stops with impossible | ⟨text, impossible⟩ <;> cases impossible
  obtain ⟨fuel, length⟩ := Nat.exists_eq_succ_of_ne_zero some
  rw [readSegment_frames beforeFits, length, readRecords_stop stopped, List.append_nil]

theorem readLog_stops {seq pos : Nat} {bytes : Bytes} {records : List Record}
    {outcome : Except Failure (Option Nat)} (stops : Stops pos outcome)
    (read : readSegment (segmentPath seq) bytes = (records, outcome))
    {later : List (Nat × Bytes)} (some : later ≠ []) :
    ∃ text, readLog ((seq, bytes) :: later) = (tag seq records, .error (.invalidData text)) := by
  have positive := List.length_pos_iff.mpr some
  rw [readLog, read]
  rcases stops with rfl | ⟨text, rfl⟩
  · dsimp only
    rw [if_pos positive]
    exact ⟨_, rfl⟩
  · exact ⟨text, rfl⟩

/-- A damaged record ends the scan: the records before it are handed over, nothing else
is, and a replay with a later segment is refused. -/
theorem damaged_frame_ends_scan {before after : List Record} {record : Record}
    (accepted : ∀ other ∈ before ++ record :: after, checkOps other.ops = .ok ())
    {damaged : Bytes} (damage : FrameDamage record damaged) :
    (∀ path, ∃ outcome, Stops (segmentBytes before).length outcome ∧
      ∀ {Collected : Type} (sink : Collected → Record → Except Failure Collected)
        (collected : Collected),
        scanSegment path sink (segmentBytes before ++ (damaged ++ frames after)) collected = (do
          let collected ← before.foldlM sink collected
          let ending ← outcome
          return (collected, ending))) ∧
      ∀ (closed : List (Nat × List Record)) (seq : Nat) (later : List (Nat × Bytes)),
        (∀ segment ∈ closed, ∀ other ∈ segment.2, checkOps other.ops = .ok ()) → later ≠ [] →
        ∃ text, ∀ {Collected : Type} (sink : Collected → Nat → Record → Except Failure Collected)
          (collected : Collected),
          replay sink (closed.map (fun segment => (segment.1, segmentBytes segment.2)) ++
              (seq, segmentBytes before ++ (damaged ++ frames after)) :: later) collected = (do
            let _ ← (tagged (closed ++ [(seq, before)])).foldlM
              (fun collected entry => sink collected entry.1 entry.2) collected
            .error (.invalidData text)) := by
  have fits : ∀ other ∈ before ++ record :: after, Fits other.ops :=
    fun other member => (checkOps_eq_ok_iff _).mp (accepted other member)
  have beforeFits : ∀ other ∈ before, Fits other.ops :=
    fun other member => fits other (List.mem_append_left _ member)
  have recordFits : Fits record.ops :=
    fits record (List.mem_append_right _ List.mem_cons_self)
  have reading := damage.readSegment_eq beforeFits recordFits
  constructor
  · intro path
    obtain ⟨outcome, stops, read⟩ := reading path (frames after)
    refine ⟨outcome, stops, ?_⟩
    intro Collected sink collected
    rw [scanSegment_eq, read]
    rfl
  · intro closed seq later closedAccepted some
    have closedFits : ∀ segment ∈ closed, ∀ other ∈ segment.2, Fits other.ops :=
      fun segment member other inside =>
        (checkOps_eq_ok_iff _).mp (closedAccepted segment member other inside)
    obtain ⟨outcome, stops, read⟩ := reading (segmentPath seq) (frames after)
    obtain ⟨text, refused⟩ := readLog_stops stops read some
    refine ⟨text, ?_⟩
    intro Collected sink collected
    rw [replay_eq, readLog_append closed _ closedFits, refused, tagged_append, tagged_singleton]
    rfl

/-- With its length field zeroed, the second of three records ends the scan. -/
theorem damaged_frame_ends_scan_mixed :
    ∃ outcome, Stops (segmentBytes [putRecord]).length outcome ∧
      scanSegment "wal-0000000001.log" collect (segmentBytes [putRecord] ++
        (([0, 0, 0, 0] ++ guarded deleteRecord) ++ frames [batchRecord])) [] = (do
          let ending ← outcome
          return ([putRecord], ending)) := by
  have accepted : ∀ other ∈ [putRecord] ++ deleteRecord :: [batchRecord],
      checkOps other.ops = .ok () := by
    simp [putRecord, deleteRecord, batchRecord, checkOps, payloadLen, bodyLen, maxPayload]
  obtain ⟨outcome, stops, scanned⟩ := (damaged_frame_ends_scan accepted
    (FrameDamage.length [0, 0, 0, 0] rfl (by decide))).1 "wal-0000000001.log"
  refine ⟨outcome, stops, ?_⟩
  rw [scanned]
  rfl

end Keystory.Wal
