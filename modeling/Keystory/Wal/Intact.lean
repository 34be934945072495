/-
The log when every file-system call succeeds: what each operation does to the
list of segments and to the records in them.
-/

import Keystory.Wal.Recovery

namespace Keystory

open General Wal

def Wal.Lists (wal : Wal) (segments : Segments) (rows : List (Nat × List Record)) : Prop :=
  wal.poisoned = none ∧ ∃ closed file kept, rows = closed ++ [(wal.segSeq, kept)] ∧
    wal.Backed segments closed wal.segSeq file kept []

namespace Wal

variable {wal : Wal} {segments : Segments} {rows : List (Nat × List Record)}

def Rests (segments : Segments) (rows : List (Nat × List Record)) : Prop :=
  ∃ closed last file kept, rows = closed ++ [(last, kept)] ∧
    Shape segments closed last file kept [] ∧ file.bytes = segmentBytes kept

theorem Lists.rests (lists : wal.Lists segments rows) : Rests segments rows := by
  obtain ⟨usable, closed, file, kept, same, backed⟩ := lists
  refine ⟨closed, wal.segSeq, file, kept, same, backed.shape, ?_⟩
  simpa using backed.whole usable

theorem Rests.replays (rests : Rests segments rows) : Replays segments (tagged rows) none := by
  obtain ⟨closed, last, file, kept, rfl, shape, whole⟩ := rests
  have clean : Reads file.bytes kept none := whole
  have replays := shape.replays clean (List.prefix_append kept [])
  simpa using replays

theorem Rests.keys_eq (rests : Rests segments rows) : segments.keys = rows.map Prod.fst := by
  obtain ⟨closed, last, file, kept, rfl, shape, _⟩ := rests
  simp [SortedMap.keys, shape.entries, closedFiles]

/-! ### Programs that are not disturbed -/

section Leads

variable {Result : Type} {post : Result → Segments → Prop}

/-- What the program comes to when no call fails. -/
abbrev Leads (program : SegmentProgram Result) (post : Result → Segments → Prop)
    (segments : Segments) : Prop :=
  program.Spec (directory .none) (fun _ => True) post segments

theorem leads_request (call : Call) {next : call.Reply → SegmentProgram Result}
    (succeeds : Leads (next (serve call .ok segments).1) post (serve call .ok segments).2) :
    Leads (Program.request call >>= next) post segments :=
  spec_request call trivial succeeds (fun _ considered => absurd rfl considered)

end Leads

/-! ### Rotation -/

def RotatedTo (wal : Wal) (rows : List (Nat × List Record)) (outcome : Except Failure Nat × Wal)
    (segments : Segments) : Prop :=
  match outcome.1 with
  | .ok next => next = wal.segSeq + 1 ∧ outcome.2.Lists segments (rows ++ [(next, [])]) ∧
      ∃ closed kept, rows = closed ++ [(wal.segSeq, kept)]
  | .error _ => outcome.2 = wal ∧ wal.Lists segments rows

theorem rotateSegment_leads (lists : wal.Lists segments rows) :
    Leads wal.rotateSegment (RotatedTo wal rows) segments := by
  obtain ⟨usable, closed, file, kept, rfl, backed⟩ := lists
  have settled := backed.synced usable
  rw [List.append_nil] at settled
  simp only [rotateSegment, checkUsable, usable, (backed.current usable).2]
  apply leads_request (.sync wal.segSeq)
  simp only [serve, if_true]
  by_cases exhausted : wal.segSeq = 4294967295
  · rw [if_pos exhausted]
    exact ⟨trivial, rfl, usable, closed, _, kept, rfl, settled⟩
  · rw [if_neg exhausted]
    have above := Nat.lt_succ_self wal.segSeq
    have absent := SortedMap.find?_beyond settled.shape.entries above
    have born := settled.born above
    have created : touch (modify segments wal.segSeq (·.sync)) (wal.segSeq + 1) =
        (modify segments wal.segSeq (·.sync)).insert (wal.segSeq + 1) .empty := by
      rw [touch, absent]
    apply leads_request (.createNew (wal.segSeq + 1))
    simp only [serve, created, absent, Option.isNone_none, if_true]
    apply leads_request (.write (wal.segSeq + 1) (some 0) segmentHeader)
    apply leads_request (.sync (wal.segSeq + 1))
    apply leads_request .syncDir
    exact ⟨trivial, rfl, ⟨usable, _, _, [], rfl, born.opened⟩, closed, kept, rfl⟩

/-! ### Append -/

/-- Where new records go: after those of the last segment, or, unless it is still
empty, into the next one. -/
inductive Extended (records : List Record) :
    List (Nat × List Record) → List (Nat × List Record) → Prop
  | here (closed : List (Nat × List Record)) (seq : Nat) (kept : List Record) :
      Extended records (closed ++ [(seq, kept)]) (closed ++ [(seq, kept ++ records)])
  | rolled (closed : List (Nat × List Record)) (seq : Nat) (kept : List Record)
      (used : kept ≠ []) :
      Extended records (closed ++ [(seq, kept)]) (closed ++ [(seq, kept)] ++ [(seq + 1, records)])

theorem writeGroup_leads {closed : List (Nat × List Record)} {file : File UInt8}
    {kept records : List Record} (usable : wal.poisoned = none)
    (backed : wal.Backed segments closed wal.segSeq file kept [])
    (fits : ∀ record ∈ records, Fits record.ops) :
    Leads (wal.writeGroup (frames records)) (fun outcome segments =>
      outcome.1 = .ok () ∧ outcome.2.Lists segments (closed ++ [(wal.segSeq, kept ++ records)]))
      segments := by
  have extended := backed.extended usable fits
  rw [List.append_nil] at extended
  apply leads_request (.write wal.file.seq wal.file.position (frames records))
  apply leads_request (.sync wal.file.seq)
  refine ⟨trivial, rfl, usable, closed, .settled (segmentBytes (kept ++ records)),
    kept ++ records, rfl, ?_⟩
  change Backed _ (modify (modify segments wal.file.seq
    (writeFile · wal.file.position (frames records))) wal.file.seq (·.sync)) _ _ _ _ _
  rw [(backed.current usable).2]
  exact extended

def AppendedTo (wal : Wal) (rows : List (Nat × List Record)) (records : List Record)
    (outcome : Except Failure Unit × Wal) (segments : Segments) : Prop :=
  match outcome.1 with
  | .ok () => ∃ after, Extended records rows after ∧ outcome.2.Lists segments after
  | .error _ => outcome.2 = wal ∧ wal.Lists segments rows

theorem appendMany_leads (lists : wal.Lists segments rows) {records : List Record}
    (some : records ≠ []) :
    Leads (wal.appendMany records) (AppendedTo wal rows records) segments := by
  have again := lists
  obtain ⟨usable, closed, file, kept, rfl, backed⟩ := lists
  simp only [appendMany, checkUsable, usable]
  rw [if_neg (by simp [some])]
  cases framed : frameAll records with
  | error failure => exact ⟨trivial, rfl, again⟩
  | ok buf =>
      obtain ⟨rfl, fits⟩ := frameAll_ok framed
      by_cases full : wal.segBytes + (frames records).length > wal.maxSegBytes ∧
          wal.segBytes > headerLen
      · simp only [if_pos full]
        have used : kept ≠ [] := by
          rintro rfl
          have counted := backed.counted usable
          have length := length_segmentHeader
          rw [segmentBytes, List.length_append, length] at counted
          exact absurd full.2 (by simp [counted, frames])
        apply Program.Spec.bind
        refine (rotateSegment_leads again).mono (fun _ _ => trivial) ?_
        intro outcome segments _ rotated
        obtain ⟨result, after⟩ := outcome
        cases result with
        | error failure => exact ⟨trivial, rotated⟩
        | ok next =>
            obtain ⟨rfl, ⟨fresh, front, current, last, same, backed⟩, _⟩ := rotated
            obtain ⟨rfl, ending⟩ := List.append_inj' same rfl
            obtain ⟨placed, rfl⟩ := Prod.mk.inj (List.cons.inj ending).1
            refine (writeGroup_leads fresh backed fits).mono (fun _ _ => trivial) ?_
            rintro ⟨result, final⟩ segments _ ⟨rfl, extended⟩
            rw [List.nil_append, show after.segSeq = wal.segSeq + 1 from placed.symm] at extended
            exact ⟨_, .rolled closed wal.segSeq kept used, extended⟩
      · simp only [if_neg full]
        refine (writeGroup_leads usable backed fits).mono (fun _ _ => trivial) ?_
        rintro ⟨result, final⟩ segments _ ⟨rfl, extended⟩
        exact ⟨_, .here closed wal.segSeq kept, extended⟩

/-! ### Removal -/

theorem removeAll_leads {gone rest : List (Nat × List Record)} {last : Nat} {file : File UInt8}
    {kept extra : List Record}
    (backed : wal.Backed segments (gone ++ rest) last file kept extra) :
    Leads (removeAll (gone.map Prod.fst)) (fun removed segments =>
      removed = true ∧ wal.Backed segments rest last file kept extra) segments := by
  induction gone generalizing segments with
  | nil => exact ⟨trivial, rfl, backed⟩
  | cons segment gone ih =>
      have present := backed.find?_oldest
      apply leads_request (.remove segment.1)
      simp only [serve, present, if_true]
      exact ih backed.removed

def Shed (bound : Nat) (rows rest : List (Nat × List Record)) : Prop :=
  ∃ gone, rows = gone ++ rest ∧ (∀ row ∈ gone, row.1 < bound) ∧ ∀ row ∈ rest, bound ≤ row.1

theorem removeSegmentsBefore_leads {bound : Nat} (lists : wal.Lists segments rows)
    (within : bound ≤ wal.segSeq) :
    Leads (wal.removeSegmentsBefore bound) (fun _ segments =>
      ∃ rest, Shed bound rows rest ∧ wal.Lists segments rest) segments := by
  obtain ⟨usable, closed, file, kept, rfl, backed⟩ := lists
  obtain ⟨gone, rest, rfl, below, above, doomed⟩ := backed.doomed within
  have shed : Shed bound (gone ++ rest ++ [(wal.segSeq, kept)]) (rest ++ [(wal.segSeq, kept)]) := by
    refine ⟨gone, List.append_assoc _ _ _, below, ?_⟩
    intro row member
    rcases List.mem_append.mp member with inRest | last
    · exact above row inRest
    · cases List.mem_singleton.mp last
      exact within
  apply leads_request .list
  simp only [serve, doomed]
  apply Program.Spec.bind
  refine (removeAll_leads backed).mono (fun _ _ => trivial) ?_
  rintro removed segments _ ⟨rfl, backed⟩
  have after : wal.Lists segments (rest ++ [(wal.segSeq, kept)]) :=
    ⟨usable, rest, file, kept, rfl, backed⟩
  rw [if_pos rfl]
  by_cases none : (gone.map Prod.fst).isEmpty
  · rw [if_pos none]
    exact ⟨trivial, _, shed, after⟩
  · rw [if_neg none]
    apply leads_request .syncDir
    exact ⟨trivial, _, shed, after⟩

/-! ### Opening -/

theorem Resumed.lists {closed : List (Nat × List Record)} {last : Nat} {kept : List Record}
    {result : Except Failure Wal} (resumed : Resumed .none closed last kept [] result segments) :
    ∃ wal, result = .ok wal ∧ wal.Lists segments (closed ++ [(last, kept)]) := by
  cases result with
  | error failure => exact absurd rfl resumed
  | ok wal =>
      obtain ⟨usable, file, backed⟩ := resumed
      obtain ⟨rfl, _⟩ := backed.current usable
      exact ⟨wal, rfl, usable, closed, file, kept, rfl, backed⟩

def Reopens (segments : Segments) (rows : List (Nat × List Record)) : Prop :=
  Replays segments (tagged rows) none ∧ ∀ maxSegBytes, Leads (openLog maxSegBytes)
    (fun result segments => ∃ wal, result = .ok wal ∧ wal.Lists segments rows) segments

theorem Rests.reopens (rests : Rests segments rows) : Reopens segments rows := by
  refine ⟨rests.replays, ?_⟩
  intro maxSegBytes
  obtain ⟨closed, last, file, kept, rfl, shape, whole⟩ := rests
  have clean : Reads file.bytes (kept ++ []) none := by
    rw [List.append_nil]
    exact whole
  exact (openLog_spec shape clean List.prefix_rfl).mono (fun _ _ => trivial)
    (fun _ _ _ resumed => resumed.lists)

theorem reopens_empty (empty : segments.entries = []) : Reopens segments [(1, [])] := by
  constructor
  · intro Collected sink collected
    rw [files, empty]
    rfl
  · intro maxSegBytes
    apply leads_request .readDir
    simp only [serve, empty, List.map_nil, List.getLast?_nil]
    exact (resume_first empty).mono (fun _ _ => trivial) (fun _ _ _ resumed => resumed.lists)

end Wal

end Keystory
