/-
How long the files of the log become. An append that would take a segment with records in
it past its size goes to a new one, so no segment outgrows the larger of that size and a
header with one group: whatever calls fail, and wherever an operation is stopped.
-/

import Keystory.Wal.Recovery
import Keystory.Wal.Reopen

namespace Keystory

open General Wal

namespace Wal

/-! ### Directories of short files -/

def Sized (limit : Nat) (segments : Segments) : Prop :=
  ∀ seq file, segments.find? seq = some file → file.bytes.length ≤ limit

theorem find?_modify (segments : Segments) (seq other : Nat) (change : File UInt8 → File UInt8) :
    (modify segments seq change).find? other =
      if other = seq then (segments.find? other).map change else segments.find? other := by
  unfold modify
  cases found : segments.find? seq with
  | none =>
      by_cases same : other = seq
      · rw [if_pos same, same, found]
        rfl
      · rw [if_neg same]
  | some file =>
      rw [SortedMap.find?_insert]
      by_cases same : other = seq
      · rw [if_pos same, if_pos same, same, found]
        rfl
      · rw [if_neg same, if_neg same]

theorem find?_touch (segments : Segments) (seq other : Nat) :
    (touch segments seq).find? other =
      if other = seq then some ((segments.find? other).getD .empty) else segments.find? other := by
  unfold touch
  cases found : segments.find? seq with
  | none =>
      rw [SortedMap.find?_insert]
      by_cases same : other = seq
      · rw [if_pos same, if_pos same, same, found]
        rfl
      · rw [if_neg same, if_neg same]
  | some file =>
      by_cases same : other = seq
      · rw [if_pos same, same, found]
        rfl
      · rw [if_neg same]

variable {limit seq : Nat} {segments later : Segments}

theorem Sized.modify (sized : Sized limit segments) {change : File UInt8 → File UInt8}
    (small : ∀ file, segments.find? seq = some file → (change file).bytes.length ≤ limit) :
    Sized limit (Wal.modify segments seq change) := by
  intro other file found
  rw [find?_modify] at found
  by_cases same : other = seq
  · rw [if_pos same, same] at found
    obtain ⟨before, there, rfl⟩ := Option.map_eq_some_iff.mp found
    exact small before there
  · rw [if_neg same] at found
    exact sized other file found

theorem Sized.sync (sized : Sized limit segments) :
    Sized limit (Wal.modify segments seq (·.sync)) :=
  sized.modify fun file found => by
    rw [File.bytes_sync]
    exact sized seq file found

theorem Sized.harden (sized : Sized limit segments) (extent : Nat) :
    Sized limit (Wal.modify segments seq (·.harden extent)) :=
  sized.modify fun file found => by
    rw [File.bytes_harden]
    exact sized seq file found

theorem Sized.touch (sized : Sized limit segments) : Sized limit (Wal.touch segments seq) := by
  intro other file found
  rw [find?_touch] at found
  by_cases same : other = seq
  · rw [if_pos same, same] at found
    cases there : segments.find? seq with
    | none =>
        rw [there] at found
        cases found
        exact Nat.zero_le _
    | some before =>
        rw [there] at found
        cases found
        exact sized seq before there
  · rw [if_neg same] at found
    exact sized other file found

theorem Sized.erase (sized : Sized limit segments) : Sized limit (segments.erase seq) := by
  intro other file found
  rw [SortedMap.find?_erase] at found
  by_cases same : other = seq
  · rw [if_pos same] at found
    cases found
  · rw [if_neg same] at found
    exact sized other file found

theorem length_writeFile_le {file : File UInt8} {position : Option Nat} {size : Nat} (data : Bytes)
    (short : file.bytes.length ≤ size) (place : ∀ start, position = some start → start ≤ size) :
    (writeFile file position data).bytes.length ≤ size + data.length := by
  cases position with
  | none =>
      rw [writeFile, File.bytes_append, List.length_append]
      omega
  | some start =>
      have inside := place start rfl
      rw [writeFile, File.length_bytes_writeAt]
      omega

/-! ### A log in such a directory -/

/-- The log writes within its current segment, which is no longer than it thinks. -/
structure Placed (wal : Wal) (segments : Segments) : Prop where
  handle : wal.file.seq = wal.segSeq
  short : ∀ file, segments.find? wal.segSeq = some file → file.bytes.length ≤ wal.segBytes
  place : ∀ position, wal.file.position = some position → position ≤ wal.segBytes

structure Within (limit : Nat) (wal : Wal) (segments : Segments) : Prop where
  sized : Sized limit segments
  most : wal.maxSegBytes ≤ limit
  counted : wal.segBytes ≤ limit
  placed : wal.poisoned = none → wal.Placed segments

variable {wal : Wal} {faults : Faults}

theorem Within.poison (sized : Sized limit segments) (most : wal.maxSegBytes ≤ limit)
    (counted : wal.segBytes ≤ limit) (why : String) : (wal.poison why).Within limit segments :=
  ⟨sized, most, counted, fun usable => by cases usable⟩

theorem Within.elsewhere (within : wal.Within limit segments) (sized : Sized limit later)
    (same : later.find? wal.segSeq = segments.find? wal.segSeq) : wal.Within limit later where
  sized := sized
  most := within.most
  counted := within.counted
  placed := by
    intro usable
    obtain ⟨handle, short, place⟩ := within.placed usable
    exact ⟨handle, fun file found => short file (same ▸ found), place⟩

theorem Within.keep (within : wal.Within limit segments) {change : File UInt8 → File UInt8}
    (same : ∀ file, (change file).bytes = file.bytes) :
    wal.Within limit (Wal.modify segments seq change) where
  sized := within.sized.modify fun file found => by
    rw [same]
    exact within.sized seq file found
  most := within.most
  counted := within.counted
  placed := by
    intro usable
    obtain ⟨handle, short, place⟩ := within.placed usable
    refine ⟨handle, fun file found => ?_, place⟩
    rw [find?_modify] at found
    by_cases here : wal.segSeq = seq
    · rw [if_pos here] at found
      obtain ⟨before, there, rfl⟩ := Option.map_eq_some_iff.mp found
      rw [same]
      exact short before there
    · rw [if_neg here] at found
      exact short file found

theorem Within.sync (within : wal.Within limit segments) :
    wal.Within limit (Wal.modify segments seq (·.sync)) :=
  within.keep fun _ => File.bytes_sync

theorem Within.harden (within : wal.Within limit segments) (extent : Nat) :
    wal.Within limit (Wal.modify segments seq (·.harden extent)) :=
  within.keep fun _ => File.bytes_harden extent

theorem Within.erase (within : wal.Within limit segments) :
    wal.Within limit (segments.erase seq) where
  sized := within.sized.erase
  most := within.most
  counted := within.counted
  placed := by
    intro usable
    obtain ⟨handle, short, place⟩ := within.placed usable
    refine ⟨handle, fun file found => ?_, place⟩
    rw [SortedMap.find?_erase] at found
    by_cases here : wal.segSeq = seq
    · rw [if_pos here] at found
      cases found
    · rw [if_neg here] at found
      exact short file found

/-! ### Appends -/

theorem rollBack_within (cause : Failure) (sized : Sized limit segments)
    (most : wal.maxSegBytes ≤ limit) (counted : wal.segBytes ≤ limit)
    (handle : wal.file.seq = wal.segSeq) :
    (wal.rollBack cause).Spec (directory faults) (Sized limit) (Within limit) segments := by
  have cut : Sized limit (modify segments wal.file.seq (·.setLen 0 wal.segBytes)) :=
    sized.modify fun file _ => by
      rw [File.length_bytes_setLen]
      exact counted
  apply spec_setLen sized
  · apply spec_seek cut
    · apply spec_sync cut
      · refine ⟨cut.sync, cut.sync, most, counted, fun _ => ⟨handle, ?_, ?_⟩⟩
        · intro file found
          change (modify (modify segments wal.file.seq _) wal.file.seq _).find? wal.segSeq = _
            at found
          rw [find?_modify, if_pos handle.symm, find?_modify, if_pos handle.symm] at found
          obtain ⟨short, there, rfl⟩ := Option.map_eq_some_iff.mp found
          obtain ⟨before, _, rfl⟩ := Option.map_eq_some_iff.mp there
          rw [File.bytes_sync, File.length_bytes_setLen]
        · intro position moved
          obtain ⟨_, _, rfl⟩ := Option.map_eq_some_iff.mp moved
          exact Nat.le_refl _
      · intro extent _
        exact ⟨cut.harden extent, .poison (cut.harden extent) (by exact most) (by exact counted) _⟩
    · intro _
      exact ⟨cut, .poison cut most counted _⟩
  · intro _
    exact ⟨sized, .poison sized most counted _⟩
  · intro _
    exact ⟨cut, .poison cut most counted _⟩

theorem writeGroup_within (within : wal.Within limit segments) (usable : wal.poisoned = none)
    {buf : Bytes} (room : wal.segBytes + buf.length ≤ limit) :
    (wal.writeGroup buf).Spec (directory faults) (Sized limit)
      (fun outcome => outcome.2.Within limit) segments := by
  obtain ⟨handle, short, place⟩ := within.placed usable
  have written {part : Bytes} (most : part.length ≤ buf.length) :
      Sized limit (modify segments wal.file.seq (writeFile · wal.file.position part)) :=
    within.sized.modify fun file found => by
      have longer := length_writeFile_le part (short file (handle ▸ found)) place
      omega
  -- both ways of failing come to the same roll-back
  have undo {later : Segments} (sized : Sized limit later) (count : Nat) :
      (({ wal with file := wal.file.advance count }.rollBack .os) >>=
        fun wal => (pure (.error .os, wal) : SegmentProgram (Except Failure Unit × Wal))).Spec
        (directory faults) (Sized limit) (fun outcome => outcome.2.Within limit) later := by
    apply Program.Spec.bind
    have rolled : ({ wal with file := wal.file.advance count }.rollBack .os).Spec
        (directory faults) (Sized limit) (Within limit) later :=
      rollBack_within .os sized within.most within.counted handle
    exact rolled.mono (fun _ sized => sized) (fun _ _ sized within => ⟨sized, within⟩)
  apply spec_write within.sized
  · have all := written (Nat.le_refl buf.length)
    apply spec_sync all
    · refine ⟨all.sync, all.sync, within.most, room, fun _ => ⟨handle, ?_, ?_⟩⟩
      · intro file found
        change (modify (modify segments wal.file.seq _) wal.file.seq _).find? wal.segSeq = _
          at found
        rw [find?_modify, if_pos handle.symm, find?_modify, if_pos handle.symm] at found
        obtain ⟨longer, there, rfl⟩ := Option.map_eq_some_iff.mp found
        obtain ⟨before, old, rfl⟩ := Option.map_eq_some_iff.mp there
        rw [File.bytes_sync]
        exact length_writeFile_le buf (short before old) place
      · intro position moved
        obtain ⟨start, old, rfl⟩ := Option.map_eq_some_iff.mp moved
        exact Nat.add_le_add_right (place start old) _
    · intro extent _
      exact undo (all.harden extent) _
  · intro extent _
    exact undo (written (by rw [List.length_take]; exact Nat.min_le_right _ _)) _

/-! ### Rotations -/

def Turned (limit : Nat) (outcome : Except Failure Nat × Wal) (segments : Segments) : Prop :=
  outcome.2.Within limit segments ∧
    ∀ next, outcome.1 = .ok next → outcome.2.poisoned = none ∧ outcome.2.segBytes = headerLen

theorem Turned.failed {failure : Failure} (within : wal.Within limit segments) :
    Turned limit (.error failure, wal) segments :=
  ⟨within, fun _ impossible => by cases impossible⟩

theorem startSegment_within (within : wal.Within limit segments) (usable : wal.poisoned = none)
    {next : Nat} (other : wal.segSeq ≠ next) (born : segments.find? next = some .empty)
    (header : headerLen ≤ limit) :
    (wal.startSegment next).Spec (directory faults) (Sized limit) (Turned limit) segments := by
  have apart {later : Segments} {change : File UInt8 → File UInt8}
      (now : wal.Within limit later) (sized : Sized limit (modify later next change)) :
      wal.Within limit (modify later next change) :=
    now.elsewhere sized (by rw [find?_modify, if_neg other])
  have cleanup {later : Segments} (why : String) (now : wal.Within limit later) :
      (remove next >>= fun removed =>
        if removed then syncDir >>= fun synced =>
          if synced then pure (.error .os, wal) else pure (.error .os, wal.poison why)
        else (pure (.error .os, wal.poison why) : SegmentProgram (Except Failure Nat × Wal))).Spec
        (directory faults) (Sized limit) (Turned limit) later := by
    have gone : Sized limit (later.erase next) := now.sized.erase
    have poisoned {state : Segments} (sized : Sized limit state) :
        Turned limit (.error .os, wal.poison why) state :=
      .failed (.poison sized now.most now.counted why)
    apply spec_request (.remove next) now.sized
    · change (if (later.find? next).isSome = true then _ else _ :
        SegmentProgram (Except Failure Nat × Wal)).Spec _ _ _ (later.erase next)
      split_ifs
      · apply spec_syncDir gone
        · exact ⟨gone, .failed now.erase⟩
        · intro _
          exact ⟨gone, poisoned gone⟩
      · exact ⟨gone, poisoned gone⟩
    · intro extent _
      by_cases none : extent = 0
      · simp only [serve, if_pos none]
        exact ⟨now.sized, poisoned now.sized⟩
      · simp only [serve, if_neg none]
        exact ⟨gone, poisoned gone⟩
  have fresh (part : Bytes) : (writeFile .empty (some 0) part).bytes.length ≤ part.length := by
    have longer := @length_writeFile_le .empty (some 0) 0 part (Nat.le_refl 0)
      (fun start same => by cases same; exact Nat.le_refl 0)
    omega
  have written {part : Bytes} (most : part.length ≤ headerLen) :
      Sized limit (modify segments next (writeFile · (some 0) part)) :=
    within.sized.modify fun file found => by
      rw [born] at found
      cases found
      have short := fresh part
      omega
  apply spec_write within.sized
  · have all := written (Nat.le_of_eq length_segmentHeader)
    apply spec_sync all
    · apply spec_syncDir all.sync
      · refine ⟨all.sync, ⟨all.sync, within.most, header, fun _ => ⟨rfl, ?_, ?_⟩⟩,
          fun _ _ => ⟨usable, rfl⟩⟩
        · intro file found
          change (modify (modify segments next _) next _).find? next = _ at found
          rw [find?_modify, if_pos rfl, find?_modify, if_pos rfl, born] at found
          cases found
          rw [File.bytes_sync]
          exact (fresh segmentHeader).trans (Nat.le_of_eq length_segmentHeader)
        · intro position moved
          cases moved
          exact Nat.le_of_eq length_segmentHeader
      · intro _
        exact ⟨all.sync, .failed (.poison all.sync within.most within.counted _)⟩
    · intro extent _
      exact cleanup _ (apart (apart within all) (all.harden extent))
  · intro extent _
    refine cleanup _ (apart within (written ?_))
    rw [List.length_take, length_segmentHeader]
    exact Nat.min_le_right _ _

theorem rotateSegment_within (within : wal.Within limit segments) (header : headerLen ≤ limit) :
    wal.rotateSegment.Spec (directory faults) (Sized limit) (Turned limit) segments := by
  cases state : wal.poisoned with
  | some why =>
      simp only [rotateSegment, checkUsable, state]
      exact ⟨within.sized, .failed within⟩
  | none =>
      have other : wal.segSeq ≠ wal.segSeq + 1 := Nat.ne_of_lt (Nat.lt_succ_self _)
      -- the next segment's file could not be created
      have refuse {later : Segments} (why : String) (now : wal.Within limit later) :
          (lstat (wal.segSeq + 1) >>= fun there =>
            if there then pure (.error .os, wal.poison why)
            else (pure (.error .os, wal) : SegmentProgram (Except Failure Nat × Wal))).Spec
            (directory faults) (Sized limit) (Turned limit) later := by
        have either (there : Bool) :
            (if there then pure (.error .os, wal.poison why)
              else (pure (.error .os, wal) : SegmentProgram (Except Failure Nat × Wal))).Spec
              (directory faults) (Sized limit) (Turned limit) later := by
          cases there with
          | true => exact ⟨now.sized, .failed (.poison now.sized now.most now.counted why)⟩
          | false => exact ⟨now.sized, .failed now⟩
        exact spec_request (.lstat _) now.sized (either _) (fun _ _ => either _)
      have touched {later : Segments} (now : wal.Within limit later) :
          wal.Within limit (touch later (wal.segSeq + 1)) :=
        now.elsewhere now.sized.touch (by rw [find?_touch, if_neg other])
      simp only [rotateSegment, checkUsable, state]
      apply spec_sync within.sized
      · have synced : wal.Within limit (modify segments wal.file.seq (·.sync)) := within.sync
        by_cases exhausted : wal.segSeq = 4294967295
        · rw [if_pos rfl, if_pos exhausted]
          exact ⟨synced.sized, .failed synced⟩
        · rw [if_pos rfl, if_neg exhausted]
          apply spec_request (.createNew (wal.segSeq + 1)) synced.sized
          · cases there : (modify segments wal.file.seq (·.sync)).find? (wal.segSeq + 1) with
            | none =>
                simp only [serve, there, Option.isNone_none, if_true]
                refine startSegment_within (touched synced) state other ?_ header
                rw [find?_touch, if_pos rfl, there]
                rfl
            | some file =>
                simp only [serve, there, Option.isNone_some, Bool.false_eq_true, if_false]
                exact refuse _ (touched synced)
          · intro extent _
            by_cases none : extent = 0
            · simp only [serve, if_pos none]
              exact refuse _ synced
            · simp only [serve, if_neg none]
              exact refuse _ (touched synced)
      · intro extent _
        exact ⟨within.sized.harden extent, .failed (within.harden extent)⟩

/-! ### Groups -/

theorem appendMany_within (within : wal.Within limit segments) {records : List Record}
    (room : headerLen + (frames records).length ≤ limit) :
    (wal.appendMany records).Spec (directory faults) (Sized limit)
      (fun outcome => outcome.2.Within limit) segments := by
  cases state : wal.poisoned with
  | some why =>
      simp only [appendMany, checkUsable, state]
      exact ⟨within.sized, within⟩
  | none =>
      simp only [appendMany, checkUsable, state]
      by_cases empty : records.isEmpty
      · rw [if_pos empty]
        exact ⟨within.sized, within⟩
      · rw [if_neg empty]
        cases framed : frameAll records with
        | error failure => exact ⟨within.sized, within⟩
        | ok buf =>
            obtain ⟨rfl, _⟩ := frameAll_ok framed
            by_cases full : wal.segBytes + (frames records).length > wal.maxSegBytes ∧
                wal.segBytes > headerLen
            · simp only [if_pos full]
              apply Program.Spec.bind
              refine (rotateSegment_within within (by omega)).mono (fun _ sized => sized) ?_
              rintro ⟨result, after⟩ later sized ⟨turned, fresh⟩
              cases result with
              | error failure => exact ⟨sized, turned⟩
              | ok next =>
                  obtain ⟨usable, start⟩ := fresh next rfl
                  refine writeGroup_within turned usable ?_
                  rw [start]
                  exact room
            · simp only [if_neg full]
              have most := within.most
              refine writeGroup_within within state ?_
              omega

/-! ### Removals -/

theorem removeAll_within (within : wal.Within limit segments) (doomed : List Nat) :
    (removeAll doomed).Spec (directory faults) (wal.Within limit) (fun _ => wal.Within limit)
      segments := by
  induction doomed generalizing segments with
  | nil => exact ⟨within, within⟩
  | cons seq rest ih =>
      apply spec_request (.remove seq) within
      · change (if (segments.find? seq).isSome = true then _ else _ : SegmentProgram Bool).Spec
          _ _ _ (segments.erase seq)
        split_ifs
        · exact ih within.erase
        · exact ⟨within.erase, within.erase⟩
      · intro extent _
        by_cases none : extent = 0
        · simp only [serve, if_pos none]
          exact ⟨within, within⟩
        · simp only [serve, if_neg none]
          exact ⟨within.erase, within.erase⟩

theorem removeSegmentsBefore_within (within : wal.Within limit segments) (bound : Nat) :
    (wal.removeSegmentsBefore bound).Spec (directory faults) (wal.Within limit)
      (fun _ => wal.Within limit) segments := by
  apply spec_request .list within
  · simp only [serve]
    apply Program.Spec.bind
    refine (removeAll_within within _).mono (fun _ within => within) ?_
    intro removed later now _
    cases removed with
    | false => exact ⟨now, now⟩
    | true =>
        rw [if_pos rfl]
        split_ifs
        · exact ⟨now, now⟩
        · apply spec_syncDir now
          · exact ⟨now, now⟩
          · intro _
            exact ⟨now, now⟩
  · intro extent _
    exact ⟨within, within⟩

/-! ### Opening -/

def Fitted (limit : Nat) (result : Except Failure Wal) (segments : Segments) : Prop :=
  ∀ wal, result = .ok wal → wal.Within limit segments

theorem Fitted.failed {failure : Failure} : Fitted limit (.error failure) segments :=
  fun _ impossible => by cases impossible

theorem repairTail_within (sized : Sized limit segments) {file : File UInt8}
    (found : segments.find? seq = some file) :
    (repairTail seq file.bytes).Spec (directory faults) (Sized limit) (fun _ => Sized limit)
      segments := by
  rw [repairTail, scanSegment_eq, deliver_ignore]
  cases read : readSegment (segmentPath seq) file.bytes with
  | mk records ending =>
      cases ending with
      | error failure => exact ⟨sized, sized⟩
      | ok tail =>
          cases tail with
          | none => exact ⟨sized, sized⟩
          | some offset =>
              have inside : offset ≤ file.bytes.length := by
                rcases readSegment_cut read with ⟨start, _, _⟩ | ⟨_, inside, _⟩
                · rw [start]
                  exact Nat.zero_le _
                · exact inside
              have cut : Sized limit (modify segments seq (·.setLen 0 offset)) :=
                sized.modify fun other there => by
                  rw [File.length_bytes_setLen]
                  exact inside.trans (sized seq file found)
              apply spec_setLen sized
              · apply spec_sync cut
                · exact ⟨cut.sync, cut.sync⟩
                · intro extent _
                  exact ⟨cut.harden extent, cut.harden extent⟩
              · intro _
                exact ⟨sized, sized⟩
              · intro _
                exact ⟨cut, cut⟩

theorem spec_len_any {Result : Type} {stopped : Segments → Prop}
    {post : Result → Segments → Prop} {next : Nat → SegmentProgram Result}
    (now : stopped segments)
    (tells : ∀ length, (∀ file, segments.find? seq = some file → file.bytes.length = length) →
      (length = 0 ∨ ∃ file, segments.find? seq = some file) →
      (next length).Spec (directory faults) stopped post segments) :
    (len seq >>= next).Spec (directory faults) stopped post segments := by
  have answer : (next (((segments.find? seq).map (·.bytes.length)).getD 0)).Spec
      (directory faults) stopped post segments := by
    cases there : segments.find? seq with
    | none => exact tells 0 (fun file found => by rw [there] at found; cases found) (Or.inl rfl)
    | some file =>
        refine tells file.bytes.length (fun other found => ?_) (Or.inr ⟨file, there⟩)
        rw [there] at found
        cases found
        rfl
  exact spec_request (.len seq) now answer (fun _ _ => answer)

theorem adopt_within (sized : Sized limit segments) {maxSegBytes : Nat}
    (room : max maxSegBytes (headerLen + minRecord) ≤ limit) :
    (adopt maxSegBytes seq).Spec (directory faults) (Sized limit) (Fitted limit) segments := by
  have fitted {later : Segments} {length : Nat} (sized : Sized limit later)
      (bound : length ≤ limit)
      (short : ∀ file, later.find? seq = some file → file.bytes.length ≤ length) :
      Fitted limit (.ok (atSegment maxSegBytes seq length)) later := by
    intro wal opened
    cases opened
    exact ⟨sized, room, bound, fun _ => ⟨rfl, short, fun _ impossible => by cases impossible⟩⟩
  have header : headerLen ≤ limit := by omega
  apply spec_len_any sized
  intro length measured there
  by_cases empty : length = 0
  · rw [if_pos empty]
    have grown {part : Bytes} (most : part.length ≤ headerLen) (file : File UInt8)
        (found : segments.find? seq = some file) :
        (writeFile file none part).bytes.length ≤ headerLen := by
      have nothing := measured file found
      rw [writeFile, File.bytes_append, List.length_append]
      omega
    have written {part : Bytes} (most : part.length ≤ headerLen) :
        Sized limit (modify segments seq (writeFile · none part)) :=
      sized.modify fun file found => (grown most file found).trans header
    apply spec_write sized
    · have whole := Nat.le_of_eq length_segmentHeader
      have all := written whole
      apply spec_sync all
      · apply spec_syncDir all.sync
        · refine ⟨all.sync, fitted all.sync header fun file found => ?_⟩
          rw [find?_modify, if_pos rfl, find?_modify, if_pos rfl] at found
          obtain ⟨longer, middle, rfl⟩ := Option.map_eq_some_iff.mp found
          obtain ⟨before, old, rfl⟩ := Option.map_eq_some_iff.mp middle
          rw [File.bytes_sync]
          exact grown whole before old
        · intro _
          exact ⟨all.sync, .failed⟩
      · intro extent _
        exact ⟨all.harden extent, .failed⟩
    · intro extent _
      have short : (segmentHeader.take extent).length ≤ headerLen := by
        rw [List.length_take, length_segmentHeader]
        exact Nat.min_le_right _ _
      exact ⟨written short, .failed⟩
  · rw [if_neg empty]
    obtain ⟨file, found⟩ := there.resolve_left empty
    have bound : length ≤ limit := by
      rw [← measured file found]
      exact sized seq file found
    apply spec_syncDir sized
    · exact ⟨sized, fitted sized bound fun other here => Nat.le_of_eq (measured other here)⟩
    · intro _
      exact ⟨sized, .failed⟩

theorem resume_within (sized : Sized limit segments) {maxSegBytes : Nat}
    (room : max maxSegBytes (headerLen + minRecord) ≤ limit) :
    (resume maxSegBytes seq).Spec (directory faults) (Sized limit) (Fitted limit) segments := by
  apply spec_openAppend sized
  · exact adopt_within sized.touch room
  · intro _
    exact ⟨sized, .failed⟩
  · intro _
    exact ⟨sized.touch, .failed⟩

theorem openLog_within (sized : Sized limit segments) {maxSegBytes : Nat}
    (room : max maxSegBytes (headerLen + minRecord) ≤ limit) :
    (openLog maxSegBytes).Spec (directory faults) (Sized limit) (Fitted limit) segments := by
  apply spec_readDir sized
  cases last : (files segments).getLast? with
  | none => exact resume_within sized room
  | some entry =>
      obtain ⟨seq, bytes⟩ := entry
      obtain ⟨⟨number, file⟩, member, same⟩ := List.mem_map.mp (List.mem_of_getLast? last)
      cases same
      have found := (SortedMap.find?_eq_some_iff segments number file).mpr member
      apply Program.Spec.bind
      refine (repairTail_within sized found).mono (fun _ sized => sized) ?_
      intro result later now _
      cases result with
      | error failure => exact ⟨now, .failed⟩
      | ok _ => exact resume_within now room

end Wal

end Keystory
