/-
What each operation of the value store does to its directory, whatever calls fail
and wherever it is stopped: the synced records stay, at most the record of the
put in progress is added, and a store that is not poisoned matches its file.
-/

import Keystory.ValueStore.Index

namespace Keystory.ValueStore

open General

/-! ### Files that are logs -/

/-- A file that holds `records`, of which a power loss keeps at least `sure`. -/
structure Keeps (file : File UInt8) (sure records : List LogRecord) : Prop where
  certain : image sure <+: file.synced
  inside : sure <+: records
  holds : Holds file.bytes records
  ascending : Ascending records
  size : file.bytes.length ≤ maxFileLen

theorem image_isPrefix {first second : List LogRecord} (start : first <+: second) :
    image first <+: image second := by
  obtain ⟨rest, rfl⟩ := start
  rw [image_append]
  exact List.prefix_append _ _

theorem lt_of_le_maxFileLen {length : Nat} (size : length ≤ maxFileLen) : length < 256 ^ 8 :=
  Nat.lt_of_le_of_lt size (by decide)

theorem Keeps.empty : Keeps (.empty : File UInt8) [] [] where
  certain := List.nil_prefix
  inside := List.nil_prefix
  holds := ⟨by decide, by simp, [], Torn.nil, rfl⟩
  ascending := Chronicle.nil
  size := by decide

section Keeps

variable {file : File UInt8} {sure records : List LogRecord}

theorem Keeps.sync (keeps : Keeps file sure records) : Keeps file.sync records records where
  certain := by
    obtain ⟨torn, _, same⟩ := keeps.holds.layout
    rw [File.sync, File.settled, same]
    exact List.prefix_append _ _
  inside := List.prefix_rfl
  holds := by
    rw [File.bytes_sync]
    exact keeps.holds
  ascending := keeps.ascending
  size := by
    rw [File.bytes_sync]
    exact keeps.size

theorem Keeps.harden (keeps : Keeps file sure records) (count : Nat) :
    Keeps (file.harden count) sure records where
  certain := keeps.certain.trans (File.synced_harden count)
  inside := keeps.inside
  holds := by
    rw [File.bytes_harden]
    exact keeps.holds
  ascending := keeps.ascending
  size := by
    rw [File.bytes_harden]
    exact keeps.size

theorem bytes_setLen_image {kept : List LogRecord} (keeps : Keeps file sure records)
    (fewer : kept <+: records) : (file.setLen 0 (image kept).length).bytes = image kept := by
  obtain ⟨torn, _, same⟩ := keeps.holds.layout
  obtain ⟨rest, rfl⟩ := fewer
  rw [image_append, List.append_assoc] at same
  have within : (image kept).length ≤ file.bytes.length := by
    rw [same, List.length_append]
    omega
  rw [File.bytes_setLen 0 within, same, List.take_left]

theorem Keeps.setLen {kept : List LogRecord} (keeps : Keeps file sure records)
    (fewer : kept <+: records) (more : sure <+: kept) :
    Keeps (file.setLen 0 (image kept).length) sure kept := by
  have shorter : (image kept).length ≤ file.bytes.length := by
    obtain ⟨torn, _, same⟩ := keeps.holds.layout
    obtain ⟨rest, rfl⟩ := fewer
    rw [same, image_append, List.append_assoc, List.length_append]
    omega
  refine ⟨?_, more, ?_, keeps.ascending.front fewer, ?_⟩
  · obtain ⟨rest, same⟩ := more
    refine File.synced_setLen 0 keeps.certain ?_
    rw [← same, image_append, List.length_append]
    omega
  · rw [bytes_setLen_image keeps fewer]
    exact ⟨Nat.lt_of_le_of_lt shorter keeps.holds.small,
      fun record member => keeps.holds.fits record (fewer.subset member), [], Torn.nil,
      (List.append_nil _).symm⟩
  · rw [bytes_setLen_image keeps fewer]
    exact shorter.trans keeps.size

variable {record : LogRecord}

theorem Keeps.append (keeps : Keeps file sure records) (clean : file.bytes = image records)
    (fits : record.Fits) (lawful : record.id ≠ fenceId → nextIdOf records ≤ record.id)
    (size : file.bytes.length + record.bytes.length ≤ maxFileLen) :
    Keeps (file.append record.bytes) sure (records ++ [record]) where
  certain := keeps.certain
  inside := keeps.inside.trans (List.prefix_append _ _)
  holds := by
    refine ⟨?_, ?_, [], Torn.nil, ?_⟩
    · rw [File.bytes_append, List.length_append]
      exact lt_of_le_maxFileLen size
    · intro other member
      rcases List.mem_append.mp member with old | new
      · exact keeps.holds.fits other old
      · rw [List.mem_singleton.mp new]
        exact fits
    · simp [clean]
  ascending := Chronicle.concat keeps.ascending lawful
  size := by
    rw [File.bytes_append, List.length_append]
    exact size

theorem Keeps.append_part {part : Bytes} (keeps : Keeps file sure records)
    (clean : file.bytes = image records) (fits : record.Fits) (start : part <+: record.bytes)
    (different : part ≠ record.bytes) (size : file.bytes.length + part.length ≤ maxFileLen) :
    Keeps (file.append part) sure records where
  certain := keeps.certain
  inside := keeps.inside
  holds := by
    refine ⟨?_, keeps.holds.fits, part, ⟨record, fits, start, different⟩, ?_⟩
    · rw [File.bytes_append, List.length_append]
      exact lt_of_le_maxFileLen size
    · rw [File.bytes_append, clean]
  ascending := keeps.ascending
  size := by
    rw [File.bytes_append, List.length_append]
    exact size

theorem Keeps.crash (keeps : Keeps file sure records) (count : Nat) :
    ∃ kept, Keeps (.settled (file.synced ++ file.unsynced.take count)) kept kept ∧
      sure <+: kept ∧ kept <+: records := by
  have start : file.synced ++ file.unsynced.take count <+: file.bytes :=
    (List.prefix_append_right_inj _).mpr (List.take_prefix _ _)
  obtain ⟨kept, holds, more, fewer⟩ := keeps.holds.cut start keeps.inside
    (keeps.certain.trans (List.prefix_append _ _))
  refine ⟨kept, ⟨?_, List.prefix_rfl, ?_, keeps.ascending.front fewer, ?_⟩, more, fewer⟩
  · obtain ⟨torn, _, same⟩ := holds.layout
    rw [File.settled, same]
    exact List.prefix_append _ _
  · rw [File.bytes_settled]
    exact holds
  · rw [File.bytes_settled]
    exact start.length_le.trans keeps.size

end Keeps

/-! ### A store and its file -/

def Behind (records held : List LogRecord) : Prop :=
  held = records ∨ ∃ payload, held = records ++ [⟨nextIdOf records, payload⟩] ∧
    nextIdOf records ≠ fenceId

/-- The store knows `records`; unless it is poisoned, they are all that its file holds. -/
structure Ready (inner : Inner) (file : File UInt8) (sure records : List LogRecord) : Prop where
  index : Indexes inner.index records
  nextId : inner.nextId = nextIdOf records
  endOffset : inner.endOffset = (image records).length
  held : ∃ held, Keeps file sure held ∧ Behind records held
  usable : inner.poisoned = none → file.bytes = image records ∧ Keeps file sure records

theorem scanned_ready {file : File UInt8} {sure records : List LogRecord}
    (keeps : Keeps file sure records) (number : Nat) {after : File UInt8}
    (clean : after.bytes = image records) (kept : Keeps after sure records) :
    Ready (scanned number file.bytes) after sure records := by
  have scan := keeps.holds.scan
  obtain ⟨indexes, counter⟩ := foldl_noteFound keeps.ascending
  refine ⟨?_, ?_, ?_, ⟨records, kept, Or.inl rfl⟩, fun _ => ⟨clean, kept⟩⟩
  · simp only [scanned, scan]
    exact indexes
  · simp only [scanned, scan]
    exact counter
  · simp only [scanned, scan]

/-! ### Calls -/

def Disk.withFile (disk : Disk) (number : Nat) (file : File UInt8) : Disk :=
  { disk with files := disk.files.set number file }

section Calls

variable {Result : Type} {stopped : Disk → Prop} {post : Result → Disk → Prop} {disk : Disk}
  {number : Nat} {file : File UInt8}

theorem modify_eq_withFile (there : disk.files[number]? = some file)
    (change : File UInt8 → File UInt8) :
    disk.modify number change = disk.withFile number (change file) := by
  obtain ⟨within, rfl⟩ := List.getElem?_eq_some_iff.mp there
  rw [Disk.modify, Disk.withFile, List.modify_eq_set_getElem? change number disk.files, there]
  rfl

theorem withFile_self (there : disk.files[number]? = some file) :
    disk.withFile number file = disk := by
  obtain ⟨within, rfl⟩ := List.getElem?_eq_some_iff.mp there
  rw [Disk.withFile, List.set_getElem_self]

@[simp] theorem withFile_withFile (first second : File UInt8) :
    (disk.withFile number first).withFile number second = disk.withFile number second := by
  simp [Disk.withFile]

theorem getElem?_withFile (there : disk.files[number]? = some file) (after : File UInt8) :
    (disk.withFile number after).files[number]? = some after := by
  obtain ⟨within, _⟩ := List.getElem?_eq_some_iff.mp there
  simp [Disk.withFile, within]

theorem bytes_eq (there : disk.files[number]? = some file) : disk.bytes number = file.bytes := by
  simp [Disk.bytes, there]

theorem spec_write (there : disk.files[number]? = some file)
    (size : file.bytes.length ≤ maxFileLen) {data : Bytes} {next : Bool → DiskProgram Result}
    (now : stopped disk)
    (arrives : file.bytes.length + data.length ≤ maxFileLen →
      (next true).Spec directory stopped post (disk.withFile number (file.append data)))
    (fails : ∀ part, part <+: data → file.bytes.length + part.length ≤ maxFileLen →
      (next false).Spec directory stopped post (disk.withFile number (file.append part))) :
    (write number data >>= next).Spec directory stopped post disk := by
  refine Program.spec_request_bind.mpr ⟨now, ?_⟩
  intro fate _
  have room : written disk number fate ≤ maxFileLen - file.bytes.length := by
    cases fate with
    | ok => simp [written, bytes_eq there]
    | fail extent => simp [written, bytes_eq there]
  change (next (decide (fate = .ok ∧ data.length ≤ written disk number fate))).Spec _ _ _
    (disk.modify number (·.append (data.take (written disk number fate))))
  rw [modify_eq_withFile there]
  by_cases whole : fate = .ok ∧ data.length ≤ written disk number fate
  · rw [decide_eq_true whole, List.take_of_length_le whole.2]
    exact arrives (by omega)
  · rw [decide_eq_false whole]
    refine fails _ (List.take_prefix _ _) ?_
    rw [List.length_take]
    omega

theorem spec_sync (there : disk.files[number]? = some file) {next : Bool → DiskProgram Result}
    (now : stopped disk)
    (succeeds : (next true).Spec directory stopped post (disk.withFile number file.sync))
    (fails : ∀ extent, (next false).Spec directory stopped post
      (disk.withFile number (file.harden extent))) :
    (sync number >>= next).Spec directory stopped post disk := by
  refine Program.spec_request_bind.mpr ⟨now, ?_⟩
  intro fate _
  cases fate with
  | ok =>
      change (next true).Spec _ _ _ (disk.modify number (·.sync))
      rw [modify_eq_withFile there]
      exact succeeds
  | fail extent =>
      change (next false).Spec _ _ _ (disk.modify number (·.harden extent))
      rw [modify_eq_withFile there]
      exact fails extent

theorem spec_setLen (there : disk.files[number]? = some file) {length : Nat}
    {next : Bool → DiskProgram Result} (now : stopped disk)
    (succeeds : (next true).Spec directory stopped post
      (disk.withFile number (file.setLen 0 length)))
    (fails : (next false).Spec directory stopped post disk) :
    (setLen number length >>= next).Spec directory stopped post disk := by
  refine Program.spec_request_bind.mpr ⟨now, ?_⟩
  intro fate _
  cases fate with
  | ok =>
      change (next true).Spec _ _ _ (disk.modify number (·.setLen 0 length))
      rw [modify_eq_withFile there]
      exact succeeds
  | fail extent => exact fails

theorem spec_syncDir {next : Bool → DiskProgram Result} (now : stopped disk)
    (succeeds : (next true).Spec directory stopped post { disk with durable := disk.log })
    (fails : (next false).Spec directory stopped post disk)
    (fooled : (next false).Spec directory stopped post { disk with durable := disk.log }) :
    (syncDir >>= next).Spec directory stopped post disk := by
  refine Program.spec_request_bind.mpr ⟨now, ?_⟩
  intro fate _
  cases fate with
  | ok => exact succeeds
  | fail extent =>
      change (next false).Spec _ _ _ (if extent = 0 then disk else _)
      split
      · exact fails
      · exact fooled

theorem spec_readLog (named : disk.log = some number) (there : disk.files[number]? = some file)
    {next : Option Bytes → DiskProgram Result} (now : stopped disk)
    (succeeds : (next (some file.bytes)).Spec directory stopped post disk)
    (fails : (next none).Spec directory stopped post disk) :
    (readLog >>= next).Spec directory stopped post disk := by
  refine Program.spec_request_bind.mpr ⟨now, ?_⟩
  intro fate _
  cases fate with
  | ok =>
      change (next (disk.log.map disk.bytes)).Spec _ _ _ disk
      rw [named, Option.map_some, bytes_eq there]
      exact succeeds
  | fail extent => exact fails

theorem spec_len (there : disk.files[number]? = some file)
    {next : Option Nat → DiskProgram Result} (now : stopped disk)
    (succeeds : (next (some file.bytes.length)).Spec directory stopped post disk)
    (fails : (next none).Spec directory stopped post disk) :
    (len number >>= next).Spec directory stopped post disk := by
  refine Program.spec_request_bind.mpr ⟨now, ?_⟩
  intro fate _
  cases fate with
  | ok =>
      change (next ((disk.files[number]?).map (·.bytes.length))).Spec _ _ _ disk
      rw [there, Option.map_some]
      exact succeeds
  | fail extent => exact fails

theorem spec_rename {live : List Nat} (named : disk.tmp = some number)
    {next : Bool → DiskProgram Result} (now : stopped disk)
    (succeeds : (next true).Spec directory stopped post
      { disk with
        log := some number, tmp := none, notes := disk.notes ++ [.compacted live] })
    (fails : (next false).Spec directory stopped post disk) :
    (rename live >>= next).Spec directory stopped post disk := by
  refine Program.spec_request_bind.mpr ⟨now, ?_⟩
  intro fate _
  cases fate with
  | ok =>
      simp only [directory, serve, named]
      exact succeeds
  | fail extent => exact fails

/-- A failed removal leaves the old temporary file, and then none is created. -/
theorem spec_freshTmp {next : Option Nat → DiskProgram Result}
    (stops : ∀ more tmp, stopped { disk with files := disk.files ++ more, tmp })
    (succeeds : (next (some disk.files.length)).Spec directory stopped post
      { disk with files := disk.files ++ [.empty], tmp := some disk.files.length })
    (fails : ∀ more tmp, (next none).Spec directory stopped post
      { disk with files := disk.files ++ more, tmp }) :
    (removeTmp >>= fun _ => createTmp >>= next).Spec directory stopped post disk := by
  have here : ∀ tmp, stopped { disk with tmp } := fun tmp => by simpa using stops [] tmp
  have failed : ∀ tmp, (next none).Spec directory stopped post { disk with tmp } :=
    fun tmp => by simpa using fails [] tmp
  -- creation, whatever the removal has left
  have create : ∀ tmp, (createTmp >>= next).Spec directory stopped post { disk with tmp } := by
    intro tmp
    refine Program.spec_request_bind.mpr ⟨here tmp, ?_⟩
    intro fate _
    cases tmp with
    | some old =>
        cases fate with
        | ok => exact failed (some old)
        | fail extent =>
            change (next none).Spec _ _ _ (if extent = 0 then _ else _)
            split
            · exact failed (some old)
            · exact failed (some old)
    | none =>
        cases fate with
        | ok => exact succeeds
        | fail extent =>
            change (next none).Spec _ _ _ (if extent = 0 then _ else _)
            split
            · exact failed none
            · exact fails [.empty] (some disk.files.length)
  refine Program.spec_request_bind.mpr ⟨here disk.tmp, ?_⟩
  intro fate _
  cases fate with
  | ok => exact create none
  | fail extent => exact create disk.tmp

end Calls

/-! ### Putting -/

def Appending (disk : Disk) (number : Nat) (sure records : List LogRecord) (after : Disk) : Prop :=
  ∃ file, after = disk.withFile number file ∧ ∃ held, Keeps file sure held ∧ Behind records held

def Appended (disk : Disk) (inner : Inner) (sure records : List LogRecord) (value : Bytes)
    (result : Except Failure BlobRef × Inner) (after : Disk) : Prop :=
  result.2.file = inner.file ∧ ∃ file, after = disk.withFile inner.file file ∧
    match result.1 with
    | .ok ref =>
        ref = ⟨nextIdOf records, (image records).length, value.length⟩ ∧
          nextIdOf records ≠ fenceId ∧ sure <+: records ∧
          Keeps file (records ++ [⟨nextIdOf records, value⟩])
            (records ++ [⟨nextIdOf records, value⟩]) ∧
          Ready result.2 file (records ++ [⟨nextIdOf records, value⟩])
            (records ++ [⟨nextIdOf records, value⟩])
    | .error _ => Ready result.2 file sure records

section Put

variable {disk : Disk} {inner : Inner} {file : File UInt8} {sure records : List LogRecord}

theorem Behind.isPrefix {held : List LogRecord} (behind : Behind records held) :
    records <+: held := by
  rcases behind with rfl | ⟨payload, rfl, _⟩
  · exact List.prefix_rfl
  · exact List.prefix_append _ _

theorem rollBack_spec {after : File UInt8} {held : List LogRecord}
    (there : disk.files[inner.file]? = some file) (ready : Ready inner file sure records)
    (more : sure <+: records) (keeps : Keeps after sure held) (behind : Behind records held)
    (cause : Failure) :
    (inner.rollBack cause).Spec directory (Appending disk inner.file sure records)
      (fun rolled final => rolled.file = inner.file ∧
        ∃ file, final = disk.withFile inner.file file ∧ Ready rolled file sure records)
      (disk.withFile inner.file after) := by
  have fewer := behind.isPrefix
  have cut := keeps.setLen fewer more
  have clean := bytes_setLen_image keeps fewer
  rw [← ready.endOffset] at cut clean
  have whole : Appending disk inner.file sure records (disk.withFile inner.file after) :=
    ⟨after, rfl, held, keeps, behind⟩
  unfold Inner.rollBack
  apply spec_setLen (getElem?_withFile there after) whole
  · rw [withFile_withFile]
    apply spec_sync (getElem?_withFile there _) ⟨_, rfl, records, cut, Or.inl rfl⟩
    · rw [withFile_withFile]
      have synced : Keeps (after.setLen 0 inner.endOffset).sync sure records :=
        { cut.sync with certain := (image_isPrefix more).trans cut.sync.certain, inside := more }
      refine ⟨⟨_, rfl, records, synced, Or.inl rfl⟩, rfl, _, rfl, ready.index, ready.nextId,
        ready.endOffset, ⟨records, synced, Or.inl rfl⟩, fun _ => ⟨?_, synced⟩⟩
      rw [File.bytes_sync, clean]
    · intro extent
      rw [withFile_withFile]
      exact ⟨⟨_, rfl, records, cut.harden extent, Or.inl rfl⟩, rfl, _, rfl, ready.index,
        ready.nextId, ready.endOffset, ⟨records, cut.harden extent, Or.inl rfl⟩,
        fun usable => by cases usable⟩
  · exact ⟨whole, rfl, _, rfl, ready.index, ready.nextId, ready.endOffset,
      ⟨held, keeps, behind⟩, fun usable => by cases usable⟩

theorem put_spec (there : disk.files[inner.file]? = some file)
    (ready : Ready inner file sure records) {value : Bytes} (slice : value.length ≤ maxFileLen) :
    (inner.put value).Spec directory (Appending disk inner.file sure records)
      (Appended disk inner sure records value) disk := by
  obtain ⟨held, heldKeeps, heldBehind⟩ := ready.held
  have now : Appending disk inner.file sure records disk :=
    ⟨file, (withFile_self there).symm, held, heldKeeps, heldBehind⟩
  have refused : Appended disk inner sure records value (.error .os, inner) disk :=
    ⟨rfl, file, (withFile_self there).symm, ready⟩
  cases state : inner.poisoned with
  | some why =>
      simp only [Inner.put, Inner.checkUsable, state]
      exact ⟨now, refused⟩
  | none =>
      obtain ⟨clean, keeps⟩ := ready.usable state
      simp only [Inner.put, Inner.checkUsable, state, ready.nextId, ready.endOffset]
      by_cases exhausted : nextIdOf records = fenceId
      · rw [if_pos exhausted]
        exact ⟨now, refused⟩
      · rw [if_neg exhausted]
        let new : LogRecord := ⟨nextIdOf records, value⟩
        have fits : new.Fits :=
          ⟨Nat.lt_of_le_of_lt (nextIdOf_le keeps.holds.fits) (by decide),
            lt_of_le_maxFileLen slice⟩
        -- a failed write and a failed sync are undone alike
        have undo : ∀ {after : File UInt8} {held : List LogRecord}, Keeps after sure held →
            Behind records held →
            ((inner.rollBack .os) >>= fun rolled =>
              (pure (.error .os, rolled) : DiskProgram (Except Failure BlobRef × Inner))).Spec
              directory (Appending disk inner.file sure records)
              (Appended disk inner sure records value) (disk.withFile inner.file after) := by
          intro after held keeps' behind
          apply Program.Spec.bind
          refine (rollBack_spec there ready keeps.inside keeps' behind .os).mono
            (fun _ stops => stops) ?_
          intro rolled final stops post
          exact ⟨stops, post⟩
        apply spec_write there keeps.size now
        · intro room
          have grown := keeps.append clean fits (fun _ => Nat.le_refl _) room
          have behind : Behind records (records ++ [new]) := Or.inr ⟨value, rfl, exhausted⟩
          apply spec_sync (getElem?_withFile there _) ⟨_, rfl, _, grown, behind⟩
          · rw [withFile_withFile]
            refine ⟨⟨_, rfl, _, ?_, behind⟩, rfl, _, rfl, rfl, exhausted, keeps.inside, grown.sync,
              ?_⟩
            · exact { grown.sync with
                certain := (image_isPrefix grown.inside).trans grown.sync.certain
                inside := grown.inside }
            · refine ⟨?_, ?_, ?_, ⟨_, grown.sync, Or.inl rfl⟩, fun _ => ⟨?_, grown.sync⟩⟩
              · exact ready.index.insert exhausted
                  (fresh_of_nextIdOf_le (Nat.le_refl _) exhausted) value
              · rw [nextIdOf_concat, advance, if_neg exhausted]
                exact (Nat.max_eq_right (Nat.le_succ _)).symm
              · simp [LogRecord.bytes, length_writeRecord]
                omega
              · rw [File.bytes_sync, File.bytes_append, clean, image_append, image_cons,
                  image_nil, List.append_nil]
                rfl
          · intro extent
            rw [withFile_withFile]
            exact undo (grown.harden extent) behind
        · intro part start room
          by_cases whole : part = new.bytes
          · subst whole
            exact undo (keeps.append clean fits (fun _ => Nat.le_refl _) room)
              (Or.inr ⟨value, rfl, exhausted⟩)
          · exact undo (keeps.append_part clean fits start whole room) (Or.inl rfl)

end Put

/-! ### Recovering -/

def Mending (disk : Disk) (number : Nat) (sure records : List LogRecord) (after : Disk) : Prop :=
  ∃ file, after = disk.withFile number file ∧ Keeps file sure records

theorem recover_spec {disk : Disk} {number : Nat} {file : File UInt8}
    {sure records : List LogRecord} (named : disk.log = some number)
    (there : disk.files[number]? = some file) (keeps : Keeps file sure records) :
    (recover number).Spec directory (Mending disk number sure records)
      (fun result after => ∀ inner, result = .ok inner → inner.file = number ∧
        ∃ file, after = disk.withFile number file ∧ Ready inner file sure records) disk := by
  have now : Mending disk number sure records disk := ⟨file, (withFile_self there).symm, keeps⟩
  have failed : ∀ after, Mending disk number sure records after →
      (pure (.error .os) : DiskProgram (Except Failure Inner)).Spec directory
        (Mending disk number sure records)
        (fun result after => ∀ inner, result = .ok inner → inner.file = number ∧
          ∃ file, after = disk.withFile number file ∧ Ready inner file sure records) after :=
    fun after stops => ⟨stops, fun inner absurd => by cases absurd⟩
  have scan := keeps.holds.scan
  have ends : (scanned number file.bytes).endOffset = (image records).length := by
    simp only [scanned, scan]
  unfold recover
  apply spec_readLog named there now
  · apply spec_len there now
    · change (if file.bytes.length > (scanned number file.bytes).endOffset then _ else _ :
        DiskProgram (Except Failure Inner)).Spec _ _ _ disk
      rw [ends]
      split
      · have cut := keeps.setLen List.prefix_rfl keeps.inside
        have clean := bytes_setLen_image keeps List.prefix_rfl
        apply spec_setLen there now
        · apply spec_sync (getElem?_withFile there _) ⟨_, rfl, cut⟩
          · rw [withFile_withFile]
            have synced : Keeps (file.setLen 0 (image records).length).sync sure records :=
              { cut.sync with
                certain := (image_isPrefix keeps.inside).trans cut.sync.certain
                inside := keeps.inside }
            refine ⟨⟨_, rfl, synced⟩, ?_⟩
            intro inner same
            cases same
            exact ⟨rfl, _, rfl, scanned_ready keeps number (by rw [File.bytes_sync, clean]) synced⟩
          · intro extent
            rw [withFile_withFile]
            exact failed _ ⟨_, rfl, cut.harden extent⟩
        · exact failed _ now
      · rename_i short
        refine ⟨now, ?_⟩
        intro inner same
        cases same
        have clean : file.bytes = image records := by
          obtain ⟨torn, _, layout⟩ := keeps.holds.layout
          rw [layout, List.length_append] at short
          have none : torn = [] := List.eq_nil_of_length_eq_zero (by omega)
          rw [layout, none, List.append_nil]
        exact ⟨rfl, file, (withFile_self there).symm, scanned_ready keeps number clean keeps⟩
    · exact failed _ now
  · exact failed _ now

/-! ### Compacting -/

def Disk.writing (disk : Disk) (file : File UInt8) : Disk :=
  { disk with files := disk.files ++ [file], tmp := some disk.files.length }

def Disk.published (disk : Disk) (live : List Nat) (file : File UInt8) (durable : Option Nat) :
    Disk :=
  { files := disk.files ++ [file], log := some disk.files.length, durable, tmp := none,
    notes := disk.notes ++ [.compacted live] }

/-- Where a compaction can be stopped: its file lies beside the log, or is the log. -/
inductive Compacting (disk : Disk) (live : List Nat) (records : List LogRecord) : Disk → Prop where
  | unpublished (more : List (File UInt8)) (tmp : Option Nat) :
      Compacting disk live records { disk with files := disk.files ++ more, tmp }
  | published {file : File UInt8} {durable : Option Nat}
      (keeps : Keeps file (compacted live records) (compacted live records))
      (either : durable = disk.durable ∨ durable = some disk.files.length) :
      Compacting disk live records (disk.published live file durable)

inductive Compacted (disk : Disk) (inner : Inner) (live : List Nat) (records : List LogRecord) :
    Inner → Disk → Prop where
  | unpublished (more : List (File UInt8)) (tmp : Option Nat) :
      Compacted disk inner live records inner { disk with files := disk.files ++ more, tmp }
  | published {after : Inner} {file : File UInt8} {durable : Option Nat}
      (ready : Ready after file (compacted live records) (compacted live records))
      (current : after.file = disk.files.length)
      (either : durable = disk.durable ∨ durable = some disk.files.length) :
      Compacted disk inner live records after (disk.published live file durable)

section Compact

variable {disk : Disk} {inner : Inner} {live : List Nat} {records : List LogRecord}

theorem getElem?_writing (file : File UInt8) :
    (disk.writing file).files[disk.files.length]? = some file := by
  simp [Disk.writing]

theorem withFile_writing (file after : File UInt8) :
    (disk.writing file).withFile disk.files.length after = disk.writing after := by
  simp [Disk.writing, Disk.withFile]

theorem copyLive_spec (ascending : Ascending records) (later done : List LogRecord)
    (split : records = done ++ later) (pos : Nat) {file : File UInt8} {index : Index}
    (clean : file.bytes = image (keptOf live done)) (size : file.bytes.length ≤ maxFileLen)
    (indexes : Indexes index (keptOf live done)) :
    (copyLive disk.files.length live (located pos later) index
      (image (keptOf live done)).length).Spec directory (Compacting disk live records)
      (fun result after => ∃ file, after = disk.writing file ∧
        ∀ index endOffset, result = some (index, endOffset) →
          file.bytes = image (keptOf live records) ∧ file.bytes.length ≤ maxFileLen ∧
            Indexes index (keptOf live records) ∧
            endOffset = (image (keptOf live records)).length)
      (disk.writing file) := by
  induction later generalizing done pos file index with
  | nil =>
      rw [List.append_nil] at split
      subst split
      refine ⟨.unpublished [file] _, file, rfl, ?_⟩
      intro index' endOffset same
      cases same
      exact ⟨clean, size, indexes, rfl⟩
  | cons record later ih =>
      have next : records = (done ++ [record]) ++ later := by
        simp [split]
      rw [located, copyLive]
      by_cases dropped : record.id = fenceId ∨ ¬ record.id ∈ live
      · have same := keptOf_concat_of_dropped done dropped
        rw [if_pos dropped]
        rw [← same] at clean indexes ⊢
        exact ih _ next _ clean size indexes
      · rw [if_neg dropped]
        rw [not_or, not_not] at dropped
        have kept := keptOf_concat_of_kept done dropped.1 dropped.2
        have above : nextIdOf (keptOf live done) ≤ record.id :=
          (nextIdOf_keptOf_le live done).trans (ascending done record later split dropped.1)
        apply spec_write (getElem?_writing file) size (.unpublished [file] _)
        · intro room
          rw [withFile_writing]
          have grown := indexes.insert dropped.1 (fresh_of_nextIdOf_le above dropped.1)
            record.payload
          have longer : (image (keptOf live done)).length +
              (recHdr + recTrail + record.payload.length) =
                (image (keptOf live (done ++ [record]))).length := by
            rw [kept, image_append, image_cons, image_nil, List.append_nil, List.length_append,
              LogRecord.bytes, length_writeRecord]
            omega
          rw [longer]
          rw [show (⟨record.id, record.payload⟩ : LogRecord) = record from rfl, ← kept] at grown
          refine ih _ next _ ?_ ?_ grown
          · rw [File.bytes_append, clean, kept, image_append, image_cons, image_nil,
              List.append_nil]
            rfl
          · rw [File.bytes_append, List.length_append]
            exact room
        · intro part _ _
          rw [withFile_writing]
          exact ⟨.unpublished [_] _, _, rfl, fun _ _ absurd => by cases absurd⟩

theorem publish_spec {file kept : File UInt8} {sure : List LogRecord} {index : Index}
    (ready : Ready inner kept sure records) (usable : inner.poisoned = none)
    (clean : file.bytes = image (keptOf live records)) (size : file.bytes.length ≤ maxFileLen)
    (indexes : Indexes index (keptOf live records)) :
    (inner.publish live disk.files.length index (image (keptOf live records)).length).Spec
      directory (Compacting disk live records)
      (fun result after => Compacted disk inner live records result.2 after)
      (disk.writing file) := by
  obtain ⟨_, keeps⟩ := ready.usable usable
  have fits := keeps.holds.fits
  have stuck : ∀ (result : Except Failure Nat) (file : File UInt8),
      (pure (result, inner) : DiskProgram (Except Failure Nat × Inner)).Spec directory
        (Compacting disk live records)
        (fun result after => Compacted disk inner live records result.2 after)
        (disk.writing file) :=
    fun result file => ⟨.unpublished [file] _, .unpublished [file] _⟩
  unfold Inner.publish
  apply spec_write (getElem?_writing file) size (.unpublished [file] _)
  · intro room
    rw [withFile_writing]
    apply spec_sync (getElem?_writing _) (.unpublished [_] _)
    · rw [withFile_writing]
      -- the whole new log is synced before it gets the name
      have whole : (file.append (writeRecord fenceId (toBe 8 inner.nextId))).bytes =
          image (compacted live records) := by
        rw [File.bytes_append, clean, compacted, ← ready.nextId, image_append, image_cons,
          image_nil, List.append_nil]
        rfl
      have short : (image (compacted live records)).length ≤ maxFileLen := by
        rw [← whole, File.bytes_append, List.length_append]
        exact room
      have new : Keeps (file.append (writeRecord fenceId (toBe 8 inner.nextId))).sync
          (compacted live records) (compacted live records) := by
        rw [File.sync, whole]
        refine ⟨List.prefix_rfl, List.prefix_rfl, ?_, keeps.ascending.compacted live, ?_⟩
        · rw [File.bytes_settled]
          exact ⟨lt_of_le_maxFileLen short, fits_compacted fits live, [], Torn.nil,
            (List.append_nil _).symm⟩
        · rw [File.bytes_settled]
          exact short
      have done : Ready { inner with
            file := disk.files.length, index
            endOffset := (image (keptOf live records)).length + (recHdr + recTrail + 8) }
          (file.append (writeRecord fenceId (toBe 8 inner.nextId))).sync
          (compacted live records) (compacted live records) := by
        refine ⟨indexes.fence _, ?_, ?_, ⟨_, new, Or.inl rfl⟩, fun _ => ⟨?_, new⟩⟩
        · rw [nextIdOf_compacted fits]
          exact ready.nextId
        · change (image (keptOf live records)).length + (recHdr + recTrail + 8) = _
          rw [compacted, image_append, image_cons, image_nil, List.append_nil,
            List.length_append, LogRecord.bytes, length_writeRecord, length_toBe]
          omega
        · rw [File.bytes_sync, whole]
      apply spec_rename rfl (.unpublished [_] _)
      · apply spec_syncDir (.published new (Or.inl rfl))
        · exact ⟨.published new (Or.inr rfl), .published done rfl (Or.inr rfl)⟩
        · exact ⟨.published new (Or.inl rfl), .published done rfl (Or.inl rfl)⟩
        · exact ⟨.published new (Or.inr rfl), .published done rfl (Or.inr rfl)⟩
      · exact stuck _ _
    · intro extent
      rw [withFile_writing]
      exact stuck _ _
  · intro part _ _
    rw [withFile_writing]
    exact stuck _ _

theorem compact_spec {file : File UInt8} {sure : List LogRecord}
    (named : disk.log = some inner.file) (there : disk.files[inner.file]? = some file)
    (ready : Ready inner file sure records) (live : List Nat) :
    (inner.compact live).Spec directory (Compacting disk live records)
      (fun result after => Compacted disk inner live records result.2 after) disk := by
  have still : { disk with files := disk.files ++ [], tmp := disk.tmp } = disk := by simp
  have here := @Compacting.unpublished disk live records [] disk.tmp
  have same := @Compacted.unpublished disk inner live records [] disk.tmp
  rw [still] at here same
  cases state : inner.poisoned with
  | some why =>
      simp only [Inner.compact, Inner.checkUsable, state]
      exact ⟨here, same⟩
  | none =>
      obtain ⟨clean, keeps⟩ := ready.usable state
      simp only [Inner.compact, Inner.checkUsable, state]
      apply spec_freshTmp (fun more tmp => .unpublished more tmp)
      · have present : (disk.writing .empty).files[inner.file]? = some file := by
          obtain ⟨within, _⟩ := List.getElem?_eq_some_iff.mp there
          rw [Disk.writing, List.getElem?_append_left within, there]
        apply spec_readLog (show (disk.writing .empty).log = some inner.file from named) present
          (.unpublished [_] _)
        · simp only [keeps.holds.scan]
          apply Program.Spec.bind
          refine (copyLive_spec keeps.ascending records [] rfl 0 rfl (by decide)
            Indexes.empty).mono (fun _ stops => stops) ?_
          rintro result after stops ⟨copy, rfl, finished⟩
          cases result with
          | none => exact ⟨stops, .unpublished [copy] _⟩
          | some placed =>
              obtain ⟨index, endOffset⟩ := placed
              obtain ⟨whole, size, indexes, rfl⟩ := finished index endOffset rfl
              change (if (image records).length ≠ inner.endOffset then _ else _ :
                DiskProgram (Except Failure Nat × Inner)).Spec _ _ _ _
              rw [if_neg (not_not.mpr ready.endOffset.symm)]
              exact publish_spec ready state whole size indexes
        · exact ⟨.unpublished [_] _, .unpublished [_] _⟩
      · intro more tmp
        exact ⟨.unpublished more tmp, .unpublished more tmp⟩

end Compact

end Keystory.ValueStore
