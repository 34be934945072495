/-
A value store over its whole life: opens, puts and compactions, each file-system
call of which may fail; the process may be killed between any two calls or in the
middle of one, and the power may be lost. One invariant, over what is tracked of
the records and of those that are certain, serves all results.
-/

import Keystory.ValueStore.Operations

namespace Keystory.ValueStore

open General

/-! ### Runs -/

/-- The store's lock admits one operation at a time. -/
inductive Phase where
  | down
  | opening (program : DiskProgram (Except Failure Inner))
  | idle (inner : Inner)
  | putting (value : Bytes) (program : DiskProgram (Except Failure BlobRef × Inner))
  | compacting (program : DiskProgram (Except Failure Nat × Inner))

def Phase.inner? : Phase → Option Inner
  | .idle inner => some inner
  | _ => none

theorem inner?_eq_some_iff {phase : Phase} {inner : Inner} :
    phase.inner? = some inner ↔ phase = .idle inner := by
  cases phase <;> simp [Phase.inner?]

def Phase.returns? : Phase → Option (Bytes × BlobRef × Inner)
  | .putting value (.done (.ok ref, inner)) => some (value, ref, inner)
  | _ => none

theorem returns?_eq_some_iff {phase : Phase} {value : Bytes} {ref : BlobRef} {inner : Inner} :
    phase.returns? = some (value, ref, inner) ↔ phase = .putting value (.done (.ok ref, inner)) := by
  constructor
  · intro same
    unfold Phase.returns? at same
    split at same
    · cases same
      rfl
    · cases same
  · rintro rfl
    rfl

structure System where
  disk : Disk
  phase : Phase

inductive Event where
  | start
  | put (value : Bytes)
  | compact (live : List Nat)
  /-- the operation in progress makes its next call -/
  | call (fate : Fate)
  | finish
  /-- the process ends; a call it was in may have got some way -/
  | kill (extent : Nat)
  /-- power is lost: each file keeps its synced bytes and some of the others -/
  | powerLoss (restore : Bool) (kept : Nat → Nat)

def Disk.note (disk : Disk) (note : Note) : Disk := { disk with notes := disk.notes ++ [note] }

def interrupted {Result : Type} (extent : Nat) : DiskProgram Result → Disk → Disk
  | .done _, disk => disk
  | .call request _, disk => (serve request (.fail extent) disk).2

def Disk.powerLoss (disk : Disk) (restore : Bool) (kept : Nat → Nat) : Disk :=
  let log := if restore then disk.durable else disk.log
  { disk with
    files := disk.files.mapIdx
      (fun number file => .settled (file.synced ++ file.unsynced.take (kept number)))
    log, durable := log }

namespace System

def new : System := ⟨.new, .down⟩

/-- A value is a slice in memory, so its length is bounded. -/
def step (sys : System) : Event → Option System
  | .start =>
      match sys.phase with
      | .down => some { sys with phase := .opening openStore }
      | _ => none
  | .put value =>
      match sys.phase with
      | .idle inner =>
          if value.length ≤ maxFileLen then
            some { sys with phase := .putting value (inner.put value) }
          else none
      | _ => none
  | .compact live =>
      match sys.phase with
      | .idle inner => some { sys with phase := .compacting (inner.compact live) }
      | _ => none
  | .call fate =>
      match sys.phase with
      | .opening program => do
          let (program, disk) ← program.step directory fate sys.disk
          return ⟨disk, .opening program⟩
      | .putting value program => do
          let (program, disk) ← program.step directory fate sys.disk
          return ⟨disk, .putting value program⟩
      | .compacting program => do
          let (program, disk) ← program.step directory fate sys.disk
          return ⟨disk, .compacting program⟩
      | _ => none
  | .finish =>
      match sys.phase with
      | .opening (.done (.ok inner)) => some { sys with phase := .idle inner }
      | .opening (.done (.error _)) => some { sys with phase := .down }
      | .putting value (.done (.ok ref, inner)) =>
          some ⟨sys.disk.note (.stored ref value), .idle inner⟩
      | .putting _ (.done (.error _, inner)) => some { sys with phase := .idle inner }
      | .compacting (.done (_, inner)) => some { sys with phase := .idle inner }
      | _ => none
  | .kill extent =>
      match sys.phase with
      | .opening program => some ⟨interrupted extent program sys.disk, .down⟩
      | .putting _ program => some ⟨interrupted extent program sys.disk, .down⟩
      | .compacting program => some ⟨interrupted extent program sys.disk, .down⟩
      | _ => some { sys with phase := .down }
  | .powerLoss restore kept => some ⟨sys.disk.powerLoss restore kept, .down⟩

end System

/-! ### The invariant -/

section Invariant

variable (tracks : List Note → List LogRecord → Prop) (certain : List LogRecord → Prop)

/-- What the log's name denotes: nothing yet, or a file that is a log. -/
def Named (files : List (File UInt8)) (tracked : List LogRecord → Prop) : Option Nat → Prop
  | none => certain [] ∧ tracked []
  | some number => ∃ file sure held, files[number]? = some file ∧ Keeps file sure held ∧
      certain sure ∧ tracked held

/-- Both directory entries of the log, the current and the durable one. -/
structure Sound (disk : Disk) : Prop where
  log : Named certain disk.files (tracks disk.notes) disk.log
  durable : Named certain disk.files (fun _ => True) disk.durable

structure Rests (disk : Disk) (inner : Inner) : Prop where
  named : disk.log = some inner.file
  ready : ∃ file sure records, disk.files[inner.file]? = some file ∧
    Ready inner file sure records ∧ certain sure ∧ tracks disk.notes records
  durable : Named certain disk.files (fun _ => True) disk.durable

/-- A put that has returned a handle: its record is synced in the file of the log's name. -/
def Landed (disk : Disk) (inner : Inner) (ref : BlobRef) (value : Bytes) : Prop :=
  ∃ file records, disk.files[inner.file]? = some file ∧
    Keeps file (records ++ [⟨ref.id, value⟩]) (records ++ [⟨ref.id, value⟩]) ∧
    Ready inner file (records ++ [⟨ref.id, value⟩]) (records ++ [⟨ref.id, value⟩]) ∧
    ref.offset = (image records).length ∧ ref.len = value.length ∧ ref.id ≠ fenceId

def Inv (sys : System) : Prop :=
  match sys.phase with
  | .down => Sound tracks certain sys.disk
  | .opening program =>
      program.Spec directory (Sound tracks certain)
        (fun result disk => ∀ inner, result = .ok inner → Rests tracks certain disk inner) sys.disk
  | .idle inner => Rests tracks certain sys.disk inner
  | .putting value program =>
      program.Spec directory (Sound tracks certain)
        (fun result disk =>
          match result.1 with
          | .ok ref =>
              Rests tracks certain (disk.note (.stored ref value)) result.2 ∧
                Landed disk result.2 ref value
          | .error _ => Rests tracks certain disk result.2) sys.disk
  | .compacting program =>
      program.Spec directory (Sound tracks certain)
        (fun result disk => Rests tracks certain disk result.2) sys.disk

/-- What has to follow for the records of a log when it is written to, and compacted to one of
the allowed sets. -/
structure Law (allowed : List Nat → Prop) : Prop where
  append : ∀ {notes records payload}, tracks notes records → nextIdOf records ≠ fenceId →
    tracks notes (records ++ [⟨nextIdOf records, payload⟩])
  stored : ∀ {notes sure records offset value}, tracks notes records → certain sure →
    sure <+: records → nextIdOf records ≠ fenceId →
    tracks (notes ++ [.stored ⟨nextIdOf records, offset, value.length⟩ value])
      (records ++ [⟨nextIdOf records, value⟩])
  compact : ∀ {notes records live}, allowed live → tracks notes records →
    (∀ record ∈ records, record.Fits) → tracks (notes ++ [.compacted live]) (compacted live records)
  synced : ∀ {sure records}, certain sure → sure <+: records → certain records
  compacted : ∀ {sure records live}, allowed live → certain sure → sure <+: records →
    (∀ record ∈ records, record.Fits) → certain (compacted live records)

end Invariant

section Steps

variable {tracks : List Note → List LogRecord → Prop} {certain : List LogRecord → Prop}
  {allowed : List Nat → Prop}

theorem Law.behind (law : Law tracks certain allowed) {notes : List Note}
    {records held : List LogRecord} (tracked : tracks notes records)
    (behind : Behind records held) : tracks notes held := by
  rcases behind with rfl | ⟨payload, rfl, blob⟩
  · exact tracked
  · exact law.append tracked blob

variable {disk : Disk} {number : Nat} {tracked : List LogRecord → Prop} {entry : Option Nat}

theorem Named.withFile {file : File UInt8} (named : Named certain disk.files tracked entry)
    (there : disk.files[number]? = some file) {after : File UInt8} {sure held : List LogRecord}
    (keeps : Keeps after sure held) (sureHolds : certain sure) (heldHolds : tracked held) :
    Named certain (disk.withFile number after).files tracked entry := by
  cases entry with
  | none => exact named
  | some other =>
      by_cases same : other = number
      · subst same
        exact ⟨after, sure, held, getElem?_withFile there after, keeps, sureHolds, heldHolds⟩
      · obtain ⟨old, oldSure, oldHeld, found, rest⟩ := named
        refine ⟨old, oldSure, oldHeld, ?_, rest⟩
        simp only [Disk.withFile]
        rw [List.getElem?_set_ne (Ne.symm same), found]

theorem Named.more {files : List (File UInt8)} (named : Named certain files tracked entry)
    (more : List (File UInt8)) : Named certain (files ++ more) tracked entry := by
  cases entry with
  | none => exact named
  | some number =>
      obtain ⟨file, sure, held, found, rest⟩ := named
      refine ⟨file, sure, held, ?_, rest⟩
      obtain ⟨within, _⟩ := List.getElem?_eq_some_iff.mp found
      rw [List.getElem?_append_left within, found]

theorem Named.forget {files : List (File UInt8)} (named : Named certain files tracked entry) :
    Named certain files (fun _ => True) entry := by
  cases entry with
  | none => exact ⟨named.1, trivial⟩
  | some number =>
      obtain ⟨file, sure, held, found, keeps, sureHolds, _⟩ := named
      exact ⟨file, sure, held, found, keeps, sureHolds, trivial⟩

theorem Rests.sound {inner : Inner} (law : Law tracks certain allowed)
    (rests : Rests tracks certain disk inner) : Sound tracks certain disk := by
  obtain ⟨file, sure, records, there, ready, sureHolds, tracked⟩ := rests.ready
  obtain ⟨held, keeps, behind⟩ := ready.held
  refine ⟨?_, rests.durable⟩
  rw [rests.named]
  exact ⟨file, sure, held, there, keeps, sureHolds, law.behind tracked behind⟩

/-! ### Operations -/

theorem Rests.put {inner : Inner} {value : Bytes} (law : Law tracks certain allowed)
    (rests : Rests tracks certain disk inner) (slice : value.length ≤ maxFileLen) :
    Inv tracks certain ⟨disk, .putting value (inner.put value)⟩ := by
  obtain ⟨file, sure, records, there, ready, sureHolds, tracked⟩ := rests.ready
  refine (put_spec there ready slice).mono ?_ ?_
  · rintro after ⟨file', rfl, held, keeps, behind⟩
    refine ⟨?_, rests.durable.withFile there keeps sureHolds trivial⟩
    exact Named.withFile (rests.sound law).log there keeps sureHolds (law.behind tracked behind)
  · rintro ⟨result, after⟩ final _ ⟨same, file', rfl, outcome⟩
    cases result with
    | error failure =>
        obtain ⟨held, keeps, _⟩ := outcome.held
        refine ⟨?_, ⟨file', sure, records, ?_, outcome, sureHolds, tracked⟩, ?_⟩
        · rw [same]
          exact rests.named
        · rw [same]
          exact getElem?_withFile there file'
        · exact rests.durable.withFile there keeps sureHolds trivial
    | ok ref =>
        obtain ⟨rfl, blob, more, keeps, outcome⟩ := outcome
        have all : certain (records ++ [⟨nextIdOf records, value⟩]) :=
          law.synced sureHolds (more.trans (List.prefix_append _ _))
        have found : (disk.withFile inner.file file').files[after.file]? = some file' := by
          rw [show after.file = inner.file from same]
          exact getElem?_withFile there file'
        refine ⟨⟨?_, ⟨file', _, _, found, outcome, all, ?_⟩, ?_⟩, ?_⟩
        · rw [same]
          exact rests.named
        · exact law.stored tracked sureHolds more blob
        · exact rests.durable.withFile there keeps all trivial
        · exact ⟨file', records, found, keeps, outcome, rfl, rfl, blob⟩

theorem Rests.compact {inner : Inner} (law : Law tracks certain allowed)
    (rests : Rests tracks certain disk inner) {live : List Nat} (keeping : allowed live) :
    Inv tracks certain ⟨disk, .compacting (inner.compact live)⟩ := by
  have sound := rests.sound law
  cases state : inner.poisoned with
  | some why =>
      simp only [Inv, Inner.compact, Inner.checkUsable, state]
      exact ⟨sound, rests⟩
  | none =>
      obtain ⟨file, sure, records, there, ready, sureHolds, tracked⟩ := rests.ready
      obtain ⟨_, keeps⟩ := ready.usable state
      have new : certain (compacted live records) :=
        law.compacted keeping sureHolds keeps.inside keeps.holds.fits
      have durable : ∀ {file : File UInt8} {durable : Option Nat},
          Keeps file (compacted live records) (compacted live records) →
          durable = disk.durable ∨ durable = some disk.files.length →
          Named certain (disk.files ++ [file]) (fun _ => True) durable := by
        rintro file durable keeps' (rfl | rfl)
        · exact rests.durable.more [file]
        · exact ⟨file, _, _, by simp, keeps', new, trivial⟩
      refine (compact_spec rests.named there ready live).mono ?_ ?_
      · rintro after (⟨more, tmp⟩ | ⟨keeps', either⟩)
        · exact ⟨sound.log.more more, sound.durable.more more⟩
        · exact ⟨⟨_, _, _, by simp [Disk.published], keeps', new,
            law.compact keeping tracked keeps.holds.fits⟩, durable keeps' either⟩
      · rintro ⟨result, after⟩ final _ outcome
        cases outcome with
        | unpublished more tmp =>
            obtain ⟨within, _⟩ := List.getElem?_eq_some_iff.mp there
            refine ⟨rests.named, ⟨file, sure, records, ?_, ready, sureHolds, tracked⟩,
              rests.durable.more more⟩
            rw [List.getElem?_append_left within, there]
        | published outcome current either =>
            obtain ⟨held, heldKeeps, _⟩ := outcome.held
            change after.file = disk.files.length at current
            refine ⟨congrArg some current.symm, ⟨_, _, _, by simp [current, Disk.published],
              outcome, new, law.compact keeping tracked keeps.holds.fits⟩, ?_⟩
            rcases either with rfl | rfl
            · exact rests.durable.more _
            · exact ⟨_, _, held, by simp [Disk.published], heldKeeps, new, trivial⟩

theorem Sound.recover (sound : Sound tracks certain disk) (named : disk.log = some number) :
    (recover number).Spec directory (Sound tracks certain)
      (fun result disk => ∀ inner, result = .ok inner → Rests tracks certain disk inner) disk := by
  have log := sound.log
  rw [named] at log
  obtain ⟨file, sure, records, there, keeps, sureHolds, tracked⟩ := log
  refine (recover_spec named there keeps).mono ?_ ?_
  · rintro after ⟨file', rfl, keeps'⟩
    exact ⟨Named.withFile sound.log there keeps' sureHolds tracked,
      Named.withFile sound.durable there keeps' sureHolds trivial⟩
  · intro result after _ opened inner same
    obtain ⟨rfl, file', rfl, ready⟩ := opened inner same
    obtain ⟨held, keeps', _⟩ := ready.held
    exact ⟨named, ⟨file', sure, records, getElem?_withFile there file', ready, sureHolds, tracked⟩,
      Named.withFile sound.durable there keeps' sureHolds trivial⟩

theorem Sound.touchLog (sound : Sound tracks certain disk) :
    Sound tracks certain disk.touchLog := by
  unfold Disk.touchLog
  split
  · exact sound
  · rename_i absent
    have log := sound.log
    rw [absent] at log
    exact ⟨⟨.empty, [], [], by simp, Keeps.empty, log.1, log.2⟩, sound.durable.more _⟩

theorem exists_log_touchLog (disk : Disk) : ∃ number, disk.touchLog.log = some number := by
  unfold Disk.touchLog
  split
  · exact ⟨_, ‹_›⟩
  · exact ⟨_, rfl⟩

theorem Sound.syncDir (sound : Sound tracks certain disk) :
    Sound tracks certain { disk with durable := disk.log } :=
  ⟨sound.log, sound.log.forget⟩

theorem Sound.openStore (sound : Sound tracks certain disk) :
    Inv tracks certain ⟨disk, .opening openStore⟩ := by
  have failed : ∀ {disk : Disk}, Sound tracks certain disk →
      (pure (.error .os) : DiskProgram (Except Failure Inner)).Spec directory
        (Sound tracks certain)
        (fun result disk => ∀ inner, result = .ok inner → Rests tracks certain disk inner) disk :=
    fun sound => ⟨sound, fun _ absurd => by cases absurd⟩
  have adopted : ∀ (found : Bool) {disk : Disk} {number : Nat}, Sound tracks certain disk →
      disk.log = some number →
      (adopt found number).Spec directory (Sound tracks certain)
        (fun result disk => ∀ inner, result = .ok inner → Rests tracks certain disk inner) disk := by
    intro found disk number sound named
    cases found with
    | true => exact sound.recover named
    | false =>
        apply spec_syncDir sound
        · exact sound.syncDir.recover named
        · exact failed sound
        · exact failed sound.syncDir
  refine Program.spec_request_bind.mpr ⟨sound, ?_⟩
  intro first _
  refine Program.spec_request_bind.mpr ⟨sound, ?_⟩
  intro second _
  cases second with
  | fail extent => exact failed sound
  | ok =>
      refine Program.spec_request_bind.mpr ⟨sound, ?_⟩
      intro third _
      cases third with
      | ok =>
          obtain ⟨number, named⟩ := exists_log_touchLog disk
          simp only [directory, serve, named]
          exact adopted _ sound.touchLog named
      | fail extent =>
          change (pure (.error .os) : DiskProgram (Except Failure Inner)).Spec _ _ _
            (if extent = 0 then disk else disk.touchLog)
          split
          · exact failed sound
          · exact failed sound.touchLog

/-! ### Steps -/

theorem spec_interrupted {Result : Type} {stopped : Disk → Prop} {post : Result → Disk → Prop}
    {program : DiskProgram Result} (spec : program.Spec directory stopped post disk)
    (extent : Nat) : stopped (interrupted extent program disk) := by
  cases program with
  | done result => exact spec.1
  | call request next => exact (spec.2 (.fail extent) trivial).now

/-- Everything but a power loss keeps what the law keeps. -/
theorem Inv.step {sys next : System} {event : Event} (law : Law tracks certain allowed)
    (powered : ∀ restore kept, event ≠ .powerLoss restore kept)
    (keeping : ∀ live, event = .compact live → allowed live) (inv : Inv tracks certain sys)
    (stepped : sys.step event = some next) : Inv tracks certain next := by
  obtain ⟨disk, phase⟩ := sys
  cases event with
  | start =>
      cases phase with
      | down =>
          cases stepped
          exact Sound.openStore inv
      | _ => cases stepped
  | put value =>
      cases phase with
      | idle inner =>
          obtain ⟨slice, same⟩ := Option.ite_none_right_eq_some.mp stepped
          cases same
          exact Rests.put law inv slice
      | _ => cases stepped
  | compact live =>
      cases phase with
      | idle inner =>
          cases stepped
          exact Rests.compact law inv (keeping live rfl)
      | _ => cases stepped
  | call fate =>
      cases phase with
      | opening program =>
          obtain ⟨⟨rest, disk'⟩, served, same⟩ := Option.bind_eq_some_iff.mp stepped
          cases same
          exact Program.Spec.step inv served
      | putting value program =>
          obtain ⟨⟨rest, disk'⟩, served, same⟩ := Option.bind_eq_some_iff.mp stepped
          cases same
          exact Program.Spec.step inv served
      | compacting program =>
          obtain ⟨⟨rest, disk'⟩, served, same⟩ := Option.bind_eq_some_iff.mp stepped
          cases same
          exact Program.Spec.step inv served
      | down => cases stepped
      | idle inner => cases stepped
  | finish =>
      cases phase with
      | opening program =>
          cases program with
          | done result =>
              cases result with
              | ok inner =>
                  cases stepped
                  exact inv.2 inner rfl
              | error failure =>
                  cases stepped
                  exact inv.1
          | call request next => cases stepped
      | putting value program =>
          cases program with
          | done result =>
              obtain ⟨result, inner⟩ := result
              cases result with
              | ok ref =>
                  cases stepped
                  exact inv.2.1
              | error failure =>
                  cases stepped
                  exact inv.2
          | call request next => cases stepped
      | compacting program =>
          cases program with
          | done result =>
              cases stepped
              exact inv.2
          | call request next => cases stepped
      | down => cases stepped
      | idle inner => cases stepped
  | kill extent =>
      cases phase with
      | down =>
          cases stepped
          exact inv
      | idle inner =>
          cases stepped
          exact Rests.sound law inv
      | opening program =>
          cases stepped
          exact spec_interrupted inv extent
      | putting value program =>
          cases stepped
          exact spec_interrupted inv extent
      | compacting program =>
          cases stepped
          exact spec_interrupted inv extent
  | powerLoss restore kept => exact absurd rfl (powered restore kept)

theorem Inv.sound {sys : System} (law : Law tracks certain allowed) (inv : Inv tracks certain sys) :
    Sound tracks certain sys.disk := by
  obtain ⟨disk, phase⟩ := sys
  cases phase with
  | down => exact inv
  | idle inner => exact Rests.sound law inv
  | opening program => exact Program.Spec.now inv
  | putting value program => exact Program.Spec.now inv
  | compacting program => exact Program.Spec.now inv

end Steps

end Keystory.ValueStore
