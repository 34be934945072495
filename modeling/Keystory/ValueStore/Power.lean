/-
Handles and power losses. A handle is durable if, before its put returned, every
step that created the log or renamed over it was followed by a sync of the
directory: then each later life of the log has its blob until a compaction drops
it, and never gives its id out again. The store does not see to the syncs itself:
after a failed one it goes on with an entry that a power loss takes back.
-/

import Keystory.ValueStore.Entry

namespace Keystory.ValueStore

open General

section PowerLoss

variable {tracks : List Note → List LogRecord → Prop} {certain : List LogRecord → Prop}
  {allowed : List Nat → Prop}

theorem getElem?_powerLoss {disk : Disk} {number : Nat} {file : File UInt8}
    (there : disk.files[number]? = some file) (restore : Bool) (kept : Nat → Nat) :
    (disk.powerLoss restore kept).files[number]? =
      some (.settled (file.synced ++ file.unsynced.take (kept number))) := by
  simp [Disk.powerLoss, there]

theorem Sound.tracked {disk : Disk} (sound : Sound tracks certain disk) :
    ∃ records, tracks disk.notes records := by
  have log := sound.log
  cases named : disk.log with
  | none =>
      rw [named] at log
      exact ⟨[], log.2⟩
  | some number =>
      rw [named] at log
      obtain ⟨_, _, records, _, _, _, tracked⟩ := log
      exact ⟨records, tracked⟩

theorem Sound.powerLoss {disk : Disk} (law : Law tracks certain allowed)
    (free : ∀ {notes records} other, tracks notes records → tracks notes other)
    (sound : Sound tracks certain disk) (restore : Bool) (kept : Nat → Nat) :
    Sound tracks certain (disk.powerLoss restore kept) := by
  obtain ⟨_, tracked⟩ := sound.tracked
  have noted : ∀ records, tracks disk.notes records := fun records => free records tracked
  have survives : ∀ {entry : Option Nat}, Named certain disk.files (fun _ => True) entry →
      Named certain (disk.powerLoss restore kept).files (tracks disk.notes) entry := by
    intro entry named
    cases entry with
    | none => exact ⟨named.1, noted []⟩
    | some number =>
        obtain ⟨file, sure, held, there, keeps, sureHolds, _⟩ := named
        obtain ⟨left, keeps', more, _⟩ := keeps.crash (kept number)
        exact ⟨_, left, left, getElem?_powerLoss there restore kept, keeps',
          law.synced sureHolds more, noted left⟩
  have entry : Named certain (disk.powerLoss restore kept).files (tracks disk.notes)
      (disk.powerLoss restore kept).log := by
    cases restore with
    | true => exact survives sound.durable
    | false => exact survives sound.log.forget
  exact ⟨entry, entry.forget⟩

theorem Inv.of_run {start final : System} {events : List Event} (law : Law tracks certain allowed)
    (free : ∀ {notes records} other, tracks notes records → tracks notes other)
    (keeping : ∀ live, .compact live ∈ events → allowed live) (inv : Inv tracks certain start)
    (ran : runSteps System.step start events = some final) : Inv tracks certain final := by
  refine runSteps_invariant_of (fun event => event ∈ events) (Inv tracks certain) ?_
    (fun _ member => member) inv ran
  intro sys event next member holds stepped
  by_cases powered : ∀ restore kept, event ≠ .powerLoss restore kept
  · exact holds.step law powered (fun live same => keeping live (same ▸ member)) stepped
  · push Not at powered
    obtain ⟨restore, kept, rfl⟩ := powered
    cases stepped
    exact (holds.sound law).powerLoss law free restore kept

end PowerLoss

/-! ### Reopening -/

section Exec

variable {disk : Disk} {number : Nat} {file : File UInt8}

theorem recover_exec (named : disk.log = some number) (there : disk.files[number]? = some file) :
    ((recover number).exec directory .ok disk).1 = .ok (scanned number file.bytes) := by
  have read : readLog.exec directory .ok disk = (some file.bytes, disk) := by
    simp [readLog, Program.request, Program.exec, directory, serve, named, bytes_eq there]
  have measured : (len number).exec directory .ok disk = (some file.bytes.length, disk) := by
    simp [len, Program.request, Program.exec, directory, serve, there]
  unfold recover
  rw [Program.exec_bind, read]
  change (Program.exec directory .ok (len number >>= _) disk).1 = _
  rw [Program.exec_bind, measured]
  change (Program.exec directory .ok (if _ then _ else _) disk).1 = _
  split
  · rfl
  · rfl

theorem openStore_exec (named : disk.log = some number)
    (there : disk.files[number]? = some file) :
    (openStore.exec directory .ok disk).1 = .ok (scanned number file.bytes) := by
  have touched : disk.touchLog = disk := by
    simp [Disk.touchLog, named]
  have found : probe.exec directory .ok disk = (true, disk) := by
    simp [probe, Program.request, Program.exec, directory, serve, named]
  have made : createDirs.exec directory .ok disk = (true, disk) := by
    simp [createDirs, Program.request, Program.exec, directory, serve]
  have opened : openLog.exec directory .ok disk = (some number, disk) := by
    simp [openLog, Program.request, Program.exec, directory, serve, touched, named]
  unfold openStore
  rw [Program.exec_bind, found]
  change (Program.exec directory .ok (createDirs >>= _) disk).1 = _
  rw [Program.exec_bind, made]
  change (Program.exec directory .ok (openLog >>= _) disk).1 = _
  rw [Program.exec_bind, opened]
  exact recover_exec named there

end Exec

section Certain

variable {ref : BlobRef} {value : Bytes}

theorem certain_law (blob : ref.id ≠ fenceId) :
    Law (fun _ _ => True) (fun sure => ⟨ref.id, value⟩ ∈ sure) (fun live => ref.id ∈ live) where
  append := fun _ _ => trivial
  stored := fun _ _ _ _ => trivial
  compact := fun _ _ _ => trivial
  synced := fun member more => more.subset member
  compacted := fun alive member more _ =>
    List.mem_append_left _ (mem_keptOf.mpr ⟨more.subset member, blob, alive⟩)

theorem get_of_certain {disk : Disk}
    (sound : Sound (fun _ _ => True) (fun sure => ⟨ref.id, value⟩ ∈ sure) disk)
    (blob : ref.id ≠ fenceId) (length : ref.len = value.length) :
    ∃ inner, (openStore.exec directory .ok disk).1 = .ok inner ∧
      inner.get ((openStore.exec directory .ok disk).2.bytes inner.file) ref = some value := by
  have log := sound.log
  cases named : disk.log with
  | none =>
      rw [named] at log
      exact absurd log.1 List.not_mem_nil
  | some number =>
      rw [named] at log
      obtain ⟨file, _, _, there, _⟩ := log
      have opened := openStore_exec named there
      refine ⟨_, opened, ?_⟩
      have spec : Inv _ _ ⟨disk, .opening openStore⟩ := sound.openStore
      obtain ⟨_, rests⟩ := Program.Spec.exec spec (fun _ => trivial)
      obtain ⟨after, sure, records, found, ready, member, _⟩ := (rests _ opened).ready
      obtain ⟨clean, keeps⟩ := ready.usable rfl
      rw [bytes_eq found, clean, ← List.append_nil (image records)]
      exact ready.index.get_of_mem keeps.holds.fits (keeps.inside.subset member) blob length

end Certain

/-! ### Ids after a put -/

def Above (base bound : Nat) (notes : List Note) (_ : List LogRecord) : Prop :=
  ∀ ref value, .stored ref value ∈ notes.drop base → bound < ref.id

theorem Above.concat {base bound : Nat} {notes : List Note} {records other : List LogRecord}
    (above : Above base bound notes records) {note : Note}
    (new : ∀ ref value, note = .stored ref value → bound < ref.id) :
    Above base bound (notes ++ [note]) other := by
  intro ref value member
  rw [List.drop_append] at member
  rcases List.mem_append.mp member with old | last
  · exact above ref value old
  · exact new ref value (List.mem_singleton.mp (List.mem_of_mem_drop last)).symm

theorem above_law (base bound : Nat) :
    Law (Above base bound) (bound < nextIdOf ·) (fun _ => True) where
  append := fun above _ => above
  stored := by
    intro notes sure records offset value above certain more _
    refine above.concat ?_
    intro ref bytes same
    cases same
    exact certain.trans_le (nextIdOf_mono more)
  compact := fun _ above _ => above.concat (fun _ _ absurd => by cases absurd)
  synced := fun certain more => Nat.lt_of_lt_of_le certain (nextIdOf_mono more)
  compacted := by
    intro sure records live _ certain more fits
    rw [nextIdOf_compacted fits]
    exact Nat.lt_of_lt_of_le certain (nextIdOf_mono more)

theorem trivial_law : Law (fun _ _ => True) (fun _ => True) (fun _ => True) where
  append := fun _ _ => trivial
  stored := fun _ _ _ _ => trivial
  compact := fun _ _ _ => trivial
  synced := fun _ _ => trivial
  compacted := fun _ _ _ _ => trivial

theorem inv_of_run {events : List Event} {sys : System}
    (reached : runSteps System.step System.new events = some sys) :
    Inv (fun _ _ => True) (fun _ => True) sys := by
  have start : Inv (fun _ _ => True) (fun _ => True) System.new :=
    ⟨⟨trivial, trivial⟩, trivial, trivial⟩
  exact start.of_run trivial_law (fun _ _ => trivial) (fun _ _ => trivial) reached

/-- Once a put whose entry is durable has returned, its record is among the certain ones. -/
theorem Landed.rests {tracks : List Note → List LogRecord → Prop}
    {certain : List LogRecord → Prop} {disk : Disk} {inner : Inner} {ref : BlobRef}
    {value : Bytes} (landed : Landed disk inner ref value) (named : disk.log = some inner.file)
    (settled : disk.durable = some inner.file)
    (tracked : ∀ records, tracks (disk.notes ++ [.stored ref value]) records)
    (holds : ∀ {records}, ⟨ref.id, value⟩ ∈ records → certain records) :
    Rests tracks certain (disk.note (.stored ref value)) inner := by
  obtain ⟨file, records, there, keeps, ready, _⟩ := landed
  have last : (⟨ref.id, value⟩ : LogRecord) ∈ records ++ [⟨ref.id, value⟩] := by simp
  refine ⟨named, ⟨file, _, _, there, ready, holds last, tracked _⟩, ?_⟩
  change Named certain disk.files (fun _ => True) disk.durable
  rw [settled]
  exact ⟨file, _, _, there, keeps, holds last, trivial⟩

/-- A put that returns has its record synced in the file that the log's name denotes, and the
durable entry names that file exactly if every step before that created the log or renamed over
it was followed by a sync of the directory. If so, then in every later run, with whatever
failures, kills and power losses at any point, an open finds the blob as long as no compaction
was asked to drop it, and no put is given its id. -/
theorem put_durable {events : List Event} {sys : System} {value : Bytes} {ref : BlobRef}
    {inner : Inner} (reached : runSteps System.step System.new events = some sys)
    (returns : sys.phase = .putting value (.done (.ok ref, inner))) :
    (∃ file, sys.disk.files[inner.file]? = some file ∧
      writeRecord ref.id value <+: file.synced.drop ref.offset) ∧
    (EntrySynced events ↔ sys.disk.durable = some inner.file) ∧
    (EntrySynced events → ∀ later final,
      runSteps System.step sys (.finish :: later) = some final →
      ((∀ live, .compact live ∈ later → ref.id ∈ live) →
        ∃ reopened, (openStore.exec directory .ok final.disk).1 = .ok reopened ∧
          reopened.get ((openStore.exec directory .ok final.disk).2.bytes reopened.file) ref =
            some value) ∧
      ∀ other bytes, .stored other bytes ∈ final.disk.notes.drop (sys.disk.notes.length + 1) →
        ref.id < other.id) := by
  have agree := durable_eq_log_iff reached
  have inv := inv_of_run reached
  obtain ⟨disk, phase⟩ := sys
  change phase = _ at returns
  subst returns
  obtain ⟨_, rests, landed⟩ := inv
  have named : disk.log = some inner.file := rests.named
  change disk.durable = disk.log ↔ _ at agree
  rw [named] at agree
  obtain ⟨file, records, there, keeps, _, offset, length, blob⟩ := id landed
  refine ⟨⟨file, there, ?_⟩, agree.symm, ?_⟩
  · obtain ⟨rest, same⟩ := keeps.certain
    rw [← same, offset, image_append, image_cons, image_nil, List.append_nil, List.append_assoc,
      List.drop_left]
    exact List.prefix_append _ _
  · intro synced later final ran
    obtain ⟨begun, stepped, onward⟩ := runSteps_cons_eq_some.mp ran
    cases stepped
    have settled := agree.mpr synced
    constructor
    · intro keeping
      have start : Inv (fun _ _ => True) (fun sure => ⟨ref.id, value⟩ ∈ sure)
          ⟨disk.note (.stored ref value), .idle inner⟩ :=
        landed.rests named settled (fun _ => trivial) id
      have now := start.of_run (certain_law blob) (fun _ _ => trivial) keeping onward
      exact get_of_certain (now.sound (certain_law blob)) blob length
    · have start : Inv (Above (disk.notes.length + 1) ref.id) (ref.id < nextIdOf ·)
          ⟨disk.note (.stored ref value), .idle inner⟩ := by
        refine landed.rests named settled ?_ (fun member => lt_nextIdOf member blob)
        intro _ other bytes member
        simp at member
      have now := start.of_run (above_law _ _) (fun _ above => above) (fun _ _ => trivial) onward
      obtain ⟨_, above⟩ := (now.sound (above_law _ _)).tracked
      exact above

/-- A compaction whose directory sync fails, a second one that is synced, and then a put; a
compaction after it again fails to sync, and the power loss that follows takes the log back to
the file the put wrote to. -/
theorem put_durable_between_compactions :
    ∃ (events later : List Event) (sys final : System) (inner : Inner),
      runSteps System.step System.new events = some sys ∧
      sys.phase = .putting [8] (.done (.ok ⟨1, 49, 1⟩, inner)) ∧ EntrySynced events ∧
      runSteps System.step sys (.finish :: later) = some final ∧
      (∃ kept, .powerLoss true kept ∈ later) ∧
      ∃ reopened, (openStore.exec directory .ok final.disk).1 = .ok reopened ∧
        reopened.get ((openStore.exec directory .ok final.disk).2.bytes reopened.file)
          ⟨1, 49, 1⟩ = some [8] := by
  let events : List Event :=
    [.start] ++ List.replicate 6 (.call .ok) ++ [.finish, .put [7]] ++
      List.replicate 2 (.call .ok) ++ [.finish, .compact [0]] ++ List.replicate 7 (.call .ok) ++
      [.call (.fail 0), .finish, .compact [0]] ++ List.replicate 8 (.call .ok) ++
      [.finish, .put [8]] ++ List.replicate 2 (.call .ok)
  let later : List Event :=
    .compact [0, 1] :: List.replicate 8 (.call .ok) ++
      [.call (.fail 0), .finish, .powerLoss true (fun _ => 0)]
  have observed : (runSteps System.step System.new events).bind (fun sys =>
      (runSteps System.step sys (.finish :: later)).map (fun _ =>
        (sys.phase.returns?.map (fun returned => (returned.1, returned.2.1)),
          sys.phase.returns?.map (fun returned => decide
            (sys.disk.durable = some returned.2.2.file))))) =
      some (some ([8], ⟨1, 49, 1⟩), some true) := by
    decide +kernel
  obtain ⟨sys, ran, observed⟩ := Option.bind_eq_some_iff.mp observed
  obtain ⟨final, onward, seen⟩ := Option.map_eq_some_iff.mp observed
  obtain ⟨returning, settled⟩ := Prod.mk.inj seen
  obtain ⟨⟨value, ref, inner⟩, returns, same⟩ := Option.map_eq_some_iff.mp returning
  cases same
  rw [returns] at settled
  obtain ⟨_, agree, survives⟩ := put_durable ran (returns?_eq_some_iff.mp returns)
  have synced := agree.mpr (of_decide_eq_true (Option.some.inj settled))
  refine ⟨events, later, sys, final, inner, ran, returns?_eq_some_iff.mp returns, synced, onward,
    ⟨fun _ => 0, by simp [later]⟩, ?_⟩
  refine (survives synced later final onward).1 ?_
  intro live member
  have only : live = [0, 1] := by simpa [later] using member
  subst only
  decide

/-- A put that returns after a compaction whose directory sync has failed. -/
def unsyncedPut : List Event :=
  [.start] ++ List.replicate 6 (.call .ok) ++ [.finish, .put [7]] ++ List.replicate 2 (.call .ok) ++
    [.finish, .compact [0]] ++ List.replicate 7 (.call .ok) ++ [.call (.fail 0), .finish, .put [8]] ++
    List.replicate 2 (.call .ok)

/-- Power loss right after that put, a reopen, and one more put. -/
def afterwards : List Event :=
  [.finish, .powerLoss true (fun _ => 0), .start] ++ List.replicate 5 (.call .ok) ++ [.finish]

/-- The put returns a handle while the durable entry still names the old log. After the power
loss the handle reads as absent, and the next put is given its id. -/
theorem put_lost_after_failed_sync :
    (runSteps System.step System.new unsyncedPut).map
        (fun sys => (sys.phase.returns?.map (fun returned => (returned.1, returned.2.1)),
          sys.disk.durable, sys.disk.log)) =
      some (some ([8], ⟨1, 49, 1⟩), some 0, some 1) ∧
    (runSteps System.step System.new (unsyncedPut ++ afterwards)).map
        (fun sys => sys.phase.inner?.map
          (fun inner => inner.get (sys.disk.bytes inner.file) ⟨1, 49, 1⟩)) =
      some (some none) ∧
    (runSteps System.step System.new
        (unsyncedPut ++ afterwards ++ [.put [9]] ++ List.replicate 2 (.call .ok))).map
        (fun sys => sys.phase.returns?.map (fun returned => (returned.1, returned.2.1))) =
      some (some ([9], ⟨1, 21, 1⟩)) := by
  decide +kernel

end Keystory.ValueStore
