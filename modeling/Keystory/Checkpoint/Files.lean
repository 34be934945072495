/-
The checkpoint files of a store directory: loading the latest usable one, and
the write that streams a new one beside them, keeps the one it replaces and
renames the new one into place. Wherever the write stops, both generations are
whole files.
-/

import Keystory.Checkpoint.Format
import Keystory.General.File
import Keystory.General.Program

namespace Keystory

/-- An error passed on with the name of what it happened to in front. -/
def Failure.within (failure : Failure) (context : String) : Failure :=
  let text := failure.text
  ⟨failure.kind, s!"{context}: {text}"⟩

namespace Checkpoint

open General

def snapshotName : String := "snap.dat"
def snapshotPrev : String := "snap.prev"
def snapshotTmp : String := "snap.tmp"

/-- The files by their names: `snap.tmp`, `snap.dat` and `snap.prev`. -/
@[ext] structure SnapFiles where
  tmp : Option (File UInt8)
  latest : Option (File UInt8)
  prev : Option (File UInt8)
deriving DecidableEq

def SnapFiles.empty : SnapFiles := ⟨none, none, none⟩

/-! ### Loading -/

structure Loaded where
  snapshot : Option Snapshot
  latestDamaged : Bool
deriving DecidableEq

def loadFile (path : String) : Option (File UInt8) → Except Failure (Option Snapshot)
  | none => .ok none
  | some file =>
      match decode file.bytes with
      | .ok snapshot => .ok (some snapshot)
      | .error failure => .error (failure.within path)

/-- The most recent usable checkpoint: only damage is grounds for a fall-back. -/
def load (files : SnapFiles) : Except Failure Loaded :=
  match loadFile snapshotName files.latest with
  | .ok (some snapshot) => .ok ⟨some snapshot, false⟩
  | .ok none => do
      let snapshot ← loadFile snapshotPrev files.prev
      return ⟨snapshot, false⟩
  | .error failure =>
      if failure.kind = .invalidData then do
        match ← loadFile snapshotPrev files.prev with
        | some snapshot => return ⟨some snapshot, true⟩
        | none => throw failure
      else .error failure

/-! ### Calls -/

inductive Call where
  /-- open `snap.tmp` for writing, created or truncated -/
  | createTmp
  /-- write to the end of `snap.tmp` -/
  | write (data : Bytes)
  | syncTmp
  /-- `snap.dat` exists, as far as `stat` can tell -/
  | latestExists
  /-- rename `snap.dat` to `snap.prev` -/
  | demote
  /-- rename `snap.tmp` to `snap.dat` -/
  | promote
  | syncDir

def SnapFiles.demoted (files : SnapFiles) : SnapFiles :=
  match files.latest with
  | none => files
  | some file => { files with latest := none, prev := some file }

def SnapFiles.promoted (files : SnapFiles) : SnapFiles :=
  match files.tmp with
  | none => files
  | some file => { files with tmp := none, latest := some file }

/-- A failed write leaves some of its bytes, a failed sync makes some safe; a failed
rename or create has had no effect, or all of it. -/
def serve : Call → Fate → SnapFiles → Bool × SnapFiles
  | .createTmp, .ok, files => (true, { files with tmp := some .empty })
  | .createTmp, .fail extent, files =>
      (false, if extent = 0 then files else { files with tmp := some .empty })
  | .write data, .ok, files => (true, { files with tmp := files.tmp.map (·.append data) })
  | .write data, .fail extent, files =>
      (false, { files with tmp := files.tmp.map (·.append (data.take extent)) })
  | .syncTmp, .ok, files => (true, { files with tmp := files.tmp.map (·.sync) })
  | .syncTmp, .fail extent, files => (false, { files with tmp := files.tmp.map (·.harden extent) })
  | .latestExists, .ok, files => (files.latest.isSome, files)
  | .latestExists, .fail _, files => (false, files)
  | .demote, .ok, files => (files.latest.isSome, files.demoted)
  | .demote, .fail extent, files => (false, if extent = 0 then files else files.demoted)
  | .promote, .ok, files => (files.tmp.isSome, files.promoted)
  | .promote, .fail extent, files => (false, if extent = 0 then files else files.promoted)
  | .syncDir, .ok, files => (true, files)
  | .syncDir, .fail _, files => (false, files)

def Call.probes : Call → Bool
  | .latestExists => true
  | _ => false

def directory (faults : Faults) : Device Call (fun _ => Bool) Fate SnapFiles where
  serve := serve
  allows := fun call fate => faults.allow call.probes fate = true

instance (faults : Faults) (call : Call) (fate : Fate) :
    Decidable ((directory faults).allows call fate) :=
  inferInstanceAs (Decidable (faults.allow call.probes fate = true))

abbrev FileProgram := Program Call (fun _ => Bool)

def createTmp : FileProgram Bool := Program.request Call.createTmp
def emit (data : Bytes) : FileProgram Bool := Program.request (Call.write data)
def syncTmp : FileProgram Bool := Program.request Call.syncTmp
def latestExists : FileProgram Bool := Program.request Call.latestExists
def demote : FileProgram Bool := Program.request Call.demote
def promote : FileProgram Bool := Program.request Call.promote
def syncDir : FileProgram Bool := Program.request Call.syncDir

/-! ### Writing -/

/-- What a write does with the checkpoint it replaces. -/
inductive Replaced where
  | retain
  | discard
deriving DecidableEq, Repr

/-- The chunks one by one. The source buffers them, which only delays the writes. -/
def emitAll : List Bytes → FileProgram Bool
  | [] => return true
  | chunk :: chunks => do
      if ← emit chunk then emitAll chunks else return false

def publishTmp : FileProgram (Except Failure Unit) := do
  if ← promote then
    if ← syncDir then return .ok () else return .error .os
  else return .error (Failure.os.within s!"rename {snapshotTmp}")

def swapIn (replaced : Replaced) : FileProgram (Except Failure Unit) := do
  let present ← if replaced = .retain then latestExists else pure false
  if present then
    if ← demote then publishTmp
    else
      let text := Failure.os.text
      return .error ⟨Failure.os.kind, s!"rename {snapshotName} to prev: {text}"⟩
  else publishTmp

def write (snapshot : Snapshot) (replaced : Replaced) : FileProgram (Except Failure Unit) := do
  if ← createTmp then
    let body := writeBody snapshot
    let crc := body.1.foldl Crc.update Crc.new
    if ← emitAll body.1 then
      match body.2 with
      | .error failure => return .error failure
      | .ok () =>
          if ← emit (toLe 4 crc.finish.toNat) then
            if ← syncTmp then swapIn replaced
            else return .error (Failure.os.within s!"fsync {snapshotTmp}")
          else return .error .os
    else return .error .os
  else return .error (Failure.os.within s!"open {snapshotTmp}")

/-! ### Crashes -/

inductive Name where
  | tmp
  | latest
  | prev
deriving DecidableEq

def SnapFiles.crash (files : SnapFiles) (kept safe : Name → Nat) : SnapFiles where
  tmp := files.tmp.map (·.crash (kept .tmp) (safe .tmp))
  latest := files.latest.map (·.crash (kept .latest) (safe .latest))
  prev := files.prev.map (·.crash (kept .prev) (safe .prev))

/-! ### Where a write can stop -/

/-- The checkpoint that the next write leaves as `snap.prev`. -/
def SnapFiles.retained (files : SnapFiles) : Replaced → Option (File UInt8)
  | .retain => files.latest.or files.prev
  | .discard => files.prev

/-- How far a write over `old` has come, as seen by a reader: not begun, between the
renames, or done. -/
inductive Progress (old : SnapFiles) (replaced : Replaced) (content : Bytes)
    (files : SnapFiles) : Prop
  | before (latest : files.latest = old.latest) (prev : files.prev = old.prev)
  | between (retain : replaced = .retain) (latest : files.latest = none)
      (prev : files.prev = old.retained replaced)
  | after (latest : files.latest = some (.settled content))
      (prev : files.prev = old.retained replaced)

section Writing

variable {Result : Type} {faults : Faults} {stopped : SnapFiles → Prop}
  {post : Result → SnapFiles → Prop} {files old : SnapFiles} {replaced : Replaced}
  {content : Bytes} {next : Bool → FileProgram Result}

theorem spec_request (call : Call) (now : stopped files)
    (succeeds : (next (serve call .ok files).1).Spec (directory faults) stopped post
      (serve call .ok files).2)
    (fails : ∀ extent, (next (serve call (.fail extent) files).1).Spec (directory faults) stopped
      post (serve call (.fail extent) files).2) :
    (Program.request call >>= next).Spec (directory faults) stopped post files := by
  rw [Program.spec_request_bind]
  refine ⟨now, ?_⟩
  intro fate _
  cases fate with
  | ok => exact succeeds
  | fail extent => exact fails extent

theorem spec_latestExists (honest : faults ≠ .any) (now : stopped files)
    (tells : (next files.latest.isSome).Spec (directory faults) stopped post files) :
    (latestExists >>= next).Spec (directory faults) stopped post files := by
  refine ⟨now, ?_⟩
  intro fate allowed
  cases fate with
  | ok => exact tells
  | fail extent =>
      exfalso
      cases faults with
      | none => cases allowed
      | honest => cases allowed
      | any => exact honest rfl

def Published (old : SnapFiles) (replaced : Replaced) (content : Bytes)
    (result : Except Failure Unit) (files : SnapFiles) : Prop :=
  result = .ok () → files.latest = some (.settled content) ∧ files.prev = old.retained replaced

theorem Published.failed {failure : Failure} :
    Published old replaced content (.error failure) files := by
  intro succeeded
  cases succeeded

theorem publishTmp_spec (draft : files.tmp = some (.settled content))
    (prev : files.prev = old.retained replaced) (now : Progress old replaced content files) :
    publishTmp.Spec (directory faults) (Progress old replaced content)
      (Published old replaced content) files := by
  have moved : files.promoted = { files with tmp := none, latest := some (.settled content) } := by
    rw [SnapFiles.promoted, draft]
  have done : Progress old replaced content files.promoted := by
    rw [moved]
    exact .after rfl prev
  apply spec_request .promote now
  · simp only [serve, draft, Option.isSome_some, if_true]
    apply spec_request .syncDir done
    · refine ⟨done, ?_⟩
      intro _
      change files.promoted.latest = _ ∧ files.promoted.prev = _
      rw [moved]
      exact ⟨rfl, prev⟩
    · intro _
      exact ⟨done, .failed⟩
  · intro extent
    simp only [serve, Bool.false_eq_true, if_false]
    by_cases none : extent = 0
    · rw [if_pos none]
      exact ⟨now, .failed⟩
    · rw [if_neg none]
      exact ⟨done, .failed⟩

theorem swapIn_spec (honest : faults ≠ .any) (draft : files.tmp = some (.settled content))
    (latest : files.latest = old.latest) (prev : files.prev = old.prev) :
    (swapIn replaced).Spec (directory faults) (Progress old replaced content)
      (Published old replaced content) files := by
  have now : Progress old replaced content files := .before latest prev
  cases replaced with
  | discard => exact publishTmp_spec draft prev now
  | retain =>
      apply spec_latestExists honest now
      cases present : files.latest with
      | none =>
          refine publishTmp_spec draft ?_ now
          rw [SnapFiles.retained, ← latest, present, Option.none_or]
          exact prev
      | some file =>
          have moved : files.demoted = { files with latest := none, prev := some file } := by
            rw [SnapFiles.demoted, present]
          have kept : files.demoted.prev = old.retained .retain := by
            rw [moved, SnapFiles.retained, ← latest, present, Option.some_or]
          have halfway : Progress old .retain content files.demoted := by
            refine .between rfl ?_ kept
            rw [moved]
          apply spec_request .demote now
          · simp only [serve, present, Option.isSome_some, if_true]
            refine publishTmp_spec ?_ kept halfway
            rw [moved]
            exact draft
          · intro extent
            simp only [serve, Bool.false_eq_true, if_false]
            by_cases none : extent = 0
            · rw [if_pos none]
              exact ⟨now, .failed⟩
            · rw [if_neg none]
              exact ⟨halfway, .failed⟩

def Drafted (old : SnapFiles) (draft : Bytes) (files : SnapFiles) : Prop :=
  ∃ file, files = { old with tmp := some file } ∧ file.bytes = draft

theorem emitAll_spec {draft : Bytes} (chunks : List Bytes) (drafted : Drafted old draft files) :
    (emitAll chunks).Spec (directory faults) (Progress old replaced content)
      (fun written files => written = true → Drafted old (draft ++ chunks.flatten) files)
      files := by
  induction chunks generalizing draft files with
  | nil =>
      obtain ⟨file, rfl, same⟩ := drafted
      refine ⟨.before rfl rfl, ?_⟩
      intro _
      exact ⟨file, rfl, by simpa using same⟩
  | cons chunk chunks ih =>
      obtain ⟨file, rfl, rfl⟩ := drafted
      apply spec_request (.write chunk) (.before rfl rfl)
      · have later := ih (show Drafted old (file.bytes ++ chunk) _ from
          ⟨file.append chunk, rfl, File.bytes_append chunk⟩)
        rw [List.append_assoc] at later
        exact later
      · intro extent
        refine ⟨.before rfl rfl, ?_⟩
        intro impossible
        cases impossible

/-- The whole write: readers see the old files, the step between the renames, or the
new checkpoint with the old one retained. -/
theorem write_spec {snapshot : Snapshot} (fits : Fits snapshot) (honest : faults ≠ .any) :
    (write snapshot replaced).Spec (directory faults)
      (Progress files replaced (fileBytes snapshot))
      (Published files replaced (fileBytes snapshot)) files := by
  obtain ⟨chunks, body, whole⟩ := writeBody_eq fits.lengths
  have untouched : ∀ tmp, Progress files replaced (fileBytes snapshot) { files with tmp := tmp } :=
    fun _ => .before rfl rfl
  apply spec_request .createTmp (untouched files.tmp)
  · have draft : Drafted files [] { files with tmp := some .empty } := ⟨.empty, rfl, rfl⟩
    simp only [serve, body]
    apply Program.Spec.bind
    refine (emitAll_spec chunks draft).mono (fun _ stays => stays) ?_
    intro written after now drafted
    cases written with
    | false => exact ⟨now, .failed⟩
    | true =>
        obtain ⟨file, rfl, same⟩ := drafted rfl
        rw [List.nil_append] at same
        apply spec_request (.write _) now
        · apply spec_request .syncTmp (untouched _)
          · refine swapIn_spec honest ?_ rfl rfl
            simp [serve, File.sync, same, whole]
          · intro extent
            exact ⟨untouched _, .failed⟩
        · intro extent
          exact ⟨untouched _, .failed⟩
  · intro extent
    simp only [serve]
    by_cases none : extent = 0
    · rw [if_pos none]
      exact ⟨untouched files.tmp, .failed⟩
    · rw [if_neg none]
      exact ⟨untouched _, .failed⟩

end Writing

/-! ### Writes that are not disturbed -/

theorem emitAll_exec (chunks : List Bytes) (files : SnapFiles) :
    (emitAll chunks).exec (directory .none) .ok files =
      (true, { files with tmp := files.tmp.map (fun file => chunks.foldl File.append file) }) := by
  induction chunks generalizing files with
  | nil =>
      obtain ⟨tmp, latest, prev⟩ := files
      cases tmp <;> rfl
  | cons chunk chunks ih =>
      have rest := ih { files with tmp := files.tmp.map (·.append chunk) }
      change (emitAll chunks).exec (directory .none) .ok
        { files with tmp := files.tmp.map (·.append chunk) } = _
      rw [rest, Option.map_map]
      rfl

theorem publishTmp_exec {files : SnapFiles} (draft : files.tmp.isSome = true) :
    (publishTmp.exec (directory .none) .ok files).1 = .ok () := by
  change (Program.exec _ _ (if files.tmp.isSome = true then _ else _) _).1 = _
  rw [if_pos draft]
  rfl

theorem swapIn_exec {files : SnapFiles} (draft : files.tmp.isSome = true) (replaced : Replaced) :
    ((swapIn replaced).exec (directory .none) .ok files).1 = .ok () := by
  cases replaced with
  | discard => exact publishTmp_exec draft
  | retain =>
      change (Program.exec _ _ (if files.latest.isSome = true then _ else _) _).1 = _
      by_cases present : files.latest.isSome = true
      · rw [if_pos present]
        change (Program.exec _ _ (if files.latest.isSome = true then _ else _) files.demoted).1 = _
        rw [if_pos present]
        apply publishTmp_exec
        obtain ⟨file, same⟩ := Option.isSome_iff_exists.mp present
        rw [SnapFiles.demoted, same]
        exact draft
      · rw [if_neg present]
        exact publishTmp_exec draft

theorem write_exec {snapshot : Snapshot} (fits : Fits snapshot) (replaced : Replaced)
    (files : SnapFiles) :
    ((write snapshot replaced).exec (directory .none) .ok files).1 = .ok () := by
  obtain ⟨chunks, body, _⟩ := writeBody_eq fits.lengths
  change (Program.exec _ _ (emitAll (writeBody snapshot).1 >>= _) _).1 = _
  rw [Program.exec_bind, emitAll_exec, body]
  exact swapIn_exec rfl replaced

theorem write_leads {snapshot : Snapshot} (fits : Fits snapshot) (replaced : Replaced)
    (files : SnapFiles) :
    (write snapshot replaced).Spec (directory .none) (fun _ => True)
      (fun result after => result = .ok () ∧
        after.latest = some (.settled (fileBytes snapshot)) ∧ after.prev = files.retained replaced)
      files := by
  refine Program.Spec.of_exec .ok ?_ ?_
  · intro call fate allowed
    cases fate with
    | ok => rfl
    | fail extent => cases allowed
  · have succeeded := write_exec fits replaced files
    have allowed : ∀ call, (directory .none).allows call .ok := fun _ => rfl
    have spec : (write snapshot replaced).Spec (directory .none) _ _ files :=
      write_spec fits (by decide)
    exact ⟨succeeded, (spec.exec allowed).2 succeeded⟩

end Checkpoint

end Keystory
