/-
The value store over its directory: the log's name, which file it denotes now and
which one it denotes after a power loss, the file a compaction writes, and
`ValueStore` as programs over file-system calls that may fail.
-/

import Keystory.General.File
import Keystory.General.Program
import Keystory.General.SortedMap
import Keystory.Storage.Failure
import Keystory.ValueStore.Records

namespace Keystory.ValueStore

open General

structure BlobRef where
  id : Nat
  offset : Nat
  len : Nat
deriving DecidableEq, Repr

/-! ### The directory -/

/-- What a run leaves behind for its observer: the handles that callers were given, and the
compactions that took effect. -/
inductive Note where
  | stored (ref : BlobRef) (value : Bytes)
  | compacted (live : List Nat)
deriving DecidableEq, Repr

structure Disk where
  /-- every file ever created; a name denotes one by its position -/
  files : List (File UInt8)
  /-- the directory entry of the log -/
  log : Option Nat
  /-- the entry of the log that a power loss may restore -/
  durable : Option Nat
  tmp : Option Nat
  notes : List Note
deriving DecidableEq

def Disk.new : Disk := ⟨[], none, none, none, []⟩

def Disk.bytes (disk : Disk) (file : Nat) : Bytes :=
  ((disk.files[file]?).map File.bytes).getD []

inductive Call where
  /-- `path.exists()` -/
  | probe
  /-- `create_dir_all_durably` and `canonicalize` -/
  | createDirs
  /-- open for append, creating the log if needed -/
  | openLog
  | syncDir
  /-- the reads of `scan_records`, by path -/
  | readLog
  | len (file : Nat)
  | setLen (file length : Nat)
  | sync (file : Nat)
  | write (file : Nat) (data : Bytes)
  | removeTmp
  | createTmp
  /-- the temporary file takes the log's name; the live set is for the note only -/
  | rename (live : List Nat)

def Call.Reply : Call → Type
  | .openLog => Option Nat
  | .readLog => Option Bytes
  | .len _ => Option Nat
  | .createTmp => Option Nat
  | _ => Bool

/-- No file is longer than a signed 64-bit offset can say. -/
def maxFileLen : Nat := 9223372036854775807

def Disk.modify (disk : Disk) (file : Nat) (change : File UInt8 → File UInt8) : Disk :=
  { disk with files := disk.files.modify file change }

def Disk.touchLog (disk : Disk) : Disk :=
  match disk.log with
  | some _ => disk
  | none => { disk with files := disk.files ++ [.empty], log := some disk.files.length }

def Disk.touchTmp (disk : Disk) : Disk :=
  match disk.tmp with
  | some _ => disk
  | none => { disk with files := disk.files ++ [.empty], tmp := some disk.files.length }

def written (disk : Disk) (file : Nat) (fate : Fate) : Nat :=
  let room := maxFileLen - (disk.bytes file).length
  match fate with
  | .ok => room
  | .fail extent => min extent room

/-- How far a failed call got: a write leaves that many bytes, a sync makes that many safe; a
file may have been created and a directory synced all the same if it is not zero. -/
def serve : (call : Call) → Fate → Disk → call.Reply × Disk
  | .probe, fate, disk => (decide (fate = .ok) && disk.log.isSome, disk)
  | .createDirs, fate, disk => (decide (fate = .ok), disk)
  | .openLog, .ok, disk => (disk.touchLog.log, disk.touchLog)
  | .openLog, .fail extent, disk => (none, if extent = 0 then disk else disk.touchLog)
  | .syncDir, .ok, disk => (true, { disk with durable := disk.log })
  | .syncDir, .fail extent, disk =>
      (false, if extent = 0 then disk else { disk with durable := disk.log })
  | .readLog, .ok, disk => (disk.log.map disk.bytes, disk)
  | .readLog, .fail _, disk => (none, disk)
  | .len file, .ok, disk => ((disk.files[file]?).map (·.bytes.length), disk)
  | .len _, .fail _, disk => (none, disk)
  | .setLen file length, .ok, disk => (true, disk.modify file (·.setLen 0 length))
  | .setLen _ _, .fail _, disk => (false, disk)
  | .sync file, .ok, disk => (true, disk.modify file (·.sync))
  | .sync file, .fail extent, disk => (false, disk.modify file (·.harden extent))
  | .write file data, fate, disk =>
      (decide (fate = .ok ∧ data.length ≤ written disk file fate),
        disk.modify file (·.append (data.take (written disk file fate))))
  | .removeTmp, .ok, disk => (disk.tmp.isSome, { disk with tmp := none })
  | .removeTmp, .fail _, disk => (false, disk)
  | .createTmp, .ok, disk => (if disk.tmp.isSome then none else disk.touchTmp.tmp, disk.touchTmp)
  | .createTmp, .fail extent, disk => (none, if extent = 0 then disk else disk.touchTmp)
  | .rename live, .ok, disk =>
      match disk.tmp with
      | none => (false, disk)
      | some file =>
          (true, { disk with log := some file, tmp := none, notes := disk.notes ++ [.compacted live] })
  | .rename _, .fail _, disk => (false, disk)

def directory : Device Call Call.Reply Fate Disk where
  serve := serve
  allows := fun _ _ => True

instance (call : Call) (fate : Fate) : Decidable (directory.allows call fate) :=
  inferInstanceAs (Decidable True)

abbrev DiskProgram := Program Call Call.Reply

def probe : DiskProgram Bool := Program.request Call.probe
def createDirs : DiskProgram Bool := Program.request Call.createDirs
def openLog : DiskProgram (Option Nat) := Program.request Call.openLog
def syncDir : DiskProgram Bool := Program.request Call.syncDir
def readLog : DiskProgram (Option Bytes) := Program.request Call.readLog
def len (file : Nat) : DiskProgram (Option Nat) := Program.request (Call.len file)
def setLen (file length : Nat) : DiskProgram Bool := Program.request (Call.setLen file length)
def sync (file : Nat) : DiskProgram Bool := Program.request (Call.sync file)
def write (file : Nat) (data : Bytes) : DiskProgram Bool := Program.request (Call.write file data)
def removeTmp : DiskProgram Bool := Program.request Call.removeTmp
def createTmp : DiskProgram (Option Nat) := Program.request Call.createTmp
def rename (live : List Nat) : DiskProgram Bool := Program.request (Call.rename live)

/-! ### The store -/

def relPath : String := "values/blobs"

abbrev Index := SortedMap Nat (Nat × Nat)

structure Inner where
  file : Nat
  nextId : Nat
  endOffset : Nat
  index : Index
  poisoned : Option String
deriving DecidableEq

def Inner.checkUsable (inner : Inner) : Except Failure Unit :=
  match inner.poisoned with
  | none => .ok ()
  | some why =>
      .error (.other
        (s!"the value store refuses writes after an earlier failure: {why}; reopen it "
          ++ "to recover"))

/-- Cut a failed append off again, or poison the store. -/
def Inner.rollBack (inner : Inner) (cause : Failure) : DiskProgram Inner := do
  let first := cause.text
  let second := Failure.os.text
  let why := s!"an append failed ({first}) and could not be rolled back ({second})"
  if ← setLen inner.file inner.endOffset then
    if ← sync inner.file then return inner
    else return { inner with poisoned := some why }
  else return { inner with poisoned := some why }

/-- The sink of `open`: the index and the highest fence so far. -/
def noteFound (seen : Index × Nat) (found : Found) : Index × Nat :=
  if found.id = fenceId then
    (seen.1, if found.payload.length = 8 then max seen.2 (ofBe found.payload) else seen.2)
  else (seen.1.insert found.id (found.offset, found.payload.length), seen.2)

/-- One above the highest id of the index, but not below the fence. -/
def nextAfter (index : Index) (fence : Nat) : Nat :=
  max ((index.keys.getLast?).elim 0 (· + 1)) fence

/-- The store that the scan of a log gives. -/
def scanned (file : Nat) (bytes : Bytes) : Inner :=
  let (found, endOffset) := scanRecords bytes
  let (index, fence) := found.foldl noteFound (SortedMap.empty, 0)
  { file, nextId := nextAfter index fence, endOffset, index, poisoned := none }

/-- The rest of an open, once the log's file is open: scan it and drop a torn tail. -/
def recover (file : Nat) : DiskProgram (Except Failure Inner) := do
  match ← readLog with
  | none => return .error .os
  | some bytes =>
      let inner := scanned file bytes
      match ← len file with
      | none => return .error .os
      | some length =>
          if length > inner.endOffset then
            if ← setLen file inner.endOffset then
              if ← sync file then return .ok inner else return .error .os
            else return .error .os
          else return .ok inner

/-- A log that was not there before must get a durable directory entry. -/
def adopt (found : Bool) (file : Nat) : DiskProgram (Except Failure Inner) :=
  if found then recover file
  else do
    if ← syncDir then recover file else return .error .os

def openStore : DiskProgram (Except Failure Inner) := do
  let found ← probe
  if ← createDirs then
    match ← openLog with
    | none => return .error .os
    | some file => adopt found file
  else return .error .os

/-- `ValueStore::put`. The four writes of a record are one call here: what a failure or a kill
in between leaves is a leading part of the record either way. -/
def Inner.put (inner : Inner) (value : Bytes) : DiskProgram (Except Failure BlobRef × Inner) :=
  match inner.checkUsable with
  | .error failure => return (.error failure, inner)
  | .ok () =>
      let id := inner.nextId
      if id = fenceId then return (.error (.other "blob id space exhausted"), inner)
      else do
        let offset := inner.endOffset
        let arrived ← write inner.file (writeRecord id value)
        let durable ← if arrived then sync inner.file else pure false
        if durable then
          let len := value.length
          return (.ok ⟨id, offset, len⟩,
            { inner with
              endOffset := inner.endOffset + ((recHdr + recTrail) + len)
              nextId := id + 1
              index := inner.index.insert id (offset, len) })
        else
          let inner ← inner.rollBack .os
          return (.error .os, inner)

/-- `ValueStore::get`, on the bytes of the store's file. -/
def Inner.get (inner : Inner) (bytes : Bytes) (ref : BlobRef) : Option Bytes := do
  let (offset, len) ← inner.index.find? ref.id
  if len ≠ ref.len then none else readBlob bytes ref.id offset len

/-- The sink of `compact`: each live blob is written again, with its new place. -/
def copyLive (file : Nat) (live : List Nat) :
    List Found → Index → Nat → DiskProgram (Option (Index × Nat))
  | [], index, endOffset => return some (index, endOffset)
  | found :: later, index, endOffset =>
      if found.id = fenceId ∨ ¬ found.id ∈ live then copyLive file live later index endOffset
      else do
        if ← write file (writeRecord found.id found.payload) then
          copyLive file live later
            (index.insert found.id (endOffset, found.payload.length))
            (endOffset + (recHdr + recTrail + found.payload.length))
        else return none

/-- Publish a compacted log: from the rename on it is the store's, whatever happens next. -/
def Inner.publish (inner : Inner) (live : List Nat) (file : Nat) (index : Index)
    (endOffset : Nat) : DiskProgram (Except Failure Nat × Inner) := do
  if ← write file (writeRecord fenceId (toBe 8 inner.nextId)) then
    let endOffset := endOffset + (recHdr + recTrail + 8)
    if ← sync file then
      if ← rename live then
        let inner := { inner with file, index, endOffset }
        if ← syncDir then return (.ok endOffset, inner) else return (.error .os, inner)
      else return (.error .os, inner)
    else return (.error .os, inner)
  else return (.error .os, inner)

def Inner.compact (inner : Inner) (live : List Nat) :
    DiskProgram (Except Failure Nat × Inner) :=
  match inner.checkUsable with
  | .error failure => return (.error failure, inner)
  | .ok () => do
      let _ ← removeTmp
      match ← createTmp with
      | none => return (.error .os, inner)
      | some file =>
          match ← readLog with
          | none => return (.error .os, inner)
          | some bytes =>
              let (found, stopped) := scanRecords bytes
              match ← copyLive file live found SortedMap.empty 0 with
              | none => return (.error .os, inner)
              | some (index, endOffset) =>
                  if stopped ≠ inner.endOffset then
                    let whole := inner.endOffset
                    return (.error (.invalidData
                      (s!"blob log {relPath} is damaged at byte {stopped} of {whole}; refusing to "
                        ++ "compact away the blobs after it")), inner)
                  else inner.publish live file index endOffset

end Keystory.ValueStore
