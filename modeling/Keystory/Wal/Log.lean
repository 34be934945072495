/-
The log itself: a directory of segment files behind file-system calls that may
fail, and the operations of `Wal` as programs over those calls. `poisoned`
records that the directory is not what the log believes it to be.
-/

import Keystory.General.File
import Keystory.General.Program
import Keystory.General.SortedMap
import Keystory.Wal.Segment

namespace Keystory.Wal

open General

/-! ### The segment directory -/

/-- The segment files by sequence number; their names sort the same way. -/
abbrev Segments := SortedMap Nat (File UInt8)

inductive Call where
  /-- `list_segments` followed by reading every file -/
  | readDir
  | list
  | len (seq : Nat)
  /-- `symlink_metadata().is_ok()` -/
  | lstat (seq : Nat)
  | createNew (seq : Nat)
  /-- open in append mode, creating the file if needed -/
  | openAppend (seq : Nat)
  /-- `write_all` at a position, or at the end in append mode -/
  | write (seq : Nat) (position : Option Nat) (data : Bytes)
  | setLen (seq length : Nat)
  | seek (seq position : Nat)
  | sync (seq : Nat)
  | remove (seq : Nat)
  | syncDir

/-- A write also moves the handle by what it wrote, even when it fails. -/
def Call.Reply : Call → Type
  | .readDir => List (Nat × Bytes)
  | .list => Option (List Nat)
  | .len _ => Nat
  | .write _ _ _ => Bool × Nat
  | _ => Bool

def writeFile (file : File UInt8) (position : Option Nat) (data : Bytes) : File UInt8 :=
  match position with
  | none => file.append data
  | some position => file.writeAt 0 position data

def modify (segments : Segments) (seq : Nat) (change : File UInt8 → File UInt8) : Segments :=
  match segments.find? seq with
  | none => segments
  | some file => segments.insert seq (change file)

def touch (segments : Segments) (seq : Nat) : Segments :=
  match segments.find? seq with
  | none => segments.insert seq .empty
  | some _ => segments

/-- How far a failed call got: a write leaves that many bytes, a sync makes that
many bytes safe; for any other call zero is no effect and more is the full one. -/
def serve : (call : Call) → Fate → Segments → call.Reply × Segments
  | .readDir, _, segments =>
      (segments.entries.map (fun entry => (entry.1, entry.2.bytes)), segments)
  | .list, .ok, segments => (some segments.keys, segments)
  | .list, .fail _, segments => (none, segments)
  | .len seq, _, segments => (((segments.find? seq).map (·.bytes.length)).getD (0 : Nat), segments)
  | .lstat seq, .ok, segments => ((segments.find? seq).isSome, segments)
  | .lstat _, .fail _, segments => (false, segments)
  | .createNew seq, .ok, segments => ((segments.find? seq).isNone, touch segments seq)
  | .createNew seq, .fail extent, segments =>
      (false, if extent = 0 then segments else touch segments seq)
  | .openAppend seq, .ok, segments => (true, touch segments seq)
  | .openAppend seq, .fail extent, segments =>
      (false, if extent = 0 then segments else touch segments seq)
  | .write seq position data, .ok, segments =>
      ((true, data.length), modify segments seq (writeFile · position data))
  | .write seq position data, .fail extent, segments =>
      ((false, (data.take extent).length),
        modify segments seq (writeFile · position (data.take extent)))
  | .setLen seq length, .ok, segments => (true, modify segments seq (·.setLen 0 length))
  | .setLen seq length, .fail extent, segments =>
      (false, if extent = 0 then segments else modify segments seq (·.setLen 0 length))
  | .seek _ _, .ok, segments => (true, segments)
  | .seek _ _, .fail _, segments => (false, segments)
  | .sync seq, .ok, segments => (true, modify segments seq (·.sync))
  | .sync seq, .fail extent, segments => (false, modify segments seq (·.harden extent))
  | .remove seq, .ok, segments => ((segments.find? seq).isSome, segments.erase seq)
  | .remove seq, .fail extent, segments =>
      (false, if extent = 0 then segments else segments.erase seq)
  | .syncDir, .ok, segments => (true, segments)
  | .syncDir, .fail _, segments => (false, segments)

/-- The calls that only ask whether a file exists. -/
def Call.probes : Call → Bool
  | .lstat _ => true
  | _ => false

def directory (faults : Faults) : Device Call Call.Reply Fate Segments where
  serve := serve
  allows := fun call fate => faults.allow call.probes fate = true

instance (faults : Faults) (call : Call) (fate : Fate) :
    Decidable ((directory faults).allows call fate) :=
  inferInstanceAs (Decidable (faults.allow call.probes fate = true))

abbrev SegmentProgram := Program Call Call.Reply

def readDir : SegmentProgram (List (Nat × Bytes)) := Program.request Call.readDir
def list : SegmentProgram (Option (List Nat)) := Program.request Call.list
def len (seq : Nat) : SegmentProgram Nat := Program.request (Call.len seq)
def lstat (seq : Nat) : SegmentProgram Bool := Program.request (Call.lstat seq)
def createNew (seq : Nat) : SegmentProgram Bool := Program.request (Call.createNew seq)
def openAppend (seq : Nat) : SegmentProgram Bool := Program.request (Call.openAppend seq)
def write (seq : Nat) (position : Option Nat) (data : Bytes) : SegmentProgram (Bool × Nat) :=
  Program.request (Call.write seq position data)
def setLen (seq length : Nat) : SegmentProgram Bool := Program.request (Call.setLen seq length)
def seek (seq position : Nat) : SegmentProgram Bool := Program.request (Call.seek seq position)
def sync (seq : Nat) : SegmentProgram Bool := Program.request (Call.sync seq)
def remove (seq : Nat) : SegmentProgram Bool := Program.request (Call.remove seq)
def syncDir : SegmentProgram Bool := Program.request Call.syncDir

/-! ### The log -/

def minRecord : Nat := 4 + minPayload + 4

/-- An open file: which one, and where the next write goes. -/
structure Handle where
  seq : Nat
  /-- `none` in append mode -/
  position : Option Nat
deriving DecidableEq, Repr

def Handle.advance (handle : Handle) (count : Nat) : Handle :=
  { handle with position := handle.position.map (· + count) }

def Handle.seekTo (handle : Handle) (position : Nat) : Handle :=
  { handle with position := handle.position.map (fun _ => position) }

end Keystory.Wal

namespace Keystory

open General

structure Wal where
  file : Wal.Handle
  segSeq : Nat
  segBytes : Nat
  maxSegBytes : Nat
  poisoned : Option String
deriving DecidableEq, Repr

namespace Wal

def poison (wal : Wal) (why : String) : Wal := { wal with poisoned := some why }

def checkUsable (wal : Wal) : Except Failure Unit :=
  match wal.poisoned with
  | none => .ok ()
  | some why =>
      .error (.other
        (s!"the WAL refuses writes after an earlier failure: {why}; reopen the store "
          ++ "to recover"))

/-- Cut a failed append off again, or poison the log. -/
def rollBack (wal : Wal) (cause : Failure) : SegmentProgram Wal := do
  let first := cause.text
  let second := Failure.os.text
  let why := s!"an append failed ({first}) and could not be rolled back ({second})"
  if ← setLen wal.file.seq wal.segBytes then
    if ← seek wal.file.seq wal.segBytes then
      let wal := { wal with file := wal.file.seekTo wal.segBytes }
      if ← sync wal.file.seq then return wal
      else return wal.poison why
    else return wal.poison why
  else return wal.poison why

/-- The rest of a rotation, once the next segment's file has been created. -/
def startSegment (wal : Wal) (next : Nat) : SegmentProgram (Except Failure Nat × Wal) := do
  let path := segmentPath next
  let e := Failure.os.text
  let (written, count) ← write next (some 0) segmentHeader
  let born ← if written then sync next else pure false
  if born then
    if ← syncDir then
      return (.ok next,
        { wal with file := ⟨next, some count⟩, segSeq := next, segBytes := headerLen })
    else
      return (.error .os, wal.poison
        s!"segment {path} was created but the directory could not be synced ({e})")
  else
    -- a half-born segment must not outlive the failure
    let why := s!"segment {path} could not be created ({e}) nor removed ({e})"
    if ← remove next then
      if ← syncDir then return (.error .os, wal)
      else return (.error .os, wal.poison why)
    else return (.error .os, wal.poison why)

def rotateSegment (wal : Wal) : SegmentProgram (Except Failure Nat × Wal) :=
  match wal.checkUsable with
  | .error failure => return (.error failure, wal)
  | .ok () => do
      if ← sync wal.file.seq then
        if wal.segSeq = 4294967295 then
          return (.error (.other "WAL segment sequence exhausted (u32::MAX segments)"), wal)
        else
          let next := wal.segSeq + 1
          let path := segmentPath next
          let e := Failure.os.text
          if ← createNew next then wal.startSegment next
          else if ← lstat next then
            return (.error .os, wal.poison
              s!"segment {path} already exists beside the current one ({e})")
          else return (.error .os, wal)
      else return (.error .os, wal)

/-- The buffer of an append: each record checked, then framed. -/
def frameAll : List Record → Except Failure Bytes
  | [] => .ok []
  | record :: records => do
      checkOps record.ops
      let buf ← frameAll records
      return frame record ++ buf

/-- The write and sync of an append, rolled back when either fails. -/
def writeGroup (wal : Wal) (buf : Bytes) : SegmentProgram (Except Failure Unit × Wal) := do
  let (written, count) ← write wal.file.seq wal.file.position buf
  let wal := { wal with file := wal.file.advance count }
  let durable ← if written then sync wal.file.seq else pure false
  if durable then return (.ok (), { wal with segBytes := wal.segBytes + buf.length })
  else
    let wal ← wal.rollBack .os
    return (.error .os, wal)

def appendMany (wal : Wal) (records : List Record) :
    SegmentProgram (Except Failure Unit × Wal) :=
  match wal.checkUsable with
  | .error failure => return (.error failure, wal)
  | .ok () =>
      if records.isEmpty then return (.ok (), wal)
      else
        match frameAll records with
        | .error failure => return (.error failure, wal)
        | .ok buf =>
            -- rotate first if this group would overflow a segment that holds records
            if wal.segBytes + buf.length > wal.maxSegBytes ∧ wal.segBytes > headerLen then do
              let (rotated, wal) ← wal.rotateSegment
              match rotated with
              | .error failure => return (.error failure, wal)
              | .ok _ => wal.writeGroup buf
            else wal.writeGroup buf

/-- Remove files in order, up to the first that cannot be. -/
def removeAll : List Nat → SegmentProgram Bool
  | [] => return true
  | seq :: rest => do
      if ← remove seq then removeAll rest else return false

/-- Delete every segment below `seq`, oldest first, never the current one. -/
def removeSegmentsBefore (wal : Wal) (seq : Nat) : SegmentProgram (Except Failure Nat) := do
  match ← list with
  | none => return .error .os
  | some found =>
      let doomed := found.filter (fun number => decide (number < seq ∧ number ≠ wal.segSeq))
      if ← removeAll doomed then
        if doomed.isEmpty then return .ok 0
        else if ← syncDir then return .ok doomed.length
        else return .error .os
      else return .error .os

/-! ### Opening -/

/-- Cut a torn tail off a segment, if it has one. -/
def repairTail (seq : Nat) (bytes : Bytes) : SegmentProgram (Except Failure Unit) :=
  match scanSegment (segmentPath seq) (fun _ _ => .ok ()) bytes () with
  | .error failure => return .error failure
  | .ok (_, none) => return .ok ()
  | .ok (_, some offset) => do
      if ← setLen seq offset then
        if ← sync seq then return .ok () else return .error .os
      else return .error .os

/-- The log over a segment that is open and has its header. -/
def atSegment (maxSegBytes seq segBytes : Nat) : Wal where
  file := ⟨seq, none⟩
  segSeq := seq
  segBytes := segBytes
  maxSegBytes := max maxSegBytes (headerLen + minRecord)
  poisoned := none

/-- The rest of an open, once the segment's file is open: an empty one gets its
header. -/
def adopt (maxSegBytes seq : Nat) : SegmentProgram (Except Failure Wal) := do
  let segBytes ← len seq
  if segBytes = 0 then
    let (written, _) ← write seq none segmentHeader
    let born ← if written then sync seq else pure false
    if born then
      if ← syncDir then return .ok (atSegment maxSegBytes seq headerLen)
      else return .error .os
    else return .error .os
  else if ← syncDir then return .ok (atSegment maxSegBytes seq segBytes)
  else return .error .os

def resume (maxSegBytes seq : Nat) : SegmentProgram (Except Failure Wal) := do
  if ← openAppend seq then adopt maxSegBytes seq else return .error .os

/-- `Wal::open`: resume the latest segment, or start the first. -/
def openLog (maxSegBytes : Nat) : SegmentProgram (Except Failure Wal) := do
  let files ← readDir
  match files.getLast? with
  | none => resume maxSegBytes 1
  | some (seq, bytes) =>
      match ← repairTail seq bytes with
      | .error failure => return .error failure
      | .ok () => resume maxSegBytes seq

end Wal

end Keystory
