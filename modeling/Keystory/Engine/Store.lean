/-
The single-node store over its log and its checkpoint files: recovery on open,
the group commit that is durable before it is published, and the checkpoint that
reclaims the log one generation behind. The directory lock makes the store the
only owner of its files, so it does not appear here.
-/

import Keystory.Checkpoint.Files
import Keystory.Wal.Log

namespace Keystory

open General

def defaultWalSegmentSize : Nat := 1048576

structure Options where
  walSegmentSize : Nat := defaultWalSegmentSize
deriving DecidableEq, Repr

structure Stats where
  commits : Nat
  walSyncs : Nat
  checkpoints : Nat
deriving DecidableEq, Repr

def singleNodeTerm : UInt64 := 1

structure Store where
  snap : Snapshot
  index : Nat
  wal : Wal
  -- every record newer than the checkpoint that the next one retains as `snap.prev`
  -- lives in this segment or a later one
  prevBoundary : Nat
  -- recovery fell back past a damaged `snap.dat`
  latestDamaged : Bool
  stats : Stats
deriving DecidableEq

namespace Store

/-! ### Opening -/

def corruptLog (text : String) : Failure := Failure.invalidData text

structure Replayed where
  data : Map
  lastIndex : Nat
  firstUncovered : Option Nat
deriving DecidableEq

def replayRecord (baseIndex : Nat) (state : Replayed) (segment : Nat) (record : Wal.Record) :
    Except Failure Replayed :=
  let index := record.index.toNat
  let lastIndex := state.lastIndex
  if index ≤ lastIndex then
    -- at or below the checkpoint: already reflected
    if lastIndex = baseIndex then .ok state
    else
      .error (corruptLog
        s!"WAL record {index} follows record {lastIndex}: the log is out of order")
  else if index ≠ lastIndex + 1 then
    let first := lastIndex + 1
    let final := index - 1
    .error (corruptLog
      s!"WAL is missing records {first}..={final} (found {index} after {lastIndex})")
  else
    .ok ⟨applyOps record.ops state.data index, index,
      some (state.firstUncovered.getD segment)⟩

/-- `open_with`, in a directory that is locked: checkpoint, log, then the open log. -/
def openWith (options : Options) (files : Checkpoint.SnapFiles) :
    Wal.SegmentProgram (Except Failure Store) :=
  match Checkpoint.load files with
  | .error failure => return .error failure
  | .ok loaded => do
      let base := loaded.snapshot.getD Snapshot.empty
      let segments ← Wal.readDir
      match Wal.replay (replayRecord base.index) segments ⟨base.data, base.index, none⟩ with
      | .error failure => return .error failure
      | .ok (replayed, _) =>
          match ← Wal.openLog options.walSegmentSize with
          | .error failure => return .error failure
          | .ok wal =>
              return .ok
                { snap := ⟨replayed.lastIndex, replayed.data⟩
                  index := replayed.lastIndex
                  wal := wal
                  prevBoundary := replayed.firstUncovered.getD wal.segSeq
                  latestDamaged := loaded.latestDamaged
                  stats := ⟨0, 0, 0⟩ }

/-! ### Group commit -/

/-- A group applied to a copy of the snapshot, with its records and indices. -/
structure Staged where
  next : Snapshot
  records : List Wal.Record
  indices : List Nat

def Staged.push (staged : Staged) (ops : List Op) : Staged :=
  let index := staged.next.index + 1
  { next := ⟨index, applyOps ops staged.next.data index⟩
    records := staged.records ++ [⟨singleNodeTerm, UInt64.ofNat index, ops⟩]
    indices := staged.indices ++ [index] }

def stageGroup (cur : Snapshot) (group : List (List Op)) : Staged :=
  group.foldl Staged.push ⟨cur, [], []⟩

def landed (store : Store) (wal : Wal) (count : Nat) : Store :=
  { store with
    wal := wal
    stats := { store.stats with
      commits := store.stats.commits + count, walSyncs := store.stats.walSyncs + 1 } }

def publish (store : Store) (staged : Staged) : Store :=
  { store with snap := staged.next, index := staged.next.index }

/-! ### Checkpoints -/

/-- A damaged `snap.dat` is never demoted over the good generation. -/
def replaced (store : Store) : Checkpoint.Replaced :=
  if store.latestDamaged then .discard else .retain

def saved (store : Store) (boundary : Nat) : Store :=
  { store with
    latestDamaged := false
    prevBoundary := boundary
    stats := { store.stats with checkpoints := store.stats.checkpoints + 1 } }

end Store

end Keystory
