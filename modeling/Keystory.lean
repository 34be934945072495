import Keystory.General.Prefix
import Keystory.General.Quorum
import Keystory.General.SortedMap
import Keystory.General.Search
import Keystory.General.LittleEndian
import Keystory.General.BigEndian
import Keystory.General.Frames
import Keystory.General.File
import Keystory.General.Program
import Keystory.General.Steps
import Keystory.General.Combining
import Keystory.General.Overwrite
import Keystory.General.LexPrefix
import Keystory.General.ShiftRegister
import Keystory.General.Cooperative
import Keystory.Types
import Keystory.Raft.Node
import Keystory.Raft.Log
import Keystory.Raft.Handlers
import Keystory.Raft.Network
import Keystory.Raft.Election
import Keystory.Raft.LogMatching
import Keystory.Raft.Safety
import Keystory.Raft.StateMachineSafety
import Keystory.Raft.Cluster
import Keystory.Raft.ClusterInvariant
import Keystory.Raft.ClusterCalls
import Keystory.Raft.ClusterSafety
import Keystory.Raft.ClusterAvailability
import Keystory.Raft.Agreement
import Keystory.Raft.CatchUp
import Keystory.General.Simulation
import Keystory.Raft.Mirror
import Keystory.Raft.Refinement
import Keystory.Raft.Continuation
import Keystory.Scans
import Keystory.BTree.Tree
import Keystory.BTree.Shape
import Keystory.BTree.Refinement
import Keystory.BTree.Runs
import Keystory.BTree.Balance
import Keystory.BTree.Document
import Keystory.BTree.Persist
import Keystory.BTree.Loaded
import Keystory.BTree.Lifetime
import Keystory.BTree.Damage
import Keystory.Storage.Crc
import Keystory.Storage.Failure
import Keystory.Storage.Cursor
import Keystory.Storage.Burst
import Keystory.Storage.Division
import Keystory.Storage.Directories
import Keystory.Wal.Codec
import Keystory.Wal.Canonical
import Keystory.Wal.Segment
import Keystory.Wal.Scan
import Keystory.Wal.Damage
import Keystory.Wal.Log
import Keystory.Wal.Shape
import Keystory.Wal.Reopen
import Keystory.Wal.Operations
import Keystory.Wal.Recovery
import Keystory.Wal.Faults
import Keystory.Wal.Intact
import Keystory.Wal.Size
import Keystory.Checkpoint.Format
import Keystory.Checkpoint.Indexing
import Keystory.Checkpoint.Files
import Keystory.Checkpoint.Damage
import Keystory.Engine.Store
import Keystory.Engine.History
import Keystory.Engine.Reopen
import Keystory.Engine.System
import Keystory.Engine.Generations
import Keystory.Engine.Invariant
import Keystory.Engine.Steps
import Keystory.Engine.Durability
import Keystory.Engine.SegmentSizes
import Keystory.Engine.Rows
import Keystory.Engine.Reclamation
import Keystory.Engine.CommitQueue
import Keystory.Engine.GroupCommit
import Keystory.Engine.Concurrent
import Keystory.Engine.Linearizable
import Keystory.Engine.Progress
import Keystory.Engine.Owners
import Keystory.Redo
import Keystory.Checker
import Keystory.Engine.Audited
import Keystory.Raft.Recorded
import Keystory.ValueStore.Records
import Keystory.ValueStore.Store
import Keystory.ValueStore.Index
import Keystory.ValueStore.Operations
import Keystory.ValueStore.System
import Keystory.ValueStore.Handles
import Keystory.ValueStore.Entry
import Keystory.ValueStore.Power
import Keystory.ValueStore.NoValue
import Keystory.EpochRcu
import Keystory.EpochVersions
import Keystory.Rt.Scheduler
import Keystory.Rt.Invariant
import Keystory.Rt.Executor
import Keystory.Raft.AsyncDriver
