/-
The Raft node state machine: no clock, no network, no threads.

Every handler is a function from the node before to the node after together with
its reply. The one assertion (`propose` on a node that does not lead) is an
`Option`: `none` is the panic. Log indices are 1-based and 0 stands for "before
the first entry".
-/

import Keystory.Types

namespace Keystory.Raft

open General

abbrev NodeId := Nat

/-- A command together with the term of the leader that appended it. -/
structure LogEntry where
  selfTerm : Nat
  cmd : Op
deriving DecidableEq, Repr

inductive Role where
  | follower
  | candidate
  | leader
deriving DecidableEq, Repr

abbrev Log := List LogEntry

namespace Log

def lastIndex (log : Log) : Nat := log.length

def lastTerm (log : Log) : Nat := (log.getLast?.map LogEntry.selfTerm).getD 0

def get (log : Log) (index : Nat) : Option LogEntry :=
  if index = 0 then none else log[index - 1]?

def termOf (log : Log) (index : Nat) : Option Nat :=
  (Log.get log index).map LogEntry.selfTerm

def truncateFrom (log : Log) (fromIndex : Nat) : Log := log.take (fromIndex - 1)

end Log

/-- `BTreeSet<NodeId>`: a map to nothing, as in the standard library. -/
abbrev IdSet := SortedMap NodeId Unit

def IdSet.below (n : Nat) : IdSet :=
  { entries := (List.range n).map (fun id => (id, ()))
    sorted := List.Pairwise.map _ (fun _ _ below => below) List.pairwise_lt_range }

structure Node where
  id : NodeId
  peers : IdSet
  term : Nat
  votedFor : Option NodeId
  leaderId : Option NodeId
  role : Role
  log : Log
  commitIdx : Nat
  applied : Nat
  state : Map
  nextIdx : SortedMap NodeId Nat
  matchIdx : SortedMap NodeId Nat
deriving DecidableEq

namespace Node

def new (id : NodeId) (peers : IdSet) : Node :=
  { id := id
    peers := peers
    term := 0
    votedFor := none
    leaderId := none
    role := .follower
    log := []
    commitIdx := 0
    applied := 0
    state := SortedMap.empty
    nextIdx := SortedMap.empty
    matchIdx := SortedMap.empty }

def quorum (node : Node) : Nat := node.peers.size / 2 + 1

def startElection (node : Node) : Node :=
  { node with
    term := node.term + 1
    votedFor := some node.id
    role := .candidate
    nextIdx := SortedMap.empty
    matchIdx := SortedMap.empty }

def becomeLeader (node : Node) : Node :=
  { node with
    role := .leader
    nextIdx := node.peers.keys.foldl
      (fun next peer => next.insert peer (Log.lastIndex node.log + 1)) SortedMap.empty
    matchIdx := node.peers.keys.foldl
      (fun replicated peer => replicated.insert peer 0) SortedMap.empty }

/-- The voter's eligibility test: a log tip at least as up to date as its own. -/
def upToDate (node : Node) (senderLastIndex senderLastTerm : Nat) : Bool :=
  Log.lastTerm node.log < senderLastTerm ||
    (senderLastTerm == Log.lastTerm node.log && Log.lastIndex node.log ≤ senderLastIndex)

/-- A higher term is adopted, and the vote of the old term with it dropped. -/
def adoptVoteTerm (node : Node) (senderTerm : Nat) : Node :=
  if node.term < senderTerm then
    { node with term := senderTerm, votedFor := none, role := .follower }
  else node

def requestVote (node : Node) (sender : NodeId)
    (senderTerm senderLastIndex senderLastTerm : Nat) : Node × Bool :=
  let node := node.adoptVoteTerm senderTerm
  if senderTerm < node.term then (node, false)
  else if (node.votedFor.any (fun vote => vote ≠ sender)) then (node, false)
  else if node.upToDate senderLastIndex senderLastTerm then
    ({ node with votedFor := some sender }, true)
  else (node, false)

/-- Skip entries held with the same term; the first one whose term differs
replaces what is there and everything after it. -/
def appendLoop (log : Log) (next : Nat) : List LogEntry → Log
  | [] => log
  | entry :: rest =>
      let log :=
        match Log.termOf log next with
        | some term =>
            if term = entry.selfTerm then log
            else Log.truncateFrom log next ++ [entry]
        | none => log ++ [entry]
      appendLoop log (next + 1) rest

/-- A newer leader term is adopted; the vote of the same term survives. -/
def adoptLeader (node : Node) (sender : NodeId) (leaderTerm : Nat) : Node :=
  if node.term < leaderTerm then
    { node with term := leaderTerm, votedFor := none, role := .follower, leaderId := some sender }
  else { node with role := .follower, leaderId := some sender }

def appendEntries (node : Node) (sender : NodeId) (leaderTerm prevIndex prevTerm : Nat)
    (entries : List LogEntry) (leaderCommit : Nat) : Node × Option Nat :=
  if leaderTerm < node.term then (node, some (Log.lastIndex node.log + 1))
  else
    let node := node.adoptLeader sender leaderTerm
    let prevOk := prevIndex = 0 ∨ Log.termOf node.log prevIndex = some prevTerm
    if prevOk then
      let log := appendLoop node.log (prevIndex + 1) entries
      -- never past the last entry this message vouched for
      let safe := min leaderCommit (prevIndex + entries.length)
      ({ node with
          log := log
          commitIdx := if node.commitIdx < safe then safe else node.commitIdx }, none)
    else
      let log :=
        if (Log.termOf node.log prevIndex).isSome then Log.truncateFrom node.log prevIndex
        else node.log
      ({ node with log := log }, some (Log.lastIndex log + 1))

/-- How many nodes are known to hold the log through `index`. -/
def replicas (node : Node) (index : Nat) : Nat :=
  (node.matchIdx.values.filter (fun held => index ≤ held)).length

/-- The loop body of `advance_commit`: commit `index` if it is of this term and
replicated to a majority, else keep what is committed. -/
def commitIfReplicated (node : Node) (commit index : Nat) : Nat :=
  if Log.termOf node.log index ≠ some node.term then commit
  else if node.quorum ≤ node.replicas index then index
  else commit

def advanceCommit (node : Node) : Node :=
  if node.role ≠ .leader then node
  else
    { node with
      commitIdx := (List.range' (node.commitIdx + 1)
        (Log.lastIndex node.log - node.commitIdx)).foldl node.commitIfReplicated
          node.commitIdx }

/-- Apply up to `pending` entries after `applied`, stopping at a missing one. -/
def applyLoop (log : Log) : (pending applied : Nat) → Map → Nat × Map
  | 0, applied, state => (applied, state)
  | pending + 1, applied, state =>
      match Log.get log (applied + 1) with
      | some entry => applyLoop log pending (applied + 1) (entry.cmd.apply state (applied + 1))
      | none => (applied, state)

/-- Apply what is committed, with the number of entries newly applied. -/
def applyCommitted (node : Node) : Node × Nat :=
  let result := applyLoop node.log (node.commitIdx - node.applied) node.applied node.state
  ({ node with applied := result.1, state := result.2 }, result.1 - node.applied)

/-- Append a command to a leader's own log; `none` is the failed assertion. -/
def propose (node : Node) (cmd : Op) : Option (Node × Nat) :=
  if node.role = .leader then
    let index := Log.lastIndex node.log + 1
    some
      ({ node with
          log := node.log ++ [{ selfTerm := node.term, cmd := cmd }]
          matchIdx := node.matchIdx.insert node.id index }, index)
  else none

def get (node : Node) (key : Bytes) : Option Bytes := (node.state.find? key).map Entry.value

end Node

end Keystory.Raft
