/-
The in-process cluster driver: elections, the synchronous replicated write and
leader reads, all on one call stack under one lock.

A call is a function from the cluster before to the cluster after and its reply.
`none` is a panic (a failed assertion or `unwrap`) or a catch-up loop that does
not come to an end. The optional consistency recorder is left out: the cluster
writes to it and never reads it.
-/

import Keystory.Raft.Handlers

namespace Keystory.Raft

open General

inductive ClusterError where
  | noLeader
deriving DecidableEq, Repr

/-- The nodes have the ids `0..size`; no call adds or removes one. -/
structure Inner where
  size : Nat
  nodes : NodeId → Node
  leader : Option NodeId
  down : IdSet

namespace Inner

def new (n : Nat) : Inner :=
  { size := n
    nodes := fun id => Node.new id (IdSet.below n)
    leader := none
    down := SortedMap.empty }

def isDown (g : Inner) (id : NodeId) : Bool := (g.down.find? id).isSome

def live (g : Inner) : List NodeId := (List.range g.size).filter (fun id => !g.isDown id)

/-- Fixed by the cluster's size, never by the live subset. -/
def quorum (g : Inner) : Nat := g.size / 2 + 1

def maxTerm (g : Inner) : Nat :=
  (List.range g.size).foldl (fun highest id => max highest (g.nodes id).term) 0

def setNode (g : Inner) (id : NodeId) (node : Node) : Inner :=
  { g with nodes := Function.update g.nodes id node }

/-! ### Elections -/

/-- What the driver ranks candidates by: `(last_term, last_index)`. -/
def tip (log : Log) : Nat × Nat := (Log.lastTerm log, Log.lastIndex log)

/-- The order of pairs in the source: the first components decide, then the second. -/
def tipBelow (left right : Nat × Nat) : Bool :=
  left.1 < right.1 || (left.1 == right.1 && left.2 < right.2)

/-- The body of the candidate loop, over the best candidate so far and its key. -/
def pickBetter (g : Inner) (best : Option NodeId × (Nat × Nat)) (id : NodeId) :
    Option NodeId × (Nat × Nat) :=
  let key := tip (g.nodes id).log
  if tipBelow best.2 key || (key == best.2 && best.1.all (fun cand => id < cand)) then
    (some id, key)
  else best

def pickCandidate (g : Inner) : Option NodeId := (g.live.foldl g.pickBetter (none, (0, 0))).1

/-- The body of the voting loop. The driver hands the candidate's last term and last
index over in this order; `requestVote` takes the index first. -/
def askVote (cand : NodeId) (candTerm : Nat) (candTip : Nat × Nat) (tally : Inner × Nat)
    (id : NodeId) : Inner × Nat :=
  if id = cand then tally
  else
    let reply := (tally.1.nodes id).requestVote cand candTerm candTip.1 candTip.2
    (tally.1.setNode id reply.1, if reply.2 then tally.2 + 1 else tally.2)

/-- The candidate starts its election, then takes the term after the highest seen. -/
def campaign (g : Inner) (cand : NodeId) : Inner :=
  g.setNode cand { (g.nodes cand).startElection with term := g.maxTerm + 1 }

/-- All live nodes asked in turn, with the votes the candidate ends up with. -/
def poll (g : Inner) (cand : NodeId) : Inner × Nat :=
  g.live.foldl (askVote cand (g.maxTerm + 1) (tip (g.nodes cand).log)) (g.campaign cand, 1)

def elect (g : Inner) : Option (Inner × Option NodeId) :=
  if g.live.length < g.quorum then some (g, none)
  else
    match g.pickCandidate with
    | none => none
    | some cand =>
        let polled := g.poll cand
        if g.quorum ≤ polled.2 then
          let node := (polled.1.nodes cand).becomeLeader
          some
            ({ polled.1.setNode cand node with
                leader := some cand
                down := polled.1.down.erase cand }, some cand)
        else some ({ polled.1 with leader := none }, none)

def ensureLeader (g : Inner) : Option (Inner × Except ClusterError NodeId) :=
  if g.live.length < g.quorum then some ({ g with leader := none }, .error .noLeader)
  else
    match g.leader.filter (fun leader => !g.isDown leader) with
    | some leader => some (g, .ok leader)
    | none =>
        (elect { g with leader := none }).map (fun result =>
          (result.1,
            match result.2 with
            | some leader => .ok leader
            | none => .error .noLeader))

/-! ### Catching a peer up -/

/-- The append one round of the catch-up loop sends, with the peer's answer: `none`
to go round again. -/
def catchUpRound (g : Inner) (leader peer : NodeId) (idx leaderTerm : Nat) :
    Inner × Option Bool :=
  let start := min (Log.lastIndex (g.nodes peer).log + 1) idx
  let prevIdx := start - 1
  let prevTerm := (Log.termOf (g.nodes leader).log prevIdx).getD 0
  let suffix := (List.range' start (idx + 1 - start)).filterMap (Log.get (g.nodes leader).log)
  let before := Log.lastIndex (g.nodes peer).log
  let reply := (g.nodes peer).appendEntries leader leaderTerm prevIdx prevTerm suffix
    (g.nodes leader).commitIdx
  (g.setNode peer reply.1,
    match reply.2 with
    | none => some true
    | some _ => if Log.lastIndex reply.1.log = before then some false else none)

def catchUpLoop (leader peer : NodeId) (idx leaderTerm : Nat) :
    (fuel : Nat) → Inner → Option (Inner × Bool)
  | 0, _ => none
  | fuel + 1, g =>
      match g.catchUpRound leader peer idx leaderTerm with
      | (after, some held) => some (after, held)
      | (after, none) => catchUpLoop leader peer idx leaderTerm fuel after

/-- Every round but the last one shortens the peer's log, so its length bounds them. -/
def peerCatchUp (g : Inner) (leader peer : NodeId) (idx leaderTerm : Nat) :
    Option (Inner × Bool) :=
  if idx = 0 then some (g, true)
  else catchUpLoop leader peer idx leaderTerm ((g.nodes peer).log.length + 1) g

/-- Apply through `upto` on every live node whose log has the leader's term there. -/
def applyCommitted (g : Inner) (leader : NodeId) (upto : Nat) : Inner :=
  let live := g.live
  let leaderTermAt := Log.termOf (g.nodes leader).log upto
  { g with
    nodes := fun id =>
      let node := g.nodes id
      if id < g.size ∧ node.id ∈ live ∧ Log.termOf node.log upto = leaderTermAt then
        ({ node with commitIdx := max node.commitIdx upto }).applyCommitted.1
      else node }

/-- One peer of `sync_live_followers`; whether it was reached is not looked at. -/
def syncPeer (leader : NodeId) (tipIndex leaderTerm : Nat) (g : Inner) (id : NodeId) :
    Option Inner :=
  if id = leader then some g
  else (g.peerCatchUp leader id tipIndex leaderTerm).map Prod.fst

def syncLiveFollowers (g : Inner) (leader : NodeId) : Option Inner :=
  let tipIndex := Log.lastIndex (g.nodes leader).log
  let leaderTerm := (g.nodes leader).term
  (g.live.foldlM (syncPeer leader tipIndex leaderTerm) g).map (fun synced =>
    synced.applyCommitted leader (synced.nodes leader).commitIdx)

/-! ### Calls -/

/-- One peer of the write's replication loop, with the acknowledgements so far. -/
def replicateTo (leader : NodeId) (idx leaderTerm : Nat) (progress : Inner × Nat) (id : NodeId) :
    Option (Inner × Nat) :=
  if id = leader then some progress
  else
    (progress.1.peerCatchUp leader id idx leaderTerm).map (fun result =>
      if result.2 then
        let node := result.1.nodes leader
        (result.1.setNode leader { node with matchIdx := node.matchIdx.insert id idx },
          progress.2 + 1)
      else (result.1, progress.2))

/-- Steps 2 to 5 of the write, once there is a leader. -/
def commitAt (g : Inner) (leader : NodeId) (op : Op) :
    Option (Inner × Except ClusterError Nat) := do
  let (proposed, idx) ← (g.nodes leader).propose op
  let g := g.setNode leader proposed
  let (g, acks) ← g.live.foldlM (replicateTo leader idx proposed.term) (g, 1)
  if acks < g.quorum then return (g, .error .noLeader)
  let g := g.setNode leader (g.nodes leader).advanceCommit
  let committed := (g.nodes leader).commitIdx
  if committed = idx then return (g.applyCommitted leader committed, .ok committed)
  else none

def clusterCommit (g : Inner) (op : Op) : Option (Inner × Except ClusterError Nat) := do
  match ← g.ensureLeader with
  | (g, .error failure) => return (g, .error failure)
  | (g, .ok leader) => g.commitAt leader op

def put (g : Inner) (key value : Bytes) : Option (Inner × Except ClusterError Nat) :=
  g.clusterCommit (.put key value)

def delete (g : Inner) (key : Bytes) : Option (Inner × Except ClusterError Nat) :=
  g.clusterCommit (.delete key)

/-- A leader read; `none` also when a live node disagrees with the leader. -/
def get (g : Inner) (key : Bytes) : Option (Inner × Except ClusterError (Option Bytes)) := do
  match ← g.ensureLeader with
  | (g, .error failure) => return (g, .error failure)
  | (g, .ok leader) =>
      let g ← g.syncLiveFollowers leader
      let value := (g.nodes leader).get key
      if ∀ id ∈ g.live, (g.nodes id).get key = value then return (g, .ok value)
      else none

/-- The entries from `pref` on, for as long as the key starts with it. -/
def scanFrom (state : Map) (pref : Bytes) : List (Bytes × Bytes) :=
  ((state.entries.dropWhile (fun entry => decide (entry.1 < pref))).takeWhile
    (fun entry => pref.isPrefixOf entry.1)).map (fun entry => (entry.1, entry.2.value))

def scan (g : Inner) (pref : Bytes) :
    Option (Inner × Except ClusterError (List (Bytes × Bytes))) := do
  match ← g.ensureLeader with
  | (g, .error failure) => return (g, .error failure)
  | (g, .ok leader) =>
      let g ← g.syncLiveFollowers leader
      return (g, .ok (scanFrom (g.nodes leader).state pref))

def fail (g : Inner) (id : NodeId) : Inner :=
  { g with
    leader := if g.leader = some id then none else g.leader
    down := g.down.insert id () }

def revive (g : Inner) (id : NodeId) : Inner := { g with down := g.down.erase id }

end Inner

inductive Call where
  | put (key value : Bytes)
  | delete (key : Bytes)
  | get (key : Bytes)
  | scan (pref : Bytes)
  | fail (id : NodeId)
  | revive (id : NodeId)
deriving DecidableEq, Repr

/-- What a call returns; `fail` and `revive` return nothing. -/
inductive Reply where
  | committed (index : Nat)
  | value (result : Option Bytes)
  | entries (result : List (Bytes × Bytes))
  | noLeader
  | done
deriving DecidableEq, Repr

def Call.op : Call → Option Op
  | .put key value => some (.put key value)
  | .delete key => some (.delete key)
  | _ => none

def Call.Serves : Call → Prop
  | .fail _ => False
  | .revive _ => False
  | _ => True

namespace Inner

def replyOf {Result : Type} (ok : Result → Reply) : Except ClusterError Result → Reply
  | .ok result => ok result
  | .error .noLeader => .noLeader

def call (g : Inner) : Call → Option (Inner × Reply)
  | .put key value => (g.put key value).map (Prod.map id (replyOf .committed))
  | .delete key => (g.delete key).map (Prod.map id (replyOf .committed))
  | .get key => (g.get key).map (Prod.map id (replyOf .value))
  | .scan pref => (g.scan pref).map (Prod.map id (replyOf .entries))
  | .fail id => some (g.fail id, .done)
  | .revive id => some (g.revive id, .done)

/-- A sequence of calls with what each returned; `none` once one of them panics. -/
def run (g : Inner) : List Call → Option (Inner × List (Call × Reply))
  | [] => some (g, [])
  | first :: rest => do
      let (after, reply) ← g.call first
      let (final, replies) ← after.run rest
      return (final, (first, reply) :: replies)

end Inner

def acknowledged (trace : List (Call × Reply)) : List Op :=
  trace.filterMap (fun step =>
    match step.1.op, step.2 with
    | some op, .committed _ => some op
    | _, _ => none)

def acknowledgedIndices (trace : List (Call × Reply)) : List Nat :=
  trace.filterMap (fun step =>
    match step.2 with
    | .committed index => some index
    | _ => none)

def lastWrite (key : Bytes) (ops : List Op) : Option Bytes :=
  ops.foldl (fun current op => if op.key = key then op.written else current) none

end Keystory.Raft
