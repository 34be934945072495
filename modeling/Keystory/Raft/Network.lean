/-
Nodes on an asynchronous network.

Messages are never taken off the network, so each may be delivered late, in any
order, any number of times or never. A step is one action of one node: it starts
an election, handles a message, or does what a leader does. `elected` records
every promotion there has been; nothing reads it.

An append may be anchored at any index, also past the sender's own log: its
previous term is then 0 and its slice is empty, as the driver's `unwrap_or(0)`
makes it.
-/

import Mathlib.Data.Finset.Range
import Mathlib.Logic.Function.Basic
import Mathlib.Logic.Relation
import Keystory.General.Steps
import Keystory.Raft.Handlers

namespace Keystory.Raft

open General

/-- `RequestVote`: the candidate's id, its new term and its log tip. -/
structure VoteRequest where
  candidate : NodeId
  term : Nat
  lastIndex : Nat
  lastTerm : Nat
deriving DecidableEq, Repr

structure Grant where
  term : Nat
  voter : NodeId
  candidate : NodeId
deriving DecidableEq, Repr

structure AppendMessage where
  source : NodeId
  dest : NodeId
  term : Nat
  prevIndex : Nat
  prevTerm : Nat
  entries : List LogEntry
  leaderCommit : Nat
deriving DecidableEq, Repr

/-- A follower's accepted append: it holds the leader's log through `index`. -/
structure Ack where
  term : Nat
  follower : NodeId
  index : Nat
deriving DecidableEq, Repr

structure Net where
  nodes : NodeId → Node
  requests : List VoteRequest
  grants : List Grant
  appends : List AppendMessage
  acks : List Ack
  elected : List (Nat × NodeId)

inductive Action where
  | startElection (id : NodeId)
  | deliverVote (request : VoteRequest) (voter : NodeId)
  | becomeLeader (id : NodeId)
  | propose (id : NodeId) (cmd : Op)
  | sendAppend (id dest : NodeId) (prevIndex count : Nat)
  | deliverAppend (message : AppendMessage)
  | deliverAck (ack : Ack) (id : NodeId)
  | advanceCommit (id : NodeId)
  | applyCommitted (id : NodeId)
deriving DecidableEq, Repr

namespace Net

/-- `n` fresh nodes with ids `0..n`, all peers of one another. -/
def initial (n : Nat) : Net :=
  { nodes := fun id => Node.new id (IdSet.below n)
    requests := []
    grants := []
    appends := []
    acks := []
    elected := [] }

def setNode (net : Net) (id : NodeId) (node : Node) : Net :=
  { net with nodes := Function.update net.nodes id node }

def voters (n : Nat) (net : Net) (term : Nat) (candidate : NodeId) : Finset NodeId :=
  (Finset.range n).filter (fun voter =>
    { term := term, voter := voter, candidate := candidate } ∈ net.grants)

/-- The request a node sends when it starts an election; its vote for itself is
the first grant. -/
def startElection (net : Net) (id : NodeId) : Net :=
  let node := (net.nodes id).startElection
  { net.setNode id node with
    requests :=
      { candidate := id
        term := node.term
        lastIndex := Log.lastIndex node.log
        lastTerm := Log.lastTerm node.log } :: net.requests
    grants := { term := node.term, voter := id, candidate := id } :: net.grants }

def deliverVote (net : Net) (request : VoteRequest) (voter : NodeId) : Net :=
  let reply := (net.nodes voter).requestVote request.candidate request.term
    request.lastIndex request.lastTerm
  { net.setNode voter reply.1 with
    grants :=
      if reply.2 then
        { term := request.term, voter := voter, candidate := request.candidate } :: net.grants
      else net.grants }

def becomeLeader (net : Net) (id : NodeId) : Net :=
  { net.setNode id (net.nodes id).becomeLeader with
    elected := ((net.nodes id).term, id) :: net.elected }

def appendFrom (net : Net) (id dest : NodeId) (prevIndex count : Nat) : AppendMessage :=
  { source := id
    dest := dest
    term := (net.nodes id).term
    prevIndex := prevIndex
    prevTerm := (Log.termOf (net.nodes id).log prevIndex).getD 0
    entries := ((net.nodes id).log.drop prevIndex).take count
    leaderCommit := (net.nodes id).commitIdx }

def deliverAppend (net : Net) (message : AppendMessage) : Net :=
  let reply := (net.nodes message.dest).appendEntries message.source message.term
    message.prevIndex message.prevTerm message.entries message.leaderCommit
  { net.setNode message.dest reply.1 with
    acks :=
      if reply.2 = none then
        { term := message.term
          follower := message.dest
          index := message.prevIndex + message.entries.length } :: net.acks
      else net.acks }

def deliverAck (net : Net) (ack : Ack) (id : NodeId) : Net :=
  net.setNode id
    { net.nodes id with matchIdx := (net.nodes id).matchIdx.insert ack.follower ack.index }

def step (n : Nat) (net : Net) : Action → Option Net
  | .startElection id => if id < n then some (net.startElection id) else none
  | .deliverVote request voter =>
      if request ∈ net.requests ∧ voter < n then some (net.deliverVote request voter) else none
  | .becomeLeader id =>
      if id < n ∧ (net.nodes id).role = .candidate ∧
          (net.nodes id).quorum ≤ (net.voters n (net.nodes id).term id).card then
        some (net.becomeLeader id)
      else none
  | .propose id cmd =>
      if id < n then ((net.nodes id).propose cmd).map (fun result => net.setNode id result.1)
      else none
  | .sendAppend id dest prevIndex count =>
      if id < n ∧ dest < n ∧ dest ≠ id ∧ (net.nodes id).role = .leader then
        some { net with appends := net.appendFrom id dest prevIndex count :: net.appends }
      else none
  | .deliverAppend message =>
      if message ∈ net.appends then some (net.deliverAppend message) else none
  | .deliverAck ack id =>
      if ack ∈ net.acks ∧ id < n ∧ (net.nodes id).role = .leader ∧
          (net.nodes id).term = ack.term then
        some (net.deliverAck ack id)
      else none
  | .advanceCommit id =>
      if id < n then some (net.setNode id (net.nodes id).advanceCommit) else none
  | .applyCommitted id =>
      if id < n then some (net.setNode id (net.nodes id).applyCommitted.1) else none

def Step (n : Nat) (before after : Net) : Prop := ∃ action, before.step n action = some after

def Reachable (n : Nat) (net : Net) : Prop :=
  Relation.ReflTransGen (Step n) (initial n) net

/-- An append anchored inside its sender's log, which is all the driver sends. -/
def Anchored (net : Net) : Action → Prop
  | .sendAppend id _ prevIndex _ => prevIndex ≤ Log.lastIndex (net.nodes id).log
  | _ => True

def AnchoredStep (n : Nat) (before after : Net) : Prop :=
  ∃ action, before.Anchored action ∧ before.step n action = some after

def AnchoredReachable (n : Nat) (net : Net) : Prop :=
  Relation.ReflTransGen (AnchoredStep n) (initial n) net

def run (n : Nat) (net : Net) (actions : List Action) : Option Net :=
  runSteps (step n) net actions

theorem steps_of_run {n : Nat} {before after : Net} {actions : List Action}
    (ran : before.run n actions = some after) : Relation.ReflTransGen (Step n) before after :=
  reflTransGen_of_runSteps (fun taken => ⟨_, taken⟩) ran

instance (net : Net) : (action : Action) → Decidable (net.Anchored action)
  | .sendAppend id _ prevIndex _ =>
      inferInstanceAs (Decidable (prevIndex ≤ Log.lastIndex (net.nodes id).log))
  | .startElection _ | .deliverVote _ _ | .becomeLeader _ | .propose _ _ | .deliverAppend _
  | .deliverAck _ _ | .advanceCommit _ | .applyCommitted _ => isTrue trivial

def anchoredRun (n : Nat) (net : Net) (actions : List Action) : Option Net :=
  runSteps (fun net action => if net.Anchored action then net.step n action else none) net actions

theorem anchoredSteps_of_run {n : Nat} {before after : Net} {actions : List Action}
    (ran : before.anchoredRun n actions = some after) :
    Relation.ReflTransGen (AnchoredStep n) before after :=
  reflTransGen_of_runSteps (fun taken => ⟨_, Option.ite_none_right_eq_some.mp taken⟩) ran

/-- Node `leader` wins its next term with the vote of `voter`, appends `cmd` to an
empty log, replicates it to `voter` and commits it. -/
def electAndCommit (leader voter : NodeId) (term : Nat) (cmd : Op) : List Action :=
  [.startElection leader,
    .deliverVote { candidate := leader, term := term, lastIndex := 0, lastTerm := 0 } voter,
    .becomeLeader leader,
    .propose leader cmd,
    .sendAppend leader voter 0 1,
    .deliverAppend
      { source := leader
        dest := voter
        term := term
        prevIndex := 0
        prevTerm := 0
        entries := [{ selfTerm := term, cmd := cmd }]
        leaderCommit := 0 },
    .deliverAck { term := term, follower := voter, index := 1 } leader,
    .advanceCommit leader,
    .applyCommitted leader]

theorem AnchoredReachable.reachable {n : Nat} {net : Net} (reached : AnchoredReachable n net) :
    Reachable n net := by
  induction reached with
  | refl => exact Relation.ReflTransGen.refl
  | tail _ last ih =>
      obtain ⟨action, _, taken⟩ := last
      exact ih.tail ⟨action, taken⟩

/-! ### What one step changes -/

@[simp] theorem setNode_nodes_self (net : Net) (id : NodeId) (node : Node) :
    (net.setNode id node).nodes id = node := by
  simp only [setNode, Function.update_self]

theorem setNode_nodes_other (net : Net) (id other : NodeId) (node : Node) (different : other ≠ id) :
    (net.setNode id node).nodes other = net.nodes other := by
  simp only [setNode, Function.update_of_ne different]

@[simp] theorem setNode_self (net : Net) (id : NodeId) : net.setNode id (net.nodes id) = net := by
  simp only [setNode, Function.update_eq_self]

/-- Every way a step can go, with its guards and the state it leaves. -/
inductive Effect (n : Nat) (before : Net) : Action → Net → Prop where
  | startElection (id : NodeId) (bound : id < n) :
      Effect n before (.startElection id) (before.startElection id)
  | voteDenied (request : VoteRequest) (voter : NodeId) (sent : request ∈ before.requests)
      (bound : voter < n) :
      Effect n before (.deliverVote request voter)
        (before.setNode voter ((before.nodes voter).adoptVoteTerm request.term))
  | voteGranted (request : VoteRequest) (voter : NodeId) (sent : request ∈ before.requests)
      (bound : voter < n) (order : (before.nodes voter).term ≤ request.term)
      (free : ∀ vote, ((before.nodes voter).adoptVoteTerm request.term).votedFor = some vote →
        vote = request.candidate)
      (eligible : (before.nodes voter).upToDate request.lastIndex request.lastTerm = true) :
      Effect n before (.deliverVote request voter)
        { before.setNode voter { (before.nodes voter).adoptVoteTerm request.term with
            votedFor := some request.candidate } with
          grants := { term := request.term
                      voter := voter
                      candidate := request.candidate } :: before.grants }
  | becomeLeader (id : NodeId) (bound : id < n) (stands : (before.nodes id).role = .candidate)
      (majority : (before.nodes id).quorum ≤ (before.voters n (before.nodes id).term id).card) :
      Effect n before (.becomeLeader id) (before.becomeLeader id)
  | propose (id : NodeId) (cmd : Op) (bound : id < n) (leads : (before.nodes id).role = .leader) :
      Effect n before (.propose id cmd)
        (before.setNode id { before.nodes id with
          log := (before.nodes id).log ++ [{ selfTerm := (before.nodes id).term, cmd := cmd }]
          matchIdx := (before.nodes id).matchIdx.insert (before.nodes id).id
            (Log.lastIndex (before.nodes id).log + 1) })
  | sendAppend (id dest : NodeId) (prevIndex count : Nat) (bound : id < n) (destBound : dest < n)
      (different : dest ≠ id) (leads : (before.nodes id).role = .leader) :
      Effect n before (.sendAppend id dest prevIndex count)
        { before with appends := before.appendFrom id dest prevIndex count :: before.appends }
  | appendStale (message : AppendMessage) (sent : message ∈ before.appends)
      (stale : message.term < (before.nodes message.dest).term) :
      Effect n before (.deliverAppend message) before
  | appendRejected (message : AppendMessage) (sent : message ∈ before.appends)
      (order : (before.nodes message.dest).term ≤ message.term) (anchored : message.prevIndex ≠ 0)
      (differs : Log.termOf (before.nodes message.dest).log message.prevIndex ≠
        some message.prevTerm) :
      Effect n before (.deliverAppend message)
        (before.setNode message.dest
          { (before.nodes message.dest).adoptLeader message.source message.term with
            log := Node.cutAt (before.nodes message.dest).log message.prevIndex })
  | appendAccepted (message : AppendMessage) (sent : message ∈ before.appends)
      (order : (before.nodes message.dest).term ≤ message.term)
      (agrees : message.prevIndex = 0 ∨
        Log.termOf (before.nodes message.dest).log message.prevIndex = some message.prevTerm) :
      Effect n before (.deliverAppend message)
        { before.setNode message.dest
            { (before.nodes message.dest).adoptLeader message.source message.term with
              log := Node.appendLoop (before.nodes message.dest).log (message.prevIndex + 1)
                message.entries
              commitIdx := Node.commitThrough (before.nodes message.dest).commitIdx
                (min message.leaderCommit (message.prevIndex + message.entries.length)) } with
          acks := { term := message.term
                    follower := message.dest
                    index := message.prevIndex + message.entries.length } :: before.acks }
  | deliverAck (ack : Ack) (id : NodeId) (sent : ack ∈ before.acks) (bound : id < n)
      (leads : (before.nodes id).role = .leader) (sameTerm : (before.nodes id).term = ack.term) :
      Effect n before (.deliverAck ack id) (before.deliverAck ack id)
  | advanceCommit (id : NodeId) (bound : id < n) :
      Effect n before (.advanceCommit id) (before.setNode id (before.nodes id).advanceCommit)
  | applyCommitted (id : NodeId) (bound : id < n) :
      Effect n before (.applyCommitted id) (before.setNode id (before.nodes id).applyCommitted.1)

theorem deliverVote_effect {n : Nat} (before : Net) (request : VoteRequest) (voter : NodeId)
    (sent : request ∈ before.requests) (bound : voter < n) :
    Effect n before (.deliverVote request voter) (before.deliverVote request voter) := by
  unfold deliverVote
  rcases Node.requestVote_cases (before.nodes voter) request.candidate request.term
      request.lastIndex request.lastTerm with denied | ⟨order, free, eligible, granted⟩
  · rw [denied]
    exact .voteDenied request voter sent bound
  · rw [granted]
    exact .voteGranted request voter sent bound order free eligible

theorem deliverAppend_effect {n : Nat} (before : Net) (message : AppendMessage)
    (sent : message ∈ before.appends) :
    Effect n before (.deliverAppend message) (before.deliverAppend message) := by
  unfold deliverAppend
  rcases Node.appendEntries_cases (before.nodes message.dest) message.source message.term
      message.prevIndex message.prevTerm message.entries message.leaderCommit with
    ⟨stale, result⟩ | ⟨order, anchored, differs, result⟩ | ⟨order, agrees, result⟩
  · rw [result]
    simp only [setNode_self, reduceCtorEq, if_false]
    exact .appendStale message sent stale
  · rw [result]
    exact .appendRejected message sent order anchored differs
  · rw [result]
    exact .appendAccepted message sent order agrees

theorem propose_effect {n : Nat} {before after : Net} {id : NodeId} {cmd : Op} (bound : id < n)
    (taken : ((before.nodes id).propose cmd).map (fun result => before.setNode id result.1) =
      some after) : Effect n before (.propose id cmd) after := by
  obtain ⟨result, proposed, rfl⟩ := Option.map_eq_some_iff.mp taken
  unfold Node.propose at proposed
  split at proposed
  · rename_i leads
    cases proposed
    exact .propose id cmd bound leads
  · cases proposed

theorem step_effect {n : Nat} {before after : Net} {action : Action}
    (taken : before.step n action = some after) : Effect n before action after := by
  cases action with
  | startElection id =>
      obtain ⟨bound, result⟩ := Option.ite_none_right_eq_some.mp taken
      cases result
      exact .startElection id bound
  | deliverVote request voter =>
      obtain ⟨⟨sent, bound⟩, result⟩ := Option.ite_none_right_eq_some.mp taken
      cases result
      exact deliverVote_effect before request voter sent bound
  | becomeLeader id =>
      obtain ⟨⟨bound, stands, majority⟩, result⟩ := Option.ite_none_right_eq_some.mp taken
      cases result
      exact .becomeLeader id bound stands majority
  | propose id cmd =>
      obtain ⟨bound, proposed⟩ := Option.ite_none_right_eq_some.mp taken
      exact propose_effect bound proposed
  | sendAppend id dest prevIndex count =>
      obtain ⟨⟨bound, destBound, different, leads⟩, result⟩ :=
        Option.ite_none_right_eq_some.mp taken
      cases result
      exact .sendAppend id dest prevIndex count bound destBound different leads
  | deliverAppend message =>
      obtain ⟨sent, result⟩ := Option.ite_none_right_eq_some.mp taken
      cases result
      exact deliverAppend_effect before message sent
  | deliverAck ack id =>
      obtain ⟨⟨sent, bound, leads, sameTerm⟩, result⟩ := Option.ite_none_right_eq_some.mp taken
      cases result
      exact .deliverAck ack id sent bound leads sameTerm
  | advanceCommit id =>
      obtain ⟨bound, result⟩ := Option.ite_none_right_eq_some.mp taken
      cases result
      exact .advanceCommit id bound
  | applyCommitted id =>
      obtain ⟨bound, result⟩ := Option.ite_none_right_eq_some.mp taken
      cases result
      exact .applyCommitted id bound

end Net

end Keystory.Raft
