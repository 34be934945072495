/-
The cluster driver runs the protocol of the asynchronous network.

Each call of the driver is answered by actions of the network's nodes, every append
anchored inside its sender's log: a catch-up round is an append sent and delivered,
a counted acknowledgement is one the leader receives, and the driver's applying on
every live node is a heartbeat to each of them. Whatever holds of all schedules of
the network then holds of everything the driver does.
-/

import Keystory.Raft.CatchUp
import Keystory.Raft.ClusterSafety
import Keystory.Raft.Election
import Keystory.Raft.Mirror

namespace Keystory.Raft

open General

/-! ### Following a leader -/

/-- The node has taken an append of the leader's term. -/
structure Node.Follows (leader : NodeId) (term : Nat) (node : Node) : Prop where
  term : node.term = term
  role : node.role = .follower
  leaderId : node.leaderId = some leader

theorem Node.adoptLeader_follows {node : Node} (sender : NodeId) {term : Nat}
    (order : node.term ≤ term) : (node.adoptLeader sender term).Follows sender term := by
  refine ⟨adoptLeader_term sender order, adoptLeader_role node sender term, ?_⟩
  unfold adoptLeader
  split <;> rfl

theorem Node.deliver_follows {node : Node} {message : AppendMessage}
    (order : node.term ≤ message.term) :
    (node.deliver message).1.Follows message.source message.term ∧
      (node.deliver message).1.id = node.id := by
  have adopted := node.adoptLeader_follows message.source order
  have own := node.adoptLeader_id message.source message.term
  unfold deliver
  rcases node.appendEntries_cases message.source message.term message.prevIndex message.prevTerm
      message.entries message.leaderCommit with ⟨stale, _⟩ | ⟨_, _, _, result⟩ | ⟨_, _, result⟩
  · omega
  · rw [result]
    exact ⟨⟨adopted.term, adopted.role, adopted.leaderId⟩, own⟩
  · rw [result]
    exact ⟨⟨adopted.term, adopted.role, adopted.leaderId⟩, own⟩

theorem Node.Follows.adoptLeader_eq {node : Node} {leader : NodeId} {term : Nat}
    (follows : node.Follows leader term) : node.adoptLeader leader term = node := by
  unfold adoptLeader
  rw [if_neg (by rw [follows.term]; omega), ← follows.role, ← follows.leaderId]

/-- A leader in the course of a pass over the live nodes: nobody's term is above its
own, and those it has reached follow it. -/
structure Inner.Commanded (n : Nat) (ids : List NodeId) (leader : NodeId) (now last : Nat)
    (reached : List NodeId) (g : Inner) : Prop where
  size : g.size = n
  live : g.live = ids
  isLive : leader ∈ ids
  identity : ∀ id, (g.nodes id).id = id
  role : (g.nodes leader).role = .leader
  term : (g.nodes leader).term = now
  length : (g.nodes leader).log.length = last
  committed : (g.nodes leader).commitIdx ≤ last
  highest : ∀ id, id < n → (g.nodes id).term ≤ now
  following : 0 < last → ∀ id ∈ reached, id ≠ leader → (g.nodes id).Follows leader now

namespace Inner.Commanded

variable {n : Nat} {ids : List NodeId} {leader peer : NodeId} {now last : Nat}
  {reached : List NodeId} {g : Inner}

theorem bound (commanded : Commanded n ids leader now last reached g) : leader < n := by
  have isLive := commanded.isLive
  rw [← commanded.live] at isLive
  exact commanded.size ▸ (Inner.mem_live.mp isLive).1

theorem mono (commanded : Commanded n ids leader now last reached g) {fewer : List NodeId}
    (subset : ∀ id ∈ fewer, id ≠ leader → id ∈ reached) :
    Commanded n ids leader now last fewer g :=
  { commanded with
    following := fun positive id member different =>
      commanded.following positive id (subset id member different) different }

theorem atPeer (commanded : Commanded n ids leader now last reached g)
    (different : peer ≠ leader) {node : Node} (own : node.id = (g.nodes peer).id)
    (follows : node.Follows leader now) :
    Commanded n ids leader now last (reached ++ [peer]) (g.setNode peer node) := by
  have atLeader : (g.setNode peer node).nodes leader = g.nodes leader :=
    Inner.setNode_nodes_other _ _ _ _ (Ne.symm different)
  refine ⟨commanded.size, commanded.live, commanded.isLive, ?_, ?_, ?_, ?_, ?_, ?_, ?_⟩
  · intro id
    by_cases same : id = peer
    · rw [same, Inner.setNode_nodes_self, own, commanded.identity]
    · rw [Inner.setNode_nodes_other _ _ _ _ same, commanded.identity]
  · rw [atLeader, commanded.role]
  · rw [atLeader, commanded.term]
  · rw [atLeader, commanded.length]
  · rw [atLeader]
    exact commanded.committed
  · intro id inside
    by_cases same : id = peer
    · rw [same, Inner.setNode_nodes_self]
      exact Nat.le_of_eq follows.term
    · rw [Inner.setNode_nodes_other _ _ _ _ same]
      exact commanded.highest id inside
  · intro positive id member notLeader
    by_cases same : id = peer
    · rw [same, Inner.setNode_nodes_self]
      exact follows
    · rw [Inner.setNode_nodes_other _ _ _ _ same]
      refine commanded.following positive id ?_ notLeader
      exact (List.mem_append.mp member).resolve_right fun last => same (List.mem_singleton.mp last)

theorem atLeader (commanded : Commanded n ids leader now last reached g) {node : Node}
    {longer : Nat} (own : node.id = leader) (role : node.role = .leader)
    (sameTerm : node.term = now) (length : node.log.length = longer)
    (committed : node.commitIdx ≤ longer)
    (following : 0 < longer → ∀ id ∈ reached, id ≠ leader → (g.nodes id).Follows leader now) :
    Commanded n ids leader now longer reached (g.setNode leader node) := by
  refine ⟨commanded.size, commanded.live, commanded.isLive, ?_, ?_, ?_, ?_, ?_, ?_, ?_⟩
  · intro id
    by_cases same : id = leader
    · rw [same, Inner.setNode_nodes_self, own]
    · rw [Inner.setNode_nodes_other _ _ _ _ same, commanded.identity]
  · rw [Inner.setNode_nodes_self, role]
  · rw [Inner.setNode_nodes_self, sameTerm]
  · rw [Inner.setNode_nodes_self, length]
  · rw [Inner.setNode_nodes_self]
    exact committed
  · intro id inside
    by_cases same : id = leader
    · rw [same, Inner.setNode_nodes_self, sameTerm]
    · rw [Inner.setNode_nodes_other _ _ _ _ same]
      exact commanded.highest id inside
  · intro positive id member notLeader
    rw [Inner.setNode_nodes_other _ _ _ _ notLeader]
    exact following positive id member notLeader

/-! ### Catching up -/

theorem appendFrom_eq (commanded : Commanded n ids leader now last reached g) {net : Net}
    (mirrors : Mirrors n g net) (positive : 0 < last) :
    net.appendFrom leader peer (g.catchUpMessage leader peer last now).prevIndex
        (last - (g.catchUpMessage leader peer last now).prevIndex) =
      g.catchUpMessage leader peer last now := by
  have sameTerm := mirrors.read commanded.bound Node.term fun _ => rfl
  have log := mirrors.read commanded.bound Node.log fun _ => rfl
  have commitIdx := mirrors.read commanded.bound Node.commitIdx fun _ => rfl
  unfold Net.appendFrom
  rw [sameTerm, log, commitIdx, commanded.term,
    ← g.catchUpMessage_entries leader peer now positive]
  rfl

theorem round_mirrored (commanded : Commanded n ids leader now last reached g)
    (positive : 0 < last) (inside : peer < n) (different : peer ≠ leader) {net : Net}
    (mirrors : Mirrors n g net) :
    ∃ later, Net.Steps n net later ∧ Mirrors n (g.afterRound leader peer last now) later ∧
      ((g.catchUpRound leader peer last now).2 = some true →
        { term := now, follower := peer, index := last } ∈ later.acks) := by
  let message := g.catchUpMessage leader peer last now
  have start : message.prevIndex + 1 = min ((g.nodes peer).log.length + 1) last :=
    g.catchUpMessage_prevIndex leader peer now positive
  have entries : message.entries =
      ((g.nodes leader).log.drop message.prevIndex).take (last - message.prevIndex) :=
    g.catchUpMessage_entries leader peer now positive
  have sent : net.appendFrom leader peer message.prevIndex (last - message.prevIndex) = message :=
    commanded.appendFrom_eq mirrors positive
  have leads : (net.nodes leader).role = .leader :=
    (mirrors.read commanded.bound Node.role fun _ => rfl).trans commanded.role
  have log := mirrors.read commanded.bound Node.log fun _ => rfl
  have anchored : message.prevIndex ≤ Log.lastIndex (net.nodes leader).log := by
    rw [log]
    unfold Log.lastIndex
    rw [commanded.length]
    omega
  have covered : message.prevIndex + message.entries.length = last := by
    rw [entries, List.length_take, List.length_drop, commanded.length]
    omega
  let posted : Net := { net with appends := message :: net.appends }
  have send : Net.Steps n net posted :=
    Net.Steps.one (.sendAppend leader peer message.prevIndex (last - message.prevIndex))
      anchored (by
        change (if _ then some _ else none) = _
        rw [if_pos ⟨commanded.bound, inside, different, leads⟩, sent])
  have deliver : Net.Steps n posted (posted.deliverAppend message) :=
    Net.Steps.one (.deliverAppend message) trivial (if_pos List.mem_cons_self)
  have reply := (net.nodes peer).voteless_appendEntries message.source message.term
    message.prevIndex message.prevTerm message.entries message.leaderCommit
  rw [mirrors peer inside, Node.voteless_appendEntries, Prod.mk.injEq] at reply
  refine ⟨posted.deliverAppend message, send.trans deliver, ?_, ?_⟩
  · exact mirrors.setNode reply.1.symm rfl
  · intro accepted
    rw [Inner.catchUpRound_eq] at accepted
    dsimp only at accepted
    have landed : ((g.nodes peer).deliver message).2 = none := by
      cases answer : ((g.nodes peer).deliver message).2 with
      | none => rfl
      | some hint =>
          rw [answer] at accepted
          dsimp only at accepted
          split at accepted <;> cases accepted
    have there : ((net.nodes peer).appendEntries message.source message.term message.prevIndex
        message.prevTerm message.entries message.leaderCommit).2 = none := reply.2.symm.trans landed
    unfold Net.deliverAppend
    dsimp only
    rw [if_pos (show ((posted.nodes message.dest).appendEntries message.source message.term
      message.prevIndex message.prevTerm message.entries message.leaderCommit).2 = none from there),
      covered]
    exact List.mem_cons_self

theorem afterRound (commanded : Commanded n ids leader now last reached g) (inside : peer < n)
    (different : peer ≠ leader) :
    Commanded n ids leader now last (reached ++ [peer]) (g.afterRound leader peer last now) := by
  obtain ⟨follows, own⟩ := @Node.deliver_follows (g.nodes peer)
    (g.catchUpMessage leader peer last now) (commanded.highest peer inside)
  exact commanded.atPeer different own follows

theorem loop_mirrored (positive : 0 < last) (inside : peer < n) (different : peer ≠ leader)
    {fuel : Nat} {after : Inner} {held : Bool}
    (commanded : Commanded n ids leader now last reached g)
    (ran : Inner.catchUpLoop leader peer last now fuel g = some (after, held)) :
    Commanded n ids leader now last (reached ++ [peer]) after ∧
      ∀ net, Mirrors n g net → ∃ later, Net.Steps n net later ∧ Mirrors n after later ∧
        (held = true → { term := now, follower := peer, index := last } ∈ later.acks) := by
  induction fuel generalizing g reached with
  | zero => cases ran
  | succ fuel ih =>
      have next := commanded.afterRound inside different
      unfold Inner.catchUpLoop at ran
      split at ran
      · rename_i final answer round
        cases ran
        have atFinal : g.afterRound leader peer last now = after := congrArg Prod.fst round
        rw [atFinal] at next
        refine ⟨next, fun net mirrors => ?_⟩
        obtain ⟨later, walked, mirrored, acked⟩ :=
          commanded.round_mirrored positive inside different mirrors
        rw [atFinal] at mirrored
        refine ⟨later, walked, mirrored, fun isHeld => acked ?_⟩
        rw [round, isHeld]
      · rename_i middle round
        have atMiddle : g.afterRound leader peer last now = middle := congrArg Prod.fst round
        rw [atMiddle] at next
        obtain ⟨final, answer⟩ := ih next ran
        refine ⟨final.mono fun id member _ => ?_, fun net mirrors => ?_⟩
        · rw [List.append_assoc]
          exact List.mem_append.mpr ((List.mem_append.mp member).imp_right
            fun last => List.mem_append_left _ last)
        · obtain ⟨between, toBetween, mirrored, _⟩ :=
            commanded.round_mirrored positive inside different mirrors
          rw [atMiddle] at mirrored
          obtain ⟨later, toLater, final, acked⟩ := answer between mirrored
          exact ⟨later, toBetween.trans toLater, final, acked⟩

theorem peerCatchUp_mirrored (commanded : Commanded n ids leader now last reached g)
    (inside : peer < n) (different : peer ≠ leader) {after : Inner} {held : Bool}
    (ran : g.peerCatchUp leader peer last now = some (after, held)) :
    Commanded n ids leader now last (reached ++ [peer]) after ∧
      ∀ net, Mirrors n g net → ∃ later, Net.Steps n net later ∧ Mirrors n after later ∧
        (0 < last → held = true →
          { term := now, follower := peer, index := last } ∈ later.acks) := by
  unfold Inner.peerCatchUp at ran
  split at ran
  · rename_i nothing
    cases ran
    refine ⟨{ commanded with following := ?_ }, ?_⟩
    · intro positive
      omega
    · intro net mirrors
      refine ⟨net, Relation.ReflTransGen.refl, mirrors, ?_⟩
      intro positive
      omega
  · rename_i something
    have positive : 0 < last := Nat.pos_of_ne_zero something
    obtain ⟨final, answer⟩ := commanded.loop_mirrored positive inside different ran
    refine ⟨final, fun net mirrors => ?_⟩
    obtain ⟨later, walked, mirrored, acked⟩ := answer net mirrors
    exact ⟨later, walked, mirrored, fun _ => acked⟩

theorem syncPeer_answered (commanded : Commanded n ids leader now last reached g)
    (inside : peer < n) {after : Inner}
    (ran : Inner.syncPeer leader last now g peer = some after) :
    Commanded n ids leader now last (reached ++ [peer]) after ∧
      Answered (Mirrors n) (Net.AnchoredStep n) g after := by
  unfold Inner.syncPeer at ran
  split at ran
  · rename_i isLeader
    cases ran
    refine ⟨commanded.mono fun id member different => ?_, Answered.refl g⟩
    exact (List.mem_append.mp member).resolve_right
      fun atEnd => different ((List.mem_singleton.mp atEnd).trans isLeader)
  · rename_i different
    obtain ⟨⟨final, held⟩, caught, result⟩ := Option.map_eq_some_iff.mp ran
    cases result
    obtain ⟨next, answer⟩ := commanded.peerCatchUp_mirrored inside different caught
    refine ⟨next, fun net mirrors => ?_⟩
    obtain ⟨later, walked, mirrored, _⟩ := answer net mirrors
    exact ⟨later, walked, mirrored⟩

theorem replicateTo_answered {progress after : Inner × Nat}
    (commanded : Commanded n ids leader now last reached progress.1) (positive : 0 < last)
    (inside : peer < n) (ran : Inner.replicateTo leader last now progress peer = some after) :
    Commanded n ids leader now last (reached ++ [peer]) after.1 ∧
      Answered (fun progress => Mirrors n progress.1) (Net.AnchoredStep n) progress after := by
  unfold Inner.replicateTo at ran
  split at ran
  · rename_i isLeader
    cases ran
    refine ⟨commanded.mono fun id member different => ?_, Answered.refl progress⟩
    exact (List.mem_append.mp member).resolve_right
      fun atEnd => different ((List.mem_singleton.mp atEnd).trans isLeader)
  · rename_i different
    obtain ⟨⟨final, held⟩, caught, result⟩ := Option.map_eq_some_iff.mp ran
    obtain ⟨next, answer⟩ := commanded.peerCatchUp_mirrored inside different caught
    cases held with
    | false =>
        cases result
        refine ⟨next, fun net mirrors => ?_⟩
        obtain ⟨later, walked, mirrored, _⟩ := answer net mirrors
        exact ⟨later, walked, mirrored⟩
    | true =>
        cases result
        refine ⟨next.atLeader (next.identity leader) next.role next.term next.length
          next.committed next.following, fun net mirrors => ?_⟩
        obtain ⟨later, walked, mirrored, acked⟩ := answer net mirrors
        have leads : (later.nodes leader).role = .leader :=
          (mirrored.read next.bound Node.role fun _ => rfl).trans next.role
        have sameTerm : (later.nodes leader).term = now :=
          (mirrored.read next.bound Node.term fun _ => rfl).trans next.term
        have recorded : Net.Steps n later
            (later.deliverAck { term := now, follower := peer, index := last } leader) :=
          Net.Steps.one (.deliverAck { term := now, follower := peer, index := last } leader)
            trivial
            (if_pos ⟨acked positive rfl, next.bound, leads, sameTerm⟩)
        refine ⟨_, walked.trans recorded, mirrored.setNode ?_ rfl⟩
        exact congrArg (fun node : Node =>
          { node with matchIdx := node.matchIdx.insert peer last })
          (mirrored leader next.bound)

end Inner.Commanded

theorem Inner.Commanded.advanceCommit_answered {n : Nat} {ids : List NodeId} {leader : NodeId}
    {now last : Nat} {reached : List NodeId} {g : Inner}
    (commanded : Inner.Commanded n ids leader now last reached g) :
    Inner.Commanded n ids leader now last reached
        (g.setNode leader (g.nodes leader).advanceCommit) ∧
      Answered (Mirrors n) (Net.AnchoredStep n) g
        (g.setNode leader (g.nodes leader).advanceCommit) := by
  constructor
  · rcases (g.nodes leader).advanceCommit_cases with same | ⟨index, moved, _, _, inside, _⟩
    · rw [same, Inner.setNode_self]
      exact commanded
    · rw [moved]
      rw [commanded.length] at inside
      exact commanded.atLeader (commanded.identity leader) commanded.role commanded.term
        commanded.length inside commanded.following
  · intro net mirrors
    refine ⟨net.setNode leader (net.nodes leader).advanceCommit,
      Net.Steps.one (.advanceCommit leader) trivial (if_pos commanded.bound),
      mirrors.setNode ?_ rfl⟩
    rw [← Node.voteless_advanceCommit, mirrors leader commanded.bound,
      Node.voteless_advanceCommit]

/-! ### Applying what is committed -/

/-- A heartbeat at the leader's commit index tells a follower that agrees there to
commit as far, and changes nothing else of it. -/
theorem Net.heartbeat_steps {n : Nat} {net : Net} {leader id : NodeId} {upto : Nat}
    (leaderBound : leader < n) (bound : id < n) (different : id ≠ leader)
    (leads : (net.nodes leader).role = .leader) (commit : (net.nodes leader).commitIdx = upto)
    (inside : upto ≤ (net.nodes leader).log.length) (behind : (net.nodes id).commitIdx < upto)
    (agrees : Log.termOf (net.nodes id).log upto = Log.termOf (net.nodes leader).log upto)
    (follows : (net.nodes id).Follows leader (net.nodes leader).term) :
    ∃ later, Net.Steps n net later ∧
      later.nodes = Function.update net.nodes id { net.nodes id with commitIdx := upto } := by
  let message := net.appendFrom leader id upto 0
  let posted : Net := { net with appends := message :: net.appends }
  have send : Net.Steps n net posted :=
    Net.Steps.one (.sendAppend leader id upto 0) inside
      (if_pos ⟨leaderBound, bound, different, leads⟩)
  have deliver : Net.Steps n posted (posted.deliverAppend message) :=
    Net.Steps.one (.deliverAppend message) trivial (if_pos List.mem_cons_self)
  obtain ⟨term, atIndex⟩ : ∃ term, Log.termOf (net.nodes leader).log upto = some term := by
    have present := (Log.termOf_isSome_iff (net.nodes leader).log upto).mpr (by omega)
    exact Option.isSome_iff_exists.mp present
  have matched : Log.termOf (net.nodes id).log upto = some message.prevTerm := by
    change _ = some ((Log.termOf (net.nodes leader).log upto).getD 0)
    rw [agrees, atIndex]
    rfl
  have accepted : ((net.nodes id).appendEntries leader (net.nodes leader).term upto
      message.prevTerm [] upto).1 = { net.nodes id with commitIdx := upto } := by
    rcases (net.nodes id).appendEntries_cases leader (net.nodes leader).term upto message.prevTerm
        [] upto with ⟨stale, _⟩ | ⟨_, _, differs, _⟩ | ⟨_, _, result⟩
    · have sameTerm := follows.term
      omega
    · exact absurd matched differs
    · have reached : Node.commitThrough (net.nodes id).commitIdx
          (min upto (upto + ([] : List LogEntry).length)) = upto := by
        unfold Node.commitThrough
        rw [List.length_nil, Nat.add_zero, Nat.min_self, if_pos behind]
      rw [result, follows.adoptLeader_eq, reached]
      rfl
  refine ⟨posted.deliverAppend message, send.trans deliver, ?_⟩
  have entries : message.entries = [] := rfl
  change Function.update net.nodes id ((net.nodes id).appendEntries leader (net.nodes leader).term
    upto message.prevTerm message.entries (net.nodes leader).commitIdx).1 = _
  rw [entries, commit, accepted]

def Node.applyThrough (node : Node) (upto : Nat) : Node :=
  ({ node with commitIdx := max node.commitIdx upto }).applyCommitted.1

theorem Net.apply_steps {n : Nat} {net : Net} {leader id : NodeId} {upto : Nat}
    (leaderBound : leader < n) (bound : id < n) (leads : (net.nodes leader).role = .leader)
    (commit : (net.nodes leader).commitIdx = upto)
    (inside : upto ≤ (net.nodes leader).log.length)
    (agrees : Log.termOf (net.nodes id).log upto = Log.termOf (net.nodes leader).log upto)
    (follows : 0 < upto → id ≠ leader → (net.nodes id).Follows leader (net.nodes leader).term) :
    ∃ later, Net.Steps n net later ∧
      later.nodes = Function.update net.nodes id ((net.nodes id).applyThrough upto) := by
  unfold Node.applyThrough
  by_cases reached : upto ≤ (net.nodes id).commitIdx
  · rw [Nat.max_eq_left reached]
    exact ⟨net.setNode id (net.nodes id).applyCommitted.1,
      Net.Steps.one (.applyCommitted id) trivial (if_pos bound), rfl⟩
  · have behind : (net.nodes id).commitIdx < upto := Nat.lt_of_not_le reached
    have different : id ≠ leader := by
      rintro rfl
      omega
    obtain ⟨told, walked, nodes⟩ := Net.heartbeat_steps leaderBound bound different leads commit
      inside behind agrees (follows (Nat.zero_lt_of_lt behind) different)
    refine ⟨told.setNode id (told.nodes id).applyCommitted.1,
      walked.trans (Net.Steps.one (.applyCommitted id) trivial (if_pos bound)), ?_⟩
    change Function.update told.nodes id (told.nodes id).applyCommitted.1 = _
    rw [nodes, Function.update_self, Function.update_idem, Nat.max_eq_right (Nat.le_of_lt behind)]

def Node.sending (node : Node) : Role × Nat × Log × Nat :=
  (node.role, node.term, node.log, node.commitIdx)

namespace Inner.Commanded

variable {n : Nat} {ids : List NodeId} {leader : NodeId} {now last : Nat} {g : Inner}

theorem sending_applyCommitted (g : Inner) (leader : NodeId) :
    ((g.applyCommitted leader (g.nodes leader).commitIdx).nodes leader).sending =
      (g.nodes leader).sending := by
  unfold Inner.applyCommitted
  dsimp only
  split
  · change (_, _, _, max (g.nodes leader).commitIdx (g.nodes leader).commitIdx) = _
    rw [Nat.max_self]
    rfl
  · rfl

theorem apply_mirrored (commanded : Commanded n ids leader now last ids g) {net : Net}
    (mirrors : Mirrors n g net) (rest : List NodeId) (distinct : rest.Nodup)
    (inside : ∀ id ∈ rest, id < n) :
    ∃ later, Net.Steps n net later ∧
      (∀ id ∈ rest, (later.nodes id).voteless =
        ((g.applyCommitted leader (g.nodes leader).commitIdx).nodes id).voteless) ∧
      ∀ id, id ∉ rest → later.nodes id = net.nodes id := by
  induction rest with
  | nil =>
      exact ⟨net, Relation.ReflTransGen.refl, fun _ member => absurd member List.not_mem_nil,
        fun _ _ => rfl⟩
  | cons id rest ih =>
      obtain ⟨fresh, restDistinct⟩ := List.nodup_cons.mp distinct
      obtain ⟨middle, walked, applied, others⟩ := ih restDistinct
        fun other member => inside other (List.mem_cons_of_mem id member)
      have bound := inside id List.mem_cons_self
      have untouched := others id fresh
      have sending : (middle.nodes leader).sending = (g.nodes leader).sending := by
        by_cases done : leader ∈ rest
        · exact (congrArg Node.sending (applied leader done)).trans
            (sending_applyCommitted g leader)
        · rw [others leader done]
          exact mirrors.read commanded.bound Node.sending fun _ => rfl
      simp only [Node.sending, Prod.mk.injEq] at sending
      obtain ⟨role, term, log, commit⟩ := sending
      have here : (middle.nodes id).voteless = (g.nodes id).voteless := by
        rw [untouched, mirrors id bound]
      by_cases applies : id < g.size ∧ (g.nodes id).id ∈ g.live ∧
          Log.termOf (g.nodes id).log (g.nodes leader).commitIdx =
            Log.termOf (g.nodes leader).log (g.nodes leader).commitIdx
      · have target : (g.applyCommitted leader (g.nodes leader).commitIdx).nodes id =
            (g.nodes id).applyThrough (g.nodes leader).commitIdx := if_pos applies
        have isLive : id ∈ ids := by
          rw [← commanded.live, ← commanded.identity id]
          exact applies.2.1
        have idLog : (middle.nodes id).voteless.log = (g.nodes id).voteless.log :=
          congrArg Node.log here
        have positive : 0 < (g.nodes leader).commitIdx → 0 < last :=
          fun some => Nat.lt_of_lt_of_le some commanded.committed
        obtain ⟨later, stepped, nodes⟩ := @Net.apply_steps n middle leader id
          (g.nodes leader).commitIdx commanded.bound bound (role.trans commanded.role) commit
          (by
            rw [log, commanded.length]
            exact commanded.committed)
          (by
            rw [log]
            exact (congrArg (Log.termOf · (g.nodes leader).commitIdx) idLog).trans applies.2.2)
          (by
            intro some different
            have follows := commanded.following (positive some) id isLive different
            rw [term, commanded.term]
            exact ⟨(congrArg Node.term here).trans follows.term,
              (congrArg Node.role here).trans follows.role,
              (congrArg Node.leaderId here).trans follows.leaderId⟩)
        refine ⟨later, walked.trans stepped, ?_, ?_⟩
        · intro other member
          rw [nodes]
          by_cases same : other = id
          · rw [same, Function.update_self, target]
            exact congrArg (fun node => node.applyThrough (g.nodes leader).commitIdx) here
          · rw [Function.update_of_ne same]
            exact applied other ((List.mem_cons.mp member).resolve_left same)
        · intro other missing
          rw [List.mem_cons, not_or] at missing
          rw [nodes, Function.update_of_ne missing.1, others other missing.2]
      · have target : (g.applyCommitted leader (g.nodes leader).commitIdx).nodes id = g.nodes id :=
          if_neg applies
        refine ⟨middle, walked, ?_, ?_⟩
        · intro other member
          by_cases same : other = id
          · rw [same, target]
            exact here
          · exact applied other ((List.mem_cons.mp member).resolve_left same)
        · intro other missing
          exact others other fun member => missing (List.mem_cons_of_mem id member)

theorem applyCommitted_answered (commanded : Commanded n ids leader now last ids g) :
    Answered (Mirrors n) (Net.AnchoredStep n) g
      (g.applyCommitted leader (g.nodes leader).commitIdx) := by
  intro net mirrors
  obtain ⟨later, walked, applied, _⟩ := commanded.apply_mirrored mirrors (List.range n)
    List.nodup_range fun _ member => List.mem_range.mp member
  exact ⟨later, walked, fun id bound => applied id (List.mem_range.mpr bound)⟩

end Inner.Commanded

/-! ### Calls -/

namespace ClusterInvariant

variable {n : Nat} {g : Inner} {acked : Log}

theorem commanded (invariant : ClusterInvariant n g acked) {leader : NodeId}
    (leads : g.leader = some leader) :
    Inner.Commanded n g.live leader (g.nodes leader).term (g.nodes leader).log.length [] g := by
  obtain ⟨isLive, role, _, highest⟩ := invariant.leads leader leads
  refine ⟨invariant.size, rfl, isLive, invariant.identity, role, rfl, rfl,
    Nat.le_of_eq (invariant.settled leader).commitIdx, highest, ?_⟩
  exact fun _ _ member => absurd member List.not_mem_nil

theorem sync_answered (invariant : ClusterInvariant n g acked) {leader : NodeId}
    (leads : g.leader = some leader) {after : Inner}
    (synced : g.syncLiveFollowers leader = some after) :
    Answered (Mirrors n) (Net.AnchoredStep n) g after := by
  obtain ⟨passed, ran, result⟩ := Option.map_eq_some_iff.mp synced
  cases result
  let holds := Inner.Commanded n g.live leader (g.nodes leader).term (g.nodes leader).log.length
  obtain ⟨commanded, answered⟩ := @Answered.foldlM _ _ _ (Mirrors n) (Net.AnchoredStep n) _ holds
    [] g.live
    (fun member commanded moved => commanded.syncPeer_answered
      (invariant.size ▸ (Inner.mem_live.mp member).1) moved)
    _ _ (invariant.commanded leads) ran
  exact answered.trans commanded.applyCommitted_answered

theorem propose_answered (invariant : ClusterInvariant n g acked) {leader : NodeId}
    (leads : g.leader = some leader) {op : Op} {node : Node} {idx : Nat}
    (proposes : (g.nodes leader).propose op = some (node, idx)) :
    Inner.Commanded n g.live leader (g.nodes leader).term idx [] (g.setNode leader node) ∧
      Answered (Mirrors n) (Net.AnchoredStep n) g (g.setNode leader node) := by
  have start := invariant.commanded leads
  constructor
  · unfold Node.propose at proposes
    rw [if_pos start.role] at proposes
    cases proposes
    refine start.atLeader (start.identity leader) start.role rfl ?_ ?_ ?_
    · rw [List.length_append]
      rfl
    · exact Nat.le_succ_of_le start.committed
    · exact fun _ _ member => absurd member List.not_mem_nil
  · intro net mirrors
    have there := (net.nodes leader).voteless_propose op
    rw [mirrors leader start.bound, Node.voteless_propose, proposes] at there
    obtain ⟨⟨other, index⟩, proposesThere, same⟩ := Option.map_eq_some_iff.mp there.symm
    refine ⟨net.setNode leader other, Net.Steps.one (.propose leader op) trivial ?_,
      mirrors.setNode (Prod.mk.inj same).1 rfl⟩
    change (if leader < n then _ else none) = _
    rw [if_pos start.bound, proposesThere]
    rfl

/-- A write: the leader proposes, the pass is answered peer by peer, and what it
commits is applied everywhere. -/
theorem commitAt_answered (invariant : ClusterInvariant n g acked) {leader : NodeId}
    (leads : g.leader = some leader) (op : Op) {after : Inner} {reply : Except ClusterError Nat}
    (ran : g.commitAt leader op = some (after, reply)) :
    Answered (Mirrors n) (Net.AnchoredStep n) g after := by
  unfold Inner.commitAt at ran
  obtain ⟨⟨node, idx⟩, proposes, written⟩ := Option.bind_eq_some_iff.mp ran
  obtain ⟨⟨passed, acks⟩, replicated, closing⟩ := Option.bind_eq_some_iff.mp written
  obtain ⟨before, proposed⟩ := invariant.propose_answered leads proposes
  have term : node.term = (g.nodes leader).term := by
    have atLeader := before.term
    rw [Inner.setNode_nodes_self] at atLeader
    exact atLeader
  have positive : 0 < idx := by
    unfold Node.propose at proposes
    obtain ⟨_, result⟩ := Option.ite_none_right_eq_some.mp proposes
    cases result
    exact Nat.succ_pos _
  let holds (reached : List NodeId) (progress : Inner × Nat) :=
    Inner.Commanded n g.live leader (g.nodes leader).term idx reached progress.1
  rw [term] at replicated
  obtain ⟨commanded, answered⟩ := @Answered.foldlM _ _ _ (fun progress => Mirrors n progress.1)
    (Net.AnchoredStep n) _ holds [] g.live
    (fun member commanded moved => commanded.replicateTo_answered positive
      (invariant.size ▸ (Inner.mem_live.mp member).1) moved)
    _ _ before replicated
  have sent : Answered (Mirrors n) (Net.AnchoredStep n) g passed := proposed.trans answered
  dsimp only at closing
  split at closing
  · cases closing
    exact sent
  · obtain ⟨next, advanced⟩ := commanded.advanceCommit_answered
    split at closing
    · cases closing
      exact (sent.trans advanced).trans next.applyCommitted_answered
    · cases closing

theorem call_answered (invariant : ClusterInvariant n g acked) {call : Call} {after : Inner}
    {reply : Reply} (called : g.call call = some (after, reply)) :
    Answered (Mirrors n) (Net.AnchoredStep n) g after := by
  obtain ⟨ready, found, ensured, kept, _, _, leads, _⟩ := invariant.ensureLeader_spec
  have elected := invariant.ensureLeader_answered ensured
  have commits {op : Op} {result : Except ClusterError Nat}
      (ran : g.clusterCommit op = some (after, result)) :
      Answered (Mirrors n) (Net.AnchoredStep n) g after := by
    unfold Inner.clusterCommit at ran
    rw [ensured] at ran
    cases found with
    | error failure =>
        cases ran
        exact elected
    | ok leader => exact elected.trans (kept.commitAt_answered (leads leader rfl).1 op ran)
  cases call with
  | put key value =>
      obtain ⟨⟨final, result⟩, ran, same⟩ := Option.map_eq_some_iff.mp called
      cases same
      exact commits ran
  | delete key =>
      obtain ⟨⟨final, result⟩, ran, same⟩ := Option.map_eq_some_iff.mp called
      cases same
      exact commits ran
  | get key =>
      obtain ⟨⟨final, result⟩, ran, same⟩ := Option.map_eq_some_iff.mp called
      cases same
      unfold Inner.get at ran
      rw [ensured] at ran
      simp only [Option.bind_eq_bind, Option.bind_some] at ran
      cases found with
      | error failure =>
          cases ran
          exact elected
      | ok leader =>
          obtain ⟨synced, syncs, rest⟩ := Option.bind_eq_some_iff.mp ran
          have passed := elected.trans (kept.sync_answered (leads leader rfl).1 syncs)
          split at rest
          · cases rest
            exact passed
          · cases rest
  | scan pref =>
      obtain ⟨⟨final, result⟩, ran, same⟩ := Option.map_eq_some_iff.mp called
      cases same
      unfold Inner.scan at ran
      rw [ensured] at ran
      simp only [Option.bind_eq_bind, Option.bind_some] at ran
      cases found with
      | error failure =>
          cases ran
          exact elected
      | ok leader =>
          obtain ⟨synced, syncs, rest⟩ := Option.bind_eq_some_iff.mp ran
          cases rest
          exact elected.trans (kept.sync_answered (leads leader rfl).1 syncs)
  | fail id =>
      cases called
      exact Answered.of_related fun _ mirrors => mirrors
  | revive id =>
      cases called
      exact Answered.of_related fun _ mirrors => mirrors

end ClusterInvariant

namespace ClusterInvariant

variable {n : Nat} {g : Inner} {acked : Log}

theorem run_answered (invariant : ClusterInvariant n g acked) {calls : List Call} {after : Inner}
    {trace : List (Call × Reply)} (ran : g.run calls = some (after, trace)) :
    (∃ longer, ClusterInvariant n after longer) ∧
      Answered (Mirrors n) (Net.AnchoredStep n) g after := by
  induction calls generalizing g acked trace with
  | nil =>
      cases ran
      exact ⟨⟨acked, invariant⟩, Answered.refl after⟩
  | cons call rest ih =>
      obtain ⟨middle, reply, longer, called, outcome⟩ := invariant.call_outcome call
      simp only [Inner.run, called, Option.bind_eq_bind, Option.bind_some] at ran
      obtain ⟨⟨final, replies⟩, remaining, result⟩ := Option.bind_eq_some_iff.mp ran
      cases result
      obtain ⟨kept, answered⟩ := ih outcome.invariant remaining
      exact ⟨kept, (invariant.call_answered called).trans answered⟩

end ClusterInvariant

/-- For every endless sequence of calls: none of them panics, and one run of the
asynchronous network, every append anchored inside its sender's log, passes after
each call through a state whose nodes are the cluster's but for their votes. -/
theorem cluster_runs_on_network (n : Nat) (positive : 1 ≤ n) (calls : Nat → Call) :
    ∃ (states : Nat → Inner) (nets : Nat → Net), states 0 = Inner.new n ∧
      nets 0 = Net.initial n ∧
      ∀ count, (∃ reply, (states count).call (calls count) = some (states (count + 1), reply)) ∧
        Mirrors n (states count) (nets count) ∧
        Relation.ReflTransGen (Net.AnchoredStep n) (nets count) (nets (count + 1)) := by
  have moves (state : { g : Inner // ∃ acked, ClusterInvariant n g acked }) (call : Call) :
      ∃ next : { g : Inner // ∃ acked, ClusterInvariant n g acked },
        (∃ reply, state.1.call call = some (next.1, reply)) ∧
          Answered (Mirrors n) (Net.AnchoredStep n) state.1 next.1 := by
    obtain ⟨g, acked, invariant⟩ := state
    obtain ⟨after, reply, longer, called, outcome⟩ := invariant.call_outcome call
    exact ⟨⟨after, longer, outcome.invariant⟩, ⟨reply, called⟩, invariant.call_answered called⟩
  choose next called answered using moves
  let states (count : Nat) : { g : Inner // ∃ acked, ClusterInvariant n g acked } :=
    Nat.rec ⟨Inner.new n, [], ClusterInvariant.initial positive⟩
      (fun count state => next state (calls count)) count
  obtain ⟨nets, start, stages⟩ := @Answered.stages _ _ (Mirrors n) (Net.AnchoredStep n)
    (fun count => (states count).1) (fun count => answered (states count) (calls count))
    (Net.initial n) (fun _ _ => rfl)
  exact ⟨fun count => (states count).1, nets, rfl, start,
    fun count => ⟨called (states count) (calls count), stages count⟩⟩

theorem cluster_runs_on_network_alternating :
    ∃ (states : Nat → Inner) (nets : Nat → Net), states 0 = Inner.new 3 ∧
      nets 0 = Net.initial 3 ∧
      ∀ count, (∃ reply, (states count).call
          (if count % 2 = 0 then .put [1] [2] else .fail (count % 3)) =
            some (states (count + 1), reply)) ∧
        Mirrors 3 (states count) (nets count) ∧
        Relation.ReflTransGen (Net.AnchoredStep 3) (nets count) (nets (count + 1)) :=
  cluster_runs_on_network 3 (by decide)
    (fun count => if count % 2 = 0 then .put [1] [2] else .fail (count % 3))

theorem Net.elected_of_steps {n : Nat} {before after : Net} (steps : Net.Steps n before after) :
    before.elected ⊆ after.elected := by
  induction steps with
  | refl => exact fun _ member => member
  | tail _ last ih =>
      obtain ⟨action, _, taken⟩ := last
      intro pair member
      cases Net.step_effect taken with
      | becomeLeader id bound stands majority => exact List.mem_cons_of_mem _ (ih member)
      | startElection | voteDenied | voteGranted | propose | sendAppend | appendStale
      | appendRejected | appendAccepted | deliverAck | advanceCommit | applyCommitted =>
          exact ih member

/-- No term is ever led by two nodes of the cluster, at one time or at two: a node
that was failed while it led still counts as the leader of its term. -/
theorem cluster_leads_each_term_once (n : Nat) (positive : 1 ≤ n) (calls more : List Call)
    (middle final : Inner) (trace rest : List (Call × Reply))
    (ran : (Inner.new n).run calls = some (middle, trace))
    (continued : middle.run more = some (final, rest)) (former latter : NodeId)
    (formerBound : former < n) (latterBound : latter < n)
    (formerLeads : (middle.nodes former).role = .leader)
    (latterLeads : (final.nodes latter).role = .leader)
    (sameTerm : (middle.nodes former).term = (final.nodes latter).term) : former = latter := by
  obtain ⟨⟨acked, kept⟩, answered⟩ := (ClusterInvariant.initial positive).run_answered ran
  obtain ⟨_, answeredOn⟩ := kept.run_answered continued
  obtain ⟨earlier, toEarlier, atMiddle⟩ := answered (Net.initial n) fun _ _ => rfl
  obtain ⟨later, toLater, atFinal⟩ := answeredOn earlier atMiddle
  have here := Net.electionInvariant_of_reachable (Net.AnchoredReachable.reachable toEarlier)
  have there := Net.electionInvariant_of_reachable
    (Net.AnchoredReachable.reachable (toEarlier.trans toLater))
  have formerWon := here.leads former
    ((atMiddle.read formerBound Node.role fun _ => rfl).trans formerLeads)
  have latterWon := there.leads latter
    ((atFinal.read latterBound Node.role fun _ => rfl).trans latterLeads)
  rw [atMiddle.read formerBound Node.term fun _ => rfl, sameTerm] at formerWon
  rw [atFinal.read latterBound Node.term fun _ => rfl] at latterWon
  exact there.elected_unique (Net.elected_of_steps toLater formerWon) latterWon

/-- The first leader is failed, and its successor elected in the next term. -/
theorem cluster_leads_each_term_once_after_failover :
    ∃ middle final trace rest, (Inner.new 3).run [.put [1] [2]] = some (middle, trace) ∧
      middle.run [.fail 0, .put [1] [3]] = some (final, rest) ∧
      (middle.nodes 0).role = .leader ∧
      ((final.nodes 0).role = .leader ∧ (final.nodes 0).term = 1) ∧
      ((final.nodes 1).role = .leader ∧ (final.nodes 1).term = 2) ∧
      ∀ latter, latter < 3 → (final.nodes latter).role = .leader →
        (middle.nodes 0).term = (final.nodes latter).term → 0 = latter := by
  obtain ⟨middle, trace, acked, ran, kept, _⟩ :=
    (ClusterInvariant.initial (by decide : 1 ≤ 3)).run_outcome [.put [1] [2]]
  obtain ⟨final, rest, _, continued, _⟩ := kept.run_outcome [.fail 0, .put [1] [3]]
  have first : ((Inner.new 3).run [.put [1] [2]]).map (fun result => (result.1.nodes 0).role) =
      some .leader := by decide
  have second : ((Inner.new 3).run [.put [1] [2]]).bind (fun result =>
      (result.1.run [.fail 0, .put [1] [3]]).map (fun result =>
        (((result.1.nodes 0).role, (result.1.nodes 0).term),
          ((result.1.nodes 1).role, (result.1.nodes 1).term)))) =
        some ((.leader, 1), (.leader, 2)) := by decide
  rw [ran, Option.map_some, Option.some_inj] at first
  rw [ran, Option.bind_some, continued, Option.map_some, Option.some_inj] at second
  simp only [Prod.mk.injEq] at second
  refine ⟨middle, final, trace, rest, ran, continued, first, second.1, second.2, ?_⟩
  intro latter bound leads sameTerm
  exact cluster_leads_each_term_once 3 (by decide) _ _ middle final trace rest ran continued 0
    latter (by decide) bound first leads sameTerm

end Keystory.Raft
