/-
Leaders of later terms, and what a majority can always do.

Every leader holds what any node had committed in a term up to its own. And whatever
has happened on the network, any majority can carry on alone: the most up to date of
its nodes stands in a fresh term, wins it, and brings the others to its own log with a
new command at the end, which all of them commit and apply. Nothing that was committed
before, on whichever node, is lost on the way.
-/

import Mathlib.Data.Finset.Lattice.Fold
import Mathlib.Data.Finset.Max
import Mathlib.Data.Prod.Lex
import Keystory.Raft.Refinement
import Keystory.Raft.StateMachineSafety

namespace Keystory.Raft

open General

/-! ### Leader completeness -/

namespace Net

variable {n : Nat} {net later : Net} {history : Nat → Log}

theorem SafetyInvariant.certified_held (invariant : SafetyInvariant n net history)
    {term commit : Nat} {log : Log} (certified : net.Certified n history term commit log)
    {leader : NodeId} (leads : (net.nodes leader).role = .leader)
    (order : term ≤ (net.nodes leader).term) : log.take commit <+: (net.nodes leader).log := by
  rcases certified with zero | ⟨chosenTerm, index, chosen, bound, covers, held⟩
  · rw [zero, List.take_zero]
    exact List.nil_prefix
  · have cut := (List.prefix_iff_eq_take.mp held).symm
    rw [chosen.length_take covers] at cut
    have won : net.Won (net.nodes leader).term :=
      ⟨leader, invariant.matching.elections.leads leader leads⟩
    rw [cut, invariant.matching.leaderLog leader leads]
    exact (List.take_prefix_take_left covers).trans
      (invariant.chosen_in_later chosen won (bound.trans order))

theorem Certified.capped {term commit bound : Nat} {log : Log}
    (certified : net.Certified n history term commit log)
    (invariant : SafetyInvariant n net history)
    {live : Finset NodeId} (quorum : IsQuorum n live)
    (below : ∀ id ∈ live, (net.nodes id).term ≤ bound) :
    net.Certified n history bound commit log := by
  rcases certified with zero | ⟨chosenTerm, index, chosen, _, covers, held⟩
  · exact Or.inl zero
  · obtain ⟨members, membersQuorum, acked⟩ := chosen.held
    obtain ⟨voter, inMembers, inLive⟩ := membersQuorum.intersect quorum
    have reached := ((acked voter inMembers).reached invariant).2.1
    exact Or.inr ⟨chosenTerm, index, chosen, reached.trans (below voter inLive), covers, held⟩

/-- A leader holds all that any node had committed, then or earlier in the run, in a term
up to its own; and as long as it leads a term, its log only grows. -/
theorem leader_completeness (n : Nat) (net later : Net) (reached : AnchoredReachable n net)
    (steps : Relation.ReflTransGen (AnchoredStep n) net later) (leader : NodeId)
    (leads : (later.nodes leader).role = .leader) :
    (∀ node, (net.nodes node).term ≤ (later.nodes leader).term →
      (net.nodes node).log.take (net.nodes node).commitIdx <+: (later.nodes leader).log) ∧
    ((net.nodes leader).role = .leader →
      (net.nodes leader).term = (later.nodes leader).term →
      (net.nodes leader).log <+: (later.nodes leader).log) := by
  obtain ⟨history, invariant⟩ := safetyInvariant_of_anchoredReachable reached
  obtain ⟨grown, laterInvariant, growth⟩ := invariant.run steps
  constructor
  · intro node order
    exact laterInvariant.certified_held
      (growth.certified (invariant.committed node) (Nat.le_refl _)) leads order
  · intro led sameTerm
    have won : net.Won (net.nodes leader).term :=
      ⟨leader, invariant.matching.elections.leads leader led⟩
    rw [invariant.matching.leaderLog leader led, laterInvariant.matching.leaderLog leader leads,
      ← sameTerm]
    exact growth.grows _ won

def takeOver : List Action :=
  [.startElection 1,
    .deliverVote { candidate := 1, term := 2, lastIndex := 1, lastTerm := 1 } 2,
    .becomeLeader 1]

theorem leader_completeness_takeOver :
    ∃ net later, (initial 3).anchoredRun 3 (electAndCommit 0 1 1 (.put [1] [2])) = some net ∧
      net.anchoredRun 3 takeOver = some later ∧ (net.nodes 0).commitIdx = 1 ∧
      (later.nodes 1).term = 2 ∧ (net.nodes 0).log.take 1 <+: (later.nodes 1).log :=
  let net := ((initial 3).anchoredRun 3 (electAndCommit 0 1 1 (.put [1] [2]))).get (by decide)
  let later := (net.anchoredRun 3 takeOver).get (by decide)
  have first : (initial 3).anchoredRun 3 (electAndCommit 0 1 1 (.put [1] [2])) = some net :=
    (Option.some_get _).symm
  have second : net.anchoredRun 3 takeOver = some later := (Option.some_get _).symm
  ⟨net, later, first, second, by decide, by decide,
    (leader_completeness 3 net later
      (anchoredSteps_of_run first) (anchoredSteps_of_run second) 1 (by decide)).1 0 (by decide)⟩

end Net

/-! ### An election -/

/-- The votes a candidate has gathered since it stood. -/
structure Canvassed (n : Nat) (standing : Net) (request : VoteRequest) (asked : List NodeId)
    (net : Net) : Prop where
  walked : Net.Steps n standing net
  sent : request ∈ net.requests
  others : ∀ id, id ∉ asked → net.nodes id = standing.nodes id
  voters : ∀ id ∈ asked, (net.nodes id).log = (standing.nodes id).log ∧
    (net.nodes id).term = request.term
  kept : standing.grants ⊆ net.grants
  granted : ∀ id ∈ asked,
    { term := request.term, voter := id, candidate := request.candidate } ∈ net.grants

theorem Canvassed.ask {n : Nat} {standing net : Net} {request : VoteRequest} {asked : List NodeId}
    (canvassed : Canvassed n standing request asked net) {id : NodeId} (bound : id < n)
    (fresh : id ∉ asked) (newer : (standing.nodes id).term < request.term)
    (eligible : (standing.nodes id).upToDate request.lastIndex request.lastTerm = true) :
    ∃ later, Canvassed n standing request (asked ++ [id]) later := by
  have here := canvassed.others id fresh
  rw [← here] at newer eligible
  let reply := (net.nodes id).requestVote request.candidate request.term request.lastIndex
    request.lastTerm
  have nodes : (net.deliverVote request id).nodes = Function.update net.nodes id reply.1 := rfl
  have voteless := (net.nodes id).voteless_requestVote request.candidate request.term
    request.lastIndex request.lastTerm
  have log : reply.1.log = (standing.nodes id).log := by
    rw [← here]
    exact (congrArg Node.log voteless).trans (Node.adoptVoteTerm_log _ _)
  have term : reply.1.term = request.term := by
    refine (congrArg Node.term voteless).trans ((Node.adoptVoteTerm_term _ _).trans ?_)
    exact Nat.max_eq_right (Nat.le_of_lt newer)
  refine ⟨net.deliverVote request id, ?_, canvassed.sent, ?_, ?_, ?_, ?_⟩
  · exact canvassed.walked.trans
      (Net.Steps.one (.deliverVote request id) trivial (if_pos ⟨canvassed.sent, bound⟩))
  · intro other missing
    rw [List.mem_append, not_or, List.mem_singleton] at missing
    rw [nodes, Function.update_of_ne missing.2, canvassed.others other missing.1]
  · intro other member
    rw [nodes]
    by_cases same : other = id
    · rw [same, Function.update_self]
      exact ⟨log, term⟩
    · rw [Function.update_of_ne same]
      exact canvassed.voters other
        ((List.mem_append.mp member).resolve_right fun last => same (List.mem_singleton.mp last))
  · exact fun grant member => Net.deliverVote_keeps (canvassed.kept member)
  · intro other member
    rcases List.mem_append.mp member with earlier | last
    · exact Net.deliverVote_keeps (canvassed.granted other earlier)
    · rw [List.mem_singleton.mp last]
      exact Net.deliverVote_grants newer eligible

/-- Of a majority, a node whose log none of the others exceeds wins the term after all
of theirs, and no log changes. -/
theorem Net.win_steps {n : Nat} {net : Net} (elections : ElectionInvariant n net)
    {live : Finset NodeId} (quorum : IsQuorum n live) {cand : NodeId} (member : cand ∈ live)
    (top : ∀ id ∈ live, (net.nodes id).upToDate (Log.lastIndex (net.nodes cand).log)
      (Log.lastTerm (net.nodes cand).log) = true)
    {bound : Nat} (below : ∀ id ∈ live, (net.nodes id).term ≤ bound) :
    ∃ later, Net.Steps n net later ∧ (∀ id, id ∉ live → later.nodes id = net.nodes id) ∧
      (∀ id ∈ live, (later.nodes id).log = (net.nodes id).log ∧
        (later.nodes id).term = bound + 1) ∧
      (later.nodes cand).role = .leader := by
  have inside (id : NodeId) (isLive : id ∈ live) : id < n :=
    Finset.mem_range.mp (quorum.1 isLive)
  obtain ⟨standing, stood, nodes, sent, ownVote⟩ :=
    net.campaign_steps (inside cand member) (bound - (net.nodes cand).term)
  have fresh : (net.nodes cand).term + (bound - (net.nodes cand).term) + 1 = bound + 1 := by
    have atCand := below cand member
    omega
  rw [fresh] at nodes sent ownVote
  let request := VoteRequest.of cand (bound + 1) (net.nodes cand).log
  have away (id : NodeId) (different : id ≠ cand) : standing.nodes id = net.nodes id := by
    rw [nodes, Function.update_of_ne different]
  have start : Canvassed n standing request [] standing :=
    ⟨Relation.ReflTransGen.refl, sent, fun _ _ => rfl,
      fun _ impossible => absurd impossible List.not_mem_nil, fun _ grant => grant,
      fun _ impossible => absurd impossible List.not_mem_nil⟩
  obtain ⟨polled, canvassed⟩ := exists_visited_all (live.erase cand).nodup_toList
    (fun {asked id now} isVoter fresh canvassed => by
      obtain ⟨different, isLive⟩ := Finset.mem_erase.mp (Finset.mem_toList.mp isVoter)
      refine Canvassed.ask canvassed (inside id isLive) fresh ?_ ?_
      · rw [away id different]
        exact Nat.lt_succ_of_le (below id isLive)
      · rw [away id different]
        exact top id isLive) start
  have notAsked : cand ∉ (live.erase cand).toList := by
    rw [Finset.mem_toList]
    exact Finset.notMem_erase cand live
  have atCand := canvassed.others cand notAsked
  rw [nodes, Function.update_self] at atCand
  have votes : live ⊆ polled.voters n (bound + 1) cand := by
    intro id isLive
    refine Finset.mem_filter.mpr ⟨quorum.1 isLive, ?_⟩
    by_cases same : id = cand
    · rw [same]
      exact canvassed.kept ownVote
    · exact canvassed.granted id (Finset.mem_toList.mpr (Finset.mem_erase.mpr ⟨same, isLive⟩))
  have majority : (polled.nodes cand).quorum ≤
      (polled.voters n (polled.nodes cand).term cand).card := by
    rw [show (polled.nodes cand).quorum = n / 2 + 1 from
        (congrArg Node.quorum atCand).trans (elections.quorum_eq cand),
      show (polled.nodes cand).term = bound + 1 from congrArg Node.term atCand]
    exact quorum.2.trans (Finset.card_le_card votes)
  have promoted : Net.Steps n polled (polled.becomeLeader cand) :=
    Net.Steps.one (.becomeLeader cand) trivial
      (if_pos ⟨inside cand member, congrArg Node.role atCand, majority⟩)
  have final : (polled.becomeLeader cand).nodes =
      Function.update polled.nodes cand (polled.nodes cand).becomeLeader := rfl
  refine ⟨polled.becomeLeader cand, stood.trans (canvassed.walked.trans promoted), ?_, ?_, ?_⟩
  · intro id silent
    have different : id ≠ cand := fun same => silent (same ▸ member)
    rw [final, Function.update_of_ne different, canvassed.others id ?_, away id different]
    exact fun asked => silent (Finset.mem_of_mem_erase (Finset.mem_toList.mp asked))
  · intro id isLive
    rw [final]
    by_cases same : id = cand
    · rw [same, Function.update_self]
      have log : (polled.nodes cand).log = (net.nodes cand).log :=
        (congrArg Node.log atCand).trans rfl
      have term : (polled.nodes cand).term = bound + 1 := (congrArg Node.term atCand).trans rfl
      exact ⟨log, term⟩
    · rw [Function.update_of_ne same, ← away id same]
      exact canvassed.voters id (Finset.mem_toList.mpr (Finset.mem_erase.mpr ⟨same, isLive⟩))
  · rw [final, Function.update_self]
    rfl

/-! ### Replication -/

theorem appendLoop_whole {held sent : Log} (determined : TermsDetermine held sent)
    (missing : ¬sent <+: held) : Node.appendLoop held 1 sent = sent := by
  have slice := appendLoop_slice held sent 0 sent (Nat.zero_le _) rfl (List.prefix_refl _)
    determined
  rw [Nat.zero_add, Nat.zero_add, List.take_length] at slice
  rcases slice with ⟨holds, _⟩ | ⟨_, replaced⟩
  · exact absurd holds missing
  · exact replaced

theorem Net.replicate_steps {n : Nat} {net : Net} {leader id : NodeId} (leaderBound : leader < n)
    (bound : id < n) (different : id ≠ leader) (leads : (net.nodes leader).role = .leader)
    (order : (net.nodes id).term ≤ (net.nodes leader).term)
    (determined : TermsDetermine (net.nodes id).log (net.nodes leader).log)
    (missing : ¬(net.nodes leader).log <+: (net.nodes id).log) :
    ∃ later node, Net.Steps n net later ∧ node.log = (net.nodes leader).log ∧
      node.Follows leader (net.nodes leader).term ∧
      later.nodes = Function.update (Function.update net.nodes id node) leader
        { net.nodes leader with
          matchIdx := (net.nodes leader).matchIdx.insert id (net.nodes leader).log.length } := by
  let log := (net.nodes leader).log
  let message := net.appendFrom leader id 0 log.length
  let posted : Net := { net with appends := message :: net.appends }
  let node : Node :=
    { (net.nodes id).adoptLeader leader (net.nodes leader).term with
      log := log
      commitIdx := Node.commitThrough (net.nodes id).commitIdx
        (min (net.nodes leader).commitIdx (0 + log.length)) }
  have entries : message.entries = log := List.take_length
  have reply : (net.nodes id).appendEntries leader (net.nodes leader).term 0 message.prevTerm
      message.entries (net.nodes leader).commitIdx = (node, none) := by
    rw [entries]
    rcases (net.nodes id).appendEntries_cases leader (net.nodes leader).term 0 message.prevTerm log
        (net.nodes leader).commitIdx with ⟨stale, _⟩ | ⟨_, impossible, _⟩ | ⟨_, _, result⟩
    · omega
    · exact absurd rfl impossible
    · rw [result, Nat.zero_add, appendLoop_whole determined missing]
  have send : Net.Steps n net posted :=
    Net.Steps.one (.sendAppend leader id 0 log.length) (Nat.zero_le _)
      (if_pos ⟨leaderBound, bound, different, leads⟩)
  let delivered := posted.deliverAppend message
  have deliver : Net.Steps n posted delivered :=
    Net.Steps.one (.deliverAppend message) trivial (if_pos List.mem_cons_self)
  have nodes : delivered.nodes = Function.update net.nodes id node :=
    congrArg (fun answer : Node × Option Nat => Function.update net.nodes id answer.1) reply
  have atLeader : delivered.nodes leader = net.nodes leader := by
    rw [nodes, Function.update_of_ne (Ne.symm different)]
  let ack : Ack := { term := (net.nodes leader).term, follower := id, index := log.length }
  have acked : ack ∈ delivered.acks := by
    change ack ∈ (if ((net.nodes id).appendEntries leader (net.nodes leader).term 0
      message.prevTerm message.entries (net.nodes leader).commitIdx).2 = none then
        { term := (net.nodes leader).term, follower := id,
          index := 0 + message.entries.length } :: net.acks else net.acks)
    rw [reply, if_pos rfl, entries, Nat.zero_add]
    exact List.mem_cons_self
  have record : Net.Steps n delivered (delivered.deliverAck ack leader) :=
    Net.Steps.one (.deliverAck ack leader) trivial (if_pos ⟨acked, leaderBound,
      (congrArg Node.role atLeader).trans leads, congrArg Node.term atLeader⟩)
  have adopted := (net.nodes id).adoptLeader_follows leader order
  refine ⟨delivered.deliverAck ack leader, node, send.trans (deliver.trans record), rfl,
    ⟨adopted.term, adopted.role, adopted.leaderId⟩, ?_⟩
  change Function.update delivered.nodes leader
    { delivered.nodes leader with
      matchIdx := (delivered.nodes leader).matchIdx.insert id log.length } = _
  rw [atLeader, nodes]

def Node.outline (node : Node) : Role × Nat × Option NodeId × Log × SortedMap NodeId Nat :=
  (node.role, node.term, node.leaderId, node.log, node.matchIdx)

/-- A leader that brings the majority it leads to its own log: those in `reached` have
it, and the leader knows. -/
structure Leads (n : Nat) (start : Net) (live : Finset NodeId) (leader : NodeId) (now : Nat)
    (final : Log) (reached : List NodeId) (net : Net) : Prop where
  walked : Net.Steps n start net
  silent : ∀ id, id ∉ live → net.nodes id = start.nodes id
  role : (net.nodes leader).role = .leader
  term : (net.nodes leader).term = now
  log : (net.nodes leader).log = final
  terms : ∀ id ∈ live, (net.nodes id).term ≤ now
  waiting : ∀ id ∈ live, id ≠ leader → id ∉ reached → (net.nodes id).log = (start.nodes id).log
  following : ∀ id ∈ reached, id ≠ leader →
    (net.nodes id).log = final ∧ (net.nodes id).Follows leader now
  matched : ∀ id, id ∈ reached ∨ id = leader →
    (net.nodes leader).matchIdx.find? id = some final.length

namespace Leads

variable {n : Nat} {start net : Net} {live : Finset NodeId} {leader id : NodeId} {now : Nat}
  {final : Log} {reached : List NodeId}

theorem skip (leads : Leads n start live leader now final reached net) :
    Leads n start live leader now final (reached ++ [leader]) net := by
  refine { leads with waiting := ?_, following := ?_, matched := ?_ }
  · intro other isLive notLeader missing
    exact leads.waiting other isLive notLeader fun member => missing (List.mem_append_left _ member)
  · intro other member notLeader
    exact leads.following other ((List.mem_append.mp member).resolve_right
      fun last => notLeader (List.mem_singleton.mp last)) notLeader
  · intro other either
    rw [List.mem_append, List.mem_singleton, or_assoc, or_self] at either
    exact leads.matched other either

theorem visit (leads : Leads n start live leader now final reached net) (isLeader : leader ∈ live)
    (isLive : id ∈ live) (different : id ≠ leader) {later : Net} {node : Node}
    (stepped : Net.Steps n net later) (log : node.log = final) (follows : node.Follows leader now)
    (nodes : later.nodes = Function.update (Function.update net.nodes id node) leader
      { net.nodes leader with
        matchIdx := (net.nodes leader).matchIdx.insert id final.length }) :
    Leads n start live leader now final (reached ++ [id]) later := by
  have elsewhere (other : NodeId) (notPeer : other ≠ id) (notLeader : other ≠ leader) :
      later.nodes other = net.nodes other := by
    rw [nodes, Function.update_of_ne notLeader, Function.update_of_ne notPeer]
  have atPeer : later.nodes id = node := by
    rw [nodes, Function.update_of_ne different, Function.update_self]
  have atLeader : later.nodes leader = { net.nodes leader with
      matchIdx := (net.nodes leader).matchIdx.insert id final.length } := by
    rw [nodes, Function.update_self]
  refine ⟨leads.walked.trans stepped, ?_, ?_, ?_, ?_, ?_, ?_, ?_, ?_⟩
  · intro other quiet
    rw [elsewhere other (fun same => quiet (same ▸ isLive)) (fun same => quiet (same ▸ isLeader))]
    exact leads.silent other quiet
  · rw [atLeader]
    exact leads.role
  · rw [atLeader]
    exact leads.term
  · rw [atLeader]
    exact leads.log
  · intro other otherLive
    by_cases isPeer : other = id
    · rw [isPeer, atPeer]
      exact Nat.le_of_eq follows.term
    · by_cases atTop : other = leader
      · rw [atTop, atLeader]
        exact Nat.le_of_eq leads.term
      · rw [elsewhere other isPeer atTop]
        exact leads.terms other otherLive
  · intro other otherLive notLeader missing
    rw [List.mem_append, not_or, List.mem_singleton] at missing
    rw [elsewhere other missing.2 notLeader]
    exact leads.waiting other otherLive notLeader missing.1
  · intro other member notLeader
    by_cases isPeer : other = id
    · rw [isPeer, atPeer]
      exact ⟨log, follows⟩
    · rw [elsewhere other isPeer notLeader]
      exact leads.following other ((List.mem_append.mp member).resolve_right
        fun last => isPeer (List.mem_singleton.mp last)) notLeader
  · intro other either
    rw [atLeader]
    dsimp only
    rw [SortedMap.find?_insert]
    by_cases isPeer : other = id
    · rw [if_pos isPeer]
    · rw [if_neg isPeer]
      refine leads.matched other (either.imp_left fun member => ?_)
      exact (List.mem_append.mp member).resolve_right
        fun last => isPeer (List.mem_singleton.mp last)

/-- The leader's last entry is newer than all that the others had, so each of them
takes its log over. -/
theorem replicate (leads : Leads n start live leader now final reached net)
    (anchored : Net.AnchoredReachable n start) (quorum : IsQuorum n live)
    (isLeader : leader ∈ live) (newest : ∃ entry ∈ final, entry.selfTerm = now)
    (older : ∀ id ∈ live, ∀ entry ∈ (start.nodes id).log, entry.selfTerm < now)
    (isLive : id ∈ live) (fresh : id ∉ reached) :
    ∃ later, Leads n start live leader now final (reached ++ [id]) later := by
  by_cases same : id = leader
  · rw [same]
    exact ⟨net, leads.skip⟩
  · obtain ⟨history, invariant⟩ :=
      Net.safetyInvariant_of_anchoredReachable (anchored.trans leads.walked)
    have missing : ¬(net.nodes leader).log <+: (net.nodes id).log := by
      obtain ⟨entry, member, ownTerm⟩ := newest
      rw [leads.log, leads.waiting id isLive same fresh]
      intro holds
      have old := older id isLive entry (holds.subset member)
      omega
    have order : (net.nodes id).term ≤ (net.nodes leader).term := by
      rw [leads.term]
      exact leads.terms id isLive
    obtain ⟨later, node, stepped, log, follows, nodes⟩ := Net.replicate_steps
      (Finset.mem_range.mp (quorum.1 isLeader)) (Finset.mem_range.mp (quorum.1 isLive)) same
      leads.role order
      ((invariant.matching.copied id).termsDetermine (invariant.matching.copied leader)) missing
    rw [leads.log] at log nodes
    rw [leads.term] at follows
    exact ⟨later, leads.visit isLeader isLive same stepped log follows nodes⟩

theorem keep (leads : Leads n start live leader now final reached net) (isLive : id ∈ live)
    {later : Net} {node : Node} (stepped : Net.Steps n net later)
    (nodes : later.nodes = Function.update net.nodes id node)
    (same : node.outline = (net.nodes id).outline) :
    Leads n start live leader now final reached later := by
  have outlines (other : NodeId) : (later.nodes other).outline = (net.nodes other).outline := by
    rw [nodes]
    by_cases here : other = id
    · rw [here, Function.update_self, same]
    · rw [Function.update_of_ne here]
  simp only [Node.outline, Prod.mk.injEq] at outlines
  refine ⟨leads.walked.trans stepped, ?_, ?_, ?_, ?_, ?_, ?_, ?_, ?_⟩
  · intro other quiet
    have different : other ≠ id := fun same => quiet (same ▸ isLive)
    rw [nodes, Function.update_of_ne different]
    exact leads.silent other quiet
  · rw [(outlines leader).1, leads.role]
  · rw [(outlines leader).2.1, leads.term]
  · rw [(outlines leader).2.2.2.1, leads.log]
  · intro other otherLive
    rw [(outlines other).2.1]
    exact leads.terms other otherLive
  · intro other otherLive notLeader missing
    rw [(outlines other).2.2.2.1]
    exact leads.waiting other otherLive notLeader missing
  · intro other member notLeader
    obtain ⟨role, term, leaderId, log, _⟩ := outlines other
    obtain ⟨held, follows⟩ := leads.following other member notLeader
    exact ⟨log.trans held, term.trans follows.term, role.trans follows.role,
      leaderId.trans follows.leaderId⟩
  · intro other either
    rw [(outlines leader).2.2.2.2]
    exact leads.matched other either

variable (anchored : Net.AnchoredReachable n start) (quorum : IsQuorum n live)
  (isLeader : leader ∈ live)

include anchored quorum isLeader

theorem commit (leads : Leads n start live leader now final live.toList net)
    (ownEntry : Log.termOf final final.length = some now) :
    ∃ later, Leads n start live leader now final live.toList later ∧
      (later.nodes leader).commitIdx = final.length := by
  obtain ⟨history, invariant⟩ :=
    Net.safetyInvariant_of_anchoredReachable (anchored.trans leads.walked)
  have inside := (invariant.committed leader).le_length
  rw [leads.log] at inside
  rcases Nat.lt_or_eq_of_le inside with behind | done
  · have replicated : (net.nodes leader).quorum ≤ (net.nodes leader).replicas final.length := by
      have counted : live ⊆
          (net.nodes leader).matchIdx.keysWhere (fun held => final.length ≤ held) := by
        intro id member
        rw [SortedMap.mem_keysWhere]
        exact ⟨final.length, leads.matched id (Or.inl (Finset.mem_toList.mpr member)),
          decide_eq_true (Nat.le_refl _)⟩
      calc
        (net.nodes leader).quorum = n / 2 + 1 := invariant.matching.elections.quorum_eq leader
        _ ≤ live.card := quorum.2
        _ ≤ ((net.nodes leader).matchIdx.keysWhere (fun held => final.length ≤ held)).card :=
          Finset.card_le_card counted
        _ = (net.nodes leader).replicas final.length := SortedMap.card_keysWhere _ _
    have advanced := (net.nodes leader).advanceCommit_last leads.role
      (by rw [leads.log]; exact behind) (by rw [leads.log, leads.term]; exact ownEntry)
      (by rw [leads.log]; exact replicated)
    refine ⟨net.setNode leader (net.nodes leader).advanceCommit,
      leads.keep isLeader (Net.Steps.one (.advanceCommit leader) trivial
        (if_pos (Finset.mem_range.mp (quorum.1 isLeader)))) rfl ?_, ?_⟩
    · rw [advanced]
      rfl
    · rw [Net.setNode_nodes_self, advanced, leads.log]
  · exact ⟨net, leads, done⟩

theorem apply (leads : Leads n start live leader now final live.toList net)
    (committed : (net.nodes leader).commitIdx = final.length) (isLive : id ∈ live) :
    ∃ later, Leads n start live leader now final live.toList later ∧
      (later.nodes leader).commitIdx = final.length ∧ (later.nodes id).applied = final.length ∧
      ∀ other, other ≠ id → later.nodes other = net.nodes other := by
  obtain ⟨history, invariant⟩ :=
    Net.safetyInvariant_of_anchoredReachable (anchored.trans leads.walked)
  have followed (different : id ≠ leader) :=
    leads.following id (Finset.mem_toList.mpr isLive) different
  have held : (net.nodes id).log = final := by
    by_cases same : id = leader
    · rw [same, leads.log]
    · exact (followed same).1
  obtain ⟨later, stepped, nodes⟩ := @Net.apply_steps n net leader id final.length
    (Finset.mem_range.mp (quorum.1 isLeader)) (Finset.mem_range.mp (quorum.1 isLive)) leads.role
    committed (Nat.le_of_eq (congrArg List.length leads.log.symm)) (by rw [held, leads.log])
    (fun _ different => leads.term.symm ▸ (followed different).2)
  have applied : ((net.nodes id).applyThrough final.length).applied = final.length := by
    obtain ⟨order, current⟩ := invariant.appliedState id
    have bound := (invariant.committed id).le_length
    rw [held] at bound
    have reached : (net.nodes id).applied ≤ (net.nodes id).log.length := by
      rw [held]
      exact order.trans bound
    have result := Node.applyCommitted_eq
      { net.nodes id with commitIdx := max (net.nodes id).commitIdx final.length } reached current
      (order.trans (Nat.le_max_left _ _))
    refine (congrArg Node.applied result).trans ?_
    change min (max (net.nodes id).commitIdx final.length) (net.nodes id).log.length = final.length
    rw [held, Nat.max_eq_right bound, Nat.min_self]
  refine ⟨later, leads.keep isLive stepped nodes rfl, ?_, ?_, ?_⟩
  · by_cases same : leader = id
    · rw [nodes, ← same, Function.update_self]
      change max (net.nodes leader).commitIdx final.length = final.length
      rw [committed, Nat.max_self]
    · rw [nodes, Function.update_of_ne same, committed]
  · rw [nodes, Function.update_self, applied]
  · intro other different
    rw [nodes, Function.update_of_ne different]

theorem apply_all (leads : Leads n start live leader now final live.toList net)
    (committed : (net.nodes leader).commitIdx = final.length) :
    ∃ later, Leads n start live leader now final live.toList later ∧
      ∀ id ∈ live, (later.nodes id).applied = final.length := by
  let holds (visited : List NodeId) (net : Net) : Prop :=
    Leads n start live leader now final live.toList net ∧
      (net.nodes leader).commitIdx = final.length ∧
      ∀ id ∈ visited, (net.nodes id).applied = final.length
  have begin : holds [] net :=
    ⟨leads, committed, fun _ impossible => absurd impossible List.not_mem_nil⟩
  obtain ⟨later, leads, _, applied⟩ := @exists_visited_all _ _ holds _ live.nodup_toList
    (by
      rintro visited id now member _ ⟨leads, committed, applied⟩
      obtain ⟨later, kept, stillCommitted, here, others⟩ :=
        leads.apply anchored quorum isLeader committed (Finset.mem_toList.mp member)
      refine ⟨later, kept, stillCommitted, fun other visitedOrHere => ?_⟩
      by_cases same : other = id
      · rw [same, here]
      · rw [others other same]
        exact applied other ((List.mem_append.mp visitedOrHere).resolve_right
          fun last => same (List.mem_singleton.mp last))) net begin
  exact ⟨later, leads, fun id member => applied id (Finset.mem_toList.mpr member)⟩

end Leads

/-! ### The whole continuation -/

theorem exists_upToDate (net : Net) {live : Finset NodeId} (someone : live.Nonempty) :
    ∃ cand ∈ live, ∀ id ∈ live, (net.nodes id).upToDate (Log.lastIndex (net.nodes cand).log)
      (Log.lastTerm (net.nodes cand).log) = true := by
  obtain ⟨cand, member, top⟩ := Finset.exists_max_image live
    (fun id => toLex (Log.lastTerm (net.nodes id).log, Log.lastIndex (net.nodes id).log)) someone
  refine ⟨cand, member, fun id isLive => ?_⟩
  have below := Prod.Lex.toLex_le_toLex.mp (top id isLive)
  simp only [Node.upToDate, Bool.or_eq_true, decide_eq_true_eq, Bool.and_eq_true, beq_iff_eq]
  omega

theorem Leads.begin {n : Nat} {start won : Net} {live : Finset NodeId} {leader : NodeId}
    {now : Nat} (elections : Net.ElectionInvariant n won) (quorum : IsQuorum n live)
    (isLeader : leader ∈ live) (walked : Net.Steps n start won)
    (silent : ∀ id, id ∉ live → won.nodes id = start.nodes id)
    (settled : ∀ id ∈ live, (won.nodes id).log = (start.nodes id).log ∧
      (won.nodes id).term = now)
    (leads : (won.nodes leader).role = .leader) (cmd : Op) :
    ∃ net, Leads n start live leader now
      ((start.nodes leader).log ++ [{ selfTerm := now, cmd := cmd }]) [] net := by
  let node : Node :=
    { won.nodes leader with
      log := (won.nodes leader).log ++ [{ selfTerm := (won.nodes leader).term, cmd := cmd }]
      matchIdx := (won.nodes leader).matchIdx.insert (won.nodes leader).id
        (Log.lastIndex (won.nodes leader).log + 1) }
  have proposed : (won.nodes leader).propose cmd =
      some (node, Log.lastIndex (won.nodes leader).log + 1) := if_pos leads
  have step : Net.Steps n won (won.setNode leader node) := by
    refine Net.Steps.one (.propose leader cmd) trivial ?_
    change (if leader < n then _ else none) = _
    rw [if_pos (Finset.mem_range.mp (quorum.1 isLeader)), proposed]
    rfl
  obtain ⟨log, term⟩ := settled leader isLeader
  have away (id : NodeId) (different : id ≠ leader) :
      (won.setNode leader node).nodes id = won.nodes id :=
    Net.setNode_nodes_other _ _ _ _ different
  refine ⟨won.setNode leader node, walked.trans step, ?_, ?_, ?_, ?_, ?_, ?_, ?_, ?_⟩
  · intro id quiet
    rw [away id (fun same => quiet (same ▸ isLeader)), silent id quiet]
  · rw [Net.setNode_nodes_self]
    exact leads
  · rw [Net.setNode_nodes_self]
    exact term
  · rw [Net.setNode_nodes_self, ← log, ← term]
  · intro id isLive
    by_cases same : id = leader
    · rw [same, Net.setNode_nodes_self]
      exact Nat.le_of_eq term
    · rw [away id same]
      exact Nat.le_of_eq (settled id isLive).2
  · intro id isLive different _
    rw [away id different, (settled id isLive).1]
  · exact fun id impossible => absurd impossible List.not_mem_nil
  · intro id either
    have same : id = leader := either.resolve_left List.not_mem_nil
    rw [Net.setNode_nodes_self, same]
    change ((won.nodes leader).matchIdx.insert (won.nodes leader).id _).find? leader = _
    rw [elections.identity leader, SortedMap.find?_insert, if_pos rfl, log, List.length_append]
    rfl

/-- From every state the network can reach with anchored appends, any majority can go on
by itself, the other nodes silent: to a leader with a new command at the end of a log
that holds everything committed on any node before, and that all of the majority hold,
commit and apply. -/
theorem majority_carries_on (n : Nat) (net : Net) (reached : Net.AnchoredReachable n net)
    (live : Finset NodeId) (quorum : IsQuorum n live) (cmd : Op) :
    ∃ later leader kept, Relation.ReflTransGen (Net.AnchoredStep n) net later ∧
      leader ∈ live ∧ (later.nodes leader).role = .leader ∧
      (∀ id, id ∉ live → later.nodes id = net.nodes id) ∧
      (∀ id, (net.nodes id).log.take (net.nodes id).commitIdx <+: kept) ∧
      ∀ id ∈ live,
        (later.nodes id).log = kept ++ [{ selfTerm := (later.nodes leader).term, cmd := cmd }] ∧
        (later.nodes id).applied = kept.length + 1 ∧
        (later.nodes id).state = Node.stateOf (later.nodes id).log := by
  have someone : live.Nonempty := Finset.card_pos.mp (Nat.lt_of_lt_of_le (Nat.succ_pos _) quorum.2)
  obtain ⟨history, invariant⟩ := Net.safetyInvariant_of_anchoredReachable reached
  obtain ⟨leader, isLeader, top⟩ := exists_upToDate net someone
  let bound := live.sup (fun id => (net.nodes id).term)
  have below (id : NodeId) (isLive : id ∈ live) : (net.nodes id).term ≤ bound :=
    Finset.le_sup (f := fun id => (net.nodes id).term) isLive
  obtain ⟨won, walked, silent, settled, leads⟩ :=
    Net.win_steps invariant.matching.elections quorum isLeader top below
  obtain ⟨grown, wonInvariant, growth⟩ := invariant.run walked
  let final : Log := (net.nodes leader).log ++ [{ selfTerm := bound + 1, cmd := cmd }]
  obtain ⟨proposed, leading⟩ := Leads.begin wonInvariant.matching.elections quorum isLeader walked
    silent settled leads cmd
  have older (id : NodeId) (isLive : id ∈ live) (entry : LogEntry)
      (inLog : entry ∈ (net.nodes id).log) : entry.selfTerm < bound + 1 :=
    Nat.lt_succ_of_le ((invariant.matching.bounded id entry inLog).trans (below id isLive))
  have newest : ∃ entry ∈ final, entry.selfTerm = bound + 1 :=
    ⟨_, List.mem_append_right _ (List.mem_singleton_self _), rfl⟩
  obtain ⟨copied, leading⟩ := exists_visited_all live.nodup_toList
    (fun member fresh leading => Leads.replicate leading reached quorum isLeader newest older
      (Finset.mem_toList.mp member) fresh) leading
  have ownEntry : Log.termOf final final.length = some (bound + 1) := by
    rw [List.length_append, List.length_singleton, Log.termOf_succ, List.getElem?_concat_length]
    rfl
  obtain ⟨agreed, leading, committed⟩ := leading.commit reached quorum isLeader ownEntry
  obtain ⟨later, leading, applied⟩ := leading.apply_all reached quorum isLeader committed
  obtain ⟨_, laterInvariant⟩ := Net.safetyInvariant_of_anchoredReachable
    (reached.trans leading.walked)
  refine ⟨later, leader, (net.nodes leader).log, leading.walked, isLeader, leading.role,
    leading.silent, fun id => ?_, fun id isLive => ?_⟩
  · have certified := (invariant.committed id).capped invariant quorum below
    have held := wonInvariant.certified_held (growth.certified certified (Nat.le_refl _)) leads
      (by rw [(settled leader isLeader).2]; exact Nat.le_succ bound)
    rw [(settled leader isLeader).1] at held
    exact held
  · have log : (later.nodes id).log = final := by
      by_cases same : id = leader
      · rw [same, leading.log]
      · exact (leading.following id (Finset.mem_toList.mpr isLive) same).1
    refine ⟨by rw [log, leading.term], ?_, ?_⟩
    · rw [applied id isLive, List.length_append, List.length_singleton]
    · have state := (laterInvariant.appliedState id).2
      rw [applied id isLive, ← log, List.take_length] at state
      exact state

theorem majority_carries_on_without_leader :
    ∃ net, (Net.initial 3).anchoredRun 3 (Net.electAndCommit 0 1 1 (.put [1] [2])) = some net ∧
      (net.nodes 0).role = .leader ∧ (net.nodes 0).commitIdx = 1 ∧
      ∃ later leader kept, Relation.ReflTransGen (Net.AnchoredStep 3) net later ∧
        leader ∈ ({1, 2} : Finset NodeId) ∧ (later.nodes leader).role = .leader ∧
        (∀ id, id ∉ ({1, 2} : Finset NodeId) → later.nodes id = net.nodes id) ∧
        (∀ id, (net.nodes id).log.take (net.nodes id).commitIdx <+: kept) ∧
        ∀ id ∈ ({1, 2} : Finset NodeId),
          (later.nodes id).log =
            kept ++ [{ selfTerm := (later.nodes leader).term, cmd := .delete [1] }] ∧
          (later.nodes id).applied = kept.length + 1 ∧
          (later.nodes id).state = Node.stateOf (later.nodes id).log :=
  let net := ((Net.initial 3).anchoredRun 3
    (Net.electAndCommit 0 1 1 (.put [1] [2]))).get (by decide)
  have ran : (Net.initial 3).anchoredRun 3 (Net.electAndCommit 0 1 1 (.put [1] [2])) = some net :=
    (Option.some_get _).symm
  ⟨net, ran, by decide, by decide,
    majority_carries_on 3 net (Net.anchoredSteps_of_run ran)
      {1, 2} ⟨by decide, by decide⟩ (.delete [1])⟩

end Keystory.Raft
