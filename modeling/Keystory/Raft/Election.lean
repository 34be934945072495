/-
Election safety on the asynchronous network.

A grant is backed by the voter's own record: while the voter is still in the
term of the grant, its vote names that candidate. The record survives every
handler, so a voter grants one candidate per term, and two candidates elected in
one term would share a voter.
-/

import Keystory.General.Quorum
import Keystory.Raft.Network

namespace Keystory.Raft

open General

namespace Net

/-- A handler keeps the vote of a term it stays in and never lowers the term. -/
structure VoteKept (before after : Node) : Prop where
  term_le : before.term ≤ after.term
  vote : before.term = after.term → ∀ candidate, before.votedFor = some candidate →
    after.votedFor = some candidate

theorem VoteKept.refl (node : Node) : VoteKept node node :=
  ⟨Nat.le_refl _, fun _ _ voted => voted⟩

theorem VoteKept.of_same {before after : Node} (term : after.term = before.term)
    (vote : after.votedFor = before.votedFor) : VoteKept before after :=
  ⟨Nat.le_of_eq term.symm, fun _ _ voted => vote.trans voted⟩

theorem adoptVoteTerm_voteKept (node : Node) (term : Nat) :
    VoteKept node (node.adoptVoteTerm term) := by
  rcases Node.adoptVoteTerm_role_cases node term with ⟨same, _⟩ | ⟨newer, _, _⟩
  · rw [same]
    exact VoteKept.refl node
  · refine ⟨?_, fun sameTerm => ?_⟩
    · rw [Node.adoptVoteTerm_term]
      exact Nat.le_max_left _ _
    · rw [Node.adoptVoteTerm_term] at sameTerm
      omega

theorem adoptLeader_voteKept {node : Node} (sender : NodeId) {term : Nat}
    (order : node.term ≤ term) : VoteKept node (node.adoptLeader sender term) := by
  refine ⟨?_, fun sameTerm candidate voted => ?_⟩
  · rw [Node.adoptLeader_term sender order]
    exact order
  · rw [Node.adoptLeader_term sender order] at sameTerm
    rw [Node.adoptLeader_votedFor, if_neg (by omega)]
    exact voted

theorem advanceCommit_voteKept (node : Node) : VoteKept node node.advanceCommit := by
  rcases Node.advanceCommit_cases node with same | ⟨index, moved, _⟩
  · rw [same]
    exact VoteKept.refl node
  · rw [moved]
    exact VoteKept.of_same rfl rfl

/-- The five paths on which a vote is set, kept or reset all keep it within a term. -/
theorem effect_voteKept {n : Nat} {before after : Net} {action : Action}
    (effect : Effect n before action after) (id : NodeId) :
    VoteKept (before.nodes id) (after.nodes id) := by
  have update (actor : NodeId) (node : Node) (kept : VoteKept (before.nodes actor) node) :
      VoteKept (before.nodes id) ((before.setNode actor node).nodes id) := by
    by_cases same : id = actor
    · subst same
      rw [setNode_nodes_self]
      exact kept
    · rw [setNode_nodes_other before actor id node same]
      exact VoteKept.refl _
  cases effect with
  | startElection actor bound =>
      refine update actor _ ⟨Nat.le_succ _, fun sameTerm => ?_⟩
      exact absurd sameTerm (Nat.ne_of_lt (Nat.lt_succ_self _))
  | voteDenied request voter sent bound =>
      exact update voter _ (adoptVoteTerm_voteKept _ _)
  | voteGranted request voter sent bound order free eligible =>
      have kept := adoptVoteTerm_voteKept (before.nodes voter) request.term
      refine update voter _ ⟨kept.term_le, fun sameTerm candidate voted => ?_⟩
      have named := free candidate (kept.vote sameTerm candidate voted)
      exact congrArg some named.symm
  | becomeLeader actor bound stands majority =>
      exact update actor _ (VoteKept.of_same rfl rfl)
  | propose actor cmd bound leads =>
      exact update actor _ (VoteKept.of_same rfl rfl)
  | sendAppend actor dest prevIndex count bound destBound different leads =>
      exact VoteKept.refl _
  | appendStale message sent stale =>
      exact VoteKept.refl _
  | appendRejected message sent order anchored differs =>
      have kept := adoptLeader_voteKept message.source order
      exact update message.dest _ ⟨kept.term_le, kept.vote⟩
  | appendAccepted message sent order agrees =>
      have kept := adoptLeader_voteKept message.source order
      exact update message.dest _ ⟨kept.term_le, kept.vote⟩
  | deliverAck ack actor sent bound leads sameTerm =>
      exact update actor _ (VoteKept.of_same rfl rfl)
  | advanceCommit actor bound =>
      exact update actor _ (advanceCommit_voteKept _)
  | applyCommitted actor bound =>
      exact update actor _ (VoteKept.of_same rfl rfl)

theorem mem_voters {n : Nat} {net : Net} {term : Nat} {candidate voter : NodeId} :
    voter ∈ net.voters n term candidate ↔
      voter < n ∧
        { term := term, voter := voter, candidate := candidate : Grant } ∈ net.grants := by
  unfold voters
  rw [Finset.mem_filter, Finset.mem_range]

theorem voters_isQuorum {n : Nat} {net : Net} {term : Nat} {candidate : NodeId}
    (majority : n / 2 + 1 ≤ (net.voters n term candidate).card) :
    IsQuorum n (net.voters n term candidate) :=
  ⟨Finset.filter_subset _ _, majority⟩

structure ElectionInvariant (n : Nat) (net : Net) : Prop where
  identity : ∀ id, (net.nodes id).id = id
  membership : ∀ id, (net.nodes id).peers = IdSet.below n
  grantBacked : ∀ grant ∈ net.grants, grant.voter < n ∧
    grant.term ≤ (net.nodes grant.voter).term ∧
    (grant.term = (net.nodes grant.voter).term →
      (net.nodes grant.voter).votedFor = some grant.candidate)
  oneVote : ∀ first ∈ net.grants, ∀ second ∈ net.grants, first.term = second.term →
    first.voter = second.voter → first.candidate = second.candidate
  won : ∀ term id, (term, id) ∈ net.elected → id < n ∧ 1 ≤ term ∧ term ≤ (net.nodes id).term ∧
    n / 2 + 1 ≤ (net.voters n term id).card
  leads : ∀ id, (net.nodes id).role = .leader → ((net.nodes id).term, id) ∈ net.elected
  candidateFresh : ∀ id, (net.nodes id).role = .candidate →
    1 ≤ (net.nodes id).term ∧ ((net.nodes id).term, id) ∉ net.elected

namespace ElectionInvariant

variable {n : Nat}

theorem initial : ElectionInvariant n (Net.initial n) where
  identity := fun _ => rfl
  membership := fun _ => rfl
  grantBacked := fun _ member => by cases member
  oneVote := fun _ member => by cases member
  won := fun _ _ member => by cases member
  leads := fun _ impossible => by cases impossible
  candidateFresh := fun _ impossible => by cases impossible

theorem elected_unique {net : Net} (invariant : ElectionInvariant n net) {term : Nat}
    {left right : NodeId} (leftElected : (term, left) ∈ net.elected)
    (rightElected : (term, right) ∈ net.elected) : left = right := by
  obtain ⟨_, _, _, leftMajority⟩ := invariant.won term left leftElected
  obtain ⟨_, _, _, rightMajority⟩ := invariant.won term right rightElected
  obtain ⟨voter, inLeft, inRight⟩ :=
    (voters_isQuorum leftMajority).intersect (voters_isQuorum rightMajority)
  exact invariant.oneVote _ (mem_voters.mp inLeft).2 _ (mem_voters.mp inRight).2 rfl rfl

theorem update {before after : Net} (invariant : ElectionInvariant n before) (id : NodeId)
    (node : Node) (nodes : after.nodes = (before.setNode id node).nodes)
    (grants : after.grants = before.grants) (elected : after.elected = before.elected)
    (identity : node.id = (before.nodes id).id) (peers : node.peers = (before.nodes id).peers)
    (kept : VoteKept (before.nodes id) node)
    (leads : node.role = .leader → (node.term, id) ∈ before.elected)
    (fresh : node.role = .candidate → 1 ≤ node.term ∧ (node.term, id) ∉ before.elected) :
    ElectionInvariant n after := by
  have atId : after.nodes id = node := by rw [nodes, setNode_nodes_self]
  have atOther (other : NodeId) (different : other ≠ id) :
      after.nodes other = before.nodes other := by
    rw [nodes, setNode_nodes_other before id other node different]
  have keptAll (other : NodeId) : VoteKept (before.nodes other) (after.nodes other) := by
    by_cases same : other = id
    · subst same
      rw [atId]
      exact kept
    · rw [atOther other same]
      exact VoteKept.refl _
  constructor
  · intro other
    by_cases same : other = id
    · subst same
      rw [atId, identity, invariant.identity]
    · rw [atOther other same, invariant.identity]
  · intro other
    by_cases same : other = id
    · subst same
      rw [atId, peers, invariant.membership]
    · rw [atOther other same, invariant.membership]
  · intro grant member
    rw [grants] at member
    obtain ⟨bound, order, voted⟩ := invariant.grantBacked grant member
    have keptHere := keptAll grant.voter
    refine ⟨bound, Nat.le_trans order keptHere.term_le, fun current => ?_⟩
    have unchanged : (before.nodes grant.voter).term = (after.nodes grant.voter).term :=
      Nat.le_antisymm keptHere.term_le (current ▸ order)
    exact keptHere.vote unchanged _ (voted (current.trans unchanged.symm))
  · rw [grants]
    exact invariant.oneVote
  · intro term other member
    rw [elected] at member
    obtain ⟨bound, positive, order, majority⟩ := invariant.won term other member
    refine ⟨bound, positive, Nat.le_trans order (keptAll other).term_le, ?_⟩
    simpa only [voters, grants] using majority
  · intro other isLeader
    rw [elected]
    by_cases same : other = id
    · subst same
      rw [atId] at isLeader ⊢
      exact leads isLeader
    · rw [atOther other same] at isLeader ⊢
      exact invariant.leads other isLeader
  · intro other stands
    rw [elected]
    by_cases same : other = id
    · subst same
      rw [atId] at stands ⊢
      exact fresh stands
    · rw [atOther other same] at stands ⊢
      exact invariant.candidateFresh other stands

theorem addGrant {before after : Net} (invariant : ElectionInvariant n before) (grant : Grant)
    (nodes : after.nodes = before.nodes) (grants : after.grants = grant :: before.grants)
    (elected : after.elected = before.elected) (bound : grant.voter < n)
    (current : grant.term = (before.nodes grant.voter).term)
    (voted : (before.nodes grant.voter).votedFor = some grant.candidate) :
    ElectionInvariant n after := by
  have sameCandidate (other : Grant) (member : other ∈ before.grants)
      (term : other.term = grant.term) (voter : other.voter = grant.voter) :
      other.candidate = grant.candidate := by
    obtain ⟨_, _, backed⟩ := invariant.grantBacked other member
    rw [voter] at backed
    have named := backed (term.trans current)
    rw [voted] at named
    exact (Option.some.inj named).symm
  constructor
  · rw [nodes]
    exact invariant.identity
  · rw [nodes]
    exact invariant.membership
  · intro other member
    rw [grants, List.mem_cons] at member
    rw [nodes]
    rcases member with same | old
    · subst same
      exact ⟨bound, Nat.le_of_eq current, fun _ => voted⟩
    · exact invariant.grantBacked other old
  · intro first firstMember second secondMember term voter
    rw [grants, List.mem_cons] at firstMember secondMember
    rcases firstMember with firstNew | firstOld
    · rcases secondMember with secondNew | secondOld
      · rw [firstNew, secondNew]
      · subst firstNew
        exact (sameCandidate second secondOld term.symm voter.symm).symm
    · rcases secondMember with secondNew | secondOld
      · subst secondNew
        exact sameCandidate first firstOld term voter
      · exact invariant.oneVote first firstOld second secondOld term voter
  · intro term id member
    rw [elected] at member
    obtain ⟨bound, positive, order, majority⟩ := invariant.won term id member
    rw [nodes]
    refine ⟨bound, positive, order, Nat.le_trans majority (Finset.card_le_card ?_)⟩
    intro voter inVoters
    obtain ⟨voterBound, granted⟩ := mem_voters.mp inVoters
    exact mem_voters.mpr ⟨voterBound, by rw [grants]; exact List.mem_cons_of_mem _ granted⟩
  · rw [nodes, elected]
    exact invariant.leads
  · rw [nodes, elected]
    exact invariant.candidateFresh

theorem next_term_fresh {net : Net} (invariant : ElectionInvariant n net) (id : NodeId) :
    ((net.nodes id).term + 1, id) ∉ net.elected := by
  intro member
  obtain ⟨_, _, order, _⟩ := invariant.won _ id member
  omega

theorem quorum_eq {net : Net} (invariant : ElectionInvariant n net) (id : NodeId) :
    (net.nodes id).quorum = n / 2 + 1 := by
  unfold Node.quorum
  rw [invariant.membership]
  simp only [IdSet.below, SortedMap.size, List.length_map, List.length_range]

theorem startElection {before : Net} (invariant : ElectionInvariant n before) (id : NodeId)
    (bound : id < n) : ElectionInvariant n (before.startElection id) := by
  have moved : ElectionInvariant n (before.setNode id (before.nodes id).startElection) := by
    refine invariant.update id _ rfl rfl rfl rfl rfl ?_ (fun impossible => by cases impossible)
      (fun _ => ⟨Nat.le_add_left 1 _, invariant.next_term_fresh id⟩)
    refine ⟨Nat.le_succ _, fun sameTerm => ?_⟩
    exact absurd sameTerm (Nat.ne_of_lt (Nat.lt_succ_self _))
  refine moved.addGrant
    { term := (before.nodes id).startElection.term, voter := id, candidate := id }
    rfl rfl rfl bound ?_ ?_
  · rw [setNode_nodes_self]
  · rw [setNode_nodes_self]
    exact congrArg some (invariant.identity id)

theorem adoptVoteTerm {before : Net} (invariant : ElectionInvariant n before) (voter : NodeId)
    (term : Nat) :
    ElectionInvariant n (before.setNode voter ((before.nodes voter).adoptVoteTerm term)) := by
  rcases Node.adoptVoteTerm_role_cases (before.nodes voter) term with
    ⟨same, _⟩ | ⟨_, follows, _⟩
  · rw [same, setNode_self]
    exact invariant
  · refine invariant.update voter _ rfl rfl rfl (Node.adoptVoteTerm_id _ _)
      (Node.adoptVoteTerm_peers _ _) (adoptVoteTerm_voteKept _ _) ?_ ?_
    · intro isLeader
      rw [follows] at isLeader
      cases isLeader
    · intro stands
      rw [follows] at stands
      cases stands

theorem grantVote {before : Net} (invariant : ElectionInvariant n before) (voter : NodeId)
    (request : VoteRequest) (bound : voter < n)
    (order : (before.nodes voter).term ≤ request.term)
    (free : ∀ vote, ((before.nodes voter).adoptVoteTerm request.term).votedFor = some vote →
      vote = request.candidate) :
    ElectionInvariant n
      { before.setNode voter { (before.nodes voter).adoptVoteTerm request.term with
          votedFor := some request.candidate } with
        grants := { term := request.term
                    voter := voter
                    candidate := request.candidate } :: before.grants } := by
  let adopted := (before.nodes voter).adoptVoteTerm request.term
  have adoptedInvariant := invariant.adoptVoteTerm voter request.term
  have voted : ElectionInvariant n
      (before.setNode voter { adopted with votedFor := some request.candidate }) := by
    refine adoptedInvariant.update voter { adopted with votedFor := some request.candidate }
      ?_ rfl rfl ?_ ?_ ?_ ?_ ?_
    · simp only [setNode, Function.update_idem]
    · rw [setNode_nodes_self]
    · rw [setNode_nodes_self]
    · rw [setNode_nodes_self]
      exact ⟨Nat.le_refl _, fun _ candidate named => congrArg some (free candidate named).symm⟩
    · intro isLeader
      have leads := adoptedInvariant.leads voter
      rw [setNode_nodes_self] at leads
      exact leads isLeader
    · intro stands
      have fresh := adoptedInvariant.candidateFresh voter
      rw [setNode_nodes_self] at fresh
      exact fresh stands
  refine voted.addGrant
    { term := request.term, voter := voter, candidate := request.candidate }
    rfl rfl rfl bound ?_ ?_
  · rw [setNode_nodes_self]
    change request.term = ((before.nodes voter).adoptVoteTerm request.term).term
    rw [Node.adoptVoteTerm_term]
    exact (Nat.max_eq_right order).symm
  · rw [setNode_nodes_self]

theorem becomeLeader {before : Net} (invariant : ElectionInvariant n before) (id : NodeId)
    (bound : id < n) (stands : (before.nodes id).role = .candidate)
    (majority : (before.nodes id).quorum ≤ (before.voters n (before.nodes id).term id).card) :
    ElectionInvariant n (before.becomeLeader id) := by
  rw [invariant.quorum_eq] at majority
  obtain ⟨positive, _⟩ := invariant.candidateFresh id stands
  -- the promotion is recorded first, with the node still standing aside as a follower
  let aside : Node := { (before.nodes id).becomeLeader with role := .follower }
  have asideInvariant : ElectionInvariant n (before.setNode id aside) :=
    invariant.update id aside rfl rfl rfl rfl rfl (VoteKept.of_same rfl rfl)
      (fun impossible => by cases impossible) (fun impossible => by cases impossible)
  have recorded : ElectionInvariant n
      { before.setNode id aside with
        elected := ((before.nodes id).term, id) :: before.elected } := by
    constructor
    · exact asideInvariant.identity
    · exact asideInvariant.membership
    · exact asideInvariant.grantBacked
    · exact asideInvariant.oneVote
    · intro term other member
      rcases List.mem_cons.mp member with same | old
      · cases same
        refine ⟨bound, positive, ?_, majority⟩
        change (before.nodes id).term ≤ ((before.setNode id aside).nodes id).term
        rw [setNode_nodes_self]
        exact Nat.le_refl _
      · exact asideInvariant.won term other old
    · intro other isLeader
      exact List.mem_cons_of_mem _ (asideInvariant.leads other isLeader)
    · intro other otherStands
      obtain ⟨otherPositive, fresh⟩ := asideInvariant.candidateFresh other otherStands
      refine ⟨otherPositive, fun member => ?_⟩
      rcases List.mem_cons.mp member with same | old
      · have sameId : other = id := congrArg Prod.snd same
        subst sameId
        change ((before.setNode other aside).nodes other).role = .candidate at otherStands
        rw [setNode_nodes_self] at otherStands
        cases otherStands
      · exact fresh old
  refine recorded.update id (before.nodes id).becomeLeader ?_ rfl rfl ?_ ?_ ?_ ?_ ?_
  · simp only [Net.becomeLeader, setNode, Function.update_idem]
  · change _ = ((before.setNode id aside).nodes id).id
    rw [setNode_nodes_self]
  · change _ = ((before.setNode id aside).nodes id).peers
    rw [setNode_nodes_self]
  · change VoteKept ((before.setNode id aside).nodes id) _
    rw [setNode_nodes_self]
    exact VoteKept.of_same rfl rfl
  · intro _
    exact List.mem_cons_self
  · intro impossible
    cases impossible

theorem inert {before after : Net} (invariant : ElectionInvariant n before) (id : NodeId)
    (node : Node) (nodes : after.nodes = (before.setNode id node).nodes)
    (grants : after.grants = before.grants) (elected : after.elected = before.elected)
    (identity : node.id = (before.nodes id).id) (peers : node.peers = (before.nodes id).peers)
    (term : node.term = (before.nodes id).term)
    (vote : node.votedFor = (before.nodes id).votedFor)
    (role : node.role = (before.nodes id).role) : ElectionInvariant n after := by
  refine invariant.update id node nodes grants elected identity peers
    (VoteKept.of_same term vote) ?_ ?_
  · intro isLeader
    rw [term]
    exact invariant.leads id (role ▸ isLeader)
  · intro stands
    rw [term]
    exact invariant.candidateFresh id (role ▸ stands)

theorem follow {before after : Net} (invariant : ElectionInvariant n before) (id : NodeId)
    (node : Node) (nodes : after.nodes = (before.setNode id node).nodes)
    (grants : after.grants = before.grants) (elected : after.elected = before.elected)
    (identity : node.id = (before.nodes id).id) (peers : node.peers = (before.nodes id).peers)
    (kept : VoteKept (before.nodes id) node) (follows : node.role = .follower) :
    ElectionInvariant n after := by
  refine invariant.update id node nodes grants elected identity peers kept ?_ ?_
  · intro isLeader
    rw [follows] at isLeader
    cases isLeader
  · intro stands
    rw [follows] at stands
    cases stands

theorem step {before after : Net} {action : Action} (invariant : ElectionInvariant n before)
    (effect : Effect n before action after) : ElectionInvariant n after := by
  cases effect with
  | startElection id bound => exact invariant.startElection id bound
  | voteDenied request voter sent bound => exact invariant.adoptVoteTerm voter request.term
  | voteGranted request voter sent bound order free eligible =>
      exact invariant.grantVote voter request bound order free
  | becomeLeader id bound stands majority =>
      exact invariant.becomeLeader id bound stands majority
  | propose id cmd bound leads =>
      exact invariant.inert id _ rfl rfl rfl rfl rfl rfl rfl rfl
  | sendAppend id dest prevIndex count bound destBound different leads =>
      exact invariant.inert id (before.nodes id) (by rw [setNode_self]) rfl rfl rfl rfl rfl rfl rfl
  | appendStale message sent stale => exact invariant
  | appendRejected message sent order anchored differs =>
      have kept := adoptLeader_voteKept message.source order
      exact invariant.follow message.dest _ rfl rfl rfl (Node.adoptLeader_id _ _ _)
        (Node.adoptLeader_peers _ _ _) ⟨kept.term_le, kept.vote⟩ (Node.adoptLeader_role _ _ _)
  | appendAccepted message sent order agrees =>
      have kept := adoptLeader_voteKept message.source order
      exact invariant.follow message.dest _ rfl rfl rfl (Node.adoptLeader_id _ _ _)
        (Node.adoptLeader_peers _ _ _) ⟨kept.term_le, kept.vote⟩ (Node.adoptLeader_role _ _ _)
  | deliverAck ack id sent bound leads sameTerm =>
      exact invariant.inert id _ rfl rfl rfl rfl rfl rfl rfl rfl
  | advanceCommit id bound =>
      rcases Node.advanceCommit_cases (before.nodes id) with same | ⟨index, moved, _⟩
      · rw [same, setNode_self]
        exact invariant
      · rw [moved]
        exact invariant.inert id _ rfl rfl rfl rfl rfl rfl rfl rfl
  | applyCommitted id bound =>
      exact invariant.inert id _ rfl rfl rfl rfl rfl rfl rfl rfl

end ElectionInvariant

theorem electionInvariant_of_reachable {n : Nat} {net : Net} (reached : Reachable n net) :
    ElectionInvariant n net := by
  induction reached with
  | refl => exact ElectionInvariant.initial
  | tail _ last ih =>
      obtain ⟨action, taken⟩ := last
      exact ih.step (step_effect taken)

theorem term_mono_of_steps {n : Nat} {before after : Net}
    (steps : Relation.ReflTransGen (Step n) before after) (id : NodeId) :
    (before.nodes id).term ≤ (after.nodes id).term := by
  induction steps with
  | refl => exact Nat.le_refl _
  | tail _ last ih =>
      obtain ⟨action, taken⟩ := last
      exact Nat.le_trans ih (effect_voteKept (step_effect taken) id).term_le

/-- Along every run: one leader ever per term (with every current leader on
record), one candidate granted per voter and term, and terms that never go back. -/
theorem election_safety (n : Nat) (net : Net) (reached : Reachable n net) :
    (∀ term left right, (term, left) ∈ net.elected → (term, right) ∈ net.elected →
      left = right) ∧
    (∀ id, (net.nodes id).role = .leader → ((net.nodes id).term, id) ∈ net.elected) ∧
    (∀ first ∈ net.grants, ∀ second ∈ net.grants, first.term = second.term →
      first.voter = second.voter → first.candidate = second.candidate) ∧
    (∀ later, Relation.ReflTransGen (Step n) net later → ∀ id,
      (net.nodes id).term ≤ (later.nodes id).term) := by
  have invariant := electionInvariant_of_reachable reached
  refine ⟨?_, invariant.leads, invariant.oneVote, ?_⟩
  · intro term left right leftElected rightElected
    exact invariant.elected_unique leftElected rightElected
  · intro later steps id
    exact term_mono_of_steps steps id

theorem election_safety_after_first_commit :
    ∃ net, (initial 3).run 3 (electAndCommit 0 1 1 (.put [1] [2])) = some net ∧
      (1, 0) ∈ net.elected ∧
      ∀ term left right, (term, left) ∈ net.elected → (term, right) ∈ net.elected →
        left = right :=
  let actions := electAndCommit 0 1 1 (.put [1] [2])
  ⟨((initial 3).run 3 actions).get (by decide), (Option.some_get _).symm, by decide,
    (election_safety 3 _ (steps_of_run (Option.some_get (by decide)).symm)).1⟩

end Net

end Keystory.Raft
