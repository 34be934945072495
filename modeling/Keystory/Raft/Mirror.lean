/-
The cluster's nodes on the network, and its elections there.

The driver hands a candidate's tip over with term and index exchanged, so a live
node may refuse it a vote that it grants on the network. A node on the network is
therefore compared with the cluster's but for its vote. Every handler other than
the vote request reads no vote, and an election the driver wins is won on the
network too.
-/

import Keystory.General.Simulation
import Keystory.Raft.ClusterInvariant
import Keystory.Raft.Network

namespace Keystory.Raft

open General

/-! ### Nodes but for their votes -/

def Node.voteless (node : Node) : Node := { node with votedFor := none }

namespace Node

theorem voteless_adoptVoteTerm (node : Node) (term : Nat) :
    (node.adoptVoteTerm term).voteless = node.voteless.adoptVoteTerm term := by
  unfold adoptVoteTerm voteless
  split <;> rfl

theorem voteless_requestVote (node : Node) (sender : NodeId) (term lastIndex lastTerm : Nat) :
    (node.requestVote sender term lastIndex lastTerm).1.voteless =
      node.voteless.adoptVoteTerm term := by
  rw [← voteless_adoptVoteTerm]
  rcases node.requestVote_cases sender term lastIndex lastTerm with denied | ⟨_, _, _, granted⟩
  · rw [denied]
  · rw [granted]
    rfl

theorem voteless_adoptLeader (node : Node) (sender : NodeId) (term : Nat) :
    (node.adoptLeader sender term).voteless = node.voteless.adoptLeader sender term := by
  unfold adoptLeader voteless
  split <;> rfl

theorem voteless_appendEntries (node : Node) (sender : NodeId) (term prevIndex prevTerm : Nat)
    (entries : List LogEntry) (leaderCommit : Nat) :
    node.voteless.appendEntries sender term prevIndex prevTerm entries leaderCommit =
      ((node.appendEntries sender term prevIndex prevTerm entries leaderCommit).1.voteless,
        (node.appendEntries sender term prevIndex prevTerm entries leaderCommit).2) := by
  have adopted := node.voteless_adoptLeader sender term
  unfold appendEntries
  by_cases stale : term < node.term
  · rw [if_pos stale, if_pos (show term < node.voteless.term from stale)]
    rfl
  · rw [if_neg stale, if_neg (show ¬term < node.voteless.term from stale)]
    simp only [← adopted]
    by_cases matched : prevIndex = 0 ∨
        Log.termOf (node.adoptLeader sender term).log prevIndex = some prevTerm
    · rw [if_pos matched, if_pos (by exact matched)]
      rfl
    · rw [if_neg matched, if_neg (by exact matched)]
      rfl

theorem voteless_propose (node : Node) (cmd : Op) :
    node.voteless.propose cmd =
      (node.propose cmd).map (fun result => (result.1.voteless, result.2)) := by
  unfold propose
  by_cases leads : node.role = .leader
  · rw [if_pos leads, if_pos (show node.voteless.role = .leader from leads)]
    rfl
  · rw [if_neg leads, if_neg (show ¬node.voteless.role = .leader from leads)]
    rfl

theorem voteless_advanceCommit (node : Node) :
    node.voteless.advanceCommit = node.advanceCommit.voteless := by
  unfold advanceCommit
  by_cases idle : node.role ≠ .leader
  · rw [if_pos idle, if_pos (show node.voteless.role ≠ .leader from idle)]
  · rw [if_neg idle, if_neg (show ¬node.voteless.role ≠ .leader from idle)]
    rfl

end Node

def Mirrors (n : Nat) (g : Inner) (net : Net) : Prop :=
  ∀ id, id < n → (net.nodes id).voteless = (g.nodes id).voteless

namespace Mirrors

variable {n : Nat} {g : Inner} {net : Net}

theorem read (mirrors : Mirrors n g net) {id : NodeId} (bound : id < n) {Field : Type}
    (field : Node → Field) (blind : ∀ node : Node, field node.voteless = field node) :
    field (net.nodes id) = field (g.nodes id) := by
  rw [← blind (net.nodes id), mirrors id bound, blind]

theorem setNode (mirrors : Mirrors n g net) {id : NodeId} {here there : Node}
    (same : there.voteless = here.voteless) {later : Net}
    (nodes : later.nodes = Function.update net.nodes id there) :
    Mirrors n (g.setNode id here) later := by
  intro other bound
  rw [nodes]
  by_cases isId : other = id
  · rw [isId, Function.update_self, Inner.setNode_nodes_self]
    exact same
  · rw [Function.update_of_ne isId, Inner.setNode_nodes_other _ _ _ _ isId]
    exact mirrors other bound

end Mirrors

/-- Runs of the network that anchor every append inside its sender's log. -/
abbrev Net.Steps (n : Nat) : Net → Net → Prop := Relation.ReflTransGen (Net.AnchoredStep n)

theorem Net.Steps.one {n : Nat} {net later : Net} (action : Action) (anchored : net.Anchored action)
    (taken : net.step n action = some later) : Net.Steps n net later :=
  Relation.ReflTransGen.single ⟨action, anchored, taken⟩

/-! ### Elections -/

def VoteRequest.of (candidate : NodeId) (term : Nat) (log : Log) : VoteRequest :=
  { candidate := candidate
    term := term
    lastIndex := Log.lastIndex log
    lastTerm := Log.lastTerm log }

theorem Net.campaign_steps {n : Nat} (net : Net) {id : NodeId} (bound : id < n) (extra : Nat) :
    ∃ later, Net.Steps n net later ∧
      later.nodes = Function.update net.nodes id
        { (net.nodes id).startElection with term := (net.nodes id).term + extra + 1 } ∧
      VoteRequest.of id ((net.nodes id).term + extra + 1) (net.nodes id).log ∈ later.requests ∧
      { term := (net.nodes id).term + extra + 1, voter := id, candidate := id } ∈
        later.grants := by
  induction extra with
  | zero =>
      refine ⟨net.startElection id, Net.Steps.one (.startElection id) trivial (if_pos bound), rfl,
        List.mem_cons_self, List.mem_cons_self⟩
  | succ extra ih =>
      obtain ⟨middle, walked, nodes, _, _⟩ := ih
      have stood : (middle.nodes id).startElection =
          { (net.nodes id).startElection with
            term := (net.nodes id).term + (extra + 1) + 1 } := by
        rw [nodes, Function.update_self]
        rfl
      have again : Net.Steps n middle (middle.startElection id) :=
        Net.Steps.one (.startElection id) trivial (if_pos bound)
      refine ⟨middle.startElection id, walked.trans again, ?_, ?_, ?_⟩
      · change Function.update middle.nodes id (middle.nodes id).startElection = _
        rw [stood, nodes, Function.update_idem]
      · unfold Net.startElection VoteRequest.of
        rw [stood]
        exact List.mem_cons_self
      · unfold Net.startElection
        rw [stood]
        exact List.mem_cons_self

theorem Mirrors.campaign {n : Nat} {g : Inner} {net : Net} (mirrors : Mirrors n g net)
    (size : g.size = n) {cand : NodeId} (bound : cand < n) :
    ∃ later, Net.Steps n net later ∧ Mirrors n (g.campaign cand) later ∧
      VoteRequest.of cand (g.maxTerm + 1) (g.nodes cand).log ∈ later.requests ∧
      { term := g.maxTerm + 1, voter := cand, candidate := cand } ∈ later.grants := by
  have term := mirrors.read bound Node.term fun _ => rfl
  have log := mirrors.read bound Node.log fun _ => rfl
  have below := g.term_le_maxTerm (size.symm ▸ bound)
  obtain ⟨later, walked, nodes, sent, granted⟩ :=
    net.campaign_steps bound (g.maxTerm - (net.nodes cand).term)
  rw [show (net.nodes cand).term + (g.maxTerm - (net.nodes cand).term) + 1 = g.maxTerm + 1 by
    omega] at nodes sent granted
  rw [log] at sent
  refine ⟨later, walked, mirrors.setNode ?_ nodes, sent, granted⟩
  have same := mirrors cand bound
  calc
    ({ (net.nodes cand).startElection with term := g.maxTerm + 1 } : Node).voteless =
        ({ (net.nodes cand).voteless.startElection with term := g.maxTerm + 1 } : Node).voteless :=
      rfl
    _ = ({ (g.nodes cand).startElection with term := g.maxTerm + 1 } : Node).voteless := by
      rw [same]
      rfl

theorem Net.deliverVote_grants {net : Net} {request : VoteRequest} {voter : NodeId}
    (newer : (net.nodes voter).term < request.term)
    (eligible : (net.nodes voter).upToDate request.lastIndex request.lastTerm = true) :
    { term := request.term, voter := voter, candidate := request.candidate } ∈
      (net.deliverVote request voter).grants := by
  have granted := Node.requestVote_of_newer request.candidate request.lastIndex request.lastTerm
    newer
  unfold Net.deliverVote
  dsimp only
  rw [granted, eligible, if_pos rfl]
  exact List.mem_cons_self

theorem Net.deliverVote_keeps {net : Net} {request : VoteRequest} {voter : NodeId} :
    net.grants ⊆ (net.deliverVote request voter).grants := by
  unfold Net.deliverVote
  dsimp only
  split
  · exact List.subset_cons_self _ _
  · exact fun _ member => member

/-- Every node the driver asks for its vote is sent the candidate's request. On the
network it grants it, whatever it answers the driver. -/
theorem Mirrors.poll {n : Nat} {request : VoteRequest} (candTip : Nat × Nat) (ids : List NodeId)
    (distinct : ids.Nodup) (inside : ∀ id ∈ ids, id < n) {tally : Inner × Nat} {net : Net}
    (mirrors : Mirrors n tally.1 net) (sent : request ∈ net.requests)
    (newer : ∀ id ∈ ids, id ≠ request.candidate → (tally.1.nodes id).term < request.term)
    (eligible : ∀ id ∈ ids, id ≠ request.candidate →
      (tally.1.nodes id).upToDate request.lastIndex request.lastTerm = true) :
    ∃ later, Net.Steps n net later ∧
      Mirrors n (ids.foldl (Inner.askVote request.candidate request.term candTip) tally).1 later ∧
      net.grants ⊆ later.grants ∧
      ∀ id ∈ ids, id ≠ request.candidate →
        { term := request.term, voter := id, candidate := request.candidate } ∈ later.grants := by
  induction ids generalizing tally net with
  | nil =>
      exact ⟨net, Relation.ReflTransGen.refl, mirrors, fun _ member => member,
        fun _ member => absurd member List.not_mem_nil⟩
  | cons voter rest ih =>
      obtain ⟨unasked, restDistinct⟩ := List.nodup_cons.mp distinct
      have restInside := fun id member => inside id (List.mem_cons_of_mem voter member)
      have bound := inside voter List.mem_cons_self
      rw [List.foldl_cons]
      by_cases isCandidate : voter = request.candidate
      · rw [show Inner.askVote request.candidate request.term candTip tally voter = tally from
          if_pos isCandidate]
        obtain ⟨later, walked, mirrored, grown, granted⟩ := ih restDistinct restInside mirrors sent
          (fun id member => newer id (List.mem_cons_of_mem voter member))
          (fun id member => eligible id (List.mem_cons_of_mem voter member))
        refine ⟨later, walked, mirrored, grown, ?_⟩
        intro id member different
        refine granted id ((List.mem_cons.mp member).resolve_left ?_) different
        exact fun same => different (same.trans isCandidate)
      · let reply := (tally.1.nodes voter).requestVote request.candidate request.term candTip.1
          candTip.2
        have asked : Inner.askVote request.candidate request.term candTip tally voter =
            (tally.1.setNode voter reply.1, if reply.2 then tally.2 + 1 else tally.2) :=
          if_neg isCandidate
        have others (id : NodeId) (member : id ∈ rest) :
            (tally.1.setNode voter reply.1).nodes id = tally.1.nodes id :=
          Inner.setNode_nodes_other _ _ _ _ fun same => unasked (same ▸ member)
        have term := mirrors.read bound Node.term fun _ => rfl
        have tip := mirrors.read bound
          (fun node => node.upToDate request.lastIndex request.lastTerm) fun _ => rfl
        have voted := Net.deliverVote_grants
          (term ▸ newer voter List.mem_cons_self isCandidate)
          (tip.trans (eligible voter List.mem_cons_self isCandidate))
        have step : Net.Steps n net (net.deliverVote request voter) :=
          Net.Steps.one (.deliverVote request voter) trivial (if_pos ⟨sent, bound⟩)
        have mirrored : Mirrors n (tally.1.setNode voter reply.1)
            (net.deliverVote request voter) := by
          refine mirrors.setNode ?_ rfl
          rw [Node.voteless_requestVote, Node.voteless_requestVote, mirrors voter bound]
        have stillNewer : ∀ id ∈ rest, id ≠ request.candidate →
            ((tally.1.setNode voter reply.1).nodes id).term < request.term := by
          intro id member different
          rw [others id member]
          exact newer id (List.mem_cons_of_mem voter member) different
        have stillEligible : ∀ id ∈ rest, id ≠ request.candidate →
            ((tally.1.setNode voter reply.1).nodes id).upToDate request.lastIndex
              request.lastTerm = true := by
          intro id member different
          rw [others id member]
          exact eligible id (List.mem_cons_of_mem voter member) different
        rw [asked]
        obtain ⟨later, walked, atLater, grown, granted⟩ := @ih restDistinct restInside
          (tally.1.setNode voter reply.1, _) _ mirrored sent stillNewer stillEligible
        refine ⟨later, step.trans walked, atLater,
          fun grant member => grown (Net.deliverVote_keeps member), ?_⟩
        intro id member different
        rcases List.mem_cons.mp member with rfl | inRest
        · exact grown voted
        · exact granted id inRest different

theorem upToDate_of_tipBelow {node : Node} {log : Log}
    (top : Inner.tipBelow (Inner.tip log) (Inner.tip node.log) = false) :
    node.upToDate (Log.lastIndex log) (Log.lastTerm log) = true := by
  rw [Bool.eq_false_iff, ne_eq, Inner.tipBelow_iff] at top
  unfold Inner.tip at top
  simp only [Node.upToDate, Bool.or_eq_true, decide_eq_true_eq, Bool.and_eq_true, beq_iff_eq]
  omega

theorem Mirrors.election {n : Nat} {g : Inner} {net : Net} (mirrors : Mirrors n g net)
    (size : g.size = n) {cand : NodeId} (isLive : cand ∈ g.live)
    (top : ∀ id ∈ g.live,
      Inner.tipBelow (Inner.tip (g.nodes cand).log) (Inner.tip (g.nodes id).log) = false) :
    ∃ later, Net.Steps n net later ∧ Mirrors n (g.poll cand).1 later ∧
      ∀ id ∈ g.live,
        { term := g.maxTerm + 1, voter := id, candidate := cand } ∈ later.grants := by
  have inside (id : NodeId) (live : id ∈ g.live) : id < n := size ▸ (Inner.mem_live.mp live).1
  have atOther (id : NodeId) (different : id ≠ cand) : (g.campaign cand).nodes id = g.nodes id :=
    Inner.setNode_nodes_other _ _ _ _ different
  let request := VoteRequest.of cand (g.maxTerm + 1) (g.nodes cand).log
  have newer : ∀ id ∈ g.live, id ≠ request.candidate →
      ((g.campaign cand).nodes id).term < request.term := by
    intro id live different
    rw [atOther id different]
    exact Nat.lt_succ_of_le (g.term_le_maxTerm (Inner.mem_live.mp live).1)
  have eligible : ∀ id ∈ g.live, id ≠ request.candidate →
      ((g.campaign cand).nodes id).upToDate request.lastIndex request.lastTerm = true := by
    intro id live different
    rw [atOther id different]
    exact upToDate_of_tipBelow (top id live)
  obtain ⟨standing, campaigned, mirrored, sent, ownVote⟩ :=
    mirrors.campaign size (inside cand isLive)
  obtain ⟨asked, walked, agreed, grown, votes⟩ :=
    @Mirrors.poll n request (Inner.tip (g.nodes cand).log) g.live g.live_nodup inside
      (g.campaign cand, 1) standing mirrored sent newer eligible
  refine ⟨asked, campaigned.trans walked, agreed, ?_⟩
  intro id live
  by_cases same : id = cand
  · rw [same]
    exact grown ownVote
  · exact votes id live same

section Calls

variable {n : Nat} {g : Inner} {acked : Log}

/-- An election of the driver is one of the network. A candidate the driver promotes
was asked for by a live majority, which has voted for it on the network. -/
theorem ClusterInvariant.elect_answered (invariant : ClusterInvariant n g acked) {after : Inner}
    {found : Option NodeId} (elected : g.elect = some (after, found)) :
    Answered (Mirrors n) (Net.AnchoredStep n) g after := by
  unfold Inner.elect at elected
  split at elected
  · cases elected
    exact Answered.refl g
  · rename_i majority
    have enough : g.quorum ≤ g.live.length := Nat.le_of_not_lt majority
    obtain ⟨cand, picked, isLive, top⟩ := g.pickCandidate_spec (live_ne_nil enough)
    have bound : cand < n := invariant.size ▸ (Inner.mem_live.mp isLive).1
    rw [picked] at elected
    dsimp only at elected
    intro net mirrors
    obtain ⟨asked, walked, agreed, votes⟩ := mirrors.election invariant.size isLive top
    split at elected
    · cases elected
      have node := (Inner.foldl_askVote_polled cand (g.maxTerm + 1) (Inner.tip (g.nodes cand).log)
        g.live (g.campaign cand, 1)).candidate
      rw [show (g.campaign cand).nodes cand =
        { (g.nodes cand).startElection with term := g.maxTerm + 1 } from
          Inner.setNode_nodes_self _ _ _] at node
      have stands : (asked.nodes cand).role = .candidate := by
        rw [agreed.read bound Node.role fun _ => rfl]
        exact congrArg Node.role node
      have term : (asked.nodes cand).term = g.maxTerm + 1 := by
        rw [agreed.read bound Node.term fun _ => rfl]
        exact congrArg Node.term node
      have quorum : (asked.nodes cand).quorum = g.quorum := by
        rw [agreed.read bound Node.quorum fun _ => rfl, invariant.quorum_eq]
        have peers : ((g.poll cand).1.nodes cand).peers = IdSet.below n :=
          (congrArg Node.peers node).trans (invariant.membership cand)
        unfold Node.quorum
        rw [peers]
        simp only [IdSet.below, SortedMap.size, List.length_map, List.length_range]
      have voted : g.live.toFinset ⊆ asked.voters n (asked.nodes cand).term cand := by
        intro id member
        have live := List.mem_toFinset.mp member
        refine Finset.mem_filter.mpr ⟨Finset.mem_range.mpr ?_, ?_⟩
        · exact invariant.size ▸ (Inner.mem_live.mp live).1
        · rw [term]
          exact votes id live
      have won :
          (asked.nodes cand).quorum ≤ (asked.voters n (asked.nodes cand).term cand).card := by
        calc
          (asked.nodes cand).quorum = g.quorum := quorum
          _ ≤ g.live.length := enough
          _ = g.live.toFinset.card := (List.toFinset_card_of_nodup g.live_nodup).symm
          _ ≤ (asked.voters n (asked.nodes cand).term cand).card := Finset.card_le_card voted
      have promoted : Net.Steps n asked (asked.becomeLeader cand) :=
        Net.Steps.one (.becomeLeader cand) trivial (if_pos ⟨bound, stands, won⟩)
      refine ⟨asked.becomeLeader cand, walked.trans promoted, ?_⟩
      refine agreed.setNode ?_ rfl
      exact congrArg Node.becomeLeader (agreed cand bound)
    · cases elected
      exact ⟨asked, walked, agreed⟩

theorem ClusterInvariant.ensureLeader_answered (invariant : ClusterInvariant n g acked)
    {after : Inner} {found : Except ClusterError NodeId}
    (ensured : g.ensureLeader = some (after, found)) :
    Answered (Mirrors n) (Net.AnchoredStep n) g after := by
  unfold Inner.ensureLeader at ensured
  split at ensured
  · cases ensured
    exact Answered.of_related fun _ mirrors => mirrors
  · split at ensured
    · cases ensured
      exact Answered.refl g
    · obtain ⟨⟨chosen, winner⟩, elected, result⟩ := Option.map_eq_some_iff.mp ensured
      cases result
      exact invariant.vacate.elect_answered elected

end Calls

end Keystory.Raft
