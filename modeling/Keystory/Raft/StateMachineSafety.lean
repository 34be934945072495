/-
Every step keeps the safety invariant, and what follows for whole runs: committed
entries are the same on every node that has them, and so are applied states.
-/

import Keystory.Raft.Safety

namespace Keystory.Raft

open General

namespace Net

open MatchingInvariant (growHistory)

theorem Certified.extend {n : Nat} {net : Net} {history : Nat → Log} {term commit : Nat}
    {log longer : Log} (certified : net.Certified n history term commit log)
    (isPrefix : log <+: longer) : net.Certified n history term commit longer := by
  rcases certified with zero | ⟨chosenTerm, index, chosen, bound, covers, held⟩
  · exact Or.inl zero
  · exact Or.inr ⟨chosenTerm, index, chosen, bound, covers, held.trans isPrefix⟩

theorem Chosen.length_take {n : Nat} {net : Net} {history : Nat → Log} {term index commit : Nat}
    (chosen : net.Chosen n history term index) (covers : commit ≤ index) :
    ((history term).take commit).length = commit := by
  have full := chosen.own.length_take
  rw [List.length_take] at full ⊢
  omega

theorem Certified.le_length {n : Nat} {net : Net} {history : Nat → Log} {term commit : Nat}
    {log : Log} (certified : net.Certified n history term commit log) : commit ≤ log.length := by
  rcases certified with zero | ⟨chosenTerm, index, chosen, bound, covers, held⟩
  · rw [zero]
    exact Nat.zero_le _
  · rw [← chosen.length_take covers]
    exact held.length_le

namespace SafetyInvariant

variable {n : Nat}

/-! ### One step -/

theorem initial : SafetyInvariant n (Net.initial n) (fun _ => []) where
  matching := MatchingInvariant.initial
  anchored := fun _ member => by cases member
  tips := fun _ member => by cases member
  acks := fun _ member => by cases member
  retained := fun _ _ _ _ own => by
    obtain ⟨_, _, _, found, _⟩ := own.position
    cases found
  complete := fun _ _ _ _ _ _ own => by
    obtain ⟨_, _, _, found, _⟩ := own.position
    cases found
  ballots := fun _ member => by cases member
  matched := fun _ impossible => by cases impossible
  committed := fun _ => Or.inl rfl
  sentCommits := fun _ member => by cases member
  appliedState := fun _ => ⟨Nat.le_refl _, rfl⟩

/-- A step that changes one node, adds no history and sends no append: what is
left to show is about that node and about what the step adds. -/
theorem advance {before after : Net} {history : Nat → Log}
    (invariant : SafetyInvariant n before history) (id : NodeId) (node : Node)
    (nodes : after.nodes = (before.setNode id node).nodes)
    (matching : MatchingInvariant n after history) (growth : Growth before after history history)
    (elected : after.elected = before.elected) (appends : after.appends = before.appends)
    (requests : ∀ request ∈ after.requests, request ∈ before.requests ∨
      (request.candidate = id ∧ request.term = node.term ∧
        request.lastIndex = node.log.length ∧ request.lastTerm = Log.lastTerm node.log))
    (acks : ∀ ack ∈ after.acks, ack ∈ before.acks ∨
      (ack.follower = id ∧ id < n ∧ before.Won ack.term ∧ ack.term ≤ node.term ∧
        ack.index ≤ (history ack.term).length ∧ (history ack.term).take ack.index <+: node.log))
    (ballots : ∀ grant ∈ after.grants, grant ∈ before.grants ∨
      ∃ log, after.Ballot n history grant log)
    (standing : node.term = (before.nodes id).term → node.role = .candidate →
      (before.nodes id).role = .candidate ∧ node.log = (before.nodes id).log)
    (keeps : ∀ term index, before.Won term → term ≤ (before.nodes id).term →
      OwnEntry history term index → (history term).take index <+: (before.nodes id).log →
        (history term).take index <+: node.log ∨ after.Blocked n history term index)
    (matched : node.role = .leader → ∀ voter index, node.matchIdx.find? voter = some index →
      1 ≤ index → voter < n ∧ after.Acked history node.term voter index)
    (committed : after.Certified n history node.term node.commitIdx node.log)
    (applied : node.applied ≤ node.commitIdx ∧
      node.state = Node.stateOf (node.log.take node.applied)) :
    SafetyInvariant n after history := by
  have atId : after.nodes id = node := by rw [nodes, setNode_nodes_self]
  have atOther (other : NodeId) (different : other ≠ id) :
      after.nodes other = before.nodes other := by
    rw [nodes, setNode_nodes_other before id other node different]
  have wonBack (term : Nat) (won : after.Won term) : before.Won term := by
    obtain ⟨winner, member⟩ := won
    exact ⟨winner, elected ▸ member⟩
  refine ⟨matching, ?_, ?_, ?_, ?_, ?_, ?_, ?_, ?_, ?_, ?_⟩
  · rw [appends]
    exact invariant.anchored
  · intro request member
    rcases requests request member with old | ⟨candidate, term, lastIndex, lastTerm⟩
    · obtain ⟨order, tip⟩ := invariant.tips request old
      refine ⟨Nat.le_trans order (growth.terms _), fun sameTerm stands => ?_⟩
      have unchanged : (after.nodes request.candidate).term =
          (before.nodes request.candidate).term :=
        Nat.le_antisymm (by omega) (growth.terms _)
      by_cases same : request.candidate = id
      · rw [same, atId] at stands unchanged ⊢
        obtain ⟨stood, sameLog⟩ := standing unchanged stands
        rw [same] at tip sameTerm
        rw [atId] at sameTerm
        rw [sameLog]
        exact tip (unchanged.symm.trans sameTerm) stood
      · rw [atOther _ same] at sameTerm stands ⊢
        exact tip sameTerm stands
    · rw [candidate, atId]
      exact ⟨Nat.le_of_eq term, fun _ _ => ⟨lastIndex, lastTerm⟩⟩
  · intro ack member
    rcases acks ack member with old | ⟨follower, bound, won, current, reached, _⟩
    · obtain ⟨won, order, reached, bound⟩ := invariant.acks ack old
      exact ⟨growth.won won, Nat.le_trans order (growth.terms _), reached, bound⟩
    · rw [follower, atId]
      exact ⟨growth.won won, current, reached, bound⟩
  · intro term voter index acked own
    have fromBefore (ackedBefore : before.Acked history term voter index) :
        (history term).take index <+: (after.nodes voter).log ∨
          after.Blocked n history term index := by
      rcases invariant.retained term voter index ackedBefore own with held | blocked
      · by_cases same : voter = id
        · subst same
          obtain ⟨won, order, _⟩ := ackedBefore.reached invariant
          rw [atId]
          exact keeps term index won order own held
        · rw [atOther voter same]
          exact Or.inl held
      · exact Or.inr (growth.blocked blocked)
    rcases acked with ⟨ack, member, sameTerm, sameVoter, covers⟩ | ⟨member, reached⟩
    · rcases acks ack member with old | ⟨follower, _, _, _, _, held⟩
      · exact fromBefore (Or.inl ⟨ack, old, sameTerm, sameVoter, covers⟩)
      · left
        rw [← sameVoter, follower, atId, ← sameTerm]
        exact (List.take_prefix_take_left covers).trans held
    · exact fromBefore (Or.inr ⟨elected ▸ member, reached⟩)
  · intro term later index won laterWon order own
    exact (invariant.complete term later index (wonBack _ won) (wonBack _ laterWon) order
      own).imp_right growth.blocked
  · intro grant member
    rcases ballots grant member with old | fresh
    · obtain ⟨log, ballot⟩ := invariant.ballots grant old
      exact ⟨log, ballot.mono invariant growth
        (invariant.matching.elections.grantBacked grant old).2.1⟩
    · exact fresh
  · intro other isLeader voter index found positive
    by_cases same : other = id
    · subst same
      rw [atId] at isLeader found ⊢
      exact matched isLeader voter index found positive
    · rw [atOther other same] at isLeader found ⊢
      obtain ⟨bound, acked⟩ := invariant.matched other isLeader voter index found positive
      exact ⟨bound, growth.acked acked⟩
  · intro other
    by_cases same : other = id
    · subst same
      rw [atId]
      exact committed
    · rw [atOther other same]
      exact growth.certified (invariant.committed other) (Nat.le_refl _)
  · intro message member
    rw [appends] at member
    exact growth.certified (invariant.sentCommits message member) (Nat.le_refl _)
  · intro other
    by_cases same : other = id
    · subst same
      rw [atId]
      exact applied
    · rw [atOther other same]
      exact invariant.appliedState other


theorem steady {before after : Net} {history : Nat → Log}
    (invariant : SafetyInvariant n before history) (id : NodeId) (node : Node)
    (nodes : after.nodes = (before.setNode id node).nodes)
    (matching : MatchingInvariant n after history) (growth : Growth before after history history)
    (elected : after.elected = before.elected) (appends : after.appends = before.appends)
    (acks : after.acks = before.acks)
    (requests : ∀ request ∈ after.requests, request ∈ before.requests ∨
      (request.candidate = id ∧ request.term = node.term ∧
        request.lastIndex = node.log.length ∧ request.lastTerm = Log.lastTerm node.log))
    (ballots : ∀ grant ∈ after.grants, grant ∈ before.grants ∨
      ∃ log, after.Ballot n history grant log)
    (standing : node.term = (before.nodes id).term → node.role = .candidate →
      (before.nodes id).role = .candidate)
    (matched : node.role = .leader → ∀ voter index, node.matchIdx.find? voter = some index →
      1 ≤ index → voter < n ∧ after.Acked history node.term voter index)
    (log : node.log = (before.nodes id).log)
    (commit : node.commitIdx = (before.nodes id).commitIdx)
    (applied : node.applied = (before.nodes id).applied)
    (state : node.state = (before.nodes id).state) : SafetyInvariant n after history := by
  have current : (before.nodes id).term ≤ node.term := by
    have grown := growth.terms id
    rwa [nodes, setNode_nodes_self] at grown
  refine invariant.advance id node nodes matching growth elected appends requests
    (fun ack member => Or.inl (acks ▸ member)) ballots
    (fun sameTerm stands => ⟨standing sameTerm stands, log⟩) ?_ matched ?_ ?_
  · intro term index _ _ _ held
    exact Or.inl (log ▸ held)
  · rw [commit, log]
    exact growth.certified (invariant.committed id) current
  · rw [applied, commit, state, log]
    exact invariant.appliedState id

/-! ### Elections -/

theorem startElection {before : Net} {history : Nat → Log}
    (invariant : SafetyInvariant n before history) (id : NodeId)
    (matching : MatchingInvariant n (before.startElection id) history)
    (growth : Growth before (before.startElection id) history history) :
    SafetyInvariant n (before.startElection id) history := by
  refine invariant.steady id (before.nodes id).startElection rfl matching growth rfl rfl rfl
    ?_ ?_ ?_ (fun impossible => by cases impossible) rfl rfl rfl rfl
  · intro request member
    rcases List.mem_cons.mp member with fresh | old
    · subst fresh
      exact Or.inr ⟨rfl, rfl, rfl, rfl⟩
    · exact Or.inl old
  · intro grant member
    rcases List.mem_cons.mp member with fresh | old
    · subst fresh
      refine Or.inr ⟨(before.nodes id).log, ?_, ⟨_, List.mem_cons_self, rfl, rfl, ?_⟩, ?_⟩
      · exact MatchingInvariant.copied_mono (invariant.matching.copied id)
          (fun _ => growth.won) growth.grows
      · exact Or.inr ⟨rfl, Nat.le_refl _⟩
      · intro term index _ acked own
        have ackedBefore : before.Acked history term id index := acked
        exact (invariant.retained term id index ackedBefore own).imp_right growth.blocked
    · exact Or.inl old
  · intro sameTerm
    exact absurd sameTerm (Nat.succ_ne_self _)

theorem adoptVote {before after : Net} {history : Nat → Log}
    (invariant : SafetyInvariant n before history) (voter : NodeId) (term : Nat)
    (vote : Option NodeId)
    (nodes : after.nodes = (before.setNode voter
      { (before.nodes voter).adoptVoteTerm term with votedFor := vote }).nodes)
    (matching : MatchingInvariant n after history) (growth : Growth before after history history)
    (elected : after.elected = before.elected) (appends : after.appends = before.appends)
    (acks : after.acks = before.acks) (requests : after.requests = before.requests)
    (ballots : ∀ grant ∈ after.grants, grant ∈ before.grants ∨
      ∃ log, after.Ballot n history grant log) : SafetyInvariant n after history := by
  have roles : ((before.nodes voter).adoptVoteTerm term).role ≠ .follower →
      (before.nodes voter).adoptVoteTerm term = before.nodes voter := by
    intro active
    rcases Node.adoptVoteTerm_role_cases (before.nodes voter) term with
      ⟨same, _⟩ | ⟨_, follows, _⟩
    · exact same
    · exact absurd follows active
  refine invariant.steady voter _ nodes matching growth elected appends acks
    (fun request member => Or.inl (requests ▸ member)) ballots ?_ ?_
    (Node.adoptVoteTerm_log _ _) (Node.adoptVoteTerm_keeps Node.commitIdx _ _ fun _ => rfl)
    (Node.adoptVoteTerm_keeps Node.applied _ _ fun _ => rfl)
    (Node.adoptVoteTerm_keeps Node.state _ _ fun _ => rfl)
  · intro _ stands
    change ((before.nodes voter).adoptVoteTerm term).role = .candidate at stands
    rwa [roles (by rw [stands]; decide)] at stands
  · intro isLeader other index found positive
    change ((before.nodes voter).adoptVoteTerm term).role = .leader at isLeader
    change ((before.nodes voter).adoptVoteTerm term).matchIdx.find? other = some index at found
    change other < n ∧
      after.Acked history ((before.nodes voter).adoptVoteTerm term).term other index
    have same := roles (by rw [isLeader]; decide)
    rw [same] at isLeader found ⊢
    obtain ⟨bound, acked⟩ := invariant.matched voter isLeader other index found positive
    exact ⟨bound, growth.acked acked⟩

theorem tipCovers_of_upToDate {node : Node} {lastIndex lastTerm : Nat}
    (eligible : node.upToDate lastIndex lastTerm = true) :
    TipCovers lastIndex lastTerm node.log := by
  unfold Node.upToDate at eligible
  rcases Bool.or_eq_true_iff.mp eligible with newer | level
  · exact Or.inl (of_decide_eq_true newer)
  · obtain ⟨equal, longer⟩ := Bool.and_eq_true_iff.mp level
    exact Or.inr ⟨beq_iff_eq.mp equal, of_decide_eq_true longer⟩

theorem ballot_of_grant {before after : Net} {history : Nat → Log}
    (invariant : SafetyInvariant n before history) (growth : Growth before after history history)
    (elected : after.elected = before.elected) (acks : after.acks = before.acks)
    {request : VoteRequest} (sent : request ∈ before.requests) (voter : NodeId)
    (eligible : (before.nodes voter).upToDate request.lastIndex request.lastTerm = true) :
    after.Ballot n history
      { term := request.term, voter := voter, candidate := request.candidate }
      (before.nodes voter).log := by
  refine ⟨?_, ⟨request, growth.requests request sent, rfl, rfl,
    tipCovers_of_upToDate eligible⟩, ?_⟩
  · exact MatchingInvariant.copied_mono (invariant.matching.copied voter)
      (fun _ => growth.won) growth.grows
  · intro term index _ acked own
    have ackedBefore : before.Acked history term voter index := by
      unfold Acked at acked ⊢
      rwa [elected, acks] at acked
    exact (invariant.retained term voter index ackedBefore own).imp_right growth.blocked

/-! ### Appends -/

/-- What the follower shares with the sender's log survives a rejected append: the
anchor conflicts, so the shared part ends before it. -/
theorem rejected_keeps {net : Net} {history : Nat → Log}
    (invariant : SafetyInvariant n net history) {message : AppendMessage}
    (sent : message ∈ net.appends) (anchored : message.prevIndex ≠ 0)
    (differs : Log.termOf (net.nodes message.dest).log message.prevIndex ≠ some message.prevTerm)
    {shared : Log} (inLog : shared <+: (net.nodes message.dest).log)
    (inSource : shared <+: history message.term) :
    shared <+: Node.cutAt (net.nodes message.dest).log message.prevIndex := by
  unfold Node.cutAt
  split
  · refine List.prefix_take_iff.mpr ⟨inLog, ?_⟩
    by_contra long
    have inside : message.prevIndex - 1 < shared.length := by omega
    obtain ⟨position, entry, index, found, term⟩ :=
      (Log.termOf_eq_some_iff _ _ _).mp ((invariant.anchored message sent).2 anchored)
    have samePosition : message.prevIndex - 1 = position := by omega
    rw [samePosition] at inside
    rw [← getElem?_of_isPrefix_of_lt inSource inside] at found
    exact differs ((Log.termOf_eq_some_iff _ _ _).mpr
      ⟨position, entry, index, getElem?_of_isPrefix inLog found, term⟩)
  · exact inLog

theorem accepted_keeps {net : Net} {history : Nat → Log}
    (invariant : SafetyInvariant n net history) {message : AppendMessage}
    (sent : message ∈ net.appends)
    (agrees : message.prevIndex = 0 ∨
      Log.termOf (net.nodes message.dest).log message.prevIndex = some message.prevTerm)
    {shared : Log} (inLog : shared <+: (net.nodes message.dest).log)
    (inSource : shared <+: history message.term) :
    shared <+: Node.appendLoop (net.nodes message.dest).log (message.prevIndex + 1)
      message.entries := by
  rcases invariant.matching.accepted_log sent message.dest agrees with
    ⟨_, kept⟩ | ⟨missing, taken⟩
  · rw [kept]
    exact inLog
  · rw [taken]
    refine List.prefix_take_iff.mpr ⟨inSource, ?_⟩
    by_contra long
    apply missing
    refine (List.prefix_of_prefix_length_le (List.take_prefix _ _) inSource ?_).trans inLog
    rw [List.length_take]
    omega

/-- A follower that keeps what it shares with the sender keeps its committed and
its applied entries, and every entry of its own terms that is not blocked. -/
theorem follow {before after : Net} {history : Nat → Log}
    (invariant : SafetyInvariant n before history) {message : AppendMessage}
    (sent : message ∈ before.appends) (node : Node)
    (nodes : after.nodes = (before.setNode message.dest node).nodes)
    (matching : MatchingInvariant n after history) (growth : Growth before after history history)
    (elected : after.elected = before.elected) (appends : after.appends = before.appends)
    (requests : after.requests = before.requests) (grants : after.grants = before.grants)
    (acks : ∀ ack ∈ after.acks, ack ∈ before.acks ∨
      (ack.follower = message.dest ∧ message.dest < n ∧ before.Won ack.term ∧
        ack.term ≤ node.term ∧ ack.index ≤ (history ack.term).length ∧
        (history ack.term).take ack.index <+: node.log))
    (order : (before.nodes message.dest).term ≤ message.term) (term : node.term = message.term)
    (follows : node.role = .follower)
    (keeps : ∀ shared, shared <+: (before.nodes message.dest).log →
      shared <+: history message.term → shared <+: node.log)
    (commit : node.commitIdx = (before.nodes message.dest).commitIdx ∨
      ((before.nodes message.dest).commitIdx < node.commitIdx ∧
        before.Certified n history message.term node.commitIdx node.log))
    (applied : node.applied = (before.nodes message.dest).applied)
    (state : node.state = (before.nodes message.dest).state) :
    SafetyInvariant n after history := by
  have won : before.Won message.term := ⟨_, (invariant.matching.vouched message sent).won⟩
  obtain ⟨appliedLe, stateEq⟩ := invariant.appliedState message.dest
  -- the committed part is chosen, so the sender's log shares it
  have committed : before.Certified n history message.term
        (before.nodes message.dest).commitIdx node.log ∧
      (before.nodes message.dest).log.take (before.nodes message.dest).applied =
        node.log.take (before.nodes message.dest).applied := by
    rcases invariant.committed message.dest with zero | ⟨chosenTerm, index, chosen, bound,
      covers, held⟩
    · refine ⟨Or.inl zero, ?_⟩
      rw [show (before.nodes message.dest).applied = 0 by omega, List.take_zero, List.take_zero]
    · have inSource := (List.take_prefix_take_left covers).trans
        (invariant.chosen_in_later chosen won (Nat.le_trans bound order))
      have kept := keeps _ held inSource
      refine ⟨Or.inr ⟨chosenTerm, index, chosen, Nat.le_trans bound order, covers, kept⟩, ?_⟩
      have oldCut := List.prefix_iff_eq_take.mp held
      have newCut := List.prefix_iff_eq_take.mp kept
      rw [chosen.length_take covers] at oldCut newCut
      exact take_eq_take_of_le (oldCut.symm.trans newCut) appliedLe
  refine invariant.advance message.dest node nodes matching growth elected appends
    (fun request member => Or.inl (requests ▸ member)) acks
    (fun grant member => Or.inl (grants ▸ member)) ?_ ?_ ?_ ?_ ?_
  · intro _ stands
    rw [follows] at stands
    cases stands
  · intro entryTerm index entryWon entryOrder own held
    rcases Nat.lt_or_eq_of_le (Nat.le_trans entryOrder order) with earlier | same
    · rcases invariant.complete entryTerm message.term index entryWon won earlier own with
        inSource | blocked
      · exact Or.inl (keeps _ held inSource)
      · exact Or.inr (growth.blocked blocked)
    · exact Or.inl (keeps _ held (same ▸ List.take_prefix _ _))
  · intro isLeader
    rw [follows] at isLeader
    cases isLeader
  · rw [term]
    rcases commit with same | ⟨_, certified⟩
    · rw [same]
      exact growth.certified committed.1 (Nat.le_refl _)
    · exact growth.certified certified (Nat.le_refl _)
  · rw [applied, state, stateEq, committed.2]
    exact ⟨by omega, rfl⟩

theorem certified_of_accepted {net : Net} {history : Nat → Log}
    (invariant : SafetyInvariant n net history) {message : AppendMessage}
    (sent : message ∈ net.appends) {log : Log} {covered : Nat}
    (held : (history message.term).take covered <+: log) :
    net.Certified n history message.term (min message.leaderCommit covered) log := by
  rcases invariant.sentCommits message sent with zero | ⟨chosenTerm, index, chosen, bound,
    covers, inSource⟩
  · rw [zero, Nat.zero_min]
    exact Or.inl rfl
  · refine Or.inr ⟨chosenTerm, index, chosen, bound,
      Nat.le_trans (Nat.min_le_left _ _) covers, ?_⟩
    have cut := (List.take_prefix_take_left (l := history chosenTerm)
      (Nat.min_le_left message.leaderCommit covered)).trans inSource
    refine (List.prefix_take_iff.mpr ⟨cut, ?_⟩).trans held
    rw [List.length_take]
    omega

theorem appendRejected {before after : Net} {history : Nat → Log}
    (invariant : SafetyInvariant n before history) {message : AppendMessage}
    (sent : message ∈ before.appends)
    (order : (before.nodes message.dest).term ≤ message.term) (anchored : message.prevIndex ≠ 0)
    (differs : Log.termOf (before.nodes message.dest).log message.prevIndex ≠
      some message.prevTerm)
    (same : after = before.setNode message.dest
      { (before.nodes message.dest).adoptLeader message.source message.term with
        log := Node.cutAt (before.nodes message.dest).log message.prevIndex })
    (matching : MatchingInvariant n after history)
    (growth : Growth before after history history) : SafetyInvariant n after history := by
  subst same
  exact invariant.follow sent _ rfl matching growth rfl rfl rfl rfl
    (fun ack member => Or.inl member) order (Node.adoptLeader_term message.source order)
    (Node.adoptLeader_role _ _ _)
    (fun _ inLog inSource => invariant.rejected_keeps sent anchored differs inLog inSource)
    (Or.inl (Node.adoptLeader_commitIdx _ _ _)) (Node.adoptLeader_applied _ _ _)
    (Node.adoptLeader_state _ _ _)

/-- An accepted append: the follower acknowledges what the message covered, and
that is what its log now holds of the sender's. -/
theorem appendAccepted {before after : Net} {history : Nat → Log}
    (invariant : SafetyInvariant n before history) {message : AppendMessage}
    (sent : message ∈ before.appends)
    (order : (before.nodes message.dest).term ≤ message.term)
    (agrees : message.prevIndex = 0 ∨
      Log.termOf (before.nodes message.dest).log message.prevIndex = some message.prevTerm)
    (same : after = { before.setNode message.dest
        { (before.nodes message.dest).adoptLeader message.source message.term with
          log := Node.appendLoop (before.nodes message.dest).log (message.prevIndex + 1)
            message.entries
          commitIdx := Node.commitThrough (before.nodes message.dest).commitIdx
            (min message.leaderCommit (message.prevIndex + message.entries.length)) } with
      acks := { term := message.term
                follower := message.dest
                index := message.prevIndex + message.entries.length } :: before.acks })
    (matching : MatchingInvariant n after history)
    (growth : Growth before after history history) : SafetyInvariant n after history := by
  have vouched := invariant.matching.vouched message sent
  have covered : (history message.term).take (message.prevIndex + message.entries.length) <+:
      Node.appendLoop (before.nodes message.dest).log (message.prevIndex + 1)
        message.entries := by
    rcases invariant.matching.accepted_log sent message.dest agrees with
      ⟨held, kept⟩ | ⟨_, taken⟩
    · rw [kept]
      exact held
    · rw [taken]
  have reached : message.prevIndex + message.entries.length ≤ (history message.term).length := by
    have slice := vouched.slice.length_le
    rw [List.length_drop] at slice
    have anchor : message.prevIndex ≤ (history message.term).length := by
      by_cases start : message.prevIndex = 0
      · omega
      · obtain ⟨position, entry, index, found, _⟩ :=
          (Log.termOf_eq_some_iff _ _ _).mp ((invariant.anchored message sent).2 start)
        have inside := lt_length_of_getElem? found
        omega
    omega
  have certified := invariant.certified_of_accepted sent covered
  subst same
  refine invariant.follow sent _ rfl matching growth rfl rfl rfl rfl ?_ order
    (Node.adoptLeader_term message.source order) (Node.adoptLeader_role _ _ _)
    (fun _ inLog inSource => invariant.accepted_keeps sent agrees inLog inSource) ?_
    (Node.adoptLeader_applied _ _ _) (Node.adoptLeader_state _ _ _)
  · intro ack member
    rcases List.mem_cons.mp member with fresh | old
    · subst fresh
      refine Or.inr ⟨rfl, (invariant.anchored message sent).1, ⟨_, vouched.won⟩, ?_, reached,
        covered⟩
      exact Nat.le_of_eq (Node.adoptLeader_term message.source order).symm
    · exact Or.inl old
  · dsimp only [Node.commitThrough]
    split
    · rename_i advanced
      exact Or.inr ⟨advanced, certified⟩
    · exact Or.inl rfl

theorem sendAppend {before : Net} {history : Nat → Log}
    (invariant : SafetyInvariant n before history) (id dest : NodeId) (prevIndex count : Nat)
    (destBound : dest < n) (leads : (before.nodes id).role = .leader)
    (inside : prevIndex ≤ (before.nodes id).log.length)
    (matching : MatchingInvariant n
      { before with appends := before.appendFrom id dest prevIndex count :: before.appends }
      history)
    (growth : Growth before
      { before with appends := before.appendFrom id dest prevIndex count :: before.appends }
      history history) :
    SafetyInvariant n
      { before with appends := before.appendFrom id dest prevIndex count :: before.appends }
      history := by
  have own := invariant.matching.leaderLog id leads
  refine ⟨matching, ?_, invariant.tips, invariant.acks, invariant.retained, invariant.complete,
    ?_, invariant.matched,
    fun other => growth.certified (invariant.committed other) (Nat.le_refl _), ?_,
    invariant.appliedState⟩
  · intro message member
    rcases List.mem_cons.mp member with fresh | old
    · rw [fresh]
      refine ⟨destBound, fun anchored => ?_⟩
      change prevIndex ≠ 0 at anchored
      change Log.termOf (history (before.nodes id).term) prevIndex =
        some ((Log.termOf (before.nodes id).log prevIndex).getD 0)
      have present := (Log.termOf_isSome_iff (before.nodes id).log prevIndex).mpr
        ⟨Nat.pos_of_ne_zero anchored, inside⟩
      obtain ⟨term, found⟩ := Option.isSome_iff_exists.mp present
      rw [← own, found, Option.getD_some]
    · exact invariant.anchored message old
  · intro grant member
    obtain ⟨log, copied, covered, held⟩ := invariant.ballots grant member
    exact ⟨log, copied, covered, held⟩
  · intro message member
    rcases List.mem_cons.mp member with fresh | old
    · subst fresh
      dsimp only [appendFrom]
      rw [← own]
      exact growth.certified (invariant.committed id) (Nat.le_refl _)
    · exact growth.certified (invariant.sentCommits message old) (Nat.le_refl _)

/-! ### Commit and apply -/

theorem deliverAck {before : Net} {history : Nat → Log}
    (invariant : SafetyInvariant n before history) (ack : Ack) (id : NodeId)
    (sent : ack ∈ before.acks) (sameTerm : (before.nodes id).term = ack.term)
    (matching : MatchingInvariant n (before.deliverAck ack id) history)
    (growth : Growth before (before.deliverAck ack id) history history) :
    SafetyInvariant n (before.deliverAck ack id) history := by
  refine invariant.steady id _ rfl matching growth rfl rfl rfl
    (fun _ member => Or.inl member) (fun _ member => Or.inl member) (fun _ stands => stands) ?_
    rfl rfl rfl rfl
  intro isLeader voter index found positive
  change ((before.nodes id).matchIdx.insert ack.follower ack.index).find? voter = some index
    at found
  rw [SortedMap.find?_insert] at found
  split at found
  · rename_i same
    cases found
    refine ⟨same ▸ (invariant.acks ack sent).2.2.2, Or.inl ⟨ack, sent, ?_, same.symm, ?_⟩⟩
    · exact sameTerm.symm
    · exact Nat.le_refl _
  · obtain ⟨bound, acked⟩ := invariant.matched id isLeader voter index found positive
    exact ⟨bound, growth.acked acked⟩

theorem chosen_of_replicas {net : Net} {history : Nat → Log}
    (invariant : SafetyInvariant n net history) {id : NodeId} {index : Nat}
    (leads : (net.nodes id).role = .leader)
    (sameTerm : Log.termOf (net.nodes id).log index = some (net.nodes id).term)
    (replicated : (net.nodes id).quorum ≤ (net.nodes id).replicas index) :
    net.Chosen n history (net.nodes id).term index := by
  have positive : 1 ≤ index := by
    obtain ⟨position, _, same, _⟩ := (Log.termOf_eq_some_iff _ _ _).mp sameTerm
    omega
  have holds (voter : NodeId)
      (member : voter ∈ (net.nodes id).matchIdx.keysWhere (fun held => index ≤ held)) :
      voter < n ∧ net.Acked history (net.nodes id).term voter index := by
    obtain ⟨held, found, reaches⟩ := (SortedMap.mem_keysWhere _ _ _).mp member
    have order : index ≤ held := of_decide_eq_true reaches
    obtain ⟨bound, acked⟩ := invariant.matched id leads voter held found (by omega)
    refine ⟨bound, ?_⟩
    rcases acked with ⟨ack, sent, term, follower, covers⟩ | ⟨elected, reached⟩
    · exact Or.inl ⟨ack, sent, term, follower, Nat.le_trans order covers⟩
    · exact Or.inr ⟨elected, Nat.le_trans order reached⟩
  refine ⟨⟨id, invariant.matching.elections.leads id leads⟩, ?_,
    (net.nodes id).matchIdx.keysWhere (fun held => index ≤ held), ⟨?_, ?_⟩, ?_⟩
  · unfold OwnEntry
    rw [← invariant.matching.leaderLog id leads]
    exact sameTerm
  · intro voter member
    exact Finset.mem_range.mpr (holds voter member).1
  · rw [SortedMap.card_keysWhere, ← invariant.matching.elections.quorum_eq id]
    exact replicated
  · intro voter member
    exact (holds voter member).2

theorem progress {before : Net} {history : Nat → Log}
    (invariant : SafetyInvariant n before history) (id : NodeId) (node : Node)
    (matching : MatchingInvariant n (before.setNode id node) history)
    (growth : Growth before (before.setNode id node) history history)
    (term : node.term = (before.nodes id).term) (role : node.role = (before.nodes id).role)
    (log : node.log = (before.nodes id).log)
    (matchIdx : node.matchIdx = (before.nodes id).matchIdx)
    (committed : before.Certified n history (before.nodes id).term node.commitIdx
      (before.nodes id).log)
    (applied : node.applied ≤ node.commitIdx ∧
      node.state = Node.stateOf ((before.nodes id).log.take node.applied)) :
    SafetyInvariant n (before.setNode id node) history := by
  refine invariant.advance id node rfl matching growth rfl rfl (fun _ member => Or.inl member)
    (fun _ member => Or.inl member) (fun _ member => Or.inl member)
    (fun _ stands => ⟨role ▸ stands, log⟩) ?_ ?_ ?_ ?_
  · intro _ _ _ _ _ held
    exact Or.inl (log ▸ held)
  · intro isLeader voter index found positive
    rw [matchIdx] at found
    rw [term]
    obtain ⟨bound, acked⟩ := invariant.matched id (role ▸ isLeader) voter index found positive
    exact ⟨bound, growth.acked acked⟩
  · rw [term, log]
    exact growth.certified committed (Nat.le_refl _)
  · rw [log]
    exact applied

theorem advanceCommit {before : Net} {history : Nat → Log}
    (invariant : SafetyInvariant n before history) (id : NodeId)
    (matching : MatchingInvariant n (before.setNode id (before.nodes id).advanceCommit) history)
    (growth : Growth before (before.setNode id (before.nodes id).advanceCommit) history history) :
    SafetyInvariant n (before.setNode id (before.nodes id).advanceCommit) history := by
  obtain ⟨appliedLe, stateEq⟩ := invariant.appliedState id
  rcases Node.advanceCommit_cases (before.nodes id) with same | ⟨index, moved, leads, advanced,
    reached, sameTerm, replicated⟩
  · rw [same, setNode_self]
    exact invariant
  · rw [moved] at matching growth ⊢
    refine invariant.progress id _ matching growth rfl rfl rfl rfl (Or.inr ?_)
      ⟨Nat.le_trans appliedLe (Nat.le_of_lt advanced), stateEq⟩
    refine ⟨(before.nodes id).term, index, invariant.chosen_of_replicas leads sameTerm replicated,
      Nat.le_refl _, Nat.le_refl _, ?_⟩
    rw [← invariant.matching.leaderLog id leads]
    exact List.take_prefix _ _

theorem applyCommitted {before : Net} {history : Nat → Log}
    (invariant : SafetyInvariant n before history) (id : NodeId)
    (matching : MatchingInvariant n (before.setNode id (before.nodes id).applyCommitted.1) history)
    (growth : Growth before (before.setNode id (before.nodes id).applyCommitted.1) history
      history) :
    SafetyInvariant n (before.setNode id (before.nodes id).applyCommitted.1) history := by
  obtain ⟨appliedLe, stateEq⟩ := invariant.appliedState id
  have committedLe := (invariant.committed id).le_length
  have result := Node.applyCommitted_eq (before.nodes id) (Nat.le_trans appliedLe committedLe)
    stateEq appliedLe
  rw [Nat.min_eq_left committedLe] at result
  rw [result] at matching growth ⊢
  exact invariant.progress id _ matching growth rfl rfl rfl rfl (invariant.committed id)
    ⟨Nat.le_refl _, rfl⟩

/-! ### Promotions and proposals -/

private theorem foldl_insert_zero (peers : List NodeId) (map : SortedMap NodeId Nat)
    (zeros : ∀ voter index, map.find? voter = some index → index = 0) (voter : NodeId)
    (index : Nat) (found : (peers.foldl (fun replicated peer => replicated.insert peer 0)
      map).find? voter = some index) : index = 0 := by
  induction peers generalizing map with
  | nil => exact zeros voter index found
  | cons peer rest ih =>
      refine ih (map.insert peer 0) ?_ found
      intro other value present
      rw [SortedMap.find?_insert] at present
      split at present
      · exact (Option.some.inj present).symm
      · exact zeros other value present

theorem becomeLeader_matchIdx (node : Node) (voter : NodeId) (index : Nat)
    (found : node.becomeLeader.matchIdx.find? voter = some index) : index = 0 :=
  foldl_insert_zero node.peers.keys SortedMap.empty
    (fun _ _ present => by rw [SortedMap.find?_empty] at present; cases present) voter index found

theorem own_before_promotion {before : Net} {history : Nat → Log}
    (invariant : SafetyInvariant n before history) (id : NodeId)
    (unwon : ¬before.Won (before.nodes id).term) {term index : Nat}
    (own : OwnEntry (Function.update history (before.nodes id).term (before.nodes id).log) term
      index) : term ≠ (before.nodes id).term := by
  intro same
  obtain ⟨position, entry, _, found, sameTerm⟩ := own.position
  rw [same, Function.update_self] at found
  have source := (invariant.matching.copied id position entry found).1
  rw [sameTerm, same] at source
  exact unwon source

theorem becomeLeader {before : Net} {history : Nat → Log}
    (invariant : SafetyInvariant n before history) (id : NodeId)
    (stands : (before.nodes id).role = .candidate)
    (majority : (before.nodes id).quorum ≤ (before.voters n (before.nodes id).term id).card)
    (matching : MatchingInvariant n (before.becomeLeader id)
      (Function.update history (before.nodes id).term (before.nodes id).log))
    (growth : Growth before (before.becomeLeader id) history
      (Function.update history (before.nodes id).term (before.nodes id).log)) :
    SafetyInvariant n (before.becomeLeader id)
      (Function.update history (before.nodes id).term (before.nodes id).log) := by
  let term₀ := (before.nodes id).term
  let grown := Function.update history term₀ (before.nodes id).log
  have unwon := invariant.matching.term_unwon id stands matching.elections
  have sameHistory (term : Nat) (apart : term ≠ term₀) : grown term = history term :=
    Function.update_of_ne apart _ _
  have apartOfWon (term : Nat) (won : before.Won term) : term ≠ term₀ := by
    intro same
    rw [same] at won
    exact unwon won
  have wonBack (term : Nat) (won : (before.becomeLeader id).Won term) (apart : term ≠ term₀) :
      before.Won term := by
    obtain ⟨winner, member⟩ := won
    rcases List.mem_cons.mp member with promoted | old
    · exact absurd (congrArg Prod.fst promoted) apart
    · exact ⟨winner, old⟩
  have ownBack (term index : Nat) (own : OwnEntry grown term index) :
      term ≠ term₀ ∧ OwnEntry history term index := by
    have apart := invariant.own_before_promotion id unwon own
    unfold OwnEntry at own ⊢
    rw [sameHistory term apart] at own
    exact ⟨apart, own⟩
  have atId : (before.becomeLeader id).nodes id = (before.nodes id).becomeLeader := by
    simp only [Net.becomeLeader, setNode_nodes_self]
  have atOther (other : NodeId) (different : other ≠ id) :
      (before.becomeLeader id).nodes other = before.nodes other := by
    simp only [Net.becomeLeader, setNode_nodes_other before id other _ different]
  have logs (other : NodeId) :
      ((before.becomeLeader id).nodes other).log = (before.nodes other).log := by
    by_cases same : other = id
    · rw [same, atId]
      rfl
    · rw [atOther other same]
  refine ⟨matching, ?_, ?_, ?_, ?_, ?_, ?_, ?_, ?_, ?_, ?_⟩
  · intro message member
    have won : before.Won message.term := ⟨_, (invariant.matching.vouched message member).won⟩
    rw [Function.update_of_ne (apartOfWon _ won)]
    exact invariant.anchored message member
  · intro request member
    obtain ⟨order, tip⟩ := invariant.tips request member
    refine ⟨Nat.le_trans order (growth.terms _), fun sameTerm standing => ?_⟩
    by_cases same : request.candidate = id
    · rw [same, atId] at standing
      cases standing
    · rw [atOther _ same] at sameTerm standing ⊢
      exact tip sameTerm standing
  · intro ack member
    obtain ⟨won, order, reached, bound⟩ := invariant.acks ack member
    exact ⟨growth.won won, Nat.le_trans order (growth.terms _),
      Nat.le_trans reached (growth.grows _ won).length_le, bound⟩
  · intro term voter index acked own
    obtain ⟨apart, ownBefore⟩ := ownBack term index own
    have ackedBefore : before.Acked history term voter index := by
      rcases acked with byAck | ⟨member, reached⟩
      · exact Or.inl byAck
      · rcases List.mem_cons.mp member with promoted | old
        · exact absurd (congrArg Prod.fst promoted) apart
        · exact Or.inr ⟨old, sameHistory term apart ▸ reached⟩
    rw [Function.update_of_ne apart, logs]
    exact (invariant.retained term voter index ackedBefore ownBefore).imp_right growth.blocked
  · intro term later index won laterWon order own
    obtain ⟨apart, ownBefore⟩ := ownBack term index own
    have wonBefore := wonBack term won apart
    rw [Function.update_of_ne apart]
    by_cases same : later = term₀
    · rw [same] at order ⊢
      rw [Function.update_self]
      refine invariant.elected_complete growth id stands ?_ wonBefore order ownBefore
      rw [← invariant.matching.elections.quorum_eq id]
      exact majority
    · rw [Function.update_of_ne same]
      exact (invariant.complete term later index wonBefore (wonBack later laterWon same) order
        ownBefore).imp_right growth.blocked
  · intro grant member
    obtain ⟨log, ballot⟩ := invariant.ballots grant member
    exact ⟨log, ballot.mono invariant growth
      (invariant.matching.elections.grantBacked grant member).2.1⟩
  · intro other isLeader voter index found positive
    by_cases same : other = id
    · rw [same, atId] at found
      have zero := becomeLeader_matchIdx _ voter index found
      omega
    · rw [atOther other same] at isLeader found ⊢
      obtain ⟨bound, acked⟩ := invariant.matched other isLeader voter index found positive
      exact ⟨bound, growth.acked acked⟩
  · intro other
    have certified := growth.certified (invariant.committed other) (Nat.le_refl _)
    by_cases same : other = id
    · subst same
      rw [atId]
      exact certified
    · rw [atOther other same]
      exact certified
  · intro message member
    have won : before.Won message.term := ⟨_, (invariant.matching.vouched message member).won⟩
    rw [Function.update_of_ne (apartOfWon _ won)]
    exact growth.certified (invariant.sentCommits message member) (Nat.le_refl _)
  · intro other
    by_cases same : other = id
    · subst same
      rw [atId]
      exact invariant.appliedState other
    · rw [atOther other same]
      exact invariant.appliedState other

/-- An entry appended once a later term was won is blocked from the start: the
majority behind the later term never acknowledged it. -/
theorem late_entry_blocked {before after : Net} {history new : Nat → Log}
    (invariant : SafetyInvariant n before history) (growth : Growth before after history new)
    (id : NodeId) {later index : Nat}
    (laterWon : before.Won later) (order : (before.nodes id).term < later)
    (fresh : (history (before.nodes id).term).length < index) :
    after.Blocked n new (before.nodes id).term index := by
  obtain ⟨winner, member⟩ := laterWon
  obtain ⟨_, _, _, majority⟩ := invariant.matching.elections.won later winner member
  refine growth.blocked ⟨_, voters_isQuorum majority, fun voter granted => ?_⟩
  obtain ⟨_, grant⟩ := mem_voters.mp granted
  have current := (invariant.matching.elections.grantBacked _ grant).2.1
  refine ⟨Nat.lt_of_lt_of_le order current, fun acked => ?_⟩
  have reached := (acked.reached invariant).2.2
  omega

theorem propose {before : Net} {history : Nat → Log}
    (invariant : SafetyInvariant n before history) (id : NodeId) (cmd : Op) (node : Node)
    (bound : id < n) (leads : (before.nodes id).role = .leader)
    (same : node = { before.nodes id with
      log := (before.nodes id).log ++ [{ selfTerm := (before.nodes id).term, cmd := cmd }]
      matchIdx := (before.nodes id).matchIdx.insert (before.nodes id).id
        (Log.lastIndex (before.nodes id).log + 1) })
    (matching : MatchingInvariant n (before.setNode id node)
      (Function.update history node.term node.log))
    (growth : Growth before (before.setNode id node) history
      (Function.update history node.term node.log)) :
    SafetyInvariant n (before.setNode id node) (Function.update history node.term node.log) := by
  have ownElected := invariant.matching.elections.leads id leads
  have ownWon : before.Won (before.nodes id).term := ⟨id, ownElected⟩
  have oldLog := invariant.matching.leaderLog id leads
  have term : node.term = (before.nodes id).term := by rw [same]
  have role : node.role = .leader := by rw [same]; exact leads
  have extended : (before.nodes id).log <+: node.log := by
    rw [same]
    exact List.prefix_append _ _
  have logs (other : NodeId) :
      (before.nodes other).log <+: ((before.setNode id node).nodes other).log := by
    by_cases isId : other = id
    · rw [isId, setNode_nodes_self]
      exact extended
    · rw [setNode_nodes_other before id other node isId]
  -- what held of an index the old histories reach still holds
  have ofReached (entryTerm voter index : Nat) (acked : before.Acked history entryTerm voter index)
      (own : OwnEntry (Function.update history node.term node.log) entryTerm index) :
      (Function.update history node.term node.log entryTerm).take index <+:
        ((before.setNode id node).nodes voter).log ∨
      (before.setNode id node).Blocked n (Function.update history node.term node.log) entryTerm
        index := by
    obtain ⟨won, _, reached⟩ := acked.reached invariant
    rw [growth.take_eq won reached]
    rcases invariant.retained entryTerm voter index acked
      (growth.ownEntry_back won reached own) with held | blocked
    · exact Or.inl (held.trans (logs voter))
    · exact Or.inr (growth.blocked blocked)
  refine ⟨matching, ?_, ?_, ?_, ?_, ?_, ?_, ?_, ?_, ?_, ?_⟩
  · intro message member
    obtain ⟨destBound, anchor⟩ := invariant.anchored message member
    refine ⟨destBound, fun anchored => ?_⟩
    have won : before.Won message.term := ⟨_, (invariant.matching.vouched message member).won⟩
    obtain ⟨position, entry, index, found, entryTerm⟩ :=
      (Log.termOf_eq_some_iff _ _ _).mp (anchor anchored)
    exact (Log.termOf_eq_some_iff _ _ _).mpr
      ⟨position, entry, index, getElem?_of_isPrefix (growth.grows _ won) found, entryTerm⟩
  · intro request member
    obtain ⟨order, tip⟩ := invariant.tips request member
    refine ⟨Nat.le_trans order (growth.terms _), fun sameTerm standing => ?_⟩
    by_cases isId : request.candidate = id
    · rw [isId, setNode_nodes_self, role] at standing
      cases standing
    · rw [setNode_nodes_other before id _ node isId] at sameTerm standing ⊢
      exact tip sameTerm standing
  · intro ack member
    obtain ⟨won, order, reached, inGroup⟩ := invariant.acks ack member
    exact ⟨won, Nat.le_trans order (growth.terms _),
      Nat.le_trans reached (growth.grows _ won).length_le, inGroup⟩
  · intro entryTerm voter index acked own
    rcases acked with byAck | ⟨member, reached⟩
    · exact ofReached entryTerm voter index (Or.inl byAck) own
    · by_cases isOwn : entryTerm = node.term
      · change (entryTerm, voter) ∈ before.elected at member
        rw [isOwn, term] at member
        have isId := invariant.matching.elections.elected_unique member ownElected
        subst isId
        left
        rw [isOwn, Function.update_self, setNode_nodes_self]
        exact List.take_prefix _ _
      · rw [Function.update_of_ne isOwn] at reached
        exact ofReached entryTerm voter index (Or.inr ⟨member, reached⟩) own
  · intro entryTerm later index won laterWon order own
    by_cases reached : index ≤ (history entryTerm).length
    · rw [growth.take_eq won reached]
      rcases invariant.complete entryTerm later index won laterWon order
        (growth.ownEntry_back won reached own) with held | blocked
      · exact Or.inl (held.trans (growth.grows later laterWon))
      · exact Or.inr (growth.blocked blocked)
    · have isOwn : entryTerm = (before.nodes id).term := by
        by_contra apart
        obtain ⟨position, entry, index, found, _⟩ := own.position
        rw [Function.update_of_ne (by rw [term]; exact apart)] at found
        have inside := lt_length_of_getElem? found
        omega
      subst isOwn
      exact Or.inr (invariant.late_entry_blocked growth id laterWon order (by omega))
  · intro grant member
    obtain ⟨log, ballot⟩ := invariant.ballots grant member
    exact ⟨log, ballot.mono invariant growth
      (invariant.matching.elections.grantBacked grant member).2.1⟩
  · intro other isLeader voter index found positive
    by_cases isId : other = id
    · rw [isId, setNode_nodes_self] at found ⊢
      rw [same, SortedMap.find?_insert, invariant.matching.elections.identity id] at found
      split at found
      · rename_i own
        subst own
        cases found
        refine ⟨bound, Or.inr ⟨term ▸ ownElected, ?_⟩⟩
        rw [Function.update_self, same, List.length_append, List.length_singleton]
        exact Nat.le_refl _
      · obtain ⟨inGroup, acked⟩ := invariant.matched id leads voter index found positive
        rw [term] at growth ⊢
        exact ⟨inGroup, growth.acked acked⟩
    · rw [setNode_nodes_other before id other node isId] at isLeader found ⊢
      obtain ⟨inGroup, acked⟩ := invariant.matched other isLeader voter index found positive
      exact ⟨inGroup, growth.acked acked⟩
  · intro other
    have certified := (growth.certified (invariant.committed other)
      (growth.terms other)).extend (logs other)
    have commit : ((before.setNode id node).nodes other).commitIdx =
        (before.nodes other).commitIdx := by
      by_cases isId : other = id
      · rw [isId, setNode_nodes_self, same]
      · rw [setNode_nodes_other before id other node isId]
    rw [commit]
    exact certified
  · intro message member
    have won : before.Won message.term := ⟨_, (invariant.matching.vouched message member).won⟩
    exact (growth.certified (invariant.sentCommits message member) (Nat.le_refl _)).extend
      (growth.grows _ won)
  · intro other
    obtain ⟨appliedLe, stateEq⟩ := invariant.appliedState other
    by_cases isId : other = id
    · subst isId
      rw [setNode_nodes_self, same]
      refine ⟨appliedLe, ?_⟩
      have reached := Nat.le_trans appliedLe (invariant.committed other).le_length
      dsimp only
      rw [List.take_append_of_le_length reached]
      exact stateEq
    · rw [setNode_nodes_other before id other node isId]
      exact ⟨appliedLe, stateEq⟩

theorem step {before after : Net} {action : Action} {history : Nat → Log}
    (invariant : SafetyInvariant n before history) (anchored : before.Anchored action)
    (effect : Effect n before action after) :
    SafetyInvariant n after (growHistory before after history action) := by
  have matching := invariant.matching.step effect
  have growth := invariant.growth effect
  cases effect with
  | startElection id bound => exact invariant.startElection id matching growth
  | voteDenied request voter sent bound =>
      exact invariant.adoptVote voter request.term
        ((before.nodes voter).adoptVoteTerm request.term).votedFor rfl matching growth
        rfl rfl rfl rfl (fun _ member => Or.inl member)
  | voteGranted request voter sent bound order free eligible =>
      refine invariant.adoptVote voter request.term (some request.candidate) rfl matching growth
        rfl rfl rfl rfl ?_
      intro grant member
      rcases List.mem_cons.mp member with fresh | old
      · subst fresh
        exact Or.inr ⟨_, invariant.ballot_of_grant growth rfl rfl sent voter eligible⟩
      · exact Or.inl old
  | becomeLeader id bound stands majority =>
      exact invariant.becomeLeader id stands majority matching growth
  | propose id cmd bound leads =>
      dsimp only [growHistory] at matching growth ⊢
      rw [setNode_nodes_self] at matching growth ⊢
      exact invariant.propose id cmd _ bound leads rfl matching growth
  | sendAppend id dest prevIndex count bound destBound different leads =>
      exact invariant.sendAppend id dest prevIndex count destBound leads anchored matching growth
  | appendStale message sent stale => exact invariant
  | appendRejected message sent order conflict differs =>
      exact invariant.appendRejected sent order conflict differs rfl matching growth
  | appendAccepted message sent order agrees =>
      exact invariant.appendAccepted sent order agrees rfl matching growth
  | deliverAck ack id sent bound leads sameTerm =>
      exact invariant.deliverAck ack id sent sameTerm matching growth
  | advanceCommit id bound => exact invariant.advanceCommit id matching growth
  | applyCommitted id bound => exact invariant.applyCommitted id matching growth

end SafetyInvariant

theorem SafetyInvariant.certified_agree {n : Nat} {net : Net} {history : Nat → Log}
    (invariant : SafetyInvariant n net history)
    {leftTerm rightTerm leftCommit rightCommit index : Nat} {left right : Log}
    (leftCertified : net.Certified n history leftTerm leftCommit left)
    (rightCertified : net.Certified n history rightTerm rightCommit right)
    (leftInside : index ≤ leftCommit) (rightInside : index ≤ rightCommit) :
    left.take index = right.take index := by
  rcases leftCertified with zero | ⟨term, reached, chosen, _, covers, held⟩
  · rw [show index = 0 by omega, List.take_zero, List.take_zero]
  · rcases rightCertified with zero | ⟨otherTerm, otherReached, otherChosen, _, otherCovers,
      otherHeld⟩
    · rw [show index = 0 by omega, List.take_zero, List.take_zero]
    · have leftCut := (List.prefix_iff_eq_take.mp held).symm
      have rightCut := (List.prefix_iff_eq_take.mp otherHeld).symm
      rw [chosen.length_take covers] at leftCut
      rw [otherChosen.length_take otherCovers] at rightCut
      have sources : (history term).take index = (history otherTerm).take index := by
        rcases Nat.le_total term otherTerm with order | order
        · exact invariant.chosen_agree chosen otherChosen order (by omega)
        · exact (invariant.chosen_agree otherChosen chosen order (by omega)).symm
      exact (take_eq_take_of_le leftCut leftInside).trans
        (sources.trans (take_eq_take_of_le rightCut rightInside).symm)

/-! ### Runs -/

theorem safetyInvariant_of_anchoredReachable {n : Nat} {net : Net}
    (reached : AnchoredReachable n net) : ∃ history, SafetyInvariant n net history := by
  induction reached with
  | refl => exact ⟨_, SafetyInvariant.initial⟩
  | tail _ last ih =>
      obtain ⟨action, anchored, taken⟩ := last
      obtain ⟨history, invariant⟩ := ih
      exact ⟨_, invariant.step anchored (step_effect taken)⟩

theorem SafetyInvariant.run {n : Nat} {net later : Net} {history : Nat → Log}
    (invariant : SafetyInvariant n net history)
    (steps : Relation.ReflTransGen (AnchoredStep n) net later) :
    ∃ grown, SafetyInvariant n later grown ∧ Growth net later history grown := by
  induction steps with
  | refl => exact ⟨history, invariant, Growth.refl net history⟩
  | tail _ last ih =>
      obtain ⟨action, anchored, taken⟩ := last
      obtain ⟨grown, reached, growth⟩ := ih
      exact ⟨_, reached.step anchored (step_effect taken),
        growth.trans (reached.growth (step_effect taken))⟩

theorem committed_agree {n : Nat} {net later : Net} (reached : AnchoredReachable n net)
    (steps : Relation.ReflTransGen (AnchoredStep n) net later) {left right : NodeId} {index : Nat}
    (leftInside : index ≤ (net.nodes left).commitIdx)
    (rightInside : index ≤ (later.nodes right).commitIdx) :
    (net.nodes left).log.take index = (later.nodes right).log.take index := by
  obtain ⟨history, invariant⟩ := safetyInvariant_of_anchoredReachable reached
  obtain ⟨grown, laterInvariant, growth⟩ := invariant.run steps
  exact laterInvariant.certified_agree
    (growth.certified (invariant.committed left) (Nat.le_refl _))
    (laterInvariant.committed right) leftInside rightInside

/-- In every state the network reaches with anchored appends: nodes that have
committed an index hold the same entry there, now and at any later point of the
run, and nodes that have applied equally many entries are in the same state, the
one their log's prefix gives. -/
theorem state_machine_safety (n : Nat) (net : Net) (reached : AnchoredReachable n net) :
    (∀ later, Relation.ReflTransGen (AnchoredStep n) net later → ∀ left right index,
      1 ≤ index → index ≤ (net.nodes left).commitIdx → index ≤ (later.nodes right).commitIdx →
      ∃ entry, Log.get (net.nodes left).log index = some entry ∧
        Log.get (later.nodes right).log index = some entry) ∧
    (∀ id, (net.nodes id).applied ≤ (net.nodes id).commitIdx ∧
      (net.nodes id).state = Node.stateOf ((net.nodes id).log.take (net.nodes id).applied)) ∧
    (∀ left right, (net.nodes left).applied = (net.nodes right).applied →
      (net.nodes left).state = (net.nodes right).state) := by
  obtain ⟨history, invariant⟩ := safetyInvariant_of_anchoredReachable reached
  refine ⟨?_, invariant.appliedState, ?_⟩
  · intro later steps left right index positive leftInside rightInside
    have agree := committed_agree reached steps leftInside rightInside
    have bound := Nat.le_trans leftInside (invariant.committed left).le_length
    obtain ⟨position, rfl⟩ : ∃ position, index = position + 1 := ⟨index - 1, by omega⟩
    rw [Log.get_succ, Log.get_succ]
    refine ⟨(net.nodes left).log[position], List.getElem?_eq_getElem bound, ?_⟩
    rw [← List.getElem?_take_of_lt (Nat.lt_succ_self position), ← agree,
      List.getElem?_take_of_lt (Nat.lt_succ_self position)]
    exact List.getElem?_eq_getElem bound
  · intro left right sameApplied
    obtain ⟨leftLe, leftState⟩ := invariant.appliedState left
    obtain ⟨rightLe, rightState⟩ := invariant.appliedState right
    have agree := committed_agree reached Relation.ReflTransGen.refl leftLe
      (Nat.le_trans (Nat.le_of_eq sameApplied) rightLe)
    rw [leftState, rightState, ← sameApplied, agree]

theorem state_machine_safety_after_first_commit :
    ∃ net, (initial 3).anchoredRun 3 (electAndCommit 0 1 1 (.put [1] [2])) = some net ∧
      (net.nodes 0).commitIdx = 1 ∧ (net.nodes 0).applied = 1 ∧
      ∀ id, (net.nodes id).applied ≤ (net.nodes id).commitIdx ∧
        (net.nodes id).state = Node.stateOf ((net.nodes id).log.take (net.nodes id).applied) :=
  let actions := electAndCommit 0 1 1 (.put [1] [2])
  ⟨((initial 3).anchoredRun 3 actions).get (by decide), (Option.some_get _).symm, by decide,
    by decide,
    (state_machine_safety 3 _
      (anchoredSteps_of_run (Option.some_get (by decide)).symm)).2.1⟩

/-- The first commit of term 1, with an append of the leader anchored past its then
empty log still in flight to node 1. -/
def strayAppend : List Action :=
  (electAndCommit 0 1 1 (.put [1] [2])).take 3 ++
    [.sendAppend 0 1 1 0] ++ (electAndCommit 0 1 1 (.put [1] [2])).drop 3

/-- The stray append makes node 1 drop the committed entry, and node 2 wins the next
term without it. -/
def strayOverwrite : List Action :=
  strayAppend ++
    [.deliverAppend
      { source := 0
        dest := 1
        term := 1
        prevIndex := 1
        prevTerm := 0
        entries := []
        leaderCommit := 0 },
      .startElection 2] ++
    electAndCommit 2 1 2 (.put [3] [4])

/-- With an append anchored past the sender's own log, two nodes commit different
entries at one index. -/
theorem stray_append_breaks_safety :
    ∃ net, Reachable 3 net ∧ 1 ≤ (net.nodes 0).commitIdx ∧ 1 ≤ (net.nodes 2).commitIdx ∧
      (Log.get (net.nodes 0).log 1).isSome = true ∧ (Log.get (net.nodes 2).log 1).isSome = true ∧
      Log.get (net.nodes 0).log 1 ≠ Log.get (net.nodes 2).log 1 :=
  ⟨((initial 3).run 3 strayOverwrite).get (by decide),
    steps_of_run (Option.some_get (by decide)).symm,
    by decide, by decide, by decide, by decide, by decide⟩

end Net

end Keystory.Raft
