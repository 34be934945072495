/-
What each handler of a node can do, stated once.

Every later invariant reads these case lemmas and never a handler's body: which
fields a handler leaves alone, the two outcomes of a vote request, the three
outcomes of an append, and what advancing or applying a commit can change.
-/

import Keystory.Raft.Log

namespace Keystory.Raft

open General

namespace Node

/-! ### Vote requests -/

@[simp] theorem adoptVoteTerm_log (node : Node) (term : Nat) :
    (node.adoptVoteTerm term).log = node.log := by
  unfold adoptVoteTerm
  split <;> rfl

@[simp] theorem adoptVoteTerm_term (node : Node) (term : Nat) :
    (node.adoptVoteTerm term).term = max node.term term := by
  unfold adoptVoteTerm
  split
  · rename_i newer
    exact (Nat.max_eq_right (Nat.le_of_lt newer)).symm
  · rename_i notNewer
    exact (Nat.max_eq_left (Nat.le_of_not_lt notNewer)).symm

@[simp] theorem adoptVoteTerm_id (node : Node) (term : Nat) :
    (node.adoptVoteTerm term).id = node.id := by
  unfold adoptVoteTerm
  split <;> rfl

@[simp] theorem adoptVoteTerm_peers (node : Node) (term : Nat) :
    (node.adoptVoteTerm term).peers = node.peers := by
  unfold adoptVoteTerm
  split <;> rfl

/-- Either the term alone may have been adopted, or the vote is granted: then the
candidate's term is the node's, the node had not voted for anyone else in it, and
the candidate's tip passed the eligibility test. -/
theorem requestVote_cases (node : Node) (sender : NodeId) (term lastIndex lastTerm : Nat) :
    node.requestVote sender term lastIndex lastTerm = (node.adoptVoteTerm term, false) ∨
      (node.term ≤ term ∧
        (∀ vote, (node.adoptVoteTerm term).votedFor = some vote → vote = sender) ∧
        node.upToDate lastIndex lastTerm = true ∧
        node.requestVote sender term lastIndex lastTerm =
          ({ node.adoptVoteTerm term with votedFor := some sender }, true)) := by
  unfold requestVote
  dsimp only
  split
  · exact Or.inl rfl
  · rename_i notStale
    split
    · exact Or.inl rfl
    · rename_i free
      split
      · rename_i eligible
        refine Or.inr ⟨?_, ?_, ?_, rfl⟩
        · rw [adoptVoteTerm_term] at notStale
          omega
        · intro vote voted
          rw [voted] at free
          simpa using free
        · simpa only [upToDate, adoptVoteTerm_log] using eligible
      · exact Or.inl rfl

theorem adoptVoteTerm_keeps {Field : Type} (read : Node → Field) (node : Node) (term : Nat)
    (blind : ∀ newTerm, read { node with term := newTerm, votedFor := none, role := .follower } =
      read node) : read (node.adoptVoteTerm term) = read node := by
  unfold adoptVoteTerm
  split
  · exact blind term
  · rfl

theorem requestVote_of_newer {node : Node} {term : Nat} (sender : NodeId)
    (lastIndex lastTerm : Nat) (newer : node.term < term) :
    (node.requestVote sender term lastIndex lastTerm).2 = node.upToDate lastIndex lastTerm := by
  have same : (node.adoptVoteTerm term).upToDate lastIndex lastTerm =
      node.upToDate lastIndex lastTerm := by
    unfold upToDate
    rw [adoptVoteTerm_log]
  have current : ¬term < (node.adoptVoteTerm term).term := by
    rw [adoptVoteTerm_term]
    omega
  have free : (node.adoptVoteTerm term).votedFor = none := by
    unfold adoptVoteTerm
    rw [if_pos newer]
  unfold requestVote
  simp only [if_neg current, free, Option.any_none, Bool.false_eq_true, if_false, same]
  split
  · rename_i eligible
    exact eligible.symm
  · rename_i ineligible
    exact (Bool.eq_false_iff.mpr ineligible).symm

theorem adoptVoteTerm_role_cases (node : Node) (term : Nat) :
    (node.adoptVoteTerm term = node ∧ term ≤ node.term) ∨
      (node.term < term ∧ (node.adoptVoteTerm term).role = .follower ∧
        (node.adoptVoteTerm term).votedFor = none) := by
  unfold adoptVoteTerm
  split
  · rename_i newer
    exact Or.inr ⟨newer, rfl, rfl⟩
  · rename_i notNewer
    exact Or.inl ⟨rfl, Nat.le_of_not_lt notNewer⟩

/-! ### Appends -/

@[simp] theorem adoptLeader_log (node : Node) (sender : NodeId) (term : Nat) :
    (node.adoptLeader sender term).log = node.log := by
  unfold adoptLeader
  split <;> rfl

@[simp] theorem adoptLeader_commitIdx (node : Node) (sender : NodeId) (term : Nat) :
    (node.adoptLeader sender term).commitIdx = node.commitIdx := by
  unfold adoptLeader
  split <;> rfl

@[simp] theorem adoptLeader_applied (node : Node) (sender : NodeId) (term : Nat) :
    (node.adoptLeader sender term).applied = node.applied := by
  unfold adoptLeader
  split <;> rfl

@[simp] theorem adoptLeader_state (node : Node) (sender : NodeId) (term : Nat) :
    (node.adoptLeader sender term).state = node.state := by
  unfold adoptLeader
  split <;> rfl

@[simp] theorem adoptLeader_id (node : Node) (sender : NodeId) (term : Nat) :
    (node.adoptLeader sender term).id = node.id := by
  unfold adoptLeader
  split <;> rfl

@[simp] theorem adoptLeader_peers (node : Node) (sender : NodeId) (term : Nat) :
    (node.adoptLeader sender term).peers = node.peers := by
  unfold adoptLeader
  split <;> rfl

@[simp] theorem adoptLeader_role (node : Node) (sender : NodeId) (term : Nat) :
    (node.adoptLeader sender term).role = .follower := by
  unfold adoptLeader
  split <;> rfl

theorem adoptLeader_term {node : Node} (sender : NodeId) {term : Nat} (order : node.term ≤ term) :
    (node.adoptLeader sender term).term = term := by
  unfold adoptLeader
  split
  · rfl
  · rename_i notNewer
    exact Nat.le_antisymm order (Nat.le_of_not_lt notNewer)

theorem adoptLeader_votedFor (node : Node) (sender : NodeId) (term : Nat) :
    (node.adoptLeader sender term).votedFor = if node.term < term then none else node.votedFor := by
  unfold adoptLeader
  split <;> rfl

def cutAt (log : Log) (prevIndex : Nat) : Log :=
  if (Log.termOf log prevIndex).isSome then Log.truncateFrom log prevIndex else log

def commitThrough (commit covered : Nat) : Nat := if commit < covered then covered else commit

theorem appendEntries_cases (node : Node) (sender : NodeId) (term prevIndex prevTerm : Nat)
    (entries : List LogEntry) (leaderCommit : Nat) :
    (term < node.term ∧
      node.appendEntries sender term prevIndex prevTerm entries leaderCommit =
        (node, some (Log.lastIndex node.log + 1))) ∨
      (node.term ≤ term ∧ prevIndex ≠ 0 ∧ Log.termOf node.log prevIndex ≠ some prevTerm ∧
        node.appendEntries sender term prevIndex prevTerm entries leaderCommit =
          ({ node.adoptLeader sender term with log := cutAt node.log prevIndex },
            some (Log.lastIndex (cutAt node.log prevIndex) + 1))) ∨
      (node.term ≤ term ∧ (prevIndex = 0 ∨ Log.termOf node.log prevIndex = some prevTerm) ∧
        node.appendEntries sender term prevIndex prevTerm entries leaderCommit =
          ({ node.adoptLeader sender term with
              log := appendLoop node.log (prevIndex + 1) entries
              commitIdx := commitThrough node.commitIdx
                (min leaderCommit (prevIndex + entries.length)) }, none)) := by
  unfold appendEntries
  split
  · rename_i stale
    exact Or.inl ⟨stale, rfl⟩
  · rename_i notStale
    have order : node.term ≤ term := Nat.le_of_not_lt notStale
    dsimp only
    rw [adoptLeader_log, adoptLeader_commitIdx]
    split
    · rename_i matched
      exact Or.inr (Or.inr ⟨order, matched, rfl⟩)
    · rename_i mismatched
      rw [not_or] at mismatched
      exact Or.inr (Or.inl ⟨order, mismatched.1, mismatched.2, rfl⟩)

theorem cutAt_isPrefix (log : Log) (prevIndex : Nat) : cutAt log prevIndex <+: log := by
  unfold cutAt
  split
  · exact List.take_prefix _ log
  · exact List.prefix_rfl

/-! ### Commit and apply -/

theorem commitIfReplicated_cases (node : Node) (commit index : Nat) :
    node.commitIfReplicated commit index = commit ∨
      (node.commitIfReplicated commit index = index ∧
        Log.termOf node.log index = some node.term ∧ node.quorum ≤ node.replicas index) := by
  unfold commitIfReplicated
  split
  · exact Or.inl rfl
  · rename_i sameTerm
    split
    · rename_i replicated
      exact Or.inr ⟨rfl, not_not.mp sameTerm, replicated⟩
    · exact Or.inl rfl

private theorem foldl_commitIfReplicated (node : Node) (indices : List Nat) (commit : Nat) :
    indices.foldl node.commitIfReplicated commit = commit ∨
      ∃ index, indices.foldl node.commitIfReplicated commit = index ∧ index ∈ indices ∧
        Log.termOf node.log index = some node.term ∧ node.quorum ≤ node.replicas index := by
  induction indices generalizing commit with
  | nil => exact Or.inl rfl
  | cons head tail ih =>
      rw [List.foldl_cons]
      rcases ih (node.commitIfReplicated commit head) with kept | ⟨index, result, member, rest⟩
      · rcases commitIfReplicated_cases node commit head with same | ⟨moved, rest⟩
        · exact Or.inl (kept.trans same)
        · exact Or.inr ⟨head, kept.trans moved, List.mem_cons_self, rest⟩
      · exact Or.inr ⟨index, result, List.mem_cons_of_mem head member, rest⟩

/-- Advancing either changes nothing or commits an entry of the leader's own term
that a majority is known to hold. -/
theorem advanceCommit_cases (node : Node) :
    node.advanceCommit = node ∨
      ∃ index, node.advanceCommit = { node with commitIdx := index } ∧ node.role = .leader ∧
        node.commitIdx < index ∧ index ≤ node.log.length ∧
        Log.termOf node.log index = some node.term ∧ node.quorum ≤ node.replicas index := by
  unfold advanceCommit
  split
  · exact Or.inl rfl
  · rename_i leads
    have leader : node.role = .leader := not_not.mp leads
    rcases foldl_commitIfReplicated node
        (List.range' (node.commitIdx + 1) (Log.lastIndex node.log - node.commitIdx))
        node.commitIdx with kept | ⟨index, result, member, sameTerm, replicated⟩
    · left
      rw [kept]
    · right
      refine ⟨index, by rw [result], leader, ?_, ?_, sameTerm, replicated⟩
      · have bounds := List.mem_range'_1.mp member
        omega
      · have bounds := List.mem_range'_1.mp member
        unfold Log.lastIndex at bounds
        omega

theorem advanceCommit_last (node : Node) (leads : node.role = .leader)
    (behind : node.commitIdx < node.log.length)
    (sameTerm : Log.termOf node.log node.log.length = some node.term)
    (replicated : node.quorum ≤ node.replicas node.log.length) :
    node.advanceCommit = { node with commitIdx := node.log.length } := by
  unfold advanceCommit
  rw [if_neg (by rw [leads]; decide)]
  have split : List.range' (node.commitIdx + 1) (Log.lastIndex node.log - node.commitIdx) =
      List.range' (node.commitIdx + 1) (node.log.length - node.commitIdx - 1) ++
        [node.log.length] := by
    obtain ⟨pending, length⟩ : ∃ pending, node.log.length = node.commitIdx + 1 + pending :=
      ⟨node.log.length - node.commitIdx - 1, by omega⟩
    unfold Log.lastIndex
    rw [length, show node.commitIdx + 1 + pending - node.commitIdx = pending + 1 by omega,
      List.range'_1_concat, Nat.add_sub_cancel]
  rw [split, List.foldl_append, List.foldl_cons, List.foldl_nil]
  unfold commitIfReplicated
  rw [if_neg (not_not.mpr sameTerm), if_pos replicated]

/-- The state machine after a log: every entry applied at its own index. -/
def replay (start : Nat) (state : Map) : List LogEntry → Map
  | [] => state
  | entry :: rest => replay (start + 1) (entry.cmd.apply state (start + 1)) rest

theorem replay_append (start : Nat) (state : Map) (first second : List LogEntry) :
    replay start state (first ++ second) =
      replay (start + first.length) (replay start state first) second := by
  induction first generalizing start state with
  | nil => rfl
  | cons head tail ih =>
      rw [List.cons_append, List.length_cons]
      have shifted := ih (start + 1) (head.cmd.apply state (start + 1))
      rw [show start + (tail.length + 1) = start + 1 + tail.length by omega]
      exact shifted

def stateOf (log : List LogEntry) : Map := replay 0 SortedMap.empty log

theorem stateOf_append_singleton (log : List LogEntry) (entry : LogEntry) :
    stateOf (log ++ [entry]) = entry.cmd.apply (stateOf log) (log.length + 1) := by
  unfold stateOf
  rw [replay_append, Nat.zero_add]
  rfl

theorem applyLoop_eq (log : Log) (pending applied : Nat) (state : Map)
    (reached : applied ≤ log.length) (current : state = stateOf (log.take applied)) :
    applyLoop log pending applied state =
      (min (applied + pending) log.length,
        stateOf (log.take (min (applied + pending) log.length))) := by
  induction pending generalizing applied state with
  | zero =>
      rw [Nat.add_zero, Nat.min_eq_left reached, ← current]
      rfl
  | succ pending ih =>
      unfold applyLoop
      rw [Log.get_succ]
      cases found : log[applied]? with
      | none =>
          have atEnd : applied = log.length :=
            Nat.le_antisymm reached (List.getElem?_eq_none_iff.mp found)
          rw [Nat.min_eq_right (by omega), ← atEnd, ← current]
      | some entry =>
          have inside : applied < log.length := lt_length_of_getElem? found
          dsimp only
          rw [ih (applied + 1) _ inside]
          · rw [show applied + 1 + pending = applied + (pending + 1) by omega]
          · rw [take_succ_of_getElem? found, stateOf_append_singleton,
              List.length_take_of_le reached, current]

theorem applyCommitted_eq (node : Node) (reached : node.applied ≤ node.log.length)
    (current : node.state = stateOf (node.log.take node.applied))
    (order : node.applied ≤ node.commitIdx) :
    node.applyCommitted.1 =
      { node with
        applied := min node.commitIdx node.log.length
        state := stateOf (node.log.take (min node.commitIdx node.log.length)) } := by
  unfold applyCommitted
  dsimp only
  rw [applyLoop_eq node.log _ node.applied node.state reached current,
    Nat.add_sub_cancel' order]

end Node

end Keystory.Raft
