/-
When a cluster with a live majority serves.

The driver hands a candidate's last term to the voters as its last index and its
last index as its last term. Among prefixes of one log a voter then grants exactly
when its last term is at most the length of the candidate's log, so once terms run
ahead of indices a live majority can elect nobody.
-/

import Keystory.Raft.ClusterSafety

namespace Keystory.Raft

open General

namespace Inner

/-- The catch-up loop comes to an end on any cluster: a round that goes round again
has cut the peer's log. -/
theorem catchUpRound_shortens {g after : Inner} {leader peer : NodeId} {idx leaderTerm : Nat}
    (again : g.catchUpRound leader peer idx leaderTerm = (after, none)) :
    (after.nodes peer).log.length < (g.nodes peer).log.length := by
  unfold catchUpRound at again
  dsimp only at again
  obtain ⟨sameAfter, answer⟩ := Prod.mk.inj again
  rw [← sameAfter, setNode_nodes_self]
  rcases Node.appendEntries_cases (g.nodes peer) leader leaderTerm
      (min (Log.lastIndex (g.nodes peer).log + 1) idx - 1) _ _ (g.nodes leader).commitIdx with
    ⟨_, result⟩ | ⟨_, _, _, result⟩ | ⟨_, _, result⟩
  · rw [result] at answer
    simp at answer
  · rw [result] at answer ⊢
    have cut := (Node.cutAt_isPrefix (g.nodes peer).log
      (min (Log.lastIndex (g.nodes peer).log + 1) idx - 1)).length_le
    dsimp only at answer ⊢
    split at answer
    · cases answer
    · rename_i shorter
      exact Nat.lt_of_le_of_ne cut shorter
  · rw [result] at answer
    simp at answer

/-- The live nodes that the candidate's log is long enough for, itself included,
are a majority of the cluster. -/
def TermsWithinLog (g : Inner) : Prop :=
  ∃ cand, g.pickCandidate = some cand ∧
    g.quorum ≤ 1 + (g.live.filter (fun id => id ≠ cand &&
      decide (Log.lastTerm (g.nodes id).log ≤ Log.lastIndex (g.nodes cand).log))).length

/-- Nothing is expected to be served, somebody leads, or a candidate is electable. -/
def Servable (g : Inner) : Prop :=
  g.live.length < g.quorum ∨ g.leader ≠ none ∨ g.TermsWithinLog

end Inner

namespace ClusterInvariant

variable {n : Nat} {g : Inner} {acked : Log}

/-- Asked with index and term exchanged, a node grants the candidate exactly when its
own last term is at most the length of the candidate's log. -/
theorem grantsVote_eq (invariant : ClusterInvariant n g acked) {cand id : NodeId}
    (whole : (g.nodes cand).log = acked) (bound : id < g.size) :
    Inner.grantsVote cand (g.maxTerm + 1) (Inner.tip (g.nodes cand).log) (g.nodes id) =
      decide (Log.lastTerm (g.nodes id).log ≤ Log.lastIndex (g.nodes cand).log) := by
  have older : (g.nodes id).term < g.maxTerm + 1 := Nat.lt_succ_of_le (g.term_le_maxTerm bound)
  have lastTerm := lastTerm_le_of_isPrefix (invariant.held id) invariant.ordered
  have shorter := (invariant.held id).length_le
  unfold Inner.grantsVote
  rw [Node.requestVote_of_newer cand _ _ older]
  unfold Node.upToDate Inner.tip
  rw [whole, Bool.eq_iff_iff]
  simp only [Bool.or_eq_true, Bool.and_eq_true, decide_eq_true_eq, beq_iff_eq]
  unfold Log.lastIndex
  omega

theorem electable_iff (invariant : ClusterInvariant n g acked)
    (enough : g.quorum ≤ g.live.length) : g.Electable ↔ g.TermsWithinLog := by
  obtain ⟨picked, isPicked, _, top⟩ := g.pickCandidate_spec (live_ne_nil enough)
  have whole := invariant.candidate_log enough top
  have sameVotes : g.live.filter (fun id => id ≠ picked && Inner.grantsVote picked
        (g.maxTerm + 1) (Inner.tip (g.nodes picked).log) (g.nodes id)) =
      g.live.filter (fun id => id ≠ picked &&
        decide (Log.lastTerm (g.nodes id).log ≤ Log.lastIndex (g.nodes picked).log)) := by
    apply List.filter_congr
    intro id isLive
    rw [invariant.grantsVote_eq whole (Inner.mem_live.mp isLive).1]
  constructor
  · rintro ⟨cand, isCand, won⟩
    rw [isPicked] at isCand
    cases isCand
    refine ⟨picked, isPicked, ?_⟩
    rw [← sameVotes]
    exact won
  · rintro ⟨cand, isCand, won⟩
    rw [isPicked] at isCand
    cases isCand
    refine ⟨picked, isPicked, ?_⟩
    unfold Inner.votes
    rw [sameVotes]
    exact won

end ClusterInvariant

/-- In every reachable state a put, delete, get or scan is refused exactly when fewer
than a majority of the nodes are live, if and only if fewer than a majority are live,
somebody leads, or enough live nodes' last terms are within the length of the
candidate's log. -/
theorem refused_iff_minority_iff_servable (n : Nat) (positive : 1 ≤ n) (calls : List Call)
    (call : Call) (serves : call.Serves) :
    ∃ g trace after reply, (Inner.new n).run calls = some (g, trace) ∧
      g.call call = some (after, reply) ∧
      ((reply = .noLeader ↔ g.live.length < n / 2 + 1) ↔ g.Servable) := by
  obtain ⟨g, trace, acked, ran, invariant, _, _⟩ :=
    (ClusterInvariant.initial positive).run_outcome calls
  obtain ⟨after, reply, longer, called, outcome⟩ := invariant.call_outcome call
  refine ⟨g, trace, after, reply, ran, called, ?_⟩
  rw [outcome.serves serves, ← invariant.quorum_eq]
  unfold Inner.Servable
  by_cases minority : g.live.length < g.quorum
  · exact ⟨fun _ => Or.inl minority, fun _ => ⟨fun _ => minority, fun _ => Or.inl minority⟩⟩
  · rw [← invariant.electable_iff (Nat.le_of_not_lt minority)]
    tauto

/-- Three nodes after a write whose leader has failed since: the two that are left hold an
election, asked for by a read, and serve it. -/
theorem refused_iff_minority_after_failover :
    ∃ g trace after, (Inner.new 3).run [.put [1] [2], .fail 0] = some (g, trace) ∧
      g.live = [1, 2] ∧ g.leader = none ∧
      g.call (.get [1]) = some (after, .value (some [2])) ∧ after.leader = some 1 ∧
      g.Servable := by
  have checked : ((Inner.new 3).run [.put [1] [2], .fail 0]).map (fun result =>
      (result.1.live, result.1.leader,
        (result.1.call (.get [1])).map (fun served => (served.1.leader, served.2)))) =
        some ([1, 2], none, some (some 1, .value (some [2]))) := by decide
  obtain ⟨g, trace, after, reply, ran, called, served⟩ :=
    refused_iff_minority_iff_servable 3 (by decide) [.put [1] [2], .fail 0] (.get [1]) trivial
  simp only [ran, called, Option.map_some, Option.some.injEq, Prod.mk.injEq] at checked
  obtain ⟨live, vacant, elected, rfl⟩ := checked
  refine ⟨g, trace, after, ran, live, vacant, called, elected, served.mp ?_⟩
  rw [live]
  decide

/-- Two elections before the first write put an entry of term 2 at index 1. -/
def termsAheadOfLog : List Call :=
  [.get [1], .fail 0, .revive 0, .put [1] [2], .fail 0, .revive 0]

/-- All three nodes are live and the write is refused all the same. -/
theorem live_majority_refused :
    ∃ g trace after, (Inner.new 3).run termsAheadOfLog = some (g, trace) ∧
      g.live = [0, 1, 2] ∧ g.call (.put [1] [3]) = some (after, .noLeader) := by
  have checked : ((Inner.new 3).run termsAheadOfLog).map (fun result =>
      (result.1.live, (result.1.call (.put [1] [3])).map Prod.snd)) =
        some ([0, 1, 2], some .noLeader) := by decide
  obtain ⟨⟨g, trace⟩, ran, facts⟩ := Option.map_eq_some_iff.mp checked
  obtain ⟨live, replied⟩ := Prod.mk.inj facts
  obtain ⟨⟨after, reply⟩, called, same⟩ := Option.map_eq_some_iff.mp replied
  cases same
  exact ⟨g, trace, after, ran, live, called⟩

end Keystory.Raft
