/-
Log matching on the asynchronous network.

The invariant gives every term that was ever won one growing log: the log of its
leader. Each entry anywhere, in a node's log or in a term's log, sits where the
log of its own term has it, with everything before it. Two logs that hold the
same term at one index are then copies of one log up to there, although the
handlers never compare a command.
-/

import Keystory.Raft.Election

namespace Keystory.Raft

open General

namespace Net

def Won (net : Net) (term : Nat) : Prop := ∃ id, (term, id) ∈ net.elected

/-- Every entry of `log` was copied, with all that precedes it, from the log of
the leader of its own term. -/
def Copied (net : Net) (history : Nat → Log) (log : Log) : Prop :=
  ∀ position entry, log[position]? = some entry →
    net.Won entry.selfTerm ∧ log.take (position + 1) <+: history entry.selfTerm

theorem Copied.of_isPrefix {net : Net} {history : Nat → Log} {log held : Log}
    (copied : net.Copied history log) (isPrefix : held <+: log) : net.Copied history held := by
  intro position entry found
  have inside := lt_length_of_getElem? found
  obtain ⟨won, source⟩ := copied position entry (getElem?_of_isPrefix isPrefix found)
  have cut : held.take (position + 1) <+: log.take (position + 1) :=
    List.prefix_take_iff.mpr ⟨take_prefix_of_isPrefix isPrefix _, by
      rw [List.length_take]
      exact Nat.min_le_left _ _⟩
  exact ⟨won, cut.trans source⟩

theorem Copied.take_eq {net : Net} {history : Nat → Log} {left right : Log}
    (leftCopied : net.Copied history left) (rightCopied : net.Copied history right)
    {position : Nat} {leftEntry rightEntry : LogEntry} (leftAt : left[position]? = some leftEntry)
    (rightAt : right[position]? = some rightEntry)
    (sameTerm : leftEntry.selfTerm = rightEntry.selfTerm) :
    left.take (position + 1) = right.take (position + 1) := by
  have leftSource := (leftCopied position leftEntry leftAt).2
  have rightSource := (rightCopied position rightEntry rightAt).2
  rw [← sameTerm] at rightSource
  apply eq_of_prefixes leftSource rightSource
  rw [List.length_take_of_le (lt_length_of_getElem? leftAt),
    List.length_take_of_le (lt_length_of_getElem? rightAt)]

theorem Copied.termsDetermine {net : Net} {history : Nat → Log} {left right : Log}
    (leftCopied : net.Copied history left) (rightCopied : net.Copied history right) :
    TermsDetermine left right := by
  intro position leftEntry rightEntry leftAt rightAt sameTerm
  have agree := leftCopied.take_eq rightCopied leftAt rightAt sameTerm
  have atLeft : (left.take (position + 1))[position]? = some leftEntry := by
    rw [List.getElem?_take_of_lt (Nat.lt_succ_self _)]
    exact leftAt
  rw [agree, List.getElem?_take_of_lt (Nat.lt_succ_self _), rightAt] at atLeft
  exact (Option.some.inj atLeft).symm

/-- What an append in flight says about the log of its sender's term. -/
structure Vouched (net : Net) (history : Nat → Log) (message : AppendMessage) : Prop where
  won : (message.term, message.source) ∈ net.elected
  away : message.dest ≠ message.source
  slice : message.entries <+: (history message.term).drop message.prevIndex
  anchor : message.prevTerm ≠ 0 →
    Log.termOf (history message.term) message.prevIndex = some message.prevTerm

structure MatchingInvariant (n : Nat) (net : Net) (history : Nat → Log) : Prop where
  elections : ElectionInvariant n net
  leaderLog : ∀ id, (net.nodes id).role = .leader → (net.nodes id).log = history (net.nodes id).term
  copied : ∀ id, net.Copied history (net.nodes id).log
  bounded : ∀ id, ∀ entry ∈ (net.nodes id).log, entry.selfTerm ≤ (net.nodes id).term
  historyCopied : ∀ term, net.Won term → net.Copied history (history term)
  historyBounded : ∀ term, net.Won term → ∀ entry ∈ history term, entry.selfTerm ≤ term
  vouched : ∀ message ∈ net.appends, net.Vouched history message

namespace MatchingInvariant

variable {n : Nat}

theorem initial : MatchingInvariant n (Net.initial n) (fun _ => []) where
  elections := ElectionInvariant.initial
  leaderLog := fun _ impossible => by cases impossible
  copied := fun _ position entry found => by simp [Net.initial, Node.new] at found
  bounded := fun _ entry member => by simp [Net.initial, Node.new] at member
  historyCopied := fun _ won => by
    obtain ⟨_, member⟩ := won
    cases member
  historyBounded := fun _ won => by
    obtain ⟨_, member⟩ := won
    cases member
  vouched := fun _ member => by cases member

theorem entry_term_pos {net : Net} {history : Nat → Log}
    (invariant : MatchingInvariant n net history) (id : NodeId) {position : Nat}
    {entry : LogEntry} (found : (net.nodes id).log[position]? = some entry) :
    1 ≤ entry.selfTerm := by
  obtain ⟨⟨winner, member⟩, _⟩ := invariant.copied id position entry found
  exact (invariant.elections.won _ winner member).2.1

theorem terms_mono {net : Net} {history : Nat → Log}
    (invariant : MatchingInvariant n net history) {log : Log} (copied : net.Copied history log)
    {early late : Nat} {earlyEntry lateEntry : LogEntry} (order : early ≤ late)
    (earlyAt : log[early]? = some earlyEntry) (lateAt : log[late]? = some lateEntry) :
    earlyEntry.selfTerm ≤ lateEntry.selfTerm := by
  obtain ⟨won, source⟩ := copied late lateEntry lateAt
  apply invariant.historyBounded lateEntry.selfTerm won
  have inTake : (log.take (late + 1))[early]? = some earlyEntry := by
    rw [List.getElem?_take_of_lt (Nat.lt_succ_of_le order)]
    exact earlyAt
  exact List.mem_of_getElem? (getElem?_of_isPrefix source inTake)

theorem copied_mono {before after : Net} {old new : Nat → Log} {log : Log}
    (copied : before.Copied old log) (won : ∀ term, before.Won term → after.Won term)
    (grows : ∀ term, before.Won term → old term <+: new term) : after.Copied new log := by
  intro position entry found
  obtain ⟨wonTerm, source⟩ := copied position entry found
  exact ⟨won _ wonTerm, source.trans (grows _ wonTerm)⟩

theorem vouched_mono {before after : Net} {old new : Nat → Log} {message : AppendMessage}
    (vouched : before.Vouched old message)
    (elected : ∀ pair ∈ before.elected, pair ∈ after.elected)
    (grows : ∀ term, before.Won term → old term <+: new term) : after.Vouched new message := by
  have grown := grows message.term ⟨message.source, vouched.won⟩
  refine ⟨elected _ vouched.won, vouched.away, ?_, ?_⟩
  · obtain ⟨rest, same⟩ := grown
    rw [← same, List.drop_append]
    exact vouched.slice.trans (List.prefix_append _ _)
  · intro nonzero
    obtain ⟨position, entry, index, found, term⟩ :=
      (Log.termOf_eq_some_iff _ _ _).mp (vouched.anchor nonzero)
    exact (Log.termOf_eq_some_iff _ _ _).mpr
      ⟨position, entry, index, getElem?_of_isPrefix grown found, term⟩

theorem keep {before after : Net} {history : Nat → Log}
    (invariant : MatchingInvariant n before history) (elections : ElectionInvariant n after)
    (elected : after.elected = before.elected) (appends : after.appends = before.appends)
    (leaderLog : ∀ id, (after.nodes id).role = .leader →
      (after.nodes id).log = history (after.nodes id).term)
    (copied : ∀ id, before.Copied history (after.nodes id).log)
    (bounded : ∀ id, ∀ entry ∈ (after.nodes id).log, entry.selfTerm ≤ (after.nodes id).term) :
    MatchingInvariant n after history := by
  have wonBack (term : Nat) (won : after.Won term) : before.Won term := by
    obtain ⟨winner, member⟩ := won
    exact ⟨winner, elected ▸ member⟩
  have wonOn (term : Nat) (won : before.Won term) : after.Won term := by
    obtain ⟨winner, member⟩ := won
    exact ⟨winner, elected.symm ▸ member⟩
  have stable (term : Nat) (_won : before.Won term) : history term <+: history term :=
    List.prefix_rfl
  refine ⟨elections, leaderLog, ?_, bounded, ?_, ?_, ?_⟩
  · intro id
    exact copied_mono (copied id) wonOn stable
  · intro term won
    exact copied_mono (invariant.historyCopied term (wonBack term won)) wonOn stable
  · intro term won
    exact invariant.historyBounded term (wonBack term won)
  · intro message member
    rw [appends] at member
    exact vouched_mono (invariant.vouched message member)
      (fun pair present => elected.symm ▸ present) stable

/-- A node whose term does not fall and whose log is a prefix of a log of copies
bounded by its new term, when it does not come out as leader. -/
theorem settle {before after : Net} {history : Nat → Log}
    (invariant : MatchingInvariant n before history) (elections : ElectionInvariant n after)
    (id : NodeId) (node : Node) (nodes : after.nodes = (before.setNode id node).nodes)
    (elected : after.elected = before.elected) (appends : after.appends = before.appends)
    (leaderLog : node.role = .leader → node.log = history node.term)
    (copied : before.Copied history node.log)
    (bounded : ∀ entry ∈ node.log, entry.selfTerm ≤ node.term) :
    MatchingInvariant n after history := by
  have atId : after.nodes id = node := by rw [nodes, setNode_nodes_self]
  have atOther (other : NodeId) (different : other ≠ id) :
      after.nodes other = before.nodes other := by
    rw [nodes, setNode_nodes_other before id other node different]
  refine invariant.keep elections elected appends ?_ ?_ ?_
  · intro other isLeader
    by_cases same : other = id
    · subst same
      rw [atId] at isLeader ⊢
      exact leaderLog isLeader
    · rw [atOther other same] at isLeader ⊢
      exact invariant.leaderLog other isLeader
  · intro other
    by_cases same : other = id
    · subst same
      rw [atId]
      exact copied
    · rw [atOther other same]
      exact invariant.copied other
  · intro other
    by_cases same : other = id
    · subst same
      rw [atId]
      exact bounded
    · rw [atOther other same]
      exact invariant.bounded other

/-! ### The steps that leave every history alone -/

theorem startElection {before : Net} {history : Nat → Log}
    (invariant : MatchingInvariant n before history) (id : NodeId) (bound : id < n) :
    MatchingInvariant n (before.startElection id) history := by
  refine invariant.settle (invariant.elections.startElection id bound) id _ rfl rfl rfl
    (fun impossible => by cases impossible) (invariant.copied id) ?_
  intro entry member
  exact Nat.le_succ_of_le (invariant.bounded id entry member)

theorem adoptVote {before after : Net} {history : Nat → Log}
    (invariant : MatchingInvariant n before history) (elections : ElectionInvariant n after)
    (voter : NodeId) (term : Nat) (vote : Option NodeId)
    (nodes : after.nodes = (before.setNode voter
      { (before.nodes voter).adoptVoteTerm term with votedFor := vote }).nodes)
    (elected : after.elected = before.elected) (appends : after.appends = before.appends) :
    MatchingInvariant n after history := by
  refine invariant.settle elections voter _ nodes elected appends ?_ ?_ ?_
  · intro isLeader
    change ((before.nodes voter).adoptVoteTerm term).log =
      history ((before.nodes voter).adoptVoteTerm term).term
    rcases Node.adoptVoteTerm_role_cases (before.nodes voter) term with
      ⟨same, _⟩ | ⟨_, follows, _⟩
    · change ((before.nodes voter).adoptVoteTerm term).role = .leader at isLeader
      rw [same] at isLeader ⊢
      exact invariant.leaderLog voter isLeader
    · change ((before.nodes voter).adoptVoteTerm term).role = .leader at isLeader
      rw [follows] at isLeader
      cases isLeader
  · change before.Copied history ((before.nodes voter).adoptVoteTerm term).log
    rw [Node.adoptVoteTerm_log]
    exact invariant.copied voter
  · intro entry member
    change entry ∈ ((before.nodes voter).adoptVoteTerm term).log at member
    change entry.selfTerm ≤ ((before.nodes voter).adoptVoteTerm term).term
    rw [Node.adoptVoteTerm_log] at member
    rw [Node.adoptVoteTerm_term]
    exact Nat.le_trans (invariant.bounded voter entry member) (Nat.le_max_left _ _)

theorem inert {before after : Net} {history : Nat → Log}
    (invariant : MatchingInvariant n before history) (elections : ElectionInvariant n after)
    (id : NodeId) (node : Node) (nodes : after.nodes = (before.setNode id node).nodes)
    (elected : after.elected = before.elected) (appends : after.appends = before.appends)
    (log : node.log = (before.nodes id).log) (term : node.term = (before.nodes id).term)
    (role : node.role = (before.nodes id).role) : MatchingInvariant n after history := by
  refine invariant.settle elections id node nodes elected appends ?_ ?_ ?_
  · intro isLeader
    rw [log, term]
    exact invariant.leaderLog id (role ▸ isLeader)
  · rw [log]
    exact invariant.copied id
  · rw [log, term]
    exact invariant.bounded id

theorem anchor_agrees {net : Net} {history : Nat → Log}
    (invariant : MatchingInvariant n net history) {message : AppendMessage}
    (sent : message ∈ net.appends) (id : NodeId)
    (agrees : message.prevIndex = 0 ∨
      Log.termOf (net.nodes id).log message.prevIndex = some message.prevTerm) :
    message.prevIndex ≤ (net.nodes id).log.length ∧
      (net.nodes id).log.take message.prevIndex =
        (history message.term).take message.prevIndex := by
  have vouched := invariant.vouched message sent
  rcases agrees with start | matched
  · rw [start]
    exact ⟨Nat.zero_le _, rfl⟩
  · obtain ⟨position, entry, index, found, term⟩ := (Log.termOf_eq_some_iff _ _ _).mp matched
    have positive := invariant.entry_term_pos id found
    obtain ⟨sourcePosition, sourceEntry, sourceIndex, sourceFound, sourceTerm⟩ :=
      (Log.termOf_eq_some_iff _ _ _).mp (vouched.anchor (by omega))
    have samePosition : sourcePosition = position := by omega
    subst samePosition
    rw [index]
    refine ⟨lt_length_of_getElem? found, ?_⟩
    exact (invariant.copied id).take_eq
      (invariant.historyCopied message.term ⟨message.source, vouched.won⟩) found sourceFound
      (term.trans sourceTerm.symm)

/-- An accepted append leaves the follower's log alone, when it already holds the
sender's log through the message, or makes it the sender's log through the message. -/
theorem accepted_log {net : Net} {history : Nat → Log}
    (invariant : MatchingInvariant n net history) {message : AppendMessage}
    (sent : message ∈ net.appends) (id : NodeId)
    (agrees : message.prevIndex = 0 ∨
      Log.termOf (net.nodes id).log message.prevIndex = some message.prevTerm) :
    let covered := (history message.term).take (message.prevIndex + message.entries.length)
    let log := Node.appendLoop (net.nodes id).log (message.prevIndex + 1) message.entries
    (covered <+: (net.nodes id).log ∧ log = (net.nodes id).log) ∨
      (¬covered <+: (net.nodes id).log ∧ log = covered) := by
  have vouched := invariant.vouched message sent
  obtain ⟨reached, agree⟩ := invariant.anchor_agrees sent id agrees
  exact appendLoop_slice (net.nodes id).log (history message.term) message.prevIndex
    message.entries reached agree vouched.slice
    ((invariant.copied id).termsDetermine
      (invariant.historyCopied message.term ⟨message.source, vouched.won⟩))

theorem follow {before after : Net} {history : Nat → Log}
    (invariant : MatchingInvariant n before history) (elections : ElectionInvariant n after)
    {message : AppendMessage} (sent : message ∈ before.appends) (node : Node)
    (nodes : after.nodes = (before.setNode message.dest node).nodes)
    (elected : after.elected = before.elected) (appends : after.appends = before.appends)
    (order : (before.nodes message.dest).term ≤ message.term) (term : node.term = message.term)
    (follows : node.role = .follower)
    (log : node.log <+: (before.nodes message.dest).log ∨ node.log <+: history message.term) :
    MatchingInvariant n after history := by
  have vouched := invariant.vouched message sent
  have won : before.Won message.term := ⟨message.source, vouched.won⟩
  refine invariant.settle elections message.dest node nodes elected appends ?_ ?_ ?_
  · intro isLeader
    rw [follows] at isLeader
    cases isLeader
  · rcases log with own | senders
    · exact (invariant.copied message.dest).of_isPrefix own
    · exact (invariant.historyCopied message.term won).of_isPrefix senders
  · intro entry member
    rw [term]
    rcases log with own | senders
    · exact Nat.le_trans (invariant.bounded message.dest entry (own.subset member)) order
    · exact invariant.historyBounded message.term won entry (senders.subset member)

theorem sendAppend {before : Net} {history : Nat → Log}
    (invariant : MatchingInvariant n before history) (id dest : NodeId) (prevIndex count : Nat)
    (different : dest ≠ id) (leads : (before.nodes id).role = .leader)
    (elections : ElectionInvariant n
      { before with appends := before.appendFrom id dest prevIndex count :: before.appends }) :
    MatchingInvariant n
      { before with appends := before.appendFrom id dest prevIndex count :: before.appends }
      history := by
  refine ⟨elections, invariant.leaderLog, invariant.copied, invariant.bounded,
    invariant.historyCopied, invariant.historyBounded, ?_⟩
  intro message member
  rcases List.mem_cons.mp member with fresh | old
  · rw [fresh]
    refine ⟨invariant.elections.leads id leads, different, ?_, ?_⟩
    · change ((before.nodes id).log.drop prevIndex).take count <+:
        (history (before.nodes id).term).drop prevIndex
      rw [← invariant.leaderLog id leads]
      exact List.take_prefix _ _
    · intro nonzero
      change (Log.termOf (before.nodes id).log prevIndex).getD 0 ≠ 0 at nonzero
      change Log.termOf (history (before.nodes id).term) prevIndex =
        some ((Log.termOf (before.nodes id).log prevIndex).getD 0)
      rw [← invariant.leaderLog id leads]
      cases found : Log.termOf (before.nodes id).log prevIndex with
      | none => simp [found] at nonzero
      | some term => rfl
  · exact vouched_mono (invariant.vouched message old) (fun _ present => present)
      (fun _ _ => List.prefix_rfl)

/-! ### The steps that grow a term's log -/

theorem propose {before : Net} {history : Nat → Log}
    (invariant : MatchingInvariant n before history) (id : NodeId) (cmd : Op) (node : Node)
    (leads : (before.nodes id).role = .leader) (term : node.term = (before.nodes id).term)
    (log : node.log = (before.nodes id).log ++ [{ selfTerm := node.term, cmd := cmd }])
    (elections : ElectionInvariant n (before.setNode id node)) :
    MatchingInvariant n (before.setNode id node)
      (Function.update history node.term node.log) := by
  let grown := Function.update history node.term node.log
  have wonTerm : before.Won node.term := ⟨id, term ▸ invariant.elections.leads id leads⟩
  have oldLog : history node.term = (before.nodes id).log := by
    rw [term]
    exact (invariant.leaderLog id leads).symm
  have grows (other : Nat) (_won : before.Won other) : history other <+: grown other := by
    by_cases same : other = node.term
    · subst same
      rw [oldLog]
      simp only [grown, Function.update_self, log]
      exact List.prefix_append _ _
    · simp only [grown, Function.update_of_ne same]
      exact List.prefix_rfl
  have wonOn (other : Nat) (won : before.Won other) : (before.setNode id node).Won other := won
  have nodeCopied : (before.setNode id node).Copied grown node.log := by
    intro position entry found
    by_cases inside : position < (before.nodes id).log.length
    · have oldAt : (before.nodes id).log[position]? = some entry := by
        rw [log, List.getElem?_append_left inside] at found
        exact found
      obtain ⟨won, source⟩ := copied_mono (invariant.copied id) wonOn grows position entry oldAt
      refine ⟨won, ?_⟩
      rw [log, List.take_append_of_le_length inside]
      exact source
    · have last : position = (before.nodes id).log.length := by
        have bound := lt_length_of_getElem? found
        rw [log, List.length_append, List.length_singleton] at bound
        omega
      have isNew : entry = { selfTerm := node.term, cmd := cmd } := by
        rw [log, last, List.getElem?_concat_length] at found
        exact (Option.some.inj found).symm
      rw [isNew]
      refine ⟨wonTerm, ?_⟩
      simp only [grown, Function.update_self]
      exact List.take_prefix _ _
  have nodeBounded : ∀ entry ∈ node.log, entry.selfTerm ≤ node.term := by
    intro entry member
    rw [log] at member
    rcases List.mem_append.mp member with old | new
    · rw [term]
      exact invariant.bounded id entry old
    · rw [List.mem_singleton.mp new]
  refine ⟨elections, ?_, ?_, ?_, ?_, ?_, ?_⟩
  · intro other isLeader
    by_cases same : other = id
    · subst same
      rw [setNode_nodes_self, Function.update_self]
    · rw [setNode_nodes_other before id other node same] at isLeader ⊢
      have apart : (before.nodes other).term ≠ node.term := by
        intro sameTerm
        apply same
        have otherWon := invariant.elections.leads other isLeader
        have selfWon := invariant.elections.leads id leads
        rw [sameTerm, term] at otherWon
        exact invariant.elections.elected_unique otherWon selfWon
      rw [Function.update_of_ne apart]
      exact invariant.leaderLog other isLeader
  · intro other
    by_cases same : other = id
    · subst same
      rw [setNode_nodes_self]
      exact nodeCopied
    · rw [setNode_nodes_other before id other node same]
      exact copied_mono (invariant.copied other) wonOn grows
  · intro other
    by_cases same : other = id
    · subst same
      rw [setNode_nodes_self]
      exact nodeBounded
    · rw [setNode_nodes_other before id other node same]
      exact invariant.bounded other
  · intro other won
    by_cases same : other = node.term
    · subst same
      rw [Function.update_self]
      exact nodeCopied
    · rw [Function.update_of_ne same]
      exact copied_mono (invariant.historyCopied other won) wonOn grows
  · intro other won
    by_cases same : other = node.term
    · subst same
      rw [Function.update_self]
      exact nodeBounded
    · rw [Function.update_of_ne same]
      exact invariant.historyBounded other won
  · intro message member
    exact vouched_mono (invariant.vouched message member) (fun _ present => present) grows

/-- A candidate holding a majority has its term to itself: nobody won it before. -/
theorem term_unwon {before : Net} {history : Nat → Log}
    (invariant : MatchingInvariant n before history) (id : NodeId)
    (stands : (before.nodes id).role = .candidate)
    (elections : ElectionInvariant n (before.becomeLeader id)) :
    ¬before.Won (before.nodes id).term := by
  rintro ⟨winner, member⟩
  have sameWinner : winner = id :=
    elections.elected_unique (List.mem_cons_of_mem _ member) List.mem_cons_self
  subst sameWinner
  exact (invariant.elections.candidateFresh winner stands).2 member

theorem becomeLeader {before : Net} {history : Nat → Log}
    (invariant : MatchingInvariant n before history) (id : NodeId)
    (stands : (before.nodes id).role = .candidate)
    (elections : ElectionInvariant n (before.becomeLeader id)) :
    MatchingInvariant n (before.becomeLeader id)
      (Function.update history (before.nodes id).term (before.nodes id).log) := by
  let term := (before.nodes id).term
  let grown := Function.update history term (before.nodes id).log
  have unwon := invariant.term_unwon id stands elections
  have wonOn (other : Nat) (won : before.Won other) : (before.becomeLeader id).Won other := by
    obtain ⟨winner, member⟩ := won
    exact ⟨winner, List.mem_cons_of_mem _ member⟩
  have sameHistory (other : Nat) (won : before.Won other) : grown other = history other := by
    have apart : other ≠ term := by
      intro same
      rw [same] at won
      exact unwon won
    simp only [grown, Function.update_of_ne apart]
  have grows (other : Nat) (won : before.Won other) : history other <+: grown other := by
    rw [sameHistory other won]
  have wonCases (other : Nat) (won : (before.becomeLeader id).Won other) :
      other = term ∨ before.Won other := by
    obtain ⟨winner, member⟩ := won
    rcases List.mem_cons.mp member with same | old
    · exact Or.inl (congrArg Prod.fst same)
    · exact Or.inr ⟨winner, old⟩
  have logs (other : NodeId) :
      ((before.becomeLeader id).nodes other).log = (before.nodes other).log ∧
        ((before.becomeLeader id).nodes other).term = (before.nodes other).term := by
    by_cases same : other = id
    · subst same
      simp only [Net.becomeLeader, setNode_nodes_self, Node.becomeLeader, and_self]
    · simp only [Net.becomeLeader, setNode_nodes_other before id other _ same, and_self]
  refine ⟨elections, ?_, ?_, ?_, ?_, ?_, ?_⟩
  · intro other isLeader
    rw [(logs other).1, (logs other).2]
    by_cases same : other = id
    · subst same
      rw [Function.update_self]
    · have otherLeads : (before.nodes other).role = .leader := by
        simpa only [Net.becomeLeader, setNode_nodes_other before id other _ same] using isLeader
      have won : before.Won (before.nodes other).term :=
        ⟨other, invariant.elections.leads other otherLeads⟩
      exact (invariant.leaderLog other otherLeads).trans (sameHistory _ won).symm
  · intro other
    rw [(logs other).1]
    exact copied_mono (invariant.copied other) wonOn grows
  · intro other
    rw [(logs other).1, (logs other).2]
    exact invariant.bounded other
  · intro other won
    rcases wonCases other won with same | old
    · subst same
      rw [Function.update_self]
      exact copied_mono (invariant.copied id) wonOn grows
    · change (before.becomeLeader id).Copied grown (grown other)
      rw [sameHistory other old]
      exact copied_mono (invariant.historyCopied other old) wonOn grows
  · intro other won
    rcases wonCases other won with same | old
    · subst same
      rw [Function.update_self]
      exact invariant.bounded id
    · change ∀ entry ∈ grown other, entry.selfTerm ≤ other
      rw [sameHistory other old]
      exact invariant.historyBounded other old
  · intro message member
    exact vouched_mono (invariant.vouched message member)
      (fun _ present => List.mem_cons_of_mem _ present) grows

/-! ### Runs -/

/-- How a step grows the term logs: a promotion opens one, a proposal extends one. -/
def growHistory (before after : Net) (history : Nat → Log) : Action → Nat → Log
  | .becomeLeader id => Function.update history (before.nodes id).term (before.nodes id).log
  | .propose id _ => Function.update history (after.nodes id).term (after.nodes id).log
  | _ => history

theorem step {before after : Net} {action : Action} {history : Nat → Log}
    (invariant : MatchingInvariant n before history) (effect : Effect n before action after) :
    MatchingInvariant n after (growHistory before after history action) := by
  have elections := invariant.elections.step effect
  cases effect with
  | startElection id bound => exact invariant.startElection id bound
  | voteDenied request voter sent bound =>
      exact invariant.adoptVote elections voter request.term
        ((before.nodes voter).adoptVoteTerm request.term).votedFor rfl rfl rfl
  | voteGranted request voter sent bound order free eligible =>
      exact invariant.adoptVote elections voter request.term (some request.candidate) rfl rfl rfl
  | becomeLeader id bound stands majority => exact invariant.becomeLeader id stands elections
  | propose id cmd bound leads =>
      dsimp only [growHistory]
      rw [setNode_nodes_self]
      exact invariant.propose id cmd _ leads rfl rfl elections
  | sendAppend id dest prevIndex count bound destBound different leads =>
      exact invariant.sendAppend id dest prevIndex count different leads elections
  | appendStale message sent stale => exact invariant
  | appendRejected message sent order anchored differs =>
      exact invariant.follow elections sent _ rfl rfl rfl order
        (Node.adoptLeader_term message.source order) (Node.adoptLeader_role _ _ _)
        (Or.inl (Node.cutAt_isPrefix _ _))
  | appendAccepted message sent order agrees =>
      refine invariant.follow elections sent _ rfl rfl rfl order
        (Node.adoptLeader_term message.source order) (Node.adoptLeader_role _ _ _) ?_
      rcases invariant.accepted_log sent message.dest agrees with ⟨_, kept⟩ | ⟨_, taken⟩
      · exact Or.inl (by rw [kept])
      · exact Or.inr (by rw [taken]; exact List.take_prefix _ _)
  | deliverAck ack id sent bound leads sameTerm =>
      exact invariant.inert elections id _ rfl rfl rfl rfl rfl rfl
  | advanceCommit id bound =>
      rcases Node.advanceCommit_cases (before.nodes id) with same | ⟨index, moved, _⟩
      · exact invariant.inert elections id _ rfl rfl rfl (by rw [same]) (by rw [same])
          (by rw [same])
      · exact invariant.inert elections id _ rfl rfl rfl (by rw [moved]) (by rw [moved])
          (by rw [moved])
  | applyCommitted id bound =>
      exact invariant.inert elections id _ rfl rfl rfl rfl rfl rfl

end MatchingInvariant

theorem matchingInvariant_of_reachable {n : Nat} {net : Net} (reached : Reachable n net) :
    ∃ history, MatchingInvariant n net history := by
  induction reached with
  | refl => exact ⟨_, MatchingInvariant.initial⟩
  | tail _ last ih =>
      obtain ⟨action, taken⟩ := last
      obtain ⟨history, invariant⟩ := ih
      exact ⟨_, invariant.step (step_effect taken)⟩

/-- In every reachable state, two logs that hold the same term at the same index
are identical through it, and terms never decrease along a log. -/
theorem log_matching (n : Nat) (net : Net) (reached : Reachable n net) :
    (∀ left right index leftEntry rightEntry,
      Log.get (net.nodes left).log index = some leftEntry →
      Log.get (net.nodes right).log index = some rightEntry →
      leftEntry.selfTerm = rightEntry.selfTerm →
      ∀ earlier, earlier ≤ index →
        Log.get (net.nodes left).log earlier = Log.get (net.nodes right).log earlier) ∧
    (∀ id early late earlyEntry lateEntry, early ≤ late →
      Log.get (net.nodes id).log early = some earlyEntry →
      Log.get (net.nodes id).log late = some lateEntry →
      earlyEntry.selfTerm ≤ lateEntry.selfTerm) := by
  obtain ⟨history, invariant⟩ := matchingInvariant_of_reachable reached
  constructor
  · intro left right index leftEntry rightEntry leftAt rightAt sameTerm earlier order
    cases index with
    | zero => cases leftAt
    | succ position =>
        rw [Log.get_succ] at leftAt rightAt
        have agree := (invariant.copied left).take_eq (invariant.copied right) leftAt rightAt
          sameTerm
        cases earlier with
        | zero => rfl
        | succ before =>
            have inside : before < position + 1 := by omega
            rw [Log.get_succ, Log.get_succ, ← List.getElem?_take_of_lt inside, agree,
              List.getElem?_take_of_lt inside]
  · intro id early late earlyEntry lateEntry order earlyAt lateAt
    cases early with
    | zero => cases earlyAt
    | succ early =>
        cases late with
        | zero => cases lateAt
        | succ late =>
            rw [Log.get_succ] at earlyAt lateAt
            exact invariant.terms_mono (invariant.copied id) (by omega) earlyAt lateAt

theorem log_matching_after_first_commit :
    ∃ net, (initial 3).run 3 (electAndCommit 0 1 1 (.put [1] [2])) = some net ∧
      Log.termOf (net.nodes 0).log 1 = some 1 ∧ Log.termOf (net.nodes 1).log 1 = some 1 ∧
      ∀ left right index leftEntry rightEntry,
        Log.get (net.nodes left).log index = some leftEntry →
        Log.get (net.nodes right).log index = some rightEntry →
        leftEntry.selfTerm = rightEntry.selfTerm → ∀ earlier, earlier ≤ index →
          Log.get (net.nodes left).log earlier = Log.get (net.nodes right).log earlier :=
  let actions := electAndCommit 0 1 1 (.put [1] [2])
  ⟨((initial 3).run 3 actions).get (by decide), (Option.some_get _).symm, by decide, by decide,
    (log_matching 3 _ (steps_of_run (Option.some_get (by decide)).symm)).1⟩

end Net

end Keystory.Raft
