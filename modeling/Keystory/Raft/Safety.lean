/-
State machine safety on the asynchronous network.

An index is chosen in a term when a majority acknowledged it there and the entry
is of that very term; it is blocked when a majority has moved on to later terms
without acknowledging it. The two exclude each other, and every later leader
either holds what an earlier term appended or leaves it blocked. That is leader
completeness in the form one step at a time preserves.

Appends are anchored inside their sender's log throughout: a consistency check
that fails is then a real conflict with the sender, never a committed entry.
-/

import Keystory.Raft.LogMatching

namespace Keystory.Raft

open General

namespace Net

/-! ### Acknowledged, blocked and chosen indices -/

/-- Node `voter` acknowledged the term's log through `index`; the leader of the
term holds all of it. -/
def Acked (net : Net) (history : Nat → Log) (term : Nat) (voter : NodeId) (index : Nat) : Prop :=
  (∃ ack ∈ net.acks, ack.term = term ∧ ack.follower = voter ∧ index ≤ ack.index) ∨
    ((term, voter) ∈ net.elected ∧ index ≤ (history term).length)

def OwnEntry (history : Nat → Log) (term index : Nat) : Prop :=
  Log.termOf (history term) index = some term

def Blocked (n : Nat) (net : Net) (history : Nat → Log) (term index : Nat) : Prop :=
  ∃ members, IsQuorum n members ∧
    ∀ voter ∈ members, term < (net.nodes voter).term ∧ ¬net.Acked history term voter index

structure Chosen (n : Nat) (net : Net) (history : Nat → Log) (term index : Nat) : Prop where
  won : net.Won term
  own : OwnEntry history term index
  held : ∃ members, IsQuorum n members ∧ ∀ voter ∈ members, net.Acked history term voter index

theorem Chosen.not_blocked {n : Nat} {net : Net} {history : Nat → Log} {term index : Nat}
    (chosen : net.Chosen n history term index) : ¬net.Blocked n history term index := by
  rintro ⟨blocked, blockedQuorum, missing⟩
  obtain ⟨held, heldQuorum, acked⟩ := chosen.held
  obtain ⟨voter, inHeld, inBlocked⟩ := heldQuorum.intersect blockedQuorum
  exact (missing voter inBlocked).2 (acked voter inHeld)

theorem OwnEntry.position {history : Nat → Log} {term index : Nat}
    (own : OwnEntry history term index) :
    ∃ position entry, index = position + 1 ∧ (history term)[position]? = some entry ∧
      entry.selfTerm = term :=
  (Log.termOf_eq_some_iff _ _ _).mp own

theorem OwnEntry.length_take {history : Nat → Log} {term index : Nat}
    (own : OwnEntry history term index) : ((history term).take index).length = index := by
  obtain ⟨position, entry, same, found, _⟩ := own.position
  rw [same]
  exact List.length_take_of_le (lt_length_of_getElem? found)

/-- A commit index that a chosen entry of a term up to `term` covers, with `log`
holding the chosen log through it. -/
def Certified (n : Nat) (net : Net) (history : Nat → Log) (term commit : Nat) (log : Log) : Prop :=
  commit = 0 ∨ ∃ chosenTerm index, net.Chosen n history chosenTerm index ∧ chosenTerm ≤ term ∧
    commit ≤ index ∧ (history chosenTerm).take commit <+: log

/-- The tip a vote request carries is at least as up to date as `log`. -/
def TipCovers (lastIndex lastTerm : Nat) (log : Log) : Prop :=
  Log.lastTerm log < lastTerm ∨ (lastTerm = Log.lastTerm log ∧ log.length ≤ lastIndex)

/-- What the voter's log was when it granted: copies only, no more up to date than
the candidate's tip, and still holding what the voter had acknowledged before,
unless that is blocked. -/
structure Ballot (n : Nat) (net : Net) (history : Nat → Log) (grant : Grant) (log : Log) :
    Prop where
  copied : net.Copied history log
  covered : ∃ request ∈ net.requests, request.candidate = grant.candidate ∧
    request.term = grant.term ∧ TipCovers request.lastIndex request.lastTerm log
  held : ∀ term index, term < grant.term → net.Acked history term grant.voter index →
    OwnEntry history term index →
      (history term).take index <+: log ∨ net.Blocked n history term index

structure SafetyInvariant (n : Nat) (net : Net) (history : Nat → Log) : Prop where
  matching : MatchingInvariant n net history
  anchored : ∀ message ∈ net.appends, message.dest < n ∧ (message.prevIndex ≠ 0 →
    Log.termOf (history message.term) message.prevIndex = some message.prevTerm)
  tips : ∀ request ∈ net.requests, request.term ≤ (net.nodes request.candidate).term ∧
    ((net.nodes request.candidate).term = request.term →
      (net.nodes request.candidate).role = .candidate →
        request.lastIndex = (net.nodes request.candidate).log.length ∧
        request.lastTerm = Log.lastTerm (net.nodes request.candidate).log)
  acks : ∀ ack ∈ net.acks, net.Won ack.term ∧ ack.term ≤ (net.nodes ack.follower).term ∧
    ack.index ≤ (history ack.term).length ∧ ack.follower < n
  retained : ∀ term voter index, net.Acked history term voter index →
    OwnEntry history term index →
      (history term).take index <+: (net.nodes voter).log ∨ net.Blocked n history term index
  complete : ∀ term later index, net.Won term → net.Won later → term < later →
    OwnEntry history term index →
      (history term).take index <+: history later ∨ net.Blocked n history term index
  ballots : ∀ grant ∈ net.grants, ∃ log, net.Ballot n history grant log
  matched : ∀ id, (net.nodes id).role = .leader → ∀ voter index,
    (net.nodes id).matchIdx.find? voter = some index → 1 ≤ index →
      voter < n ∧ net.Acked history (net.nodes id).term voter index
  committed : ∀ id,
    net.Certified n history (net.nodes id).term (net.nodes id).commitIdx (net.nodes id).log
  sentCommits : ∀ message ∈ net.appends,
    net.Certified n history message.term message.leaderCommit (history message.term)
  appliedState : ∀ id, (net.nodes id).applied ≤ (net.nodes id).commitIdx ∧
    (net.nodes id).state = Node.stateOf ((net.nodes id).log.take (net.nodes id).applied)

/-! ### What growing histories keep -/

/-- A step never forgets, and a node past a term acknowledges nothing more in it. -/
structure Growth (before after : Net) (old new : Nat → Log) : Prop where
  elected : ∀ pair ∈ before.elected, pair ∈ after.elected
  acks : ∀ ack ∈ before.acks, ack ∈ after.acks
  requests : ∀ request ∈ before.requests, request ∈ after.requests
  grows : ∀ term, before.Won term → old term <+: new term
  terms : ∀ id, (before.nodes id).term ≤ (after.nodes id).term
  ackedBack : ∀ term voter index, term < (before.nodes voter).term →
    after.Acked new term voter index → before.Acked old term voter index

namespace Growth

variable {n : Nat} {before after : Net} {old new : Nat → Log}

theorem won (growth : Growth before after old new) {term : Nat} (won : before.Won term) :
    after.Won term := by
  obtain ⟨winner, member⟩ := won
  exact ⟨winner, growth.elected _ member⟩

theorem acked (growth : Growth before after old new) {term index : Nat} {voter : NodeId}
    (acked : before.Acked old term voter index) : after.Acked new term voter index := by
  rcases acked with ⟨ack, member, rest⟩ | ⟨member, reached⟩
  · exact Or.inl ⟨ack, growth.acks ack member, rest⟩
  · exact Or.inr ⟨growth.elected _ member,
      Nat.le_trans reached (growth.grows term ⟨voter, member⟩).length_le⟩

theorem blocked (growth : Growth before after old new) {term index : Nat}
    (blocked : before.Blocked n old term index) : after.Blocked n new term index := by
  obtain ⟨members, quorum, missing⟩ := blocked
  refine ⟨members, quorum, fun voter member => ?_⟩
  obtain ⟨past, notAcked⟩ := missing voter member
  exact ⟨Nat.lt_of_lt_of_le past (growth.terms voter),
    fun acked => notAcked (growth.ackedBack term voter index past acked)⟩

theorem take_eq (growth : Growth before after old new) {term index : Nat}
    (won : before.Won term) (reached : index ≤ (old term).length) :
    (new term).take index = (old term).take index := by
  obtain ⟨rest, same⟩ := growth.grows term won
  rw [← same, List.take_append_of_le_length reached]

theorem ownEntry (growth : Growth before after old new) {term index : Nat}
    (won : before.Won term) (own : OwnEntry old term index) : OwnEntry new term index := by
  obtain ⟨position, entry, same, found, sameTerm⟩ := own.position
  exact (Log.termOf_eq_some_iff _ _ _).mpr
    ⟨position, entry, same, getElem?_of_isPrefix (growth.grows term won) found, sameTerm⟩

theorem ownEntry_back (growth : Growth before after old new) {term index : Nat}
    (won : before.Won term) (reached : index ≤ (old term).length)
    (own : OwnEntry new term index) : OwnEntry old term index := by
  obtain ⟨position, entry, same, found, sameTerm⟩ := own.position
  have oldAt : (old term)[position]? = some entry := by
    rw [getElem?_of_isPrefix_of_lt (growth.grows term won) (by omega)]
    exact found
  exact (Log.termOf_eq_some_iff _ _ _).mpr ⟨position, entry, same, oldAt, sameTerm⟩

theorem chosen (growth : Growth before after old new) {term index : Nat}
    (chosen : before.Chosen n old term index) : after.Chosen n new term index := by
  obtain ⟨members, quorum, acked⟩ := chosen.held
  exact ⟨growth.won chosen.won, growth.ownEntry chosen.won chosen.own, members, quorum,
    fun voter member => growth.acked (acked voter member)⟩

theorem certified (growth : Growth before after old new) {term later commit : Nat} {log : Log}
    (certified : before.Certified n old term commit log) (order : term ≤ later) :
    after.Certified n new later commit log := by
  rcases certified with zero | ⟨chosenTerm, index, chosen, bound, covers, held⟩
  · exact Or.inl zero
  · refine Or.inr ⟨chosenTerm, index, growth.chosen chosen, Nat.le_trans bound order, covers, ?_⟩
    have reached : index ≤ (old chosenTerm).length := by
      have full := chosen.own.length_take
      rw [List.length_take] at full
      omega
    rw [growth.take_eq chosen.won (Nat.le_trans covers reached)]
    exact held

theorem refl (net : Net) (history : Nat → Log) : Growth net net history history where
  elected := fun _ member => member
  acks := fun _ member => member
  requests := fun _ member => member
  grows := fun _ _ => List.prefix_rfl
  terms := fun _ => Nat.le_refl _
  ackedBack := fun _ _ _ _ acked => acked

theorem trans {middle : Net} {between : Nat → Log} (first : Growth before middle old between)
    (second : Growth middle after between new) : Growth before after old new where
  elected := fun pair member => second.elected pair (first.elected pair member)
  acks := fun ack member => second.acks ack (first.acks ack member)
  requests := fun request member => second.requests request (first.requests request member)
  grows := fun term won => (first.grows term won).trans (second.grows term (first.won won))
  terms := fun id => Nat.le_trans (first.terms id) (second.terms id)
  ackedBack := fun term voter index past acked =>
    first.ackedBack term voter index past (second.ackedBack term voter index
      (Nat.lt_of_lt_of_le past (first.terms voter)) acked)

end Growth

theorem Acked.reached {n : Nat} {net : Net} {history : Nat → Log}
    (invariant : SafetyInvariant n net history) {term index : Nat} {voter : NodeId}
    (acked : net.Acked history term voter index) :
    net.Won term ∧ term ≤ (net.nodes voter).term ∧ index ≤ (history term).length := by
  rcases acked with ⟨ack, member, rfl, rfl, covers⟩ | ⟨member, reached⟩
  · obtain ⟨won, order, bound, _⟩ := invariant.acks ack member
    exact ⟨won, order, Nat.le_trans covers bound⟩
  · exact ⟨⟨voter, member⟩, (invariant.matching.elections.won term voter member).2.2.1, reached⟩

theorem Ballot.mono {n : Nat} {before after : Net} {old new : Nat → Log} {grant : Grant}
    {log : Log} (ballot : before.Ballot n old grant log)
    (invariant : SafetyInvariant n before old) (growth : Growth before after old new)
    (current : grant.term ≤ (before.nodes grant.voter).term) : after.Ballot n new grant log := by
  obtain ⟨request, member, rest⟩ := ballot.covered
  refine ⟨MatchingInvariant.copied_mono ballot.copied (fun _ => growth.won) growth.grows,
    ⟨request, growth.requests request member, rest⟩, ?_⟩
  intro term index earlier acked own
  have ackedBefore := growth.ackedBack term grant.voter index (by omega) acked
  obtain ⟨won, _, reached⟩ := ackedBefore.reached invariant
  rcases ballot.held term index earlier ackedBefore (growth.ownEntry_back won reached own) with
    held | blocked
  · exact Or.inl (by rw [growth.take_eq won reached]; exact held)
  · exact Or.inr (growth.blocked blocked)

open MatchingInvariant (growHistory)

theorem Growth.quiet {before after : Net} {history : Nat → Log}
    (elected : after.elected = before.elected) (acks : after.acks = before.acks)
    (requests : ∀ request ∈ before.requests, request ∈ after.requests)
    (terms : ∀ id, (before.nodes id).term ≤ (after.nodes id).term) :
    Growth before after history history where
  elected := fun pair member => elected.symm ▸ member
  acks := fun ack member => acks.symm ▸ member
  requests := requests
  grows := fun _ _ => List.prefix_rfl
  terms := terms
  ackedBack := fun term voter index _ acked => by
    unfold Acked at acked ⊢
    rw [elected, acks] at acked
    exact acked

namespace SafetyInvariant

variable {n : Nat}

theorem growth_becomeLeader {before : Net} {history : Nat → Log}
    (invariant : SafetyInvariant n before history) (id : NodeId)
    (stands : (before.nodes id).role = .candidate)
    (elections : ElectionInvariant n (before.becomeLeader id))
    (terms : ∀ other, (before.nodes other).term ≤ ((before.becomeLeader id).nodes other).term) :
    Growth before (before.becomeLeader id) history
      (Function.update history (before.nodes id).term (before.nodes id).log) := by
  have unwon := invariant.matching.term_unwon id stands elections
  have sameHistory (term : Nat) (won : before.Won term) :
      Function.update history (before.nodes id).term (before.nodes id).log term = history term := by
    have apart : term ≠ (before.nodes id).term := by
      intro same
      rw [same] at won
      exact unwon won
    rw [Function.update_of_ne apart]
  refine ⟨fun _ => List.mem_cons_of_mem _, fun _ member => member, fun _ member => member,
    ?_, terms, ?_⟩
  · intro term won
    rw [sameHistory term won]
  · intro term voter index past acked
    rcases acked with byAck | ⟨member, reached⟩
    · exact Or.inl byAck
    · rcases List.mem_cons.mp member with promoted | earlier
      · cases promoted
        exact absurd past (Nat.lt_irrefl _)
      · rw [sameHistory term ⟨voter, earlier⟩] at reached
        exact Or.inr ⟨earlier, reached⟩

theorem growth_propose {before : Net} {history : Nat → Log}
    (invariant : SafetyInvariant n before history) (id : NodeId) (node : Node)
    (leads : (before.nodes id).role = .leader) (term : node.term = (before.nodes id).term)
    (extends_ : (before.nodes id).log <+: node.log)
    (terms : ∀ other, (before.nodes other).term ≤ ((before.setNode id node).nodes other).term) :
    Growth before (before.setNode id node) history
      (Function.update history node.term node.log) := by
  refine ⟨fun _ member => member, fun _ member => member, fun _ member => member, ?_, terms, ?_⟩
  · intro other won
    by_cases same : other = node.term
    · subst same
      rw [Function.update_self, term, ← invariant.matching.leaderLog id leads]
      exact extends_
    · rw [Function.update_of_ne same]
  · intro other voter index past acked
    rcases acked with byAck | ⟨member, reached⟩
    · exact Or.inl byAck
    · have apart : other ≠ node.term := by
        intro same
        have own := invariant.matching.elections.leads id leads
        change (other, voter) ∈ before.elected at member
        rw [same, term] at member
        have sameNode := invariant.matching.elections.elected_unique member own
        subst sameNode
        omega
      rw [Function.update_of_ne apart] at reached
      exact Or.inr ⟨member, reached⟩

theorem growth_accept {before after : Net} {history : Nat → Log} (fresh : Ack)
    (elected : after.elected = before.elected) (acks : after.acks = fresh :: before.acks)
    (requests : after.requests = before.requests)
    (current : (before.nodes fresh.follower).term ≤ fresh.term)
    (terms : ∀ id, (before.nodes id).term ≤ (after.nodes id).term) :
    Growth before after history history := by
  refine ⟨fun _ member => elected.symm ▸ member, ?_, fun _ member => requests.symm ▸ member,
    fun _ _ => List.prefix_rfl, terms, ?_⟩
  · intro ack member
    rw [acks]
    exact List.mem_cons_of_mem _ member
  · intro term voter index past acked
    rcases acked with ⟨ack, member, sameTerm, sameVoter, covers⟩ | ⟨member, reached⟩
    · rw [acks] at member
      rcases List.mem_cons.mp member with isNew | earlier
      · subst isNew sameTerm sameVoter
        omega
      · exact Or.inl ⟨ack, earlier, sameTerm, sameVoter, covers⟩
    · exact Or.inr ⟨elected ▸ member, reached⟩

theorem growth {before after : Net} {action : Action} {history : Nat → Log}
    (invariant : SafetyInvariant n before history) (effect : Effect n before action after) :
    Growth before after history (growHistory before after history action) := by
  have terms (id : NodeId) : (before.nodes id).term ≤ (after.nodes id).term :=
    (effect_voteKept effect id).term_le
  have elections := invariant.matching.elections.step effect
  cases effect with
  | startElection id bound =>
      exact Growth.quiet rfl rfl (fun _ => List.mem_cons_of_mem _) terms
  | becomeLeader id bound stands majority =>
      exact invariant.growth_becomeLeader id stands elections terms
  | propose id cmd bound leads =>
      dsimp only [growHistory]
      rw [setNode_nodes_self]
      exact invariant.growth_propose id _ leads rfl (List.prefix_append _ _) terms
  | appendAccepted message sent order agrees =>
      exact growth_accept _ rfl rfl rfl order terms
  | voteDenied request voter sent bound
  | voteGranted request voter sent bound order free eligible
  | sendAppend id dest prevIndex count bound destBound different leads
  | appendStale message sent stale
  | appendRejected message sent order anchored differs
  | deliverAck ack id sent bound leads sameTerm
  | advanceCommit id bound
  | applyCommitted id bound =>
      exact Growth.quiet rfl rfl (fun _ member => member) terms

/-! ### Leader completeness -/

/-- A chosen entry is in the log of every later term that was won. -/
theorem chosen_in_later {net : Net} {history : Nat → Log}
    (invariant : SafetyInvariant n net history) {term index later : Nat}
    (chosen : net.Chosen n history term index) (won : net.Won later) (order : term ≤ later) :
    (history term).take index <+: history later := by
  rcases Nat.lt_or_eq_of_le order with earlier | same
  · exact (invariant.complete term later index chosen.won won earlier chosen.own).resolve_right
      chosen.not_blocked
  · rw [same]
    exact List.take_prefix _ _

theorem chosen_agree {net : Net} {history : Nat → Log}
    (invariant : SafetyInvariant n net history) {term otherTerm reached otherReached index : Nat}
    (chosen : net.Chosen n history term reached)
    (other : net.Chosen n history otherTerm otherReached) (order : term ≤ otherTerm)
    (inside : index ≤ reached) : (history term).take index = (history otherTerm).take index := by
  have held := List.prefix_iff_eq_take.mp (invariant.chosen_in_later chosen other.won order)
  rw [chosen.own.length_take] at held
  exact take_eq_take_of_le held inside

/-- A candidate whose tip covers a log that holds an entry holds it too, unless the
entry is blocked. -/
theorem dominate {net : Net} {history : Nat → Log}
    (invariant : SafetyInvariant n net history) {term index : Nat} (won : net.Won term)
    (own : OwnEntry history term index) {ballot log : Log}
    (ballotCopied : net.Copied history ballot) (logCopied : net.Copied history log)
    (held : (history term).take index <+: ballot)
    (covers : TipCovers log.length (Log.lastTerm log) ballot) :
    (history term).take index <+: log ∨ net.Blocked n history term index := by
  obtain ⟨position, entry, same, found, sameTerm⟩ := own.position
  have heldEntry : ballot[position]? = some entry := by
    apply getElem?_of_isPrefix held
    rw [List.getElem?_take_of_lt (by omega)]
    exact found
  have ballotReaches := lt_length_of_getElem? heldEntry
  obtain ⟨ballotLast, ballotAt, ballotTerm⟩ := Log.lastTerm_eq_of_getLast ballot
    (by intro empty; rw [empty] at ballotReaches; exact Nat.not_lt_zero _ ballotReaches)
  have termLe : term ≤ Log.lastTerm ballot := by
    rw [← ballotTerm, ← sameTerm]
    exact invariant.matching.terms_mono ballotCopied (by omega) heldEntry ballotAt
  have positive : 1 ≤ term := by
    obtain ⟨winner, member⟩ := won
    exact (invariant.matching.elections.won term winner member).2.1
  have logTermPos : 1 ≤ Log.lastTerm log := by
    rcases covers with newer | ⟨equal, _⟩ <;> omega
  obtain ⟨logLast, logAt, logTerm⟩ := Log.lastTerm_eq_of_getLast log
    (by intro empty; rw [empty, Log.lastTerm_nil] at logTermPos; omega)
  have logReaches := lt_length_of_getElem? logAt
  have logSource : log <+: history (Log.lastTerm log) := by
    have source := (logCopied _ logLast logAt).2
    rw [show log.length - 1 + 1 = log.length by omega, List.take_length, logTerm] at source
    exact source
  rcases covers with newer | ⟨equal, longer⟩
  · -- the log ends in a later term, whose own log either holds the entry or leaves it blocked
    have laterWon : net.Won (Log.lastTerm log) := logTerm ▸ (logCopied _ logLast logAt).1
    rcases invariant.complete term _ index won laterWon (by omega) own with inLater | blocked
    · left
      apply List.prefix_of_prefix_length_le inLater logSource
      rw [own.length_take]
      by_contra short
      have lastAt : (history (Log.lastTerm log))[log.length - 1]? = some logLast :=
        getElem?_of_isPrefix logSource logAt
      have entryAt : (history (Log.lastTerm log))[position]? = some entry := by
        apply getElem?_of_isPrefix inLater
        rw [List.getElem?_take_of_lt (by omega)]
        exact found
      have mono := invariant.matching.terms_mono
        (invariant.matching.historyCopied _ laterWon) (by omega) lastAt entryAt
      omega
    · exact Or.inr blocked
  · -- both logs end in one term, so the longer one extends the shorter
    left
    have ballotSource : ballot <+: history (Log.lastTerm log) := by
      have source := (ballotCopied _ ballotLast ballotAt).2
      rw [show ballot.length - 1 + 1 = ballot.length by omega, List.take_length, ballotTerm,
        ← equal] at source
      exact source
    exact held.trans (List.prefix_of_prefix_length_le ballotSource logSource longer)

theorem elected_complete {before after : Net} {history new : Nat → Log}
    (invariant : SafetyInvariant n before history) (growth : Growth before after history new)
    (id : NodeId) (stands : (before.nodes id).role = .candidate)
    (majority : n / 2 + 1 ≤ (before.voters n (before.nodes id).term id).card)
    {term index : Nat} (won : before.Won term) (earlier : term < (before.nodes id).term)
    (own : OwnEntry history term index) :
    (history term).take index <+: (before.nodes id).log ∨ after.Blocked n new term index := by
  by_cases someone : ∃ voter ∈ before.voters n (before.nodes id).term id,
      before.Acked history term voter index
  · obtain ⟨voter, member, acked⟩ := someone
    obtain ⟨_, granted⟩ := mem_voters.mp member
    obtain ⟨log, ballot⟩ := invariant.ballots _ granted
    rcases ballot.held term index earlier acked own with held | blocked
    · obtain ⟨request, sent, candidate, requestTerm, covers⟩ := ballot.covered
      obtain ⟨_, tip⟩ := invariant.tips request sent
      rw [candidate] at tip
      obtain ⟨lastIndex, lastTerm⟩ := tip requestTerm.symm stands
      rw [lastIndex, lastTerm] at covers
      exact (invariant.dominate won own ballot.copied (invariant.matching.copied id) held
        covers).imp_right growth.blocked
    · exact Or.inr (growth.blocked blocked)
  · right
    apply growth.blocked
    refine ⟨_, voters_isQuorum majority, fun voter member => ?_⟩
    obtain ⟨_, granted⟩ := mem_voters.mp member
    have current := (invariant.matching.elections.grantBacked _ granted).2.1
    exact ⟨Nat.lt_of_lt_of_le earlier current, fun acked => someone ⟨voter, member, acked⟩⟩

end SafetyInvariant

end Net

end Keystory.Raft
