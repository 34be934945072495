/-
One append against the log of the leader that sent it. Delivered twice it does
what it does once, and whatever the follower's log, as long as its terms tell the
leader's entries apart, the follower comes no further from the leader: what the two
logs share from the start stays, and nothing is committed beyond it.
-/

import Keystory.Raft.Network

namespace Keystory.Raft

open General

/-! ### Delivered twice -/

theorem overwrite_self (entries : List LogEntry) : overwrite entries entries = entries := by
  induction entries with
  | nil => rfl
  | cons head tail ih => simp only [overwrite, if_true, ih]

theorem overwrite_overwrite (held sent : List LogEntry) :
    overwrite (overwrite held sent) sent = overwrite held sent := by
  induction held generalizing sent with
  | nil => rw [overwrite_nil_left, overwrite_self]
  | cons head held ih =>
      cases sent with
      | nil => rfl
      | cons entry sent =>
          by_cases same : head.selfTerm = entry.selfTerm
          · simp only [overwrite, if_pos same, ih]
          · simp only [overwrite, if_neg same, overwrite_self]

namespace Node

def deliver (node : Node) (message : AppendMessage) : Node × Option Nat :=
  node.appendEntries message.source message.term message.prevIndex message.prevTerm
    message.entries message.leaderCommit

theorem adoptLeader_of_adopted {node : Node} {sender : NodeId} {term : Nat}
    (sameTerm : node.term = term) (follows : node.role = .follower)
    (sameLeader : node.leaderId = some sender) : node.adoptLeader sender term = node := by
  unfold adoptLeader
  rw [if_neg (Nat.not_lt.mpr (Nat.le_of_eq sameTerm.symm)), ← follows, ← sameLeader]

@[simp] theorem adoptLeader_leaderId (node : Node) (sender : NodeId) (term : Nat) :
    (node.adoptLeader sender term).leaderId = some sender := by
  unfold adoptLeader
  split <;> rfl

theorem termOf_cutAt (log : Log) (prevIndex : Nat) :
    Log.termOf (cutAt log prevIndex) prevIndex = none := by
  unfold cutAt
  split
  · rename_i present
    have bounds := (Log.termOf_isSome_iff log prevIndex).mp present
    rw [← Option.not_isSome_iff_eq_none, Log.termOf_isSome_iff, Log.truncateFrom,
      List.length_take]
    omega
  · rename_i absent
    exact Option.not_isSome_iff_eq_none.mp absent

theorem cutAt_cutAt (log : Log) (prevIndex : Nat) :
    cutAt (cutAt log prevIndex) prevIndex = cutAt log prevIndex := by
  rw [cutAt, termOf_cutAt]
  rfl

theorem appendLoop_appendLoop {log : Log} {position : Nat} (entries : List LogEntry)
    (reached : position ≤ log.length) :
    appendLoop (appendLoop log (position + 1) entries) (position + 1) entries =
      appendLoop log (position + 1) entries := by
  have front : (log.take position).length = position := List.length_take_of_le reached
  rw [appendLoop_eq_overwrite log position entries reached,
    appendLoop_eq_overwrite _ position entries (by rw [List.length_append, front]; omega),
    List.take_left' front, List.drop_left' front, overwrite_overwrite]

theorem termOf_appendLoop {log : Log} {position : Nat} (entries : List LogEntry)
    (reached : position ≤ log.length) :
    Log.termOf (appendLoop log (position + 1) entries) position = Log.termOf log position := by
  cases position with
  | zero => rfl
  | succ before =>
      have front : (log.take (before + 1)).length = before + 1 := List.length_take_of_le reached
      rw [appendLoop_eq_overwrite log _ entries reached, Log.termOf_succ, Log.termOf_succ,
        List.getElem?_append_left (by omega), List.getElem?_take_of_lt (by omega)]

theorem commitThrough_commitThrough (commit covered : Nat) :
    commitThrough (commitThrough commit covered) covered = commitThrough commit covered := by
  unfold commitThrough
  split_ifs <;> omega

theorem reached_of_anchor {log : Log} {prevIndex prevTerm : Nat}
    (anchor : prevIndex = 0 ∨ Log.termOf log prevIndex = some prevTerm) :
    prevIndex ≤ log.length := by
  rcases anchor with rfl | found
  · exact Nat.zero_le _
  · exact ((Log.termOf_isSome_iff log prevIndex).mp (by rw [found]; rfl)).2

theorem deliver_deliver (node : Node) (message : AppendMessage) :
    (node.deliver message).1.deliver message = node.deliver message := by
  obtain ⟨sender, dest, term, prevIndex, prevTerm, entries, leaderCommit⟩ := message
  unfold deliver
  dsimp only
  rcases appendEntries_cases node sender term prevIndex prevTerm entries leaderCommit with
    ⟨stale, once⟩ | ⟨order, inside, mismatch, once⟩ | ⟨order, anchor, once⟩
  · rw [once, once]
  · have adopted : ({ node.adoptLeader sender term with log := cutAt node.log prevIndex } :
        Node).adoptLeader sender term =
          { node.adoptLeader sender term with log := cutAt node.log prevIndex } :=
      adoptLeader_of_adopted (adoptLeader_term sender order) (adoptLeader_role node sender term)
        (adoptLeader_leaderId node sender term)
    rw [once]
    rcases appendEntries_cases { node.adoptLeader sender term with log := cutAt node.log prevIndex }
        sender term prevIndex prevTerm entries leaderCommit with
      ⟨stale, _⟩ | ⟨_, _, _, again⟩ | ⟨_, anchor, _⟩
    · exact absurd stale (by rw [adoptLeader_term sender order]; exact Nat.lt_irrefl _)
    · rw [again, adopted, cutAt_cutAt]
    · rw [termOf_cutAt] at anchor
      rcases anchor with zero | impossible
      · exact absurd zero inside
      · cases impossible
  · have reached := reached_of_anchor anchor
    generalize result : ({ node.adoptLeader sender term with
        log := appendLoop node.log (prevIndex + 1) entries
        commitIdx := commitThrough node.commitIdx
          (min leaderCommit (prevIndex + entries.length)) } : Node) = after at once
    have resultLog : after.log = appendLoop node.log (prevIndex + 1) entries := by rw [← result]
    have resultCommit : after.commitIdx = commitThrough node.commitIdx
        (min leaderCommit (prevIndex + entries.length)) := by rw [← result]
    have resultTerm : after.term = term := by
      rw [← result]
      exact adoptLeader_term sender order
    have adopted : after.adoptLeader sender term = after :=
      adoptLeader_of_adopted resultTerm
        (by rw [← result]; exact adoptLeader_role node sender term)
        (by rw [← result]; exact adoptLeader_leaderId node sender term)
    have stillAnchored : prevIndex = 0 ∨ Log.termOf after.log prevIndex = some prevTerm := by
      rw [resultLog, termOf_appendLoop entries reached]
      exact anchor
    rw [once]
    rcases appendEntries_cases after sender term prevIndex prevTerm entries leaderCommit with
      ⟨stale, _⟩ | ⟨_, inside, mismatch, _⟩ | ⟨_, _, again⟩
    · exact absurd stale (by rw [resultTerm]; exact Nat.lt_irrefl _)
    · exact absurd stillAnchored (not_or.mpr ⟨inside, mismatch⟩)
    · rw [again, adopted]
      dsimp only
      rw [resultLog, appendLoop_appendLoop entries reached, resultCommit,
        commitThrough_commitThrough, ← resultLog, ← resultCommit]

end Node

/-! ### Against the sender's log -/

/-- Log matching: equal terms at an index mean equal logs through it. -/
def Log.Matches (left right : Log) : Prop :=
  ∀ index term, Log.termOf left index = some term → Log.termOf right index = some term →
    left.take index = right.take index

theorem Log.Matches.termsDetermine {left right : Log} (matching : Log.Matches left right) :
    TermsDetermine left right := by
  intro position leftEntry rightEntry leftAt rightAt sameTerm
  have agree := matching (position + 1) rightEntry.selfTerm
    (by rw [Log.termOf_succ, leftAt, Option.map_some, sameTerm])
    (by rw [Log.termOf_succ, rightAt, Option.map_some])
  rw [take_succ_of_getElem? leftAt, take_succ_of_getElem? rightAt] at agree
  exact List.singleton_inj.mp (List.append_inj_right' agree rfl)

theorem Log.termOf_of_isPrefix {held whole : Log} (isPrefix : held <+: whole) {index term : Nat}
    (found : Log.termOf held index = some term) :
    Log.termOf whole index = some term ∧ held.take index = whole.take index := by
  obtain ⟨position, entry, rfl, at?, same⟩ := (Log.termOf_eq_some_iff held index term).mp found
  have inside := lt_length_of_getElem? at?
  refine ⟨(Log.termOf_eq_some_iff whole _ term).mpr
    ⟨position, entry, rfl, getElem?_of_isPrefix isPrefix at?, same⟩, ?_⟩
  rw [List.prefix_iff_eq_take.mp isPrefix, List.take_take, Nat.min_eq_left inside]

theorem Log.Matches.of_isPrefix {held left right : Log} (matching : Log.Matches left right)
    (isPrefix : held <+: left) : Log.Matches held right := by
  intro index term found other
  obtain ⟨inLeft, same⟩ := Log.termOf_of_isPrefix isPrefix found
  rw [same]
  exact matching index term inLeft other

theorem Log.matches_of_isPrefix {held whole : Log} (isPrefix : held <+: whole) :
    Log.Matches held whole :=
  fun _ _ found _ => (Log.termOf_of_isPrefix isPrefix found).2

/-- A message taken from a log: its term at `prevIndex`, and a slice of it from there. -/
structure AppendMessage.SentFrom (message : AppendMessage) (source : Log) : Prop where
  anchor : message.prevIndex = 0 ∨
    Log.termOf source message.prevIndex = some message.prevTerm
  slice : message.entries <+: source.drop message.prevIndex

def AppendMessage.covered (message : AppendMessage) (source : Log) : Log :=
  source.take (message.prevIndex + message.entries.length)

theorem AppendMessage.SentFrom.length_covered {message : AppendMessage} {source : Log}
    (sent : message.SentFrom source) :
    (message.covered source).length = message.prevIndex + message.entries.length := by
  have reached := Node.reached_of_anchor sent.anchor
  have room := sent.slice.length_le
  rw [List.length_drop] at room
  rw [AppendMessage.covered, List.length_take]
  omega

namespace Node

/-- What becomes of a message taken from a log that matches the follower's. -/
inductive Delivered (node : Node) (message : AppendMessage) (source : Log) :
    Node × Option Nat → Prop where
  | stale (older : message.term < node.term) {reply : Nat} :
      Delivered node message source (node, some reply)
  | rejected {after : Node} (order : node.term ≤ message.term) (inside : message.prevIndex ≠ 0)
      (mismatch : Log.termOf node.log message.prevIndex ≠ some message.prevTerm)
      (log : after.log = cutAt node.log message.prevIndex)
      (commit : after.commitIdx = node.commitIdx) (term : after.term = message.term) {reply : Nat} :
      Delivered node message source (after, some reply)
  | held {after : Node} (order : node.term ≤ message.term)
      (already : message.covered source <+: node.log) (log : after.log = node.log)
      (commit : after.commitIdx = commitThrough node.commitIdx
        (min message.leaderCommit (message.prevIndex + message.entries.length)))
      (term : after.term = message.term) : Delivered node message source (after, none)
  | replaced {after : Node} (order : node.term ≤ message.term)
      (missing : ¬ message.covered source <+: node.log) (log : after.log = message.covered source)
      (commit : after.commitIdx = commitThrough node.commitIdx
        (min message.leaderCommit (message.prevIndex + message.entries.length)))
      (term : after.term = message.term) : Delivered node message source (after, none)

variable {node : Node} {message : AppendMessage} {source : Log}

theorem delivered (matching : Log.Matches node.log source) (sent : message.SentFrom source) :
    Delivered node message source (node.deliver message) := by
  unfold deliver
  rcases appendEntries_cases node message.source message.term message.prevIndex message.prevTerm
      message.entries message.leaderCommit with
    ⟨stale, result⟩ | ⟨order, inside, mismatch, result⟩ | ⟨order, anchor, result⟩
  · rw [result]
    exact .stale stale
  · rw [result]
    refine .rejected order inside mismatch ?_ ?_ ?_
    · rfl
    · exact adoptLeader_commitIdx node _ _
    · exact adoptLeader_term _ order
  · rw [result]
    have agree : node.log.take message.prevIndex = source.take message.prevIndex := by
      rcases anchor with zero | found
      · rw [zero]
        rfl
      · rcases sent.anchor with zero | sourceFound
        · rw [zero]
          rfl
        · exact matching _ _ found sourceFound
    rcases appendLoop_slice node.log source message.prevIndex message.entries
        (reached_of_anchor anchor) agree sent.slice matching.termsDetermine with
      ⟨already, same⟩ | ⟨missing, same⟩
    · exact .held order already same rfl (adoptLeader_term _ order)
    · exact .replaced order missing same rfl (adoptLeader_term _ order)

theorem Delivered.keeps {result : Node × Option Nat}
    (outcome : Delivered node message source result) (sent : message.SentFrom source)
    {shared : Log} (own : shared <+: node.log) (theirs : shared <+: source) :
    shared <+: result.1.log := by
  cases outcome with
  | stale older => exact own
  | @rejected after order inside mismatch log commit term =>
      rw [log]
      unfold cutAt
      split
      · rename_i present
        refine List.prefix_take_iff.mpr ⟨own, Nat.not_lt.mp (fun long => mismatch ?_)⟩
        -- a shared entry at the message's anchor has the term that was sent
        have at? : shared[message.prevIndex - 1]? = some shared[message.prevIndex - 1] :=
          List.getElem?_eq_getElem long
        have sourceTerm := sent.anchor.resolve_left inside
        rw [Log.termOf, Log.get, if_neg inside] at sourceTerm ⊢
        rw [getElem?_of_isPrefix theirs at?] at sourceTerm
        rw [getElem?_of_isPrefix own at?]
        exact sourceTerm
      · exact own
  | held order already log commit term =>
      rw [log]
      exact own
  | replaced order missing log commit term =>
      rw [log]
      refine List.prefix_of_prefix_length_le theirs (List.take_prefix _ _) (Nat.not_lt.mp ?_)
      intro long
      apply missing
      exact (List.prefix_of_prefix_length_le (List.take_prefix _ _) theirs
        (Nat.le_of_lt long)).trans own

theorem Delivered.matches {result : Node × Option Nat}
    (outcome : Delivered node message source result) (matching : Log.Matches node.log source) :
    Log.Matches result.1.log source := by
  cases outcome with
  | stale older => exact matching
  | rejected order inside mismatch log commit term =>
      rw [log]
      exact matching.of_isPrefix (cutAt_isPrefix _ _)
  | held order already log commit term =>
      rw [log]
      exact matching
  | replaced order missing log commit term =>
      rw [log]
      exact Log.matches_of_isPrefix (List.take_prefix _ _)

theorem commitThrough_cases (commit covered : Nat) :
    commit ≤ commitThrough commit covered ∧
      (commitThrough commit covered = commit ∨ commitThrough commit covered ≤ covered) := by
  unfold commitThrough
  split_ifs <;> omega

/-- A commit index only grows, and only up to what the two logs share afterwards. -/
theorem Delivered.commit {result : Node × Option Nat}
    (outcome : Delivered node message source result) (sent : message.SentFrom source) :
    node.commitIdx ≤ result.1.commitIdx ∧
      (result.1.commitIdx = node.commitIdx ∨
        result.1.commitIdx ≤ (commonPrefix result.1.log source).length) := by
  have vouched : ∀ {after : Node}, message.covered source <+: after.log →
      after.commitIdx = commitThrough node.commitIdx
        (min message.leaderCommit (message.prevIndex + message.entries.length)) →
      node.commitIdx ≤ after.commitIdx ∧ (after.commitIdx = node.commitIdx ∨
        after.commitIdx ≤ (commonPrefix after.log source).length) := by
    intro after covered commit
    have shared := (prefix_commonPrefix_iff.mpr ⟨covered, List.take_prefix _ _⟩).length_le
    rw [sent.length_covered] at shared
    obtain ⟨grows, unchanged | bounded⟩ := commitThrough_cases node.commitIdx
      (min message.leaderCommit (message.prevIndex + message.entries.length))
    · exact ⟨commit ▸ grows, Or.inl (commit.trans unchanged)⟩
    · refine ⟨commit ▸ grows, Or.inr ?_⟩
      rw [commit]
      omega
  cases outcome with
  | stale older => exact ⟨Nat.le_refl _, Or.inl rfl⟩
  | rejected order inside mismatch log commit term =>
      exact ⟨Nat.le_of_eq commit.symm, Or.inl commit⟩
  | held order already log commit term =>
      exact vouched (by rw [log]; exact already) commit
  | replaced order missing log commit term =>
      exact vouched (by rw [log]) commit

def deliverAll (node : Node) (messages : List AppendMessage) : Node :=
  messages.foldl (fun node message => (node.deliver message).1) node

theorem matches_deliverAll {messages : List AppendMessage}
    (matching : Log.Matches node.log source)
    (sent : ∀ message ∈ messages, message.SentFrom source) :
    Log.Matches (node.deliverAll messages).log source := by
  induction messages generalizing node with
  | nil => exact matching
  | cons message messages ih =>
      obtain ⟨first, rest⟩ := List.forall_mem_cons.mp sent
      exact ih ((delivered matching first).matches matching) rest

theorem deliverAll_agreement {messages : List AppendMessage}
    (matching : Log.Matches node.log source)
    (sent : ∀ message ∈ messages, message.SentFrom source) :
    commonPrefix node.log source <+: commonPrefix (node.deliverAll messages).log source ∧
      node.commitIdx ≤ (node.deliverAll messages).commitIdx ∧
      ((node.deliverAll messages).commitIdx = node.commitIdx ∨
        (node.deliverAll messages).commitIdx ≤
          (commonPrefix (node.deliverAll messages).log source).length) := by
  induction messages generalizing node with
  | nil => exact ⟨List.prefix_rfl, Nat.le_refl _, Or.inl rfl⟩
  | cons message messages ih =>
      obtain ⟨first, rest⟩ := List.forall_mem_cons.mp sent
      have outcome := delivered matching first
      have kept : commonPrefix node.log source <+:
          commonPrefix (node.deliver message).1.log source :=
        prefix_commonPrefix_iff.mpr
          ⟨outcome.keeps first (commonPrefix_prefix_left _ _) (commonPrefix_prefix_right _ _),
            commonPrefix_prefix_right _ _⟩
      obtain ⟨grows, bounded⟩ := outcome.commit first
      obtain ⟨keptLater, growsLater, boundedLater⟩ := ih (outcome.matches matching) rest
      refine ⟨kept.trans keptLater, Nat.le_trans grows growsLater, ?_⟩
      rcases boundedLater with unchanged | shared
      · rcases bounded with same | covered
        · exact Or.inl (unchanged.trans same)
        · exact Or.inr (unchanged ▸ Nat.le_trans covered keptLater.length_le)
      · exact Or.inr shared

end Node

/-- An append delivered twice is delivered once; and however many appends taken
from one log arrive, in whatever order and terms, what the follower's log shares
with it never shrinks, the commit index never falls, and is never set beyond what
is shared. -/
theorem append_idempotent_and_monotone (node : Node) :
    (∀ message, (node.deliver message).1.deliver message = node.deliver message) ∧
      ∀ (source : Log) (earlier later : List AppendMessage), Log.Matches node.log source →
        (∀ message ∈ earlier ++ later, message.SentFrom source) →
        let middle := node.deliverAll earlier
        let after := node.deliverAll (earlier ++ later)
        commonPrefix middle.log source <+: commonPrefix after.log source ∧
          middle.commitIdx ≤ after.commitIdx ∧
          (after.commitIdx = middle.commitIdx ∨
            after.commitIdx ≤ (commonPrefix after.log source).length) := by
  refine ⟨node.deliver_deliver, fun source earlier later matching sent => ?_⟩
  obtain ⟨sentEarlier, sentLater⟩ := List.forall_mem_append.mp sent
  have split : node.deliverAll (earlier ++ later) = (node.deliverAll earlier).deliverAll later :=
    List.foldl_append
  dsimp only
  rw [split]
  exact Node.deliverAll_agreement (Node.matches_deliverAll matching sentEarlier) sentLater

/-- The leader's log, a follower that holds another second entry, and an older
message of the leader that arrives after a newer one. -/
theorem append_monotone_reordered :
    let source : Log := [⟨1, .delete [1]⟩, ⟨3, .delete [2]⟩, ⟨3, .delete [3]⟩]
    let follower : Node :=
      { Node.new 1 (IdSet.below 3) with
        term := 2, log := [⟨1, .delete [1]⟩, ⟨2, .delete [9]⟩] }
    let newer : AppendMessage := ⟨0, 1, 3, 1, 1, source.drop 1, 3⟩
    let older : AppendMessage := ⟨0, 1, 3, 0, 0, source.take 1, 1⟩
    Log.Matches follower.log source ∧
      (∀ message ∈ [newer] ++ [older], message.SentFrom source) ∧
      (follower.deliverAll [newer]).commitIdx = 3 ∧
      commonPrefix (follower.deliverAll [newer]).log source <+:
        commonPrefix (follower.deliverAll ([newer] ++ [older])).log source := by
  intro source follower newer older
  have matching : Log.Matches follower.log source := by
    intro index term found other
    match index with
    | 0 => rfl
    | 1 => rfl
    | 2 => cases found; cases other
    | beyond + 3 => cases found
  have sent : ∀ message ∈ [newer] ++ [older], message.SentFrom source := by
    intro message member
    rcases List.mem_append.mp member with first | second
    · rw [List.mem_singleton.mp first]
      exact ⟨Or.inr rfl, List.prefix_rfl⟩
    · rw [List.mem_singleton.mp second]
      exact ⟨Or.inl rfl, List.take_prefix 1 source⟩
  exact ⟨matching, sent, rfl,
    ((append_idempotent_and_monotone follower).2 source [newer] [older] matching sent).1⟩

end Keystory.Raft
