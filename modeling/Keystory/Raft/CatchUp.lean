/-
The catch-up loop on any two logs that match. Every round either ends the loop or
cuts an entry the logs do not share from the peer, so a leader whose term is not
behind always brings the peer to its own log, and one that is behind changes
nothing.
-/

import Keystory.Raft.Agreement
import Keystory.Raft.ClusterAvailability

namespace Keystory.Raft

open General

namespace Inner

variable {g : Inner} {leader peer : NodeId} {idx leaderTerm : Nat}

def catchUpMessage (g : Inner) (leader peer : NodeId) (idx leaderTerm : Nat) : AppendMessage :=
  let start := min (Log.lastIndex (g.nodes peer).log + 1) idx
  { source := leader
    dest := peer
    term := leaderTerm
    prevIndex := start - 1
    prevTerm := (Log.termOf (g.nodes leader).log (start - 1)).getD 0
    entries := (List.range' start (idx + 1 - start)).filterMap (Log.get (g.nodes leader).log)
    leaderCommit := (g.nodes leader).commitIdx }

def afterRound (leader peer : NodeId) (idx leaderTerm : Nat) (g : Inner) : Inner :=
  (g.catchUpRound leader peer idx leaderTerm).1

theorem catchUpRound_eq :
    g.catchUpRound leader peer idx leaderTerm =
      (g.setNode peer ((g.nodes peer).deliver (g.catchUpMessage leader peer idx leaderTerm)).1,
        match ((g.nodes peer).deliver (g.catchUpMessage leader peer idx leaderTerm)).2 with
        | none => some true
        | some _ =>
            if Log.lastIndex ((g.nodes peer).deliver
                (g.catchUpMessage leader peer idx leaderTerm)).1.log =
              Log.lastIndex (g.nodes peer).log then some false else none) := rfl

section Message

variable (g leader peer leaderTerm)

theorem catchUpMessage_prevIndex (positive : 0 < idx) :
    (g.catchUpMessage leader peer idx leaderTerm).prevIndex + 1 =
      min ((g.nodes peer).log.length + 1) idx := by
  change min ((g.nodes peer).log.length + 1) idx - 1 + 1 = _
  omega

theorem catchUpMessage_entries (positive : 0 < idx) :
    (g.catchUpMessage leader peer idx leaderTerm).entries =
      ((g.nodes leader).log.drop (g.catchUpMessage leader peer idx leaderTerm).prevIndex).take
        (idx - (g.catchUpMessage leader peer idx leaderTerm).prevIndex) := by
  have start := g.catchUpMessage_prevIndex leader peer leaderTerm positive
  change (List.range' (min ((g.nodes peer).log.length + 1) idx)
    (idx + 1 - min ((g.nodes peer).log.length + 1) idx)).filterMap (Log.get _) = _
  rw [← start, filterMap_get_range, Nat.add_sub_add_right]

theorem catchUpMessage_sentFrom (positive : 0 < idx) (bound : idx ≤ (g.nodes leader).log.length) :
    (g.catchUpMessage leader peer idx leaderTerm).SentFrom (g.nodes leader).log := by
  have start := g.catchUpMessage_prevIndex leader peer leaderTerm positive
  refine ⟨?_, ?_⟩
  · by_cases zero : (g.catchUpMessage leader peer idx leaderTerm).prevIndex = 0
    · exact Or.inl zero
    · right
      have present : (Log.termOf (g.nodes leader).log
          (g.catchUpMessage leader peer idx leaderTerm).prevIndex).isSome = true :=
        (Log.termOf_isSome_iff _ _).mpr (by omega)
      obtain ⟨term, found⟩ := Option.isSome_iff_exists.mp present
      rw [found]
      change some term = some ((Log.termOf (g.nodes leader).log
        (g.catchUpMessage leader peer idx leaderTerm).prevIndex).getD 0)
      rw [found]
      rfl
  · rw [catchUpMessage_entries g leader peer leaderTerm positive]
    exact List.take_prefix _ _

theorem catchUpMessage_covered (positive : 0 < idx) (bound : idx ≤ (g.nodes leader).log.length) :
    (g.catchUpMessage leader peer idx leaderTerm).covered (g.nodes leader).log =
      (g.nodes leader).log.take idx := by
  have start := g.catchUpMessage_prevIndex leader peer leaderTerm positive
  have through : (g.catchUpMessage leader peer idx leaderTerm).prevIndex +
      (g.catchUpMessage leader peer idx leaderTerm).entries.length = idx := by
    rw [catchUpMessage_entries g leader peer leaderTerm positive, List.length_take,
      List.length_drop]
    omega
  rw [AppendMessage.covered, through]

end Message

/-! ### One round -/

/-- The logs a round of a leader that is not behind is taken on. -/
structure Catchable (leader peer : NodeId) (idx leaderTerm : Nat) (source : Log) (g : Inner) :
    Prop where
  leads : (g.nodes leader).log = source
  matching : Log.Matches (g.nodes peer).log source
  positive : 0 < idx
  bound : idx ≤ source.length
  order : (g.nodes peer).term ≤ leaderTerm

variable {source : Log}

theorem afterRound_peer :
    (g.afterRound leader peer idx leaderTerm).nodes peer =
      ((g.nodes peer).deliver (g.catchUpMessage leader peer idx leaderTerm)).1 :=
  setNode_nodes_self _ _ _

theorem afterRound_leader
    (outcome : Node.Delivered (g.nodes peer) (g.catchUpMessage leader peer idx leaderTerm)
      (g.nodes leader).log ((g.nodes peer).deliver (g.catchUpMessage leader peer idx leaderTerm)))
    (sent : (g.catchUpMessage leader peer idx leaderTerm).SentFrom (g.nodes leader).log) :
    ((g.afterRound leader peer idx leaderTerm).nodes leader).log = (g.nodes leader).log := by
  by_cases same : leader = peer
  · subst same
    rw [afterRound_peer]
    generalize (g.nodes leader).deliver _ = reply at outcome
    cases outcome with
    | stale older => rfl
    | rejected order inside mismatch log commit term =>
        exact absurd (sent.anchor.resolve_left inside) mismatch
    | held order already log commit term => exact log
    | replaced order missing log commit term => exact absurd (List.take_prefix _ _) missing
  · exact congrArg Node.log (setNode_nodes_other _ _ _ _ same)

theorem Catchable.round (catchable : Catchable leader peer idx leaderTerm source g) :
    Catchable leader peer idx leaderTerm source (g.afterRound leader peer idx leaderTerm) ∧
      (∀ shared, shared <+: (g.nodes peer).log → shared <+: source →
        shared <+: ((g.afterRound leader peer idx leaderTerm).nodes peer).log) ∧
      ((g.catchUpRound leader peer idx leaderTerm).2 = none ∨
        (g.catchUpRound leader peer idx leaderTerm).2 = some true ∧
          source.take idx <+: ((g.afterRound leader peer idx leaderTerm).nodes peer).log) := by
  obtain ⟨rfl, matching, positive, bound, order⟩ := catchable
  have sent := g.catchUpMessage_sentFrom leader peer leaderTerm positive bound
  have covered := g.catchUpMessage_covered leader peer leaderTerm positive bound
  have start := g.catchUpMessage_prevIndex leader peer leaderTerm positive
  have outcome := Node.delivered matching sent
  have sameLeader := afterRound_leader outcome sent
  refine ⟨⟨sameLeader, ?_, positive, bound, ?_⟩, ?_, ?_⟩
  · rw [afterRound_peer]
    exact outcome.matches matching
  · rw [afterRound_peer]
    generalize (g.nodes peer).deliver _ = reply at outcome
    cases outcome with
    | stale older => exact order
    | rejected _ _ _ _ _ term => exact Nat.le_of_eq term
    | held _ _ _ _ term => exact Nat.le_of_eq term
    | replaced _ _ _ _ term => exact Nat.le_of_eq term
  · intro shared own theirs
    rw [afterRound_peer]
    exact outcome.keeps sent own theirs
  · rw [afterRound_peer, catchUpRound_eq, ← covered]
    generalize (g.nodes peer).deliver _ = reply at outcome
    cases outcome with
    | stale older => exact absurd older (Nat.not_lt.mpr order)
    | rejected _ inside mismatch log commit term =>
        -- the anchor is within the peer's log, so it was cut there
        refine Or.inl (if_neg ?_)
        have present : (Log.termOf (g.nodes peer).log
            (g.catchUpMessage leader peer idx leaderTerm).prevIndex).isSome = true :=
          (Log.termOf_isSome_iff _ _).mpr (by omega)
        rw [log, Node.cutAt, if_pos present]
        simp only [Log.lastIndex, Log.truncateFrom, List.length_take]
        omega
    | held _ already log commit term => exact Or.inr ⟨rfl, by rw [log]; exact already⟩
    | replaced _ missing log commit term => exact Or.inr ⟨rfl, by rw [log]⟩

/-! ### The loop -/

theorem Catchable.loop (catchable : Catchable leader peer idx leaderTerm source g) {fuel : Nat}
    (enough : (g.nodes peer).log.length < fuel) :
    ∃ rounds, catchUpLoop leader peer idx leaderTerm fuel g =
        some ((afterRound leader peer idx leaderTerm)^[rounds] g, true) ∧
      source.take idx <+:
        (((afterRound leader peer idx leaderTerm)^[rounds] g).nodes peer).log ∧
      ∀ shared, shared <+: (g.nodes peer).log → shared <+: source → ∀ passed ≤ rounds,
        shared <+: (((afterRound leader peer idx leaderTerm)^[passed] g).nodes peer).log := by
  induction fuel generalizing g with
  | zero => exact absurd enough (Nat.not_lt_zero _)
  | succ fuel ih =>
      obtain ⟨stillCatchable, keeps, answered⟩ := catchable.round
      have whole : g.catchUpRound leader peer idx leaderTerm =
          (g.afterRound leader peer idx leaderTerm,
            (g.catchUpRound leader peer idx leaderTerm).2) := rfl
      rcases answered with again | ⟨accepted, covered⟩
      · rw [again] at whole
        have shorter := catchUpRound_shortens whole
        obtain ⟨rounds, ran, covered, keepsLater⟩ := ih stillCatchable (by omega)
        refine ⟨rounds + 1, ?_, covered, ?_⟩
        · rw [catchUpLoop, whole]
          exact ran
        · intro shared own theirs passed bound
          cases passed with
          | zero => exact own
          | succ passed =>
              exact keepsLater shared (keeps shared own theirs) theirs passed
                (Nat.le_of_succ_le_succ bound)
      · rw [accepted] at whole
        refine ⟨1, ?_, covered, ?_⟩
        · rw [catchUpLoop, whole]
          rfl
        · intro shared own theirs passed bound
          match passed with
          | 0 => exact own
          | 1 => exact keeps shared own theirs

theorem get_of_take_isPrefix {log : Log} (bound : idx ≤ source.length)
    (covered : source.take idx <+: log) {index : Nat} (within : index ≤ idx) :
    Log.get log index = Log.get source index := by
  cases index with
  | zero => rfl
  | succ position =>
      have inside : position < (source.take idx).length := by
        rw [List.length_take]
        omega
      rw [Log.get_succ, Log.get_succ, ← getElem?_of_isPrefix_of_lt covered inside,
        getElem?_of_isPrefix_of_lt (List.take_prefix idx source) inside]

theorem catchUpRound_of_newer (newer : leaderTerm < (g.nodes peer).term) :
    g.catchUpRound leader peer idx leaderTerm = (g, some false) := by
  have stale : (g.nodes peer).deliver (g.catchUpMessage leader peer idx leaderTerm) =
      (g.nodes peer, some (Log.lastIndex (g.nodes peer).log + 1)) := if_pos newer
  rw [catchUpRound_eq, stale, setNode_self]
  dsimp only
  rw [if_pos rfl]

end Inner

/-- Catching up with a leader's log that matches the peer's always ends. A leader
whose term is not behind brings the peer to its own log through `idx`, in rounds
that drop nothing the two logs share; one that is behind leaves the peer alone. -/
theorem peerCatchUp_agrees (g : Inner) (leader peer : NodeId) (idx leaderTerm : Nat)
    (matching : Log.Matches (g.nodes peer).log (g.nodes leader).log)
    (bound : idx ≤ Log.lastIndex (g.nodes leader).log) :
    ∃ after held, g.peerCatchUp leader peer idx leaderTerm = some (after, held) ∧
      ((g.nodes peer).term ≤ leaderTerm → held = true ∧
        (∀ index ≤ idx, Log.get (after.nodes peer).log index =
          Log.get (g.nodes leader).log index) ∧
        ∃ rounds, after = (Inner.afterRound leader peer idx leaderTerm)^[rounds] g ∧
          ∀ passed ≤ rounds, commonPrefix (g.nodes peer).log (g.nodes leader).log <+:
            (((Inner.afterRound leader peer idx leaderTerm)^[passed] g).nodes peer).log) ∧
      (leaderTerm < (g.nodes peer).term → 0 < idx → held = false ∧
        (after.nodes peer).log = (g.nodes peer).log ∧
        (after.nodes peer).term = (g.nodes peer).term ∧
        (after.nodes peer).votedFor = (g.nodes peer).votedFor ∧
        (after.nodes peer).commitIdx = (g.nodes peer).commitIdx) := by
  unfold Inner.peerCatchUp
  by_cases zero : idx = 0
  · subst zero
    refine ⟨g, true, rfl, fun _ => ⟨rfl, fun index within => ?_, 0, rfl, fun passed none => ?_⟩,
      fun _ positive => absurd positive (Nat.lt_irrefl 0)⟩
    · rw [Nat.le_zero.mp within]
      rfl
    · rw [Nat.le_zero.mp none]
      exact commonPrefix_prefix_left _ _
  · have positive : 0 < idx := Nat.pos_of_ne_zero zero
    rw [if_neg zero]
    rcases Nat.lt_or_ge leaderTerm (g.nodes peer).term with newer | order
    · refine ⟨g, false, ?_, fun order => absurd newer (Nat.not_lt.mpr order),
        fun _ _ => ⟨rfl, rfl, rfl, rfl, rfl⟩⟩
      rw [Inner.catchUpLoop, Inner.catchUpRound_of_newer newer]
    · have catchable : Inner.Catchable leader peer idx leaderTerm (g.nodes leader).log g :=
        ⟨rfl, matching, positive, bound, order⟩
      obtain ⟨rounds, ran, covered, keeps⟩ := catchable.loop (Nat.lt_succ_self _)
      refine ⟨_, true, ran, fun _ => ⟨rfl, fun index within => ?_, rounds, rfl, ?_⟩,
        fun newer => absurd newer (Nat.not_lt.mpr order)⟩
      · exact Inner.get_of_take_isPrefix bound covered within
      · exact keeps _ (commonPrefix_prefix_left _ _) (commonPrefix_prefix_right _ _)

def staleTail : Inner :=
  { Inner.new 2 with
    nodes := fun id =>
      if id = 0 then
        { Node.new 0 (IdSet.below 2) with
          term := 3, log := [⟨1, .delete [1]⟩, ⟨3, .delete [2]⟩] }
      else
        { Node.new id (IdSet.below 2) with
          term := 2, log := [⟨1, .delete [1]⟩, ⟨2, .delete [7]⟩, ⟨2, .delete [8]⟩] } }

theorem peerCatchUp_agrees_staleTail :
    Log.Matches (staleTail.nodes 1).log (staleTail.nodes 0).log ∧
      2 ≤ Log.lastIndex (staleTail.nodes 0).log ∧ (staleTail.nodes 1).term ≤ 3 ∧
      ∃ after, staleTail.peerCatchUp 0 1 2 3 = some (after, true) ∧
        ∀ index ≤ 2, Log.get (after.nodes 1).log index = Log.get (staleTail.nodes 0).log index := by
  have matching : Log.Matches (staleTail.nodes 1).log (staleTail.nodes 0).log := by
    intro index term found other
    match index with
    | 0 => rfl
    | 1 => rfl
    | 2 => cases found; cases other
    | beyond + 3 => cases other
  obtain ⟨after, held, ran, agrees, _⟩ := peerCatchUp_agrees staleTail 0 1 2 3 matching (by decide)
  obtain ⟨rfl, same, _⟩ := agrees (by decide)
  exact ⟨matching, by decide, by decide, after, ran, same⟩

end Keystory.Raft
