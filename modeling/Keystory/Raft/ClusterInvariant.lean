/-
What the cluster keeps between calls.

One sequence of acknowledged entries runs through everything: every node holds a
prefix of it, all of it committed and applied, and a majority holds the whole of
it. Any live majority then contains a node with the whole sequence, and the node
the driver picks by its log tip is one of those.
-/

import Mathlib.Data.Finset.Card
import Keystory.General.Quorum
import Keystory.Raft.Cluster

namespace Keystory.Raft

open General

namespace Inner

/-! ### Membership -/

@[simp] theorem setNode_nodes_self (g : Inner) (id : NodeId) (node : Node) :
    (g.setNode id node).nodes id = node := by
  simp only [setNode, Function.update_self]

theorem setNode_nodes_other (g : Inner) (id other : NodeId) (node : Node)
    (different : other ≠ id) : (g.setNode id node).nodes other = g.nodes other := by
  simp only [setNode, Function.update_of_ne different]

theorem mem_live {g : Inner} {id : NodeId} : id ∈ g.live ↔ id < g.size ∧ g.isDown id = false := by
  simp only [live, List.mem_filter, List.mem_range, Bool.not_eq_true']

theorem live_nodup (g : Inner) : g.live.Nodup := List.nodup_range.filter _

theorem live_isQuorum {g : Inner} (enough : g.quorum ≤ g.live.length) :
    IsQuorum g.size g.live.toFinset := by
  constructor
  · intro id member
    rw [Finset.mem_range]
    exact (mem_live.mp (List.mem_toFinset.mp member)).1
  · rw [List.toFinset_card_of_nodup g.live_nodup]
    exact enough

private theorem foldl_max_le {terms : NodeId → Nat} {bound : Nat} (ids : List NodeId)
    (start : Nat) (startLe : start ≤ bound) (termsLe : ∀ id ∈ ids, terms id ≤ bound) :
    ids.foldl (fun highest id => max highest (terms id)) start ≤ bound := by
  induction ids generalizing start with
  | nil => exact startLe
  | cons head tail ih =>
      apply ih
      · exact Nat.max_le.mpr ⟨startLe, termsLe head List.mem_cons_self⟩
      · intro id member
        exact termsLe id (List.mem_cons_of_mem head member)

private theorem le_foldl_max (terms : NodeId → Nat) (ids : List NodeId) (start : Nat) :
    start ≤ ids.foldl (fun highest id => max highest (terms id)) start ∧
      ∀ id ∈ ids, terms id ≤ ids.foldl (fun highest id => max highest (terms id)) start := by
  induction ids generalizing start with
  | nil =>
      constructor
      · exact Nat.le_refl start
      · intro id member
        cases member
  | cons head tail ih =>
      obtain ⟨startLe, tailLe⟩ := ih (max start (terms head))
      constructor
      · exact Nat.le_trans (Nat.le_max_left _ _) startLe
      · intro id member
        rcases List.mem_cons.mp member with atHead | inTail
        · rw [atHead]
          exact Nat.le_trans (Nat.le_max_right _ _) startLe
        · exact tailLe id inTail

theorem term_le_maxTerm (g : Inner) {id : NodeId} (bound : id < g.size) :
    (g.nodes id).term ≤ g.maxTerm :=
  (le_foldl_max (fun id => (g.nodes id).term) (List.range g.size) 0).2 id (List.mem_range.mpr bound)

theorem maxTerm_le {g : Inner} {bound : Nat}
    (terms : ∀ id, id < g.size → (g.nodes id).term ≤ bound) : g.maxTerm ≤ bound := by
  apply foldl_max_le (List.range g.size) 0 (Nat.zero_le bound)
  intro id member
  exact terms id (List.mem_range.mp member)

/-! ### The candidate -/

theorem tipBelow_iff (left right : Nat × Nat) :
    tipBelow left right = true ↔ left.1 < right.1 ∨ (left.1 = right.1 ∧ left.2 < right.2) := by
  simp [tipBelow]

theorem tipBelow_false_trans {first second third : Nat × Nat}
    (above : tipBelow first second = false) (next : tipBelow second third = false) :
    tipBelow first third = false := by
  rw [Bool.eq_false_iff, ne_eq, tipBelow_iff] at above next ⊢
  omega

theorem pickBetter_cases (g : Inner) (held id : NodeId) :
    (g.pickBetter (some held, tip (g.nodes held).log) id = (some held, tip (g.nodes held).log) ∧
        tipBelow (tip (g.nodes held).log) (tip (g.nodes id).log) = false) ∨
      (g.pickBetter (some held, tip (g.nodes held).log) id = (some id, tip (g.nodes id).log) ∧
        tipBelow (tip (g.nodes id).log) (tip (g.nodes held).log) = false) := by
  unfold pickBetter
  dsimp only
  split
  · rename_i taken
    right
    refine ⟨rfl, ?_⟩
    rw [Bool.eq_false_iff, ne_eq, tipBelow_iff]
    rcases Bool.or_eq_true_iff.mp taken with above | level
    · rw [tipBelow_iff] at above
      omega
    · rw [beq_iff_eq.mp (Bool.and_eq_true_iff.mp level).1]
      omega
  · rename_i kept
    left
    rw [Bool.or_eq_true_iff, not_or] at kept
    exact ⟨rfl, Bool.eq_false_iff.mpr kept.1⟩

private theorem foldl_pickBetter (g : Inner) (ids : List NodeId) (start : NodeId) :
    ∃ cand, cand ∈ start :: ids ∧
      ids.foldl g.pickBetter (some start, tip (g.nodes start).log) =
        (some cand, tip (g.nodes cand).log) ∧
      ∀ id ∈ start :: ids, tipBelow (tip (g.nodes cand).log) (tip (g.nodes id).log) = false := by
  induction ids generalizing start with
  | nil =>
      refine ⟨start, List.mem_cons_self, rfl, ?_⟩
      intro id member
      rw [List.mem_singleton.mp member]
      simp [tipBelow]
  | cons head tail ih =>
      rw [List.foldl_cons]
      rcases pickBetter_cases g start head with ⟨kept, above⟩ | ⟨moved, above⟩
      · obtain ⟨cand, member, result, top⟩ := ih start
        refine ⟨cand, ?_, by rw [kept]; exact result, ?_⟩
        · simp only [List.mem_cons] at member ⊢
          exact member.imp_right Or.inr
        · intro id present
          have startTop := top start List.mem_cons_self
          simp only [List.mem_cons] at present top
          rcases present with atStart | atHead | inTail
          · exact top id (Or.inl atStart)
          · rw [atHead]
            exact tipBelow_false_trans startTop above
          · exact top id (Or.inr inTail)
      · obtain ⟨cand, member, result, top⟩ := ih head
        refine ⟨cand, List.mem_cons_of_mem start member, by rw [moved]; exact result, ?_⟩
        intro id present
        rcases List.mem_cons.mp present with atStart | inRest
        · rw [atStart]
          exact tipBelow_false_trans (top head List.mem_cons_self) above
        · exact top id inRest

theorem pickCandidate_spec (g : Inner) (someone : g.live ≠ []) :
    ∃ cand, g.pickCandidate = some cand ∧ cand ∈ g.live ∧
      ∀ id ∈ g.live, tipBelow (tip (g.nodes cand).log) (tip (g.nodes id).log) = false := by
  unfold pickCandidate
  cases split : g.live with
  | nil => exact absurd split someone
  | cons first rest =>
      have taken : pickBetter g (none, (0, 0)) first = (some first, tip (g.nodes first).log) := by
        unfold pickBetter
        dsimp only [Option.all_none]
        rw [if_pos]
        by_cases zero : tip (g.nodes first).log = (0, 0)
        · simp [zero]
        · rw [Bool.or_eq_true_iff, tipBelow_iff]
          left
          by_contra notAbove
          apply zero
          apply Prod.ext
          · dsimp only at notAbove ⊢
            omega
          · dsimp only at notAbove ⊢
            omega
      obtain ⟨cand, member, result, top⟩ := foldl_pickBetter g rest first
      refine ⟨cand, ?_, member, top⟩
      rw [List.foldl_cons, taken, result]

/-! ### The vote -/

/-- Nothing of a node but its term, its role, its vote and its leader's bookkeeping
changed. -/
structure Untouched (before after : Node) : Prop where
  id : after.id = before.id
  peers : after.peers = before.peers
  log : after.log = before.log
  commitIdx : after.commitIdx = before.commitIdx
  applied : after.applied = before.applied
  state : after.state = before.state

theorem Untouched.refl (node : Node) : Untouched node node := ⟨rfl, rfl, rfl, rfl, rfl, rfl⟩

theorem Untouched.trans {first second third : Node} (before : Untouched first second)
    (after : Untouched second third) : Untouched first third :=
  ⟨after.id.trans before.id, after.peers.trans before.peers, after.log.trans before.log,
    after.commitIdx.trans before.commitIdx, after.applied.trans before.applied,
    after.state.trans before.state⟩

theorem adoptVoteTerm_untouched (node : Node) (term : Nat) :
    Untouched node (node.adoptVoteTerm term) :=
  ⟨node.adoptVoteTerm_keeps Node.id term fun _ => rfl,
    node.adoptVoteTerm_keeps Node.peers term fun _ => rfl,
    node.adoptVoteTerm_keeps Node.log term fun _ => rfl,
    node.adoptVoteTerm_keeps Node.commitIdx term fun _ => rfl,
    node.adoptVoteTerm_keeps Node.applied term fun _ => rfl,
    node.adoptVoteTerm_keeps Node.state term fun _ => rfl⟩

theorem requestVote_untouched (node : Node) (sender : NodeId) (term lastIndex lastTerm : Nat) :
    Untouched node (node.requestVote sender term lastIndex lastTerm).1 ∧
      (node.requestVote sender term lastIndex lastTerm).1.term = max node.term term := by
  have adopted := adoptVoteTerm_untouched node term
  rcases Node.requestVote_cases node sender term lastIndex lastTerm with
    denied | ⟨_, _, _, granted⟩
  · rw [denied]
    exact ⟨adopted, node.adoptVoteTerm_term term⟩
  · rw [granted]
    exact ⟨⟨adopted.id, adopted.peers, adopted.log, adopted.commitIdx, adopted.applied,
      adopted.state⟩, node.adoptVoteTerm_term term⟩

def grantsVote (cand : NodeId) (candTerm : Nat) (candTip : Nat × Nat) (node : Node) : Bool :=
  (node.requestVote cand candTerm candTip.1 candTip.2).2

/-- What the voting loop leaves of the cluster it started from. -/
structure Polled (before after : Inner) (cand : NodeId) (candTerm : Nat) : Prop where
  size : after.size = before.size
  leader : after.leader = before.leader
  down : after.down = before.down
  candidate : after.nodes cand = before.nodes cand
  untouched : ∀ id, Untouched (before.nodes id) (after.nodes id)
  terms : ∀ id, (before.nodes id).term ≤ (after.nodes id).term ∧
    (after.nodes id).term ≤ max (before.nodes id).term candTerm

theorem Polled.refl (g : Inner) (cand : NodeId) (candTerm : Nat) : Polled g g cand candTerm :=
  ⟨rfl, rfl, rfl, rfl, fun id => Untouched.refl (g.nodes id),
    fun _ => ⟨Nat.le_refl _, Nat.le_max_left _ _⟩⟩

theorem Polled.trans {first second third : Inner} {cand : NodeId} {candTerm : Nat}
    (before : Polled first second cand candTerm) (after : Polled second third cand candTerm) :
    Polled first third cand candTerm := by
  refine ⟨after.size.trans before.size, after.leader.trans before.leader,
    after.down.trans before.down, after.candidate.trans before.candidate,
    fun id => (before.untouched id).trans (after.untouched id), ?_⟩
  intro id
  have earlier := before.terms id
  have later := after.terms id
  omega

theorem askVote_polled (cand : NodeId) (candTerm : Nat) (candTip : Nat × Nat)
    (tally : Inner × Nat) (id : NodeId) :
    Polled tally.1 (askVote cand candTerm candTip tally id).1 cand candTerm := by
  unfold askVote
  split
  · exact Polled.refl tally.1 cand candTerm
  · rename_i different
    obtain ⟨untouched, term⟩ :=
      requestVote_untouched (tally.1.nodes id) cand candTerm candTip.1 candTip.2
    refine ⟨rfl, rfl, rfl, setNode_nodes_other _ _ _ _ (Ne.symm different), ?_, ?_⟩
    · intro other
      by_cases same : other = id
      · rw [same, setNode_nodes_self]
        exact untouched
      · rw [setNode_nodes_other _ _ _ _ same]
        exact Untouched.refl _
    · intro other
      by_cases same : other = id
      · rw [same, setNode_nodes_self, term]
        exact ⟨Nat.le_max_left _ _, Nat.le_refl _⟩
      · rw [setNode_nodes_other _ _ _ _ same]
        exact ⟨Nat.le_refl _, Nat.le_max_left _ _⟩

theorem foldl_askVote_polled (cand : NodeId) (candTerm : Nat) (candTip : Nat × Nat)
    (ids : List NodeId) (tally : Inner × Nat) :
    Polled tally.1 (ids.foldl (askVote cand candTerm candTip) tally).1 cand candTerm := by
  induction ids generalizing tally with
  | nil => exact Polled.refl tally.1 cand candTerm
  | cons head tail ih =>
      exact (askVote_polled cand candTerm candTip tally head).trans
        (ih (askVote cand candTerm candTip tally head))

theorem foldl_askVote_votes (cand : NodeId) (candTerm : Nat) (candTip : Nat × Nat)
    (ids : List NodeId) (distinct : ids.Nodup) (nodes : NodeId → Node) (tally : Inner × Nat)
    (fresh : ∀ id ∈ ids, id ≠ cand → tally.1.nodes id = nodes id) :
    (ids.foldl (askVote cand candTerm candTip) tally).2 =
      tally.2 + (ids.filter (fun id =>
        id ≠ cand && grantsVote cand candTerm candTip (nodes id))).length := by
  induction ids generalizing tally with
  | nil => rfl
  | cons head tail ih =>
      obtain ⟨notLater, tailDistinct⟩ := List.nodup_cons.mp distinct
      have stillFresh : ∀ id ∈ tail, id ≠ cand →
          (askVote cand candTerm candTip tally head).1.nodes id = nodes id := by
        intro id member different
        have apart : id ≠ head := fun same => notLater (same ▸ member)
        rw [← fresh id (List.mem_cons_of_mem head member) different]
        unfold askVote
        split
        · rfl
        · exact setNode_nodes_other _ _ _ _ apart
      rw [List.foldl_cons, ih tailDistinct _ stillFresh, List.filter_cons]
      by_cases isCand : head = cand
      · simp [askVote, isCand]
      · have atHead := fresh head List.mem_cons_self isCand
        by_cases granted : grantsVote cand candTerm candTip (nodes head) = true
        · have counted : (askVote cand candTerm candTip tally head).2 = tally.2 + 1 := by
            unfold grantsVote at granted
            simp only [askVote, if_neg isCand, atHead, granted, if_true]
          rw [counted]
          simp only [ne_eq, isCand, not_false_eq_true, decide_true, granted, Bool.and_self,
            if_true, List.length_cons]
          omega
        · have denied : (askVote cand candTerm candTip tally head).2 = tally.2 := by
            unfold grantsVote at granted
            simp only [askVote, if_neg isCand, atHead, granted, Bool.false_eq_true, if_false]
          rw [denied]
          simp only [granted, Bool.and_false, Bool.false_eq_true, if_false]

def votes (g : Inner) (cand : NodeId) : Nat :=
  1 + (g.live.filter (fun id => id ≠ cand &&
    grantsVote cand (g.maxTerm + 1) (tip (g.nodes cand).log) (g.nodes id))).length

def Electable (g : Inner) : Prop := ∃ cand, g.pickCandidate = some cand ∧ g.quorum ≤ g.votes cand

theorem poll_votes (g : Inner) (cand : NodeId) : (g.poll cand).2 = g.votes cand := by
  apply foldl_askVote_votes cand _ _ g.live g.live_nodup
  intro id _ different
  exact setNode_nodes_other g cand id _ different

theorem live_eq_of_down {before after : Inner} (size : after.size = before.size)
    (down : ∀ id, after.isDown id = before.isDown id) : after.live = before.live := by
  unfold live
  rw [size]
  exact List.filter_congr (fun id _ => by rw [down id])

theorem live_erase {g : Inner} {cand : NodeId} (isLive : cand ∈ g.live) (after : Inner)
    (size : after.size = g.size) (down : after.down = g.down.erase cand) :
    after.live = g.live := by
  apply live_eq_of_down size
  intro id
  unfold isDown
  rw [down, SortedMap.find?_erase]
  split
  · rename_i same
    have up := (mem_live.mp isLive).2
    rw [same]
    exact up.symm
  · rfl

end Inner

/-! ### The invariant -/

/-- Everything in the node's log is committed and applied. -/
structure Node.Settled (node : Node) : Prop where
  commitIdx : node.commitIdx = node.log.length
  applied : node.applied = node.log.length
  state : node.state = Node.stateOf node.log

/-- `acked` is the sequence of entries the cluster has acknowledged. -/
structure ClusterInvariant (n : Nat) (g : Inner) (acked : Log) : Prop where
  size : g.size = n
  identity : ∀ id, (g.nodes id).id = id
  membership : ∀ id, (g.nodes id).peers = IdSet.below n
  held : ∀ id, (g.nodes id).log <+: acked
  settled : ∀ id, (g.nodes id).Settled
  ordered : acked.Pairwise (fun earlier later => earlier.selfTerm ≤ later.selfTerm)
  bounded : ∀ entry ∈ acked, entry.selfTerm ≤ g.maxTerm
  leads : ∀ leader, g.leader = some leader → leader ∈ g.live ∧
    (g.nodes leader).role = .leader ∧ (g.nodes leader).log = acked ∧
    ∀ id, id < n → (g.nodes id).term ≤ (g.nodes leader).term
  majority : ∃ members, IsQuorum n members ∧ ∀ id ∈ members, (g.nodes id).log = acked

theorem Inner.Untouched.settled {before after : Node} (untouched : Inner.Untouched before after)
    (settled : before.Settled) : after.Settled :=
  ⟨by rw [untouched.commitIdx, untouched.log, settled.commitIdx],
    by rw [untouched.applied, untouched.log, settled.applied],
    by rw [untouched.state, untouched.log, settled.state]⟩

theorem lastTerm_le_of_isPrefix {short long : Log} (isPrefix : short <+: long)
    (ordered : long.Pairwise (fun earlier later => earlier.selfTerm ≤ later.selfTerm)) :
    Log.lastTerm short ≤ Log.lastTerm long := by
  obtain ⟨rest, rfl⟩ := isPrefix
  by_cases emptyRest : rest = []
  · rw [emptyRest, List.append_nil]
  · by_cases emptyShort : short = []
    · rw [emptyShort]
      exact Nat.zero_le _
    · have joined : Log.lastTerm (short ++ rest) = (rest.getLast emptyRest).selfTerm := by
        simp [Log.lastTerm, List.getLast?_append, List.getLast?_eq_some_getLast emptyRest]
      have alone : Log.lastTerm short = (short.getLast emptyShort).selfTerm := by
        simp [Log.lastTerm, List.getLast?_eq_some_getLast emptyShort]
      rw [joined, alone]
      exact (List.pairwise_append.mp ordered).2.2 _ (List.getLast_mem emptyShort) _
        (List.getLast_mem emptyRest)

namespace ClusterInvariant

variable {n : Nat} {g : Inner} {acked : Log}

theorem initial (positive : 1 ≤ n) : ClusterInvariant n (Inner.new n) [] where
  size := rfl
  identity := fun _ => rfl
  membership := fun _ => rfl
  held := fun _ => List.prefix_rfl
  settled := fun _ => ⟨rfl, rfl, rfl⟩
  ordered := List.Pairwise.nil
  bounded := fun _ member => by cases member
  leads := fun _ impossible => by cases impossible
  majority := by
    refine ⟨Finset.range n, ⟨Finset.Subset.refl _, ?_⟩, fun _ _ => rfl⟩
    rw [Finset.card_range]
    omega

theorem quorum_eq (invariant : ClusterInvariant n g acked) : g.quorum = n / 2 + 1 := by
  unfold Inner.quorum
  rw [invariant.size]

/-- A live majority contains a node with the whole sequence, and no live node's tip
exceeds the candidate's: the candidate holds the whole sequence. -/
theorem candidate_log (invariant : ClusterInvariant n g acked)
    (enough : g.quorum ≤ g.live.length) {cand : NodeId}
    (top : ∀ id ∈ g.live,
      Inner.tipBelow (Inner.tip (g.nodes cand).log) (Inner.tip (g.nodes id).log) = false) :
    (g.nodes cand).log = acked := by
  obtain ⟨members, quorum, whole⟩ := invariant.majority
  have liveQuorum := Inner.live_isQuorum enough
  rw [invariant.size] at liveQuorum
  obtain ⟨holder, isMember, isLive⟩ := quorum.intersect liveQuorum
  have notBelow := top holder (List.mem_toFinset.mp isLive)
  rw [whole holder isMember, Bool.eq_false_iff, ne_eq, Inner.tipBelow_iff] at notBelow
  have lastTerm := lastTerm_le_of_isPrefix (invariant.held cand) invariant.ordered
  have lengths := (invariant.held cand).length_le
  apply (invariant.held cand).eq_of_length
  unfold Inner.tip Log.lastIndex at notBelow
  dsimp only at notBelow
  omega

theorem quiet {after : Inner} (invariant : ClusterInvariant n g acked)
    (size : after.size = g.size)
    (untouched : ∀ id, Inner.Untouched (g.nodes id) (after.nodes id))
    (terms : ∀ id, (g.nodes id).term ≤ (after.nodes id).term)
    (leads : ∀ leader, after.leader = some leader → leader ∈ after.live ∧
      (after.nodes leader).role = .leader ∧ (g.nodes leader).log = acked ∧
      ∀ id, id < n → (after.nodes id).term ≤ (after.nodes leader).term) :
    ClusterInvariant n after acked where
  size := size.trans invariant.size
  identity := fun id => (untouched id).id.trans (invariant.identity id)
  membership := fun id => (untouched id).peers.trans (invariant.membership id)
  held := fun id => (untouched id).log.symm ▸ invariant.held id
  settled := fun id => (untouched id).settled (invariant.settled id)
  ordered := invariant.ordered
  bounded := by
    intro entry member
    apply Nat.le_trans (invariant.bounded entry member)
    apply Inner.maxTerm_le
    intro id bound
    exact Nat.le_trans (terms id) (after.term_le_maxTerm (by rw [size]; exact bound))
  leads := by
    intro leader isLeader
    obtain ⟨isLive, role, log, highest⟩ := leads leader isLeader
    exact ⟨isLive, role, (untouched leader).log.trans log, highest⟩
  majority := by
    obtain ⟨members, quorum, whole⟩ := invariant.majority
    exact ⟨members, quorum, fun id member => (untouched id).log.trans (whole id member)⟩

theorem live_ne_nil (enough : g.quorum ≤ g.live.length) : g.live ≠ [] := by
  intro nobody
  rw [nobody, List.length_nil] at enough
  unfold Inner.quorum at enough
  omega

theorem poll_spec (invariant : ClusterInvariant n g acked) {cand : NodeId}
    (isLive : cand ∈ g.live) :
    (g.poll cand).1.size = g.size ∧ (g.poll cand).1.down = g.down ∧
      (∀ id, Inner.Untouched (g.nodes id) ((g.poll cand).1.nodes id)) ∧
      (∀ id, (g.nodes id).term ≤ ((g.poll cand).1.nodes id).term) ∧
      (∀ id, id < n → ((g.poll cand).1.nodes id).term ≤ ((g.poll cand).1.nodes cand).term) := by
  have polled : Inner.Polled (g.campaign cand) (g.poll cand).1 cand (g.maxTerm + 1) :=
    Inner.foldl_askVote_polled cand _ _ g.live (g.campaign cand, 1)
  have bound := (Inner.mem_live.mp isLive).1
  have atCand : (g.campaign cand).nodes cand =
      { (g.nodes cand).startElection with term := g.maxTerm + 1 } := by
    unfold Inner.campaign
    rw [Inner.setNode_nodes_self]
  have atOther (id : NodeId) (different : id ≠ cand) :
      (g.campaign cand).nodes id = g.nodes id := by
    unfold Inner.campaign
    rw [Inner.setNode_nodes_other _ _ _ _ different]
  refine ⟨polled.size, polled.down, ?_, ?_, ?_⟩
  · intro id
    refine Inner.Untouched.trans ?_ (polled.untouched id)
    by_cases same : id = cand
    · rw [same, atCand]
      exact ⟨rfl, rfl, rfl, rfl, rfl, rfl⟩
    · rw [atOther id same]
      exact Inner.Untouched.refl _
  · intro id
    refine Nat.le_trans ?_ (polled.terms id).1
    by_cases same : id = cand
    · rw [same, atCand]
      exact Nat.le_succ_of_le (g.term_le_maxTerm bound)
    · rw [atOther id same]
  · intro id inside
    have candTerm : ((g.poll cand).1.nodes cand).term = g.maxTerm + 1 := by
      rw [polled.candidate, atCand]
    have upper := (polled.terms id).2
    rw [candTerm]
    by_cases same : id = cand
    · rw [same, candTerm]
    · rw [atOther id same] at upper
      have below := g.term_le_maxTerm (by rw [invariant.size]; exact inside : id < g.size)
      omega

/-- An election with a live majority picks a holder of the whole sequence. It leads
afterwards if its votes are a majority, and nobody does otherwise. -/
theorem elect_spec (invariant : ClusterInvariant n g acked)
    (enough : g.quorum ≤ g.live.length) :
    ∃ cand after, g.pickCandidate = some cand ∧ cand ∈ g.live ∧ (g.nodes cand).log = acked ∧
      g.elect = some (after, after.leader) ∧
      after.leader = (if g.quorum ≤ g.votes cand then some cand else none) ∧
      ClusterInvariant n after acked ∧ after.live = g.live ∧
      ∀ id, Inner.Untouched (g.nodes id) (after.nodes id) := by
  obtain ⟨cand, picked, isLive, top⟩ := g.pickCandidate_spec (live_ne_nil enough)
  have log := invariant.candidate_log enough top
  obtain ⟨size, down, untouched, rises, highest⟩ := invariant.poll_spec isLive
  unfold Inner.elect
  rw [if_neg (Nat.not_lt.mpr enough), picked]
  dsimp only
  rw [g.poll_votes cand]
  by_cases won : g.quorum ≤ g.votes cand
  · rw [if_pos won]
    let after : Inner :=
      { (g.poll cand).1.setNode cand ((g.poll cand).1.nodes cand).becomeLeader with
        leader := some cand
        down := (g.poll cand).1.down.erase cand }
    have live : after.live = g.live :=
      Inner.live_erase isLive after size (by change _ = g.down.erase cand; rw [← down])
    have atCand : after.nodes cand = ((g.poll cand).1.nodes cand).becomeLeader :=
      Inner.setNode_nodes_self _ _ _
    have atOther (id : NodeId) (different : id ≠ cand) :
        after.nodes id = (g.poll cand).1.nodes id :=
      Inner.setNode_nodes_other _ _ _ _ different
    have kept (id : NodeId) : Inner.Untouched (g.nodes id) (after.nodes id) := by
      refine (untouched id).trans ?_
      by_cases same : id = cand
      · rw [same, atCand]
        exact ⟨rfl, rfl, rfl, rfl, rfl, rfl⟩
      · rw [atOther id same]
        exact Inner.Untouched.refl _
    have terms (id : NodeId) : (after.nodes id).term = ((g.poll cand).1.nodes id).term := by
      by_cases same : id = cand
      · rw [same, atCand]
        rfl
      · rw [atOther id same]
    refine ⟨cand, after, rfl, isLive, log, rfl, (if_pos won).symm, ?_, live, kept⟩
    refine invariant.quiet size kept (fun id => by rw [terms id]; exact rises id) ?_
    intro leader isLeader
    cases isLeader
    refine ⟨live.symm ▸ isLive, by rw [atCand]; rfl, log, ?_⟩
    intro id inside
    rw [terms id, terms cand]
    exact highest id inside
  · rw [if_neg won]
    refine ⟨cand, { (g.poll cand).1 with leader := none }, rfl, isLive, log, rfl,
      (if_neg won).symm, ?_, ?_, untouched⟩
    · exact invariant.quiet size untouched rises (fun _ impossible => by cases impossible)
    · apply Inner.live_eq_of_down size
      intro id
      change ((g.poll cand).1.down.find? id).isSome = (g.down.find? id).isSome
      rw [down]

theorem vacate (invariant : ClusterInvariant n g acked) :
    ClusterInvariant n { g with leader := none } acked :=
  invariant.quiet rfl (fun id => Inner.Untouched.refl (g.nodes id)) (fun _ => Nat.le_refl _)
    (fun _ impossible => by cases impossible)

/-- `ensure_leader` never panics and changes no log, commit index or state. It finds
a leader exactly when a majority is live and either somebody leads already or the
candidate is electable. -/
theorem ensureLeader_spec (invariant : ClusterInvariant n g acked) :
    ∃ after result, g.ensureLeader = some (after, result) ∧ ClusterInvariant n after acked ∧
      after.live = g.live ∧ (∀ id, Inner.Untouched (g.nodes id) (after.nodes id)) ∧
      (∀ leader, result = .ok leader →
        after.leader = some leader ∧ after.quorum ≤ after.live.length) ∧
      (result = .error .noLeader ↔
        g.live.length < g.quorum ∨ (g.leader = none ∧ ¬g.Electable)) := by
  unfold Inner.ensureLeader
  by_cases minority : g.live.length < g.quorum
  · rw [if_pos minority]
    refine ⟨_, _, rfl, invariant.vacate, rfl, fun id => Inner.Untouched.refl _, ?_, ?_⟩
    · intro _ impossible
      cases impossible
    · exact ⟨fun _ => Or.inl minority, fun _ => rfl⟩
  · rw [if_neg minority]
    have enough : g.quorum ≤ g.live.length := Nat.le_of_not_lt minority
    cases current : g.leader with
    | some leader =>
        have up := (Inner.mem_live.mp (invariant.leads leader current).1).2
        have kept : (some leader).filter (fun id => !g.isDown id) = some leader := by
          simp [up]
        rw [kept]
        refine ⟨g, .ok leader, rfl, invariant, rfl, fun id => Inner.Untouched.refl _, ?_, ?_⟩
        · intro _ same
          cases same
          exact ⟨current, enough⟩
        · constructor
          · intro impossible
            cases impossible
          · rintro (few | ⟨vacant, _⟩)
            · exact absurd few minority
            · cases vacant
    | none =>
        obtain ⟨cand, after, picked, _, _, elected, result, kept, live, untouched⟩ :=
          invariant.vacate.elect_spec enough
        have pickedHere : g.pickCandidate = some cand := picked
        have votesHere : Inner.votes { g with leader := none } cand = g.votes cand := rfl
        rw [Option.filter_none, elected]
        refine ⟨after, _, rfl, kept, live, untouched, ?_, ?_⟩
        · intro leader isOk
          cases found : after.leader with
          | none =>
              rw [found] at isOk
              cases isOk
          | some winner =>
              rw [found] at isOk
              cases isOk
              refine ⟨rfl, ?_⟩
              rw [live, kept.quorum_eq, ← invariant.quorum_eq]
              exact enough
        · by_cases won : g.quorum ≤ g.votes cand
          · have leads : after.leader = some cand := by
              rw [result]
              exact if_pos won
            rw [leads]
            constructor
            · intro impossible
              cases impossible
            · rintro (few | ⟨_, hopeless⟩)
              · exact absurd few minority
              · exact absurd ⟨cand, pickedHere, won⟩ hopeless
          · have vacant : after.leader = none := by
              rw [result]
              exact if_neg won
            rw [vacant]
            refine ⟨fun _ => Or.inr ⟨rfl, ?_⟩, fun _ => rfl⟩
            rintro ⟨other, otherPicked, otherWon⟩
            rw [pickedHere] at otherPicked
            cases otherPicked
            exact won otherWon

end ClusterInvariant

end Keystory.Raft
