/-
What a call does to the cluster.

Under the invariant the first append a peer is sent always lands, so one pass over
the live nodes gives each of them the leader's whole log. The write then commits
at the next index, and the pass that applies it leaves every live node settled on
the longer sequence.
-/

import Keystory.Raft.ClusterInvariant

namespace Keystory.Raft

open General

namespace Inner

/-! ### One peer -/

theorem filterMap_get_range (log : Log) (start count : Nat) :
    (List.range' (start + 1) count).filterMap (Log.get log) = (log.drop start).take count := by
  induction count generalizing start with
  | zero => rfl
  | succ count ih =>
      rw [List.range'_succ, List.filterMap_cons, Log.get_succ]
      cases found : log[start]? with
      | none =>
          have past : log.length ≤ start := List.getElem?_eq_none_iff.mp found
          have rest := ih (start + 1)
          rw [List.drop_of_length_le (by omega), List.take_nil] at rest
          dsimp only
          rw [rest, List.drop_of_length_le past, List.take_nil]
      | some entry =>
          have inside := lt_length_of_getElem? found
          have atStart : log[start] = entry := by
            rw [List.getElem?_eq_getElem inside] at found
            exact Option.some.inj found
          dsimp only
          rw [ih (start + 1), List.drop_eq_getElem_cons inside, List.take_succ_cons, atStart]

/-- A node brought to the leader's log, with the leader's commit index seen. -/
structure CaughtUp (log : Log) (term commit : Nat) (before after : Node) : Prop where
  id : after.id = before.id
  peers : after.peers = before.peers
  applied : after.applied = before.applied
  state : after.state = before.state
  log : after.log = log
  commitIdx : after.commitIdx = max before.commitIdx commit
  rises : before.term ≤ after.term
  bounded : after.term ≤ term

@[simp] theorem setNode_self (g : Inner) (id : NodeId) : g.setNode id (g.nodes id) = g := by
  simp only [setNode, Function.update_eq_self]

theorem appendLoop_of_isPrefix {short long : Log} (isPrefix : short <+: long) {prev : Nat}
    (inside : prev ≤ short.length) : Node.appendLoop short (prev + 1) (long.drop prev) = long := by
  have shorter := isPrefix.length_le
  have cut : short.take prev = long.take prev := by
    rw [List.prefix_iff_eq_take.mp isPrefix, List.take_take, Nat.min_eq_left inside]
  have whole : long.take (prev + (long.drop prev).length) = long := by
    apply List.take_of_length_le
    rw [List.length_drop]
    omega
  have determined : TermsDetermine short long := by
    intro position left right leftAt rightAt _
    rw [getElem?_of_isPrefix isPrefix leftAt] at rightAt
    exact Option.some.inj rightAt
  rcases appendLoop_slice short long prev _ inside cut List.prefix_rfl determined with
    ⟨held, kept⟩ | ⟨_, taken⟩
  · rw [whole] at held
    rw [kept]
    exact isPrefix.eq_of_length (Nat.le_antisymm shorter held.length_le)
  · rw [taken, whole]

/-- A peer whose log is a prefix of the leader's accepts the first append it is sent,
and holds the leader's log after it. -/
theorem catchUpRound_spec (g : Inner) {leader peer : NodeId} {leaderTerm : Nat}
    (isPrefix : (g.nodes peer).log <+: (g.nodes leader).log)
    (nonempty : (g.nodes leader).log.length ≠ 0) (order : (g.nodes peer).term ≤ leaderTerm)
    (committed : (g.nodes leader).commitIdx ≤ (g.nodes leader).log.length) :
    ∃ node, g.catchUpRound leader peer (g.nodes leader).log.length leaderTerm =
        (g.setNode peer node, some true) ∧
      CaughtUp (g.nodes leader).log leaderTerm (g.nodes leader).commitIdx (g.nodes peer) node := by
  have shorter := isPrefix.length_le
  obtain ⟨prev, prevEq⟩ : ∃ prev, prev = min ((g.nodes peer).log.length + 1)
      (g.nodes leader).log.length - 1 := ⟨_, rfl⟩
  have start : min ((g.nodes peer).log.length + 1) (g.nodes leader).log.length = prev + 1 := by
    omega
  have suffix : (List.range' (prev + 1) ((g.nodes leader).log.length + 1 - (prev + 1))).filterMap
      (Log.get (g.nodes leader).log) = (g.nodes leader).log.drop prev := by
    rw [filterMap_get_range]
    apply List.take_of_length_le
    rw [List.length_drop]
    omega
  have agree : prev = 0 ∨ Log.termOf (g.nodes peer).log prev =
      some ((Log.termOf (g.nodes leader).log prev).getD 0) := by
    by_cases zero : prev = 0
    · exact Or.inl zero
    · right
      obtain ⟨position, rfl⟩ : ∃ position, prev = position + 1 := ⟨prev - 1, by omega⟩
      have inside : position < (g.nodes peer).log.length := by omega
      rw [Log.termOf_succ, Log.termOf_succ, ← getElem?_of_isPrefix_of_lt isPrefix inside,
        List.getElem?_eq_getElem inside]
      rfl
  have log := appendLoop_of_isPrefix isPrefix (by omega : prev ≤ (g.nodes peer).log.length)
  have accepted : (g.nodes peer).appendEntries leader leaderTerm prev
      ((Log.termOf (g.nodes leader).log prev).getD 0) ((g.nodes leader).log.drop prev)
      (g.nodes leader).commitIdx =
        ({ (g.nodes peer).adoptLeader leader leaderTerm with
            log := (g.nodes leader).log
            commitIdx := Node.commitThrough (g.nodes peer).commitIdx
              (g.nodes leader).commitIdx }, none) := by
    rcases Node.appendEntries_cases (g.nodes peer) leader leaderTerm prev
        ((Log.termOf (g.nodes leader).log prev).getD 0) ((g.nodes leader).log.drop prev)
        (g.nodes leader).commitIdx with ⟨stale, _⟩ | ⟨_, anchored, differs, _⟩ | ⟨_, _, result⟩
    · omega
    · exact absurd agree (not_or.mpr ⟨anchored, differs⟩)
    · rw [result, log, List.length_drop, Nat.min_eq_left (by omega)]
  refine ⟨{ (g.nodes peer).adoptLeader leader leaderTerm with
      log := (g.nodes leader).log
      commitIdx := Node.commitThrough (g.nodes peer).commitIdx (g.nodes leader).commitIdx },
    ?_, ?_⟩
  · unfold catchUpRound Log.lastIndex
    dsimp only
    rw [start, suffix, Nat.add_sub_cancel, accepted]
  · have term := Node.adoptLeader_term leader order
    refine ⟨Node.adoptLeader_id _ _ _, Node.adoptLeader_peers _ _ _,
      Node.adoptLeader_applied _ _ _, Node.adoptLeader_state _ _ _, rfl, ?_, ?_, ?_⟩
    · dsimp only [Node.commitThrough]
      split <;> omega
    · exact Nat.le_trans order (Nat.le_of_eq term.symm)
    · exact Nat.le_of_eq term

theorem peerCatchUp_spec (g : Inner) {leader peer : NodeId} {leaderTerm : Nat}
    (isPrefix : (g.nodes peer).log <+: (g.nodes leader).log)
    (order : (g.nodes peer).term ≤ leaderTerm)
    (committed : (g.nodes leader).commitIdx ≤ (g.nodes leader).log.length) :
    ∃ node, g.peerCatchUp leader peer (g.nodes leader).log.length leaderTerm =
        some (g.setNode peer node, true) ∧
      CaughtUp (g.nodes leader).log leaderTerm (g.nodes leader).commitIdx (g.nodes peer) node := by
  unfold peerCatchUp
  by_cases empty : (g.nodes leader).log.length = 0
  · rw [if_pos empty]
    refine ⟨g.nodes peer, by rw [setNode_self], rfl, rfl, rfl, rfl, ?_, ?_, Nat.le_refl _, order⟩
    · have nothing : (g.nodes leader).log = [] := List.length_eq_zero_iff.mp empty
      rw [nothing] at isPrefix ⊢
      exact List.prefix_nil.mp isPrefix
    · omega
  · rw [if_neg empty]
    obtain ⟨node, round, caughtUp⟩ := g.catchUpRound_spec isPrefix empty order committed
    refine ⟨node, ?_, caughtUp⟩
    unfold catchUpLoop
    rw [round]

/-! ### One pass over the live nodes -/

/-- A pass that caught `ids` up with the leader: nothing of the leader changed but its
bookkeeping, and nothing at all of the nodes not visited. -/
structure Reached (leader : NodeId) (leaderTerm : Nat) (ids : List NodeId) (before after : Inner) :
    Prop where
  size : after.size = before.size
  pointer : after.leader = before.leader
  down : after.down = before.down
  source : ∃ replicated, after.nodes leader =
    { before.nodes leader with matchIdx := replicated }
  visited : ∀ id ∈ ids, id ≠ leader → CaughtUp (before.nodes leader).log leaderTerm
    (before.nodes leader).commitIdx (before.nodes id) (after.nodes id)
  others : ∀ id, id ∉ ids → id ≠ leader → after.nodes id = before.nodes id

theorem Reached.none (leader : NodeId) (leaderTerm : Nat) (g : Inner) :
    Reached leader leaderTerm [] g g where
  size := rfl
  pointer := rfl
  down := rfl
  source := ⟨_, rfl⟩
  visited := fun _ member => absurd member List.not_mem_nil
  others := fun _ _ _ => rfl

theorem Reached.skip {leader : NodeId} {leaderTerm : Nat} {ids : List NodeId}
    {before after : Inner} (reached : Reached leader leaderTerm ids before after) :
    Reached leader leaderTerm (leader :: ids) before after := by
  refine ⟨reached.size, reached.pointer, reached.down, reached.source, ?_, ?_⟩
  · intro id member different
    exact reached.visited id ((List.mem_cons.mp member).resolve_left different) different
  · intro id missing different
    exact reached.others id (fun member => missing (List.mem_cons_of_mem _ member)) different

theorem Reached.visit {leader : NodeId} {leaderTerm : Nat} {ids : List NodeId} {peer : NodeId}
    {before after : Inner} {node : Node} {replicated : SortedMap NodeId Nat}
    (different : peer ≠ leader) (unvisited : peer ∉ ids)
    (caughtUp : CaughtUp (before.nodes leader).log leaderTerm (before.nodes leader).commitIdx
      (before.nodes peer) node)
    (rest : Reached leader leaderTerm ids ((before.setNode peer node).setNode leader
      { before.nodes leader with matchIdx := replicated }) after) :
    Reached leader leaderTerm (peer :: ids) before after := by
  have middleLeader : ((before.setNode peer node).setNode leader
      { before.nodes leader with matchIdx := replicated }).nodes leader =
        { before.nodes leader with matchIdx := replicated } := setNode_nodes_self _ _ _
  have middleOther (id : NodeId) (notLeader : id ≠ leader) (notPeer : id ≠ peer) :
      ((before.setNode peer node).setNode leader
        { before.nodes leader with matchIdx := replicated }).nodes id = before.nodes id := by
    rw [setNode_nodes_other _ _ _ _ notLeader, setNode_nodes_other _ _ _ _ notPeer]
  refine ⟨rest.size, rest.pointer, rest.down, ?_, ?_, ?_⟩
  · obtain ⟨later, source⟩ := rest.source
    rw [middleLeader] at source
    exact ⟨later, source⟩
  · intro id member notLeader
    by_cases same : id = peer
    · subst same
      rw [rest.others id unvisited notLeader, setNode_nodes_other _ _ _ _ notLeader,
        setNode_nodes_self]
      exact caughtUp
    · have visited := rest.visited id ((List.mem_cons.mp member).resolve_left same) notLeader
      rw [middleLeader, middleOther id notLeader same] at visited
      exact visited
  · intro id missing notLeader
    rw [List.mem_cons, not_or] at missing
    rw [rest.others id missing.2 notLeader, middleOther id notLeader missing.1]

/-- What a pass needs of the cluster: the leader's commit index inside its log, and
every peer behind it in log and term. -/
structure Behind (leader : NodeId) (leaderTerm : Nat) (ids : List NodeId) (g : Inner) : Prop where
  committed : (g.nodes leader).commitIdx ≤ (g.nodes leader).log.length
  logs : ∀ id ∈ ids, id ≠ leader → (g.nodes id).log <+: (g.nodes leader).log
  terms : ∀ id ∈ ids, id ≠ leader → (g.nodes id).term ≤ leaderTerm

theorem Behind.visit {leader : NodeId} {leaderTerm : Nat} {ids : List NodeId} {peer : NodeId}
    {g : Inner} (behind : Behind leader leaderTerm (peer :: ids) g) (unvisited : peer ∉ ids)
    (node : Node) (replicated : SortedMap NodeId Nat) :
    Behind leader leaderTerm ids ((g.setNode peer node).setNode leader
      { g.nodes leader with matchIdx := replicated }) := by
  have other (id : NodeId) (member : id ∈ ids) (notLeader : id ≠ leader) :
      ((g.setNode peer node).setNode leader
        { g.nodes leader with matchIdx := replicated }).nodes id = g.nodes id := by
    have notPeer : id ≠ peer := fun same => unvisited (same ▸ member)
    rw [setNode_nodes_other _ _ _ _ notLeader, setNode_nodes_other _ _ _ _ notPeer]
  constructor
  · rw [setNode_nodes_self]
    exact behind.committed
  · intro id member notLeader
    rw [other id member notLeader, setNode_nodes_self]
    exact behind.logs id (List.mem_cons_of_mem peer member) notLeader
  · intro id member notLeader
    rw [other id member notLeader]
    exact behind.terms id (List.mem_cons_of_mem peer member) notLeader

theorem Behind.tail {leader : NodeId} {leaderTerm : Nat} {ids : List NodeId} {peer : NodeId}
    {g : Inner} (behind : Behind leader leaderTerm (peer :: ids) g) :
    Behind leader leaderTerm ids g :=
  ⟨behind.committed, fun id member => behind.logs id (List.mem_cons_of_mem peer member),
    fun id member => behind.terms id (List.mem_cons_of_mem peer member)⟩

theorem syncPeers_spec {leader : NodeId} {leaderTerm : Nat} (ids : List NodeId)
    (distinct : ids.Nodup) (g : Inner) (behind : Behind leader leaderTerm ids g) :
    ∃ after, ids.foldlM (syncPeer leader (g.nodes leader).log.length leaderTerm) g = some after ∧
      Reached leader leaderTerm ids g after := by
  induction ids generalizing g with
  | nil => exact ⟨g, rfl, Reached.none leader leaderTerm g⟩
  | cons peer rest ih =>
      obtain ⟨unvisited, restDistinct⟩ := List.nodup_cons.mp distinct
      rw [List.foldlM_cons]
      by_cases isLeader : peer = leader
      · subst isLeader
        obtain ⟨after, result, reached⟩ := ih restDistinct g behind.tail
        refine ⟨after, ?_, reached.skip⟩
        simp only [syncPeer, if_true]
        exact result
      · obtain ⟨node, caught, caughtUp⟩ := g.peerCatchUp_spec
          (behind.logs peer List.mem_cons_self isLeader)
          (behind.terms peer List.mem_cons_self isLeader) behind.committed
        have unchanged : (g.setNode peer node).setNode leader
            { g.nodes leader with matchIdx := (g.nodes leader).matchIdx } = g.setNode peer node := by
          have atLeader : (g.setNode peer node).nodes leader = g.nodes leader :=
            setNode_nodes_other _ _ _ _ (Ne.symm isLeader)
          rw [← atLeader]
          exact setNode_self _ _
        have remaining := behind.visit unvisited node (g.nodes leader).matchIdx
        rw [unchanged] at remaining
        obtain ⟨after, result, reached⟩ := ih restDistinct (g.setNode peer node) remaining
        rw [setNode_nodes_other _ _ _ _ (Ne.symm isLeader)] at result
        refine ⟨after, ?_, Reached.visit isLeader unvisited caughtUp (unchanged.symm ▸ reached)⟩
        simp only [syncPeer, if_neg isLeader, caught, Option.map_some]
        exact result

theorem replicate_spec {leader : NodeId} {leaderTerm : Nat} (ids : List NodeId)
    (distinct : ids.Nodup) (g : Inner) (acks : Nat) (behind : Behind leader leaderTerm ids g) :
    ∃ after, ids.foldlM (replicateTo leader (g.nodes leader).log.length leaderTerm) (g, acks) =
        some (after, acks + (ids.filter (fun id => id ≠ leader)).length) ∧
      Reached leader leaderTerm ids g after ∧
      ∀ id, (after.nodes leader).matchIdx.find? id =
        if id ∈ ids ∧ id ≠ leader then some (g.nodes leader).log.length
        else (g.nodes leader).matchIdx.find? id := by
  induction ids generalizing g acks with
  | nil =>
      refine ⟨g, rfl, Reached.none leader leaderTerm g, ?_⟩
      intro id
      rw [if_neg (by simp)]
  | cons peer rest ih =>
      obtain ⟨unvisited, restDistinct⟩ := List.nodup_cons.mp distinct
      rw [List.foldlM_cons]
      by_cases isLeader : peer = leader
      · subst isLeader
        obtain ⟨after, result, reached, recorded⟩ := ih restDistinct g acks behind.tail
        refine ⟨after, ?_, reached.skip, ?_⟩
        · simp only [replicateTo, if_true, ne_eq, not_true_eq_false, decide_false,
            Bool.false_eq_true, not_false_eq_true, List.filter_cons_of_neg]
          exact result
        · intro id
          rw [recorded id]
          by_cases self : id = peer <;> simp [self]
      · obtain ⟨node, caught, caughtUp⟩ := g.peerCatchUp_spec
          (behind.logs peer List.mem_cons_self isLeader)
          (behind.terms peer List.mem_cons_self isLeader) behind.committed
        let length := (g.nodes leader).log.length
        let replicated := (g.nodes leader).matchIdx.insert peer length
        obtain ⟨after, result, reached, recorded⟩ := ih restDistinct
          ((g.setNode peer node).setNode leader
            { g.nodes leader with matchIdx := replicated }) (acks + 1)
          (behind.visit unvisited node replicated)
        rw [setNode_nodes_self] at result recorded
        refine ⟨after, ?_, Reached.visit isLeader unvisited caughtUp reached, ?_⟩
        · have step : replicateTo leader length leaderTerm (g, acks) peer =
              some ((g.setNode peer node).setNode leader
                { g.nodes leader with matchIdx := replicated }, acks + 1) := by
            unfold replicateTo
            rw [if_neg isLeader]
            dsimp only [length]
            rw [caught]
            simp only [Option.map_some, if_true, replicated, length,
              setNode_nodes_other _ _ _ _ (Ne.symm isLeader)]
          change (replicateTo leader length leaderTerm (g, acks) peer >>= fun progress =>
            rest.foldlM (replicateTo leader length leaderTerm) progress) = _
          rw [step, List.filter_cons_of_pos (by simp [isLeader]), List.length_cons,
            Nat.add_comm (List.length _) 1, ← Nat.add_assoc]
          exact result
        · intro id
          rw [recorded id]
          dsimp only [replicated, length]
          rw [SortedMap.find?_insert]
          by_cases isPeer : id = peer
          · subst isPeer
            rw [if_neg (fun both => unvisited both.1), if_pos rfl,
              if_pos ⟨List.mem_cons_self, isLeader⟩]
          · simp only [List.mem_cons, isPeer, false_or, if_false]

end Inner

/-! ### Applying what is committed -/

/-- A node that holds `log` and has applied a part of it. -/
structure Node.Ready (log : Log) (node : Node) : Prop where
  holds : node.log = log
  applied : node.applied ≤ log.length
  state : node.state = Node.stateOf (log.take node.applied)
  commitIdx : node.commitIdx ≤ log.length

theorem Node.Settled.ready_longer {before after : Node} {log : Log} (settled : before.Settled)
    (isPrefix : before.log <+: log) (sameLog : after.log = log)
    (applied : after.applied = before.applied) (state : after.state = before.state)
    (commitIdx : after.commitIdx ≤ log.length) : after.Ready log where
  holds := sameLog
  applied := by
    rw [applied, settled.applied]
    exact isPrefix.length_le
  state := by
    rw [state, settled.state, applied, settled.applied, ← List.prefix_iff_eq_take.mp isPrefix]
  commitIdx := commitIdx

theorem Node.Ready.apply {log : Log} {node : Node} (ready : node.Ready log) :
    ({ node with commitIdx := max node.commitIdx log.length }).applyCommitted.1 =
      { node with
        commitIdx := log.length
        applied := log.length
        state := Node.stateOf log } := by
  have top : max node.commitIdx log.length = log.length := Nat.max_eq_right ready.commitIdx
  rw [top, Node.applyCommitted_eq]
  · simp only [ready.holds, Nat.min_self, List.take_length]
  · rw [ready.holds]
    exact ready.applied
  · rw [ready.holds]
    exact ready.state
  · exact ready.applied

theorem Inner.applyCommitted_live {g : Inner} {leader id : NodeId} {log : Log}
    (ready : ∀ id ∈ g.live, (g.nodes id).Ready log) (leads : leader ∈ g.live)
    (isLive : id ∈ g.live) (identity : (g.nodes id).id = id) :
    (g.applyCommitted leader log.length).nodes id =
      { g.nodes id with
        commitIdx := log.length
        applied := log.length
        state := Node.stateOf log } := by
  have agrees : Log.termOf (g.nodes id).log log.length =
      Log.termOf (g.nodes leader).log log.length := by
    rw [(ready id isLive).holds, (ready leader leads).holds]
  unfold Inner.applyCommitted
  dsimp only
  rw [if_pos ⟨(Inner.mem_live.mp isLive).1, by rw [identity]; exact isLive, agrees⟩]
  exact (ready id isLive).apply

theorem Inner.applyCommitted_down {g : Inner} {leader id : NodeId} {upto : Nat}
    (isDown : id ∉ g.live) (identity : (g.nodes id).id = id) :
    (g.applyCommitted leader upto).nodes id = g.nodes id := by
  unfold Inner.applyCommitted
  dsimp only
  rw [if_neg]
  intro applies
  rw [identity] at applies
  exact isDown applies.2.1

namespace ClusterInvariant

variable {n : Nat} {g : Inner} {acked : Log}

/-- The end of every served call: the live nodes hold a sequence that extends the
acknowledged one, the failed ones are as they were, and applying settles it. -/
theorem converge (invariant : ClusterInvariant n g acked) {leader : NodeId}
    (leads : g.leader = some leader) (enough : g.quorum ≤ g.live.length) {longer : Log}
    (isPrefix : acked <+: longer)
    (ordered : longer.Pairwise (fun earlier later => earlier.selfTerm ≤ later.selfTerm))
    {passed : Inner} (size : passed.size = g.size) (pointer : passed.leader = g.leader)
    (down : passed.down = g.down) (ready : ∀ id ∈ g.live, (passed.nodes id).Ready longer)
    (others : ∀ id, id ∉ g.live → passed.nodes id = g.nodes id)
    (identity : ∀ id, (passed.nodes id).id = (g.nodes id).id)
    (membership : ∀ id, (passed.nodes id).peers = (g.nodes id).peers)
    (highest : ∀ id, id < n → (passed.nodes id).term ≤ (passed.nodes leader).term)
    (bounded : ∀ entry ∈ longer, entry.selfTerm ≤ (passed.nodes leader).term)
    (role : (passed.nodes leader).role = .leader) :
    ClusterInvariant n (passed.applyCommitted leader longer.length) longer ∧
      (passed.applyCommitted leader longer.length).live = g.live ∧
      ∀ id ∈ g.live, ((passed.applyCommitted leader longer.length).nodes id).log = longer := by
  have live : passed.live = g.live := by
    apply Inner.live_eq_of_down size
    intro id
    unfold Inner.isDown
    rw [down]
  have leaderLive := (invariant.leads leader leads).1
  have own (id : NodeId) : (passed.nodes id).id = id := (identity id).trans (invariant.identity id)
  have atLive (id : NodeId) (isLive : id ∈ g.live) :=
    Inner.applyCommitted_live (g := passed)
      (by rw [live]; exact ready) (live.symm ▸ leaderLive) (live.symm ▸ isLive) (own id)
  have atDown (id : NodeId) (isDown : id ∉ g.live) :
      (passed.applyCommitted leader longer.length).nodes id = g.nodes id :=
    (Inner.applyCommitted_down (by rw [live]; exact isDown) (own id)).trans (others id isDown)
  have logs (id : NodeId) (isLive : id ∈ g.live) :
      ((passed.applyCommitted leader longer.length).nodes id).log = longer := by
    rw [atLive id isLive]
    exact (ready id isLive).holds
  have terms (id : NodeId) :
      ((passed.applyCommitted leader longer.length).nodes id).term = (passed.nodes id).term := by
    by_cases isLive : id ∈ g.live
    · rw [atLive id isLive]
    · rw [atDown id isLive, others id isLive]
  refine ⟨⟨size.trans invariant.size, ?_, ?_, ?_, ?_, ordered, ?_, ?_, ?_⟩, live, logs⟩
  · intro id
    by_cases isLive : id ∈ g.live
    · rw [atLive id isLive]
      exact own id
    · rw [atDown id isLive]
      exact invariant.identity id
  · intro id
    by_cases isLive : id ∈ g.live
    · rw [atLive id isLive]
      exact (membership id).trans (invariant.membership id)
    · rw [atDown id isLive]
      exact invariant.membership id
  · intro id
    by_cases isLive : id ∈ g.live
    · rw [logs id isLive]
    · rw [atDown id isLive]
      exact (invariant.held id).trans isPrefix
  · intro id
    by_cases isLive : id ∈ g.live
    · have sameLog := (ready id isLive).holds
      rw [atLive id isLive]
      exact ⟨by rw [sameLog], by rw [sameLog], by rw [sameLog]⟩
    · rw [atDown id isLive]
      exact invariant.settled id
  · intro entry member
    apply Nat.le_trans (bounded entry member)
    rw [← terms leader]
    apply Inner.term_le_maxTerm
    change leader < passed.size
    rw [size]
    exact (Inner.mem_live.mp leaderLive).1
  · intro other isLeader
    have same : other = leader := by
      change passed.leader = some other at isLeader
      rw [pointer, leads] at isLeader
      exact (Option.some.inj isLeader).symm
    subst same
    refine ⟨?_, ?_, logs other leaderLive, ?_⟩
    · change other ∈ passed.live
      rw [live]
      exact leaderLive
    · rw [atLive other leaderLive]
      exact role
    · intro id inside
      rw [terms id, terms other]
      exact highest id inside
  · refine ⟨g.live.toFinset, invariant.size ▸ Inner.live_isQuorum enough, ?_⟩
    intro id member
    exact logs id (List.mem_toFinset.mp member)

theorem entry_le_leader (invariant : ClusterInvariant n g acked) {leader : NodeId}
    (leads : g.leader = some leader) {entry : LogEntry} (member : entry ∈ acked) :
    entry.selfTerm ≤ (g.nodes leader).term := by
  apply Nat.le_trans (invariant.bounded entry member)
  apply Inner.maxTerm_le
  intro id bound
  exact (invariant.leads leader leads).2.2.2 id (by rw [← invariant.size]; exact bound)

/-! ### Reads and writes -/

/-- What the leader brings to a pass over the live nodes: an extension of the
acknowledged sequence, of which it has applied the acknowledged part. -/
structure Carries (g : Inner) (acked : Log) (leader : NodeId) (node : Node) : Prop where
  id : node.id = (g.nodes leader).id
  peers : node.peers = (g.nodes leader).peers
  term : node.term = (g.nodes leader).term
  role : node.role = .leader
  applied : node.applied = (g.nodes leader).applied
  state : node.state = (g.nodes leader).state
  extends_ : acked <+: node.log
  ordered : node.log.Pairwise (fun earlier later => earlier.selfTerm ≤ later.selfTerm)
  bounded : ∀ entry ∈ node.log, entry.selfTerm ≤ node.term
  committed : node.commitIdx ≤ node.log.length

theorem behind (invariant : ClusterInvariant n g acked) {leader : NodeId}
    (leads : g.leader = some leader) {node : Node} (carries : Carries g acked leader node) :
    Inner.Behind leader node.term g.live (g.setNode leader node) := by
  constructor
  · rw [Inner.setNode_nodes_self]
    exact carries.committed
  · intro id _ different
    rw [Inner.setNode_nodes_self, Inner.setNode_nodes_other _ _ _ _ different]
    exact (invariant.held id).trans carries.extends_
  · intro id isLive different
    rw [Inner.setNode_nodes_other _ _ _ _ different, carries.term]
    exact (invariant.leads leader leads).2.2.2 id
      (by rw [← invariant.size]; exact (Inner.mem_live.mp isLive).1)

/-- A pass over the live nodes, after which the leader may have moved its commit
index, followed by applying: the cluster converges on what the leader carried. -/
theorem pass_converges (invariant : ClusterInvariant n g acked) {leader : NodeId}
    (leads : g.leader = some leader) (enough : g.quorum ≤ g.live.length) {node : Node}
    (carries : Carries g acked leader node) {passed : Inner}
    (reached : Inner.Reached leader node.term g.live (g.setNode leader node) passed)
    (commit : Nat) (inside : commit ≤ node.log.length) :
    let after := (passed.setNode leader
      { passed.nodes leader with commitIdx := commit }).applyCommitted leader node.log.length
    ClusterInvariant n after node.log ∧ after.live = g.live ∧
      ∀ id ∈ g.live, (after.nodes id).log = node.log := by
  obtain ⟨isLive, _, log, highest⟩ := invariant.leads leader leads
  obtain ⟨replicated, source⟩ := reached.source
  rw [Inner.setNode_nodes_self] at source
  have atLeader : (passed.setNode leader { passed.nodes leader with commitIdx := commit }).nodes
      leader = { node with matchIdx := replicated, commitIdx := commit } := by
    rw [Inner.setNode_nodes_self, source]
  have atOther (id : NodeId) (different : id ≠ leader) : (passed.setNode leader
      { passed.nodes leader with commitIdx := commit }).nodes id = passed.nodes id :=
    Inner.setNode_nodes_other _ _ _ _ different
  have visited (id : NodeId) (live : id ∈ g.live) (different : id ≠ leader) :
      Inner.CaughtUp node.log node.term node.commitIdx (g.nodes id) (passed.nodes id) := by
    have caughtUp := reached.visited id live different
    rw [Inner.setNode_nodes_self, Inner.setNode_nodes_other _ _ _ _ different] at caughtUp
    exact caughtUp
  have missed (id : NodeId) (isDown : id ∉ g.live) : passed.nodes id = g.nodes id := by
    have different : id ≠ leader := fun same => isDown (same ▸ isLive)
    rw [reached.others id isDown different, Inner.setNode_nodes_other _ _ _ _ different]
  refine invariant.converge leads enough carries.extends_ carries.ordered reached.size
    reached.pointer reached.down ?_ ?_ ?_ ?_ ?_ ?_ ?_
  · intro id live
    by_cases same : id = leader
    · rw [same, atLeader]
      refine (invariant.settled leader).ready_longer ?_ rfl carries.applied carries.state inside
      rw [log]
      exact carries.extends_
    · have caughtUp := visited id live same
      have behind := (invariant.held id).trans carries.extends_
      rw [atOther id same]
      refine (invariant.settled id).ready_longer behind caughtUp.log caughtUp.applied
        caughtUp.state ?_
      rw [caughtUp.commitIdx, (invariant.settled id).commitIdx]
      exact Nat.max_le.mpr ⟨behind.length_le, carries.committed⟩
  · intro id isDown
    rw [atOther id (fun same => isDown (same ▸ isLive))]
    exact missed id isDown
  · intro id
    by_cases same : id = leader
    · rw [same, atLeader]
      exact carries.id
    · rw [atOther id same]
      by_cases live : id ∈ g.live
      · exact (visited id live same).id
      · rw [missed id live]
  · intro id
    by_cases same : id = leader
    · rw [same, atLeader]
      exact carries.peers
    · rw [atOther id same]
      by_cases live : id ∈ g.live
      · exact (visited id live same).peers
      · rw [missed id live]
  · intro id inGroup
    rw [atLeader]
    by_cases same : id = leader
    · rw [same, atLeader]
    · rw [atOther id same]
      by_cases live : id ∈ g.live
      · exact (visited id live same).bounded
      · rw [missed id live]
        exact Nat.le_trans (highest id inGroup) (Nat.le_of_eq carries.term.symm)
  · rw [atLeader]
    exact carries.bounded
  · rw [atLeader]
    exact carries.role

theorem sync_spec (invariant : ClusterInvariant n g acked) {leader : NodeId}
    (leads : g.leader = some leader) (enough : g.quorum ≤ g.live.length) :
    ∃ after, g.syncLiveFollowers leader = some after ∧ ClusterInvariant n after acked ∧
      after.live = g.live ∧ ∀ id ∈ g.live, (after.nodes id).log = acked := by
  obtain ⟨_, role, log, _⟩ := invariant.leads leader leads
  have settled := invariant.settled leader
  have carries : Carries g acked leader (g.nodes leader) := by
    refine ⟨rfl, rfl, rfl, role, rfl, rfl, by rw [log], ?_, ?_, Nat.le_of_eq settled.commitIdx⟩
    · rw [log]
      exact invariant.ordered
    · intro entry member
      rw [log] at member
      exact invariant.entry_le_leader leads member
  have behind := invariant.behind leads carries
  rw [Inner.setNode_self] at behind
  obtain ⟨passed, result, reached⟩ := Inner.syncPeers_spec g.live g.live_nodup g behind
  obtain ⟨replicated, source⟩ := reached.source
  have commit : (passed.nodes leader).commitIdx = (g.nodes leader).log.length := by
    rw [source]
    exact settled.commitIdx
  have fromSelf : Inner.Reached leader (g.nodes leader).term g.live
      (g.setNode leader (g.nodes leader)) passed := by
    rw [Inner.setNode_self]
    exact reached
  have converged := invariant.pass_converges leads enough carries fromSelf
    (passed.nodes leader).commitIdx (Nat.le_of_eq commit)
  have unchanged : passed.setNode leader
      { passed.nodes leader with commitIdx := (passed.nodes leader).commitIdx } = passed :=
    Inner.setNode_self passed leader
  rw [unchanged, log] at converged
  refine ⟨passed.applyCommitted leader acked.length, ?_, converged⟩
  unfold Inner.syncLiveFollowers Log.lastIndex
  dsimp only
  rw [result, Option.map_some, commit, log]

theorem replicas_enough (invariant : ClusterInvariant n g acked)
    (enough : g.quorum ≤ g.live.length) {node : Node} (peers : node.peers = IdSet.below n)
    {index : Nat} (recorded : ∀ id ∈ g.live, node.matchIdx.find? id = some index) :
    node.quorum ≤ node.replicas index := by
  have counted : g.live.toFinset ⊆ node.matchIdx.keysWhere (fun held => index ≤ held) := by
    intro id member
    rw [SortedMap.mem_keysWhere]
    exact ⟨index, recorded id (List.mem_toFinset.mp member), decide_eq_true (Nat.le_refl index)⟩
  have quorum : node.quorum = g.quorum := by
    unfold Node.quorum
    rw [peers, invariant.quorum_eq]
    simp only [IdSet.below, SortedMap.size, List.length_map, List.length_range]
  calc
    node.quorum = g.quorum := quorum
    _ ≤ g.live.length := enough
    _ = g.live.toFinset.card := (List.toFinset_card_of_nodup g.live_nodup).symm
    _ ≤ (node.matchIdx.keysWhere (fun held => index ≤ held)).card := Finset.card_le_card counted
    _ = node.replicas index := SortedMap.card_keysWhere _ _

theorem live_split {leader : NodeId} (isLive : leader ∈ g.live) :
    1 + (g.live.filter (fun id => id ≠ leader)).length = g.live.length := by
  have erased := List.length_erase_of_mem isLive
  have positive := List.length_pos_of_mem isLive
  rw [g.live_nodup.erase_eq_filter leader] at erased
  have sameTest : g.live.filter (fun id => id ≠ leader) = g.live.filter (fun id => id != leader) :=
    List.filter_congr (fun id _ => Bool.eq_iff_iff.mpr (by simp))
  rw [sameTest, erased]
  omega

theorem commitAt_spec (invariant : ClusterInvariant n g acked) {leader : NodeId}
    (leads : g.leader = some leader) (enough : g.quorum ≤ g.live.length) (op : Op) :
    ∃ after entry, entry.cmd = op ∧
      g.commitAt leader op = some (after, .ok (acked.length + 1)) ∧
      ClusterInvariant n after (acked ++ [entry]) ∧ after.live = g.live ∧
      ∀ id ∈ g.live, (after.nodes id).log = acked ++ [entry] := by
  obtain ⟨isLive, role, log, _⟩ := invariant.leads leader leads
  have settled := invariant.settled leader
  let entry : LogEntry := { selfTerm := (g.nodes leader).term, cmd := op }
  let proposed : Node :=
    { g.nodes leader with
      log := (g.nodes leader).log ++ [entry]
      matchIdx := (g.nodes leader).matchIdx.insert (g.nodes leader).id
        (Log.lastIndex (g.nodes leader).log + 1) }
  have proposedLog : proposed.log = acked ++ [entry] := by
    change (g.nodes leader).log ++ [entry] = acked ++ [entry]
    rw [log]
  have length : proposed.log.length = acked.length + 1 := by
    rw [proposedLog, List.length_append, List.length_singleton]
  have commitBefore : proposed.commitIdx = acked.length := by
    rw [← log]
    exact settled.commitIdx
  have carries : Carries g acked leader proposed := by
    refine ⟨rfl, rfl, rfl, role, rfl, rfl, ?_, ?_, ?_, by omega⟩
    · rw [proposedLog]
      exact List.prefix_append _ _
    · rw [proposedLog, List.pairwise_append]
      refine ⟨invariant.ordered, List.pairwise_singleton _ _, ?_⟩
      intro earlier member last isLast
      rw [List.mem_singleton.mp isLast]
      exact invariant.entry_le_leader leads member
    · intro other member
      rw [proposedLog, List.mem_append] at member
      rcases member with old | isNew
      · exact invariant.entry_le_leader leads old
      · rw [List.mem_singleton.mp isNew]
  obtain ⟨passed, result, reached, recorded⟩ := Inner.replicate_spec g.live g.live_nodup
    (g.setNode leader proposed) 1 (invariant.behind leads carries)
  rw [Inner.setNode_nodes_self] at result recorded
  obtain ⟨replicated, source⟩ := reached.source
  rw [Inner.setNode_nodes_self] at source
  have everyone : ∀ id ∈ g.live,
      (passed.nodes leader).matchIdx.find? id = some proposed.log.length := by
    intro id live
    rw [recorded id]
    by_cases same : id = leader
    · rw [if_neg (fun both => both.2 same), same]
      change ((g.nodes leader).matchIdx.insert (g.nodes leader).id
        (Log.lastIndex (g.nodes leader).log + 1)).find? leader = some proposed.log.length
      rw [SortedMap.find?_insert, invariant.identity leader, if_pos rfl, length, log]
      rfl
    · rw [if_pos ⟨live, same⟩]
  have advanced : (passed.nodes leader).advanceCommit =
      { passed.nodes leader with commitIdx := proposed.log.length } := by
    have sameLog : (passed.nodes leader).log = proposed.log := by rw [source]
    rw [← sameLog] at everyone ⊢
    apply Node.advanceCommit_last
    · rw [source]
      exact role
    · rw [source]
      change proposed.commitIdx < proposed.log.length
      omega
    · rw [source]
      change Log.termOf proposed.log proposed.log.length = some (g.nodes leader).term
      rw [length, Log.termOf_succ, proposedLog, List.getElem?_concat_length]
      rfl
    · refine invariant.replicas_enough enough ?_ everyone
      rw [source]
      exact invariant.membership leader
  have converged := invariant.pass_converges leads enough carries reached proposed.log.length
    (Nat.le_refl _)
  rw [proposedLog] at converged
  refine ⟨_, entry, rfl, ?_, converged⟩
  have proposes : (g.nodes leader).propose op = some (proposed, proposed.log.length) := by
    unfold Node.propose
    rw [if_pos role, length, ← log]
    rfl
  have acks : 1 + (g.live.filter (fun id => id ≠ leader)).length = g.live.length :=
    live_split isLive
  have counted : ¬g.live.length < passed.quorum := by
    unfold Inner.quorum
    rw [reached.size]
    exact Nat.not_lt.mpr enough
  unfold Inner.commitAt
  rw [proposes]
  simp only [Option.bind_eq_bind, Option.bind_some]
  rw [show (g.setNode leader proposed).live = g.live from rfl, result]
  simp only [Option.bind_some, acks, if_neg counted, advanced, Inner.setNode_nodes_self, if_true]
  rw [length, List.length_append, List.length_singleton]
  rfl

end ClusterInvariant

end Keystory.Raft
