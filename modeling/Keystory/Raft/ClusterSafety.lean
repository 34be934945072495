/-
Whole runs of the cluster: no call panics, and no acknowledged write is lost or
reordered.
-/

import Keystory.Raft.ClusterCalls

namespace Keystory.Raft

open General

/-! ### What was acknowledged -/

theorem acknowledged_append (first second : List (Call × Reply)) :
    acknowledged (first ++ second) = acknowledged first ++ acknowledged second :=
  List.filterMap_append

theorem acknowledgedIndices_append (first second : List (Call × Reply)) :
    acknowledgedIndices (first ++ second) =
      acknowledgedIndices first ++ acknowledgedIndices second :=
  List.filterMap_append

theorem lastWrite_append_singleton (key : Bytes) (ops : List Op) (op : Op) :
    lastWrite key (ops ++ [op]) = if op.key = key then op.written else lastWrite key ops := by
  unfold lastWrite
  rw [List.foldl_append, List.foldl_cons, List.foldl_nil]

theorem value_stateOf (log : Log) (key : Bytes) :
    ((Node.stateOf log).find? key).map Entry.value = lastWrite key (log.map LogEntry.cmd) := by
  induction log using List.reverseRecOn with
  | nil => rfl
  | append_singleton log entry ih =>
      rw [Node.stateOf_append_singleton, List.map_append, List.map_singleton,
        lastWrite_append_singleton]
      by_cases same : entry.cmd.key = key
      · rw [if_pos same, ← same]
        exact entry.cmd.value_apply_key _ _
      · rw [if_neg same, entry.cmd.find?_apply_other _ _ key (Ne.symm same)]
        exact ih

theorem ClusterInvariant.get_eq {n : Nat} {g : Inner} {acked : Log}
    (invariant : ClusterInvariant n g acked) {id : NodeId} (log : (g.nodes id).log = acked)
    (key : Bytes) : (g.nodes id).get key = lastWrite key (acked.map LogEntry.cmd) := by
  unfold Node.get
  rw [(invariant.settled id).state, log]
  exact value_stateOf acked key

/-! ### One call -/

/-- What a call does: `longer` is the acknowledged sequence after it. -/
structure Outcome (n : Nat) (g : Inner) (acked : Log) (call : Call) (after : Inner)
    (reply : Reply) (longer : Log) : Prop where
  invariant : ClusterInvariant n after longer
  grows : longer.map LogEntry.cmd = acked.map LogEntry.cmd ++ acknowledged [(call, reply)]
  indices : acknowledgedIndices [(call, reply)] =
    List.range' (acked.length + 1) (acknowledged [(call, reply)]).length
  refused : reply = .noLeader → ∀ id, Inner.Untouched (g.nodes id) (after.nodes id)
  converged : call.Serves → reply ≠ .noLeader → ∀ id ∈ after.live, (after.nodes id).log = longer
  read : ∀ key, call = .get key → reply ≠ .noLeader →
    reply = .value (lastWrite key (acked.map LogEntry.cmd))
  serves : call.Serves → (reply = .noLeader ↔
    g.live.length < g.quorum ∨ (g.leader = none ∧ ¬g.Electable))

namespace ClusterInvariant

variable {n : Nat} {g : Inner} {acked : Log}

theorem outcome_refused {after : Inner} (kept : ClusterInvariant n after acked)
    (untouched : ∀ id, Inner.Untouched (g.nodes id) (after.nodes id)) (call : Call)
    (noLeader : g.live.length < g.quorum ∨ (g.leader = none ∧ ¬g.Electable)) :
    Outcome n g acked call after .noLeader acked := by
  have nothing : acknowledged [(call, Reply.noLeader)] = [] := by
    cases call <;> rfl
  refine ⟨kept, ?_, ?_, fun _ => untouched, fun _ served => absurd rfl served,
    fun _ _ served => absurd rfl served, fun _ => ⟨fun _ => noLeader, fun _ => rfl⟩⟩
  · rw [nothing, List.append_nil]
  · rw [nothing]
    rfl

theorem clusterCommit_outcome (invariant : ClusterInvariant n g acked) (call : Call) (op : Op)
    (writes : call.op = some op) :
    ∃ after result longer, g.clusterCommit op = some (after, result) ∧
      Outcome n g acked call after (Inner.replyOf .committed result) longer := by
  obtain ⟨ready, found, ensured, kept, _, untouched, leads, noLeader⟩ :=
    invariant.ensureLeader_spec
  unfold Inner.clusterCommit
  rw [ensured]
  simp only [Option.bind_eq_bind, Option.bind_some]
  cases found with
  | error failure =>
      cases failure
      exact ⟨ready, _, acked, rfl, outcome_refused kept untouched call (noLeader.mp rfl)⟩
  | ok leader =>
      obtain ⟨pointer, enough⟩ := leads leader rfl
      obtain ⟨after, entry, cmd, committed, settled, sameLive, logs⟩ :=
        kept.commitAt_spec pointer enough op
      have one : acknowledged [(call, Inner.replyOf .committed (.ok (acked.length + 1)))] =
          [op] := by
        simp only [acknowledged, Inner.replyOf, List.filterMap_cons, writes, List.filterMap_nil]
      refine ⟨after, _, acked ++ [entry], committed, settled, ?_, ?_, ?_, ?_, ?_, ?_⟩
      · rw [one, List.map_append, List.map_singleton, cmd]
      · rw [one]
        rfl
      · intro impossible
        cases impossible
      · intro _ _ id isLive
        rw [sameLive] at isLive
        exact logs id isLive
      · intro key isGet
        rw [isGet] at writes
        cases writes
      · intro _
        refine ⟨fun impossible => (by cases impossible), fun refused => ?_⟩
        cases noLeader.mpr refused

theorem read_outcome (invariant : ClusterInvariant n g acked) :
    ∃ ready found, g.ensureLeader = some (ready, found) ∧
      ((found = .error .noLeader ∧ ∀ call, Outcome n g acked call ready .noLeader acked) ∨
        ∃ leader after, found = .ok leader ∧ ready.syncLiveFollowers leader = some after ∧
          ClusterInvariant n after acked ∧ leader ∈ after.live ∧
          (∀ id ∈ after.live, (after.nodes id).log = acked) ∧
          ¬(g.live.length < g.quorum ∨ (g.leader = none ∧ ¬g.Electable))) := by
  obtain ⟨ready, found, ensured, kept, _, untouched, leads, noLeader⟩ :=
    invariant.ensureLeader_spec
  refine ⟨ready, found, ensured, ?_⟩
  cases found with
  | error failure =>
      cases failure
      exact Or.inl ⟨rfl, fun call => outcome_refused kept untouched call (noLeader.mp rfl)⟩
  | ok leader =>
      obtain ⟨pointer, enough⟩ := leads leader rfl
      obtain ⟨after, synced, settled, sameLive, logs⟩ := kept.sync_spec pointer enough
      refine Or.inr ⟨leader, after, rfl, synced, settled, ?_, ?_, ?_⟩
      · rw [sameLive]
        exact (kept.leads leader pointer).1
      · intro id isLive
        rw [sameLive] at isLive
        exact logs id isLive
      · intro refused
        cases noLeader.mpr refused

theorem get_outcome (invariant : ClusterInvariant n g acked) (key : Bytes) :
    ∃ after reply, g.call (.get key) = some (after, reply) ∧
      Outcome n g acked (.get key) after reply acked := by
  obtain ⟨ready, found, ensured, cases⟩ := invariant.read_outcome
  unfold Inner.call Inner.get
  rw [ensured]
  simp only [Option.bind_eq_bind, Option.bind_some]
  rcases cases with ⟨refused, outcome⟩ | ⟨leader, after, isOk, synced, settled, isLive, logs,
    served⟩
  · rw [refused]
    exact ⟨ready, .noLeader, rfl, outcome (.get key)⟩
  · have value (id : NodeId) (live : id ∈ after.live) :
        (after.nodes id).get key = lastWrite key (acked.map LogEntry.cmd) :=
      settled.get_eq (logs id live) key
    have agree : ∀ id ∈ after.live, (after.nodes id).get key = (after.nodes leader).get key := by
      intro id live
      rw [value id live, value leader isLive]
    rw [isOk]
    simp only [synced, Option.bind_some, if_pos agree]
    refine ⟨after, .value (lastWrite key (acked.map LogEntry.cmd)), ?_, settled, ?_, rfl, ?_,
      fun _ _ => logs, ?_, ?_⟩
    · rw [value leader isLive]
      rfl
    · exact (List.append_nil _).symm
    · intro impossible
      cases impossible
    · intro other same _
      cases same
      rfl
    · intro _
      exact ⟨fun impossible => (by cases impossible), fun refused => absurd refused served⟩

theorem scan_outcome (invariant : ClusterInvariant n g acked) (pref : Bytes) :
    ∃ after reply, g.call (.scan pref) = some (after, reply) ∧
      Outcome n g acked (.scan pref) after reply acked := by
  obtain ⟨ready, found, ensured, cases⟩ := invariant.read_outcome
  unfold Inner.call Inner.scan
  rw [ensured]
  simp only [Option.bind_eq_bind, Option.bind_some]
  rcases cases with ⟨refused, outcome⟩ | ⟨leader, after, isOk, synced, settled, isLive, logs,
    served⟩
  · rw [refused]
    exact ⟨ready, .noLeader, rfl, outcome (.scan pref)⟩
  · rw [isOk]
    simp only [synced, Option.bind_some]
    refine ⟨after, .entries (Inner.scanFrom (after.nodes leader).state pref), rfl, settled,
      (List.append_nil _).symm, rfl, ?_, fun _ _ => logs, ?_, ?_⟩
    · intro impossible
      cases impossible
    · intro _ impossible
      cases impossible
    · intro _
      exact ⟨fun impossible => (by cases impossible), fun refused => absurd refused served⟩

theorem fail_revive_outcome (invariant : ClusterInvariant n g acked) (call : Call)
    {after : Inner} (idle : ¬call.Serves) (size : after.size = g.size)
    (nodes : after.nodes = g.nodes)
    (leads : ∀ leader, after.leader = some leader → g.leader = some leader ∧ leader ∈ after.live) :
    Outcome n g acked call after .done acked := by
  have nothing : acknowledged [(call, Reply.done)] = [] := by
    cases call <;> rfl
  refine ⟨?_, ?_, ?_, ?_, fun served => absurd served idle, ?_, fun served => absurd served idle⟩
  · refine invariant.quiet size (fun id => by rw [nodes]; exact Inner.Untouched.refl _)
      (fun id => by rw [nodes]) ?_
    intro leader isLeader
    obtain ⟨before, isLive⟩ := leads leader isLeader
    obtain ⟨_, role, log, highest⟩ := invariant.leads leader before
    rw [nodes]
    exact ⟨isLive, role, log, highest⟩
  · rw [nothing, List.append_nil]
  · rw [nothing]
    rfl
  · intro impossible
    cases impossible
  · intro key isGet
    rw [isGet] at idle
    exact absurd trivial idle

theorem call_outcome (invariant : ClusterInvariant n g acked) (call : Call) :
    ∃ after reply longer, g.call call = some (after, reply) ∧
      Outcome n g acked call after reply longer := by
  cases call with
  | put key value =>
      obtain ⟨after, result, longer, committed, outcome⟩ :=
        invariant.clusterCommit_outcome (.put key value) (.put key value) rfl
      refine ⟨after, _, longer, ?_, outcome⟩
      dsimp only [Inner.call, Inner.put]
      rw [committed]
      rfl
  | delete key =>
      obtain ⟨after, result, longer, committed, outcome⟩ :=
        invariant.clusterCommit_outcome (.delete key) (.delete key) rfl
      refine ⟨after, _, longer, ?_, outcome⟩
      dsimp only [Inner.call, Inner.delete]
      rw [committed]
      rfl
  | get key =>
      obtain ⟨after, reply, called, outcome⟩ := invariant.get_outcome key
      exact ⟨after, reply, acked, called, outcome⟩
  | scan pref =>
      obtain ⟨after, reply, called, outcome⟩ := invariant.scan_outcome pref
      exact ⟨after, reply, acked, called, outcome⟩
  | fail id =>
      refine ⟨g.fail id, .done, acked, rfl, ?_⟩
      refine invariant.fail_revive_outcome (.fail id) (fun served => served) rfl rfl ?_
      intro leader isLeader
      change (if g.leader = some id then none else g.leader) = some leader at isLeader
      split at isLeader
      · cases isLeader
      · rename_i notLeader
        obtain ⟨bound, up⟩ := Inner.mem_live.mp (invariant.leads leader isLeader).1
        refine ⟨isLeader, Inner.mem_live.mpr ⟨bound, ?_⟩⟩
        have different : leader ≠ id := fun same => notLeader (same ▸ isLeader)
        change ((g.down.insert id ()).find? leader).isSome = false
        rw [SortedMap.find?_insert, if_neg different]
        exact up
  | revive id =>
      refine ⟨g.revive id, .done, acked, rfl, ?_⟩
      refine invariant.fail_revive_outcome (.revive id) (fun served => served) rfl rfl ?_
      intro leader isLeader
      obtain ⟨bound, up⟩ := Inner.mem_live.mp (invariant.leads leader isLeader).1
      refine ⟨isLeader, Inner.mem_live.mpr ⟨bound, ?_⟩⟩
      change ((g.down.erase id).find? leader).isSome = false
      rw [SortedMap.find?_erase]
      split
      · rfl
      · exact up

/-! ### Whole runs -/

/-- Any sequence of calls runs through. The acknowledged entries are the writes
acknowledged on the way, numbered on from the ones before. -/
theorem run_outcome (invariant : ClusterInvariant n g acked) (calls : List Call) :
    ∃ after trace longer, g.run calls = some (after, trace) ∧ ClusterInvariant n after longer ∧
      longer.map LogEntry.cmd = acked.map LogEntry.cmd ++ acknowledged trace ∧
      acknowledgedIndices trace = List.range' (acked.length + 1) (acknowledged trace).length := by
  induction calls generalizing g acked with
  | nil => exact ⟨g, [], acked, rfl, invariant, (List.append_nil _).symm, rfl⟩
  | cons call rest ih =>
      obtain ⟨middle, reply, between, called, outcome⟩ := invariant.call_outcome call
      obtain ⟨after, trace, longer, ran, final, grows, indices⟩ := ih outcome.invariant
      have lengths : between.length = acked.length + (acknowledged [(call, reply)]).length := by
        have mapped := congrArg List.length outcome.grows
        rw [List.length_map, List.length_append, List.length_map] at mapped
        exact mapped
      refine ⟨after, (call, reply) :: trace, longer, ?_, final, ?_, ?_⟩
      · simp only [Inner.run, called, ran, Option.bind_eq_bind, Option.bind_some]
        rfl
      · rw [grows, outcome.grows, List.append_assoc, ← acknowledged_append]
        rfl
      · rw [← List.singleton_append, acknowledgedIndices_append, acknowledged_append,
          outcome.indices, indices, lengths, List.length_append, ← List.range'_append_1]
        congr 2
        omega

end ClusterInvariant

theorem Inner.run_concat {g middle after : Inner} {calls : List Call}
    {trace : List (Call × Reply)} {call : Call} {reply : Reply}
    (ran : g.run calls = some (middle, trace)) (called : middle.call call = some (after, reply)) :
    g.run (calls ++ [call]) = some (after, trace ++ [(call, reply)]) := by
  induction calls generalizing g trace with
  | nil =>
      cases ran
      simp only [List.nil_append, Inner.run, called, Option.bind_eq_bind, Option.bind_some]
      rfl
  | cons first rest ih =>
      simp only [Inner.run, Option.bind_eq_bind] at ran
      obtain ⟨⟨next, firstReply⟩, firstCalled, remaining⟩ := Option.bind_eq_some_iff.mp ran
      obtain ⟨⟨final, replies⟩, restRan, result⟩ := Option.bind_eq_some_iff.mp remaining
      cases result
      rw [List.cons_append, Inner.run, firstCalled]
      simp only [Option.bind_eq_bind, Option.bind_some, ih restRan]
      rfl

/-- For every sequence of calls: none of them panics; the acknowledged writes are
numbered `1, 2, 3, …`; a refused call changes no node's log, commit index, applied
index or state; after every call each node holds a prefix of the acknowledged
writes, committed and applied, with the state they fold to; after every call that
is served each live node holds all of them; and a read returns what the last
acknowledged write of its key left. -/
theorem cluster_keeps_acknowledged (n : Nat) (positive : 1 ≤ n) (calls : List Call)
    (call : Call) :
    ∃ g trace after reply, (Inner.new n).run calls = some (g, trace) ∧
      g.call call = some (after, reply) ∧
      (Inner.new n).run (calls ++ [call]) = some (after, trace ++ [(call, reply)]) ∧
      acknowledgedIndices (trace ++ [(call, reply)]) =
        List.range' 1 (acknowledged (trace ++ [(call, reply)])).length ∧
      (reply = .noLeader → ∀ id, (after.nodes id).log = (g.nodes id).log ∧
        (after.nodes id).commitIdx = (g.nodes id).commitIdx ∧
        (after.nodes id).applied = (g.nodes id).applied ∧
        (after.nodes id).state = (g.nodes id).state) ∧
      (∀ id, (after.nodes id).log.map LogEntry.cmd <+: acknowledged (trace ++ [(call, reply)]) ∧
        (after.nodes id).commitIdx = (after.nodes id).log.length ∧
        (after.nodes id).applied = (after.nodes id).log.length ∧
        (after.nodes id).state = Node.stateOf (after.nodes id).log) ∧
      (call.Serves → reply ≠ .noLeader → ∀ id ∈ after.live,
        (after.nodes id).log.map LogEntry.cmd = acknowledged (trace ++ [(call, reply)])) ∧
      (∀ key, call = .get key → reply ≠ .noLeader →
        reply = .value (lastWrite key (acknowledged trace))) := by
  obtain ⟨g, trace, acked, ran, invariant, grows, indices⟩ :=
    (ClusterInvariant.initial positive).run_outcome calls
  obtain ⟨after, reply, longer, called, outcome⟩ := invariant.call_outcome call
  rw [List.map_nil, List.nil_append] at grows
  have length : acked.length = (acknowledged trace).length := by
    rw [← grows, List.length_map]
  have whole : longer.map LogEntry.cmd = acknowledged (trace ++ [(call, reply)]) := by
    rw [outcome.grows, grows, ← acknowledged_append]
  refine ⟨g, trace, after, reply, ran, called, Inner.run_concat ran called, ?_, ?_, ?_, ?_, ?_⟩
  · rw [acknowledgedIndices_append, acknowledged_append, indices,
      outcome.indices, length, List.length_append, ← List.range'_append_1]
    congr 2
    exact Nat.add_comm _ 1
  · intro refused id
    have untouched := outcome.refused refused id
    exact ⟨untouched.log, untouched.commitIdx, untouched.applied, untouched.state⟩
  · intro id
    have settled := outcome.invariant.settled id
    rw [← whole]
    exact ⟨(outcome.invariant.held id).map LogEntry.cmd, settled.commitIdx, settled.applied,
      settled.state⟩
  · intro serves answered id isLive
    rw [outcome.converged serves answered id isLive, whole]
  · intro key isGet answered
    rw [← grows]
    exact outcome.read key isGet answered

theorem cluster_keeps_acknowledged_on_three_nodes :
    ∃ g trace after reply, (Inner.new 3).run [.put [1] [2], .fail 0] = some (g, trace) ∧
      g.call (.get [1]) = some (after, reply) ∧
      (reply ≠ .noLeader → reply = .value (lastWrite [1] (acknowledged trace))) := by
  obtain ⟨g, trace, after, reply, ran, called, _, _, _, _, _, read⟩ :=
    cluster_keeps_acknowledged 3 (by decide) [.put [1] [2], .fail 0] (.get [1])
  exact ⟨g, trace, after, reply, ran, called, read [1] rfl⟩

end Keystory.Raft
