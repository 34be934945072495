/-
A cluster wired to the consistency checker.

Every acknowledged write and every served read is recorded with the index it was
committed or applied at. Whatever calls are made and whichever nodes fail, the
recorder changes nothing of what the cluster does, and the checker finds nothing
in what was recorded.
-/

import Keystory.Checker
import Keystory.Raft.ClusterSafety

namespace Keystory.Raft

open General Checker

structure RaftCluster where
  inner : Inner
  model : Option Model

namespace RaftCluster

def new (n : Nat) : RaftCluster := ⟨Inner.new n, none⟩

def withModel (n : Nat) (model : Model) : RaftCluster := { new n with model := some model }

def fail (cluster : RaftCluster) (id : NodeId) : RaftCluster :=
  { cluster with inner := cluster.inner.fail id }

def revive (cluster : RaftCluster) (id : NodeId) : RaftCluster :=
  { cluster with inner := cluster.inner.revive id }

/-- The read is recorded at the index the leader has applied. -/
def get (cluster : RaftCluster) (key : Bytes) :
    Option (RaftCluster × Except ClusterError (Option Bytes)) := do
  match ← cluster.inner.ensureLeader with
  | (g, .error failure) => return ({ cluster with inner := g }, .error failure)
  | (g, .ok leader) =>
      let g ← g.syncLiveFollowers leader
      let value := (g.nodes leader).get key
      if ∀ id ∈ g.live, (g.nodes id).get key = value then
        return (⟨g, cluster.model.map (fun model =>
          model.recordRead (g.nodes leader).applied key value)⟩, .ok value)
      else none

/-- The op is recorded last, at the index it was committed at. -/
def clusterCommit (cluster : RaftCluster) (op : Op) :
    Option (RaftCluster × Except ClusterError Nat) := do
  match ← cluster.inner.clusterCommit op with
  | (g, .error failure) => return ({ cluster with inner := g }, .error failure)
  | (g, .ok committed) =>
      return (⟨g, cluster.model.map (fun model =>
        model.recordWrite committed op.key op.written)⟩, .ok committed)

def put (cluster : RaftCluster) (key value : Bytes) :
    Option (RaftCluster × Except ClusterError Nat) :=
  cluster.clusterCommit (.put key value)

def delete (cluster : RaftCluster) (key : Bytes) :
    Option (RaftCluster × Except ClusterError Nat) :=
  cluster.clusterCommit (.delete key)

def scan (cluster : RaftCluster) (pref : Bytes) :
    Option (RaftCluster × Except ClusterError (List (Bytes × Bytes))) :=
  (cluster.inner.scan pref).map (Prod.map (fun g => { cluster with inner := g }) id)

def call (cluster : RaftCluster) : Call → Option (RaftCluster × Reply)
  | .put key value => (cluster.put key value).map (Prod.map id (Inner.replyOf .committed))
  | .delete key => (cluster.delete key).map (Prod.map id (Inner.replyOf .committed))
  | .get key => (cluster.get key).map (Prod.map id (Inner.replyOf .value))
  | .scan pref => (cluster.scan pref).map (Prod.map id (Inner.replyOf .entries))
  | .fail id => some (cluster.fail id, .done)
  | .revive id => some (cluster.revive id, .done)

def run (cluster : RaftCluster) : List Call → Option (RaftCluster × List (Call × Reply))
  | [] => some (cluster, [])
  | first :: rest => do
      let (after, reply) ← cluster.call first
      let (final, replies) ← after.run rest
      return (final, (first, reply) :: replies)

end RaftCluster

def servedRead : Call × Reply → Bool
  | (.get _, .value _) => true
  | _ => false

/-! ### Commits of one op each -/

def singles (ops : List Op) : List (List Op) := ops.map (fun op => [op])

theorem get_stateAfter_singles (ops : List Op) (key : Bytes) :
    (stateAfter (singles ops)).get key = lastWrite key ops := by
  induction ops using List.reverseRecOn with
  | nil => rfl
  | append_singleton ops op ih =>
      rw [singles, List.map_append, stateAfter_append, lastWrite_append_singleton, ← ih]
      exact value_applyOps key [op] _ _

theorem opsAt_append_singleton (commits : List (List Op)) (ops : List Op) (index : Nat) :
    opsAt (commits ++ [ops]) index =
      if index = commits.length + 1 then ops else opsAt commits index := by
  cases index with
  | zero => rfl
  | succ index =>
      rw [opsAt, opsAt, List.getElem?_append]
      by_cases inside : index < commits.length
      · rw [if_pos inside, if_neg (by omega)]
      · rw [if_neg inside, List.getElem?_eq_none (Nat.le_of_not_lt inside)]
        by_cases last : index = commits.length
        · rw [if_pos (by omega), last, Nat.sub_self]
          rfl
        · rw [if_neg (by omega), List.getElem?_eq_none (by rw [List.length_singleton]; omega)]

theorem recordsHistory_concat {commits : List (List Op)} {writes : List (Nat × Op)}
    (recorded : RecordsHistory commits writes) (op : Op) :
    RecordsHistory (commits ++ [[op]]) (writes ++ [(commits.length + 1, op)]) := by
  intro index
  rw [List.filter_append, List.map_append, recorded index, opsAt_append_singleton]
  by_cases last : index = commits.length + 1
  · subst last
    have beyond : opsAt commits (commits.length + 1) = [] := by
      rw [opsAt, List.getElem?_eq_none (Nat.le_refl _)]
      rfl
    simp [beyond]
  · have other : ¬commits.length + 1 = index := fun same => last same.symm
    simp [last, other]

/-! ### What has been recorded -/

/-- The recordings so far tell the acknowledged ops, and every read in them saw what
the ops up to its index left. -/
structure RaftCluster.Recorded (n : Nat) (acked : Log) (events : List Recording)
    (cluster : RaftCluster) : Prop where
  invariant : ClusterInvariant n cluster.inner acked
  model : cluster.model = some (Model.recordAll events)
  history : RecordsHistory (singles (acked.map LogEntry.cmd)) (writesOf events)
  reads : ∀ read ∈ readsOf events, read.readIndex ≤ acked.length ∧
    read.value = (stateAfter ((singles (acked.map LogEntry.cmd)).take read.readIndex)).get read.key

theorem recordAll_concat (events : List Recording) (event : Recording) :
    Model.recordAll (events ++ [event]) = (Model.recordAll events).record event :=
  List.foldl_concat _ _ _ _

namespace RaftCluster.Recorded

variable {n : Nat} {acked : Log} {events : List Recording} {cluster : RaftCluster}

theorem initial (positive : 1 ≤ n) : Recorded n [] [] (withModel n Model.new) where
  invariant := ClusterInvariant.initial positive
  model := rfl
  history := by
    rintro (_ | index) <;> rfl
  reads := fun _ member => absurd member List.not_mem_nil

theorem quiet (recorded : Recorded n acked events cluster) {g : Inner} {same : Log}
    (invariant : ClusterInvariant n g same)
    (sameOps : same.map LogEntry.cmd = acked.map LogEntry.cmd) :
    Recorded n same events { cluster with inner := g } := by
  have length : same.length = acked.length := by
    have lengths := congrArg List.length sameOps
    simpa using lengths
  refine ⟨invariant, recorded.model, ?_, ?_⟩
  · rw [sameOps]
    exact recorded.history
  · rw [sameOps, length]
    exact recorded.reads

theorem wrote (recorded : Recorded n acked events cluster) {g : Inner} {longer : Log} {op : Op}
    (invariant : ClusterInvariant n g longer)
    (grows : longer.map LogEntry.cmd = acked.map LogEntry.cmd ++ [op]) :
    Recorded n longer (events ++ [.write (acked.length + 1) op])
      ⟨g, cluster.model.map (fun model =>
        model.recordWrite (acked.length + 1) op.key op.written)⟩ := by
  have length : (singles (acked.map LogEntry.cmd)).length = acked.length := by
    rw [singles, List.length_map, List.length_map]
  have longerLength : longer.length = acked.length + 1 := by
    have lengths := congrArg List.length grows
    simpa using lengths
  have commits : singles (longer.map LogEntry.cmd) =
      singles (acked.map LogEntry.cmd) ++ [[op]] := by
    rw [grows, singles, List.map_append]
    rfl
  have sameReads :
      readsOf (events ++ [Recording.write (acked.length + 1) op]) = readsOf events := by
    simp [readsOf]
  refine ⟨invariant, ?_, ?_, ?_⟩
  · rw [recordAll_concat, recorded.model]
    rfl
  · have history := recordsHistory_concat recorded.history op
    rw [length] at history
    rw [commits, writesOf, List.filterMap_append]
    exact history
  · intro read member
    rw [sameReads] at member
    obtain ⟨within, value⟩ := recorded.reads read member
    refine ⟨by omega, ?_⟩
    rw [commits, List.take_append_of_le_length (by rw [length]; exact within)]
    exact value

theorem read (recorded : Recorded n acked events cluster) {g : Inner}
    (invariant : ClusterInvariant n g acked) (key : Bytes) :
    Recorded n acked (events ++ [.read ⟨acked.length, key,
        lastWrite key (acked.map LogEntry.cmd)⟩])
      ⟨g, cluster.model.map (fun model => model.recordRead acked.length key
        (lastWrite key (acked.map LogEntry.cmd)))⟩ := by
  have sameWrites : writesOf (events ++ [Recording.read ⟨acked.length, key,
      lastWrite key (acked.map LogEntry.cmd)⟩]) = writesOf events := by
    simp [writesOf]
  refine ⟨invariant, ?_, ?_, ?_⟩
  · rw [recordAll_concat, recorded.model]
    rfl
  · rw [sameWrites]
    exact recorded.history
  · intro read member
    rw [readsOf, List.filterMap_append] at member
    rcases List.mem_append.mp member with earlier | last
    · exact recorded.reads read earlier
    · obtain rfl := List.mem_singleton.mp last
      refine ⟨Nat.le_refl _, ?_⟩
      dsimp only
      rw [List.take_of_length_le (by rw [singles, List.length_map, List.length_map]),
        get_stateAfter_singles]

/-- What a call leaves recorded: the reads grow by one exactly when a read is served. -/
structure Step (n : Nat) (cluster : RaftCluster) (call : Call) (events : List Recording)
    (after : RaftCluster) (reply : Reply) : Prop where
  called : cluster.call call = some (after, reply)
  inner : cluster.inner.call call = some (after.inner, reply)
  recorded : ∃ longer more, Recorded n longer (events ++ more) after ∧
    (readsOf more).length = if servedRead (call, reply) then 1 else 0

theorem commit_step (recorded : Recorded n acked events cluster) {call : Call} {op : Op}
    (writes : call.op = some op)
    (calls : cluster.call call =
      (cluster.clusterCommit op).map (Prod.map id (Inner.replyOf .committed)))
    (callsInner : cluster.inner.call call =
      (cluster.inner.clusterCommit op).map (Prod.map id (Inner.replyOf .committed))) :
    ∃ after reply, Step n cluster call events after reply := by
  obtain ⟨g, result, longer, committed, outcome⟩ :=
    recorded.invariant.clusterCommit_outcome call op writes
  have unread (reply : Reply) : servedRead (call, reply) = false := by
    cases call with
    | get key => cases writes
    | _ => rfl
  cases result with
  | error failure =>
      cases failure
      have sameOps : longer.map LogEntry.cmd = acked.map LogEntry.cmd := by
        have grows := outcome.grows
        rw [show acknowledged [(call, Inner.replyOf .committed (.error .noLeader))] = [] by
          simp [acknowledged, Inner.replyOf, writes], List.append_nil] at grows
        exact grows
      refine ⟨{ cluster with inner := g }, .noLeader, ?_, ?_, longer, [], ?_, ?_⟩
      · rw [calls, clusterCommit, committed]
        rfl
      · rw [callsInner, committed]
        rfl
      · rw [List.append_nil]
        exact recorded.quiet outcome.invariant sameOps
      · rw [unread]
        rfl
  | ok index =>
      have one : acknowledged [(call, Inner.replyOf .committed (.ok index))] = [op] := by
        simp [acknowledged, Inner.replyOf, writes]
      have indices := outcome.indices
      have grows := outcome.grows
      rw [one] at indices grows
      obtain rfl : index = acked.length + 1 := by
        simpa [acknowledgedIndices, Inner.replyOf] using indices
      refine ⟨_, .committed (acked.length + 1), ?_, ?_, longer, [.write (acked.length + 1) op],
        recorded.wrote outcome.invariant grows, ?_⟩
      · rw [calls, clusterCommit, committed]
        rfl
      · rw [callsInner, committed]
        rfl
      · rw [unread]
        rfl

theorem get_step (recorded : Recorded n acked events cluster) (key : Bytes) :
    ∃ after reply, Step n cluster (.get key) events after reply := by
  obtain ⟨ready, found, ensured, cases⟩ := recorded.invariant.read_outcome
  rcases cases with ⟨rfl, refused⟩ | ⟨leader, after, rfl, synced, settled, isLive, logs, _⟩
  · refine ⟨{ cluster with inner := ready }, .noLeader, ?_, ?_, acked, [], ?_, rfl⟩
    · rw [call, get, ensured]
      rfl
    · rw [Inner.call, Inner.get, ensured]
      rfl
    · rw [List.append_nil]
      exact recorded.quiet (refused (.get key)).invariant rfl
  · have value (id : NodeId) (live : id ∈ after.live) :
        (after.nodes id).get key = lastWrite key (acked.map LogEntry.cmd) :=
      settled.get_eq (logs id live) key
    have applied : (after.nodes leader).applied = acked.length := by
      rw [(settled.settled leader).applied, logs leader isLive]
    refine ⟨_, .value (lastWrite key (acked.map LogEntry.cmd)), ?_, ?_, acked, _,
      recorded.read settled key, rfl⟩
    · rw [call, get, ensured]
      simp only [Option.bind_eq_bind, Option.bind_some, synced, if_pos value, applied,
        value leader isLive]
      rfl
    · rw [Inner.call, Inner.get, ensured]
      simp only [Option.bind_eq_bind, Option.bind_some, synced, if_pos value, value leader isLive]
      rfl

/-- Every call runs through, does what it does without a recorder, and leaves the
recordings telling the acknowledged ops. -/
theorem call_step (recorded : Recorded n acked events cluster) (call : Call) :
    ∃ after reply, Step n cluster call events after reply := by
  cases call with
  | put key value => exact recorded.commit_step rfl rfl rfl
  | delete key => exact recorded.commit_step rfl rfl rfl
  | get key => exact recorded.get_step key
  | scan pref =>
      obtain ⟨g, reply, called, outcome⟩ := recorded.invariant.scan_outcome pref
      refine ⟨{ cluster with inner := g }, reply, ?_, called, acked, [], ?_, rfl⟩
      · obtain ⟨⟨after, result⟩, scanned, same⟩ := Option.map_eq_some_iff.mp called
        cases same
        rw [RaftCluster.call, RaftCluster.scan, scanned]
        rfl
      · rw [List.append_nil]
        exact recorded.quiet outcome.invariant rfl
  | fail id =>
      obtain ⟨g, reply, longer, called, outcome⟩ := recorded.invariant.call_outcome (.fail id)
      cases called
      refine ⟨cluster.fail id, .done, rfl, rfl, longer, [], ?_, rfl⟩
      rw [List.append_nil]
      exact recorded.quiet outcome.invariant (outcome.grows.trans (List.append_nil _))
  | revive id =>
      obtain ⟨g, reply, longer, called, outcome⟩ := recorded.invariant.call_outcome (.revive id)
      cases called
      refine ⟨cluster.revive id, .done, rfl, rfl, longer, [], ?_, rfl⟩
      rw [List.append_nil]
      exact recorded.quiet outcome.invariant (outcome.grows.trans (List.append_nil _))

theorem run_steps (recorded : Recorded n acked events cluster) (calls : List Call) :
    ∃ after trace longer more, cluster.run calls = some (after, trace) ∧
      cluster.inner.run calls = some (after.inner, trace) ∧
      Recorded n longer (events ++ more) after ∧
      (readsOf more).length = trace.countP servedRead := by
  induction calls generalizing cluster acked events with
  | nil => exact ⟨cluster, [], acked, [], rfl, rfl, by rwa [List.append_nil], rfl⟩
  | cons call rest ih =>
      obtain ⟨middle, reply, stepped⟩ := recorded.call_step call
      obtain ⟨between, first, kept, firstReads⟩ := stepped.recorded
      obtain ⟨after, trace, longer, second, ran, ranInner, final, secondReads⟩ := ih kept
      refine ⟨after, (call, reply) :: trace, longer, first ++ second, ?_, ?_, ?_, ?_⟩
      · simp only [RaftCluster.run, stepped.called, ran, Option.bind_eq_bind, Option.bind_some]
        rfl
      · simp only [Inner.run, stepped.inner, ranInner, Option.bind_eq_bind, Option.bind_some]
        rfl
      · rw [← List.append_assoc]
        exact final
      · rw [readsOf, List.filterMap_append, List.length_append, List.countP_cons, Nat.add_comm]
        exact congrArg₂ (· + ·) secondReads firstReads

theorem check_eq (recorded : Recorded n acked events cluster) :
    (Model.recordAll events).check.1 = ⟨[], (readsOf events).length⟩ := by
  have nothing :
      (readsOf events).filterMap (violation (singles (acked.map LogEntry.cmd))) = [] := by
    rw [List.filterMap_eq_nil_iff]
    intro read member
    exact if_neg (not_not.mpr (recorded.reads read member).2)
  rw [check_recordAll recorded.history, nothing]

end RaftCluster.Recorded

/-- For every sequence of calls on a cluster with a recorder: no call panics, each
does and returns what it would without the recorder, and the checker then finds no
violation among the reads, of which there is one for every read that was served. -/
theorem recorded_cluster_checks_clean (n : Nat) (positive : 1 ≤ n) (calls : List Call) :
    ∃ cluster trace model, (RaftCluster.withModel n Model.new).run calls = some (cluster, trace) ∧
      (Inner.new n).run calls = some (cluster.inner, trace) ∧ cluster.model = some model ∧
      model.check.1 = ⟨[], trace.countP servedRead⟩ := by
  obtain ⟨cluster, trace, acked, events, ran, ranInner, recorded, reads⟩ :=
    (RaftCluster.Recorded.initial positive).run_steps calls
  rw [List.nil_append] at recorded
  refine ⟨cluster, trace, Model.recordAll events, ran, ranInner, recorded.model, ?_⟩
  rw [recorded.check_eq, reads]

theorem recorded_cluster_checks_clean_across_failover :
    ∃ cluster trace model, (RaftCluster.withModel 3 Model.new).run
        [.put [1] [2], .get [1], .fail 0, .get [1], .delete [1], .fail 1, .get [1], .revive 0,
          .get [1]] = some (cluster, trace) ∧
      trace.countP servedRead = 3 ∧ cluster.model = some model ∧ model.check.1 = ⟨[], 3⟩ := by
  obtain ⟨cluster, trace, model, ran, _, recorded, checked⟩ :=
    recorded_cluster_checks_clean 3 (by decide)
      [.put [1] [2], .get [1], .fail 0, .get [1], .delete [1], .fail 1, .get [1], .revive 0,
        .get [1]]
  have served : ((RaftCluster.withModel 3 Model.new).run
      [.put [1] [2], .get [1], .fail 0, .get [1], .delete [1], .fail 1, .get [1], .revive 0,
        .get [1]]).map (fun result => result.2.countP servedRead) = some 3 := by decide
  rw [ran, Option.map_some, Option.some_inj] at served
  rw [served] at checked
  exact ⟨cluster, trace, model, ran, served, recorded, checked⟩

end Keystory.Raft
