/-
The consistency checker of recorded workloads: per-key write logs, sorted by
commit index when checked, and a binary search for what each read should have
seen. For reads from the snapshots a store published it reports nothing, and a
read with any other value is reported with the snapshot's.
-/

import Keystory.Engine.History
import Keystory.General.Search

namespace Keystory.Checker

open General

inductive Stored where
  | present (value : Bytes)
  | deleted
deriving DecidableEq, Repr

def Stored.ofValue : Option Bytes → Stored
  | some value => .present value
  | none => .deleted

structure ReadRec where
  readIndex : Nat
  key : Bytes
  value : Option Bytes
deriving DecidableEq, Repr

/-- A write's commit index and the value it left visible. -/
abbrev IndexedWrite := Nat × Stored

structure Model where
  writes : SortedMap Bytes (List IndexedWrite)
  reads : List ReadRec

structure CheckResult where
  violations : List (ReadRec × Option Bytes)
  checked : Nat
deriving DecidableEq, Repr

namespace Model

def new : Model := ⟨SortedMap.empty, []⟩

def recordWrite (model : Model) (index : Nat) (key : Bytes) (value : Option Bytes) : Model :=
  let log := (model.writes.find? key).getD []
  { model with writes := model.writes.insert key (log ++ [(index, Stored.ofValue value)]) }

def recordRead (model : Model) (readIndex : Nat) (key : Bytes) (value : Option Bytes) : Model :=
  { model with reads := model.reads ++ [⟨readIndex, key, value⟩] }

/-- The value of the latest write to the key at or below the read's index. -/
def expected (writes : SortedMap Bytes (List IndexedWrite)) (read : ReadRec) : Option Bytes :=
  (writes.find? read.key).bind (fun log =>
    let n := partitionPoint (fun write => write.1 ≤ read.readIndex) log
    match (log.take n).getLast? with
    | some (_, .present value) => some value
    | _ => none)

def check (model : Model) : CheckResult × Model :=
  let writes := model.writes.mapValues (sortByKey Prod.fst)
  let violations := model.reads.filterMap (fun read =>
    let expected := expected writes read
    if read.value ≠ expected then some (read, expected) else none)
  (⟨violations, model.reads.length⟩, { model with writes := writes })

end Model

/-! ### Recorded workloads -/

/-- A call that feeds the model: the write of one op of a commit, or a read. -/
inductive Recording where
  | write (index : Nat) (op : Op)
  | read (read : ReadRec)

def Model.record (model : Model) : Recording → Model
  | .write index op => model.recordWrite index op.key op.written
  | .read read => model.recordRead read.readIndex read.key read.value

def Model.recordAll (events : List Recording) : Model := events.foldl Model.record Model.new

def writesOf (events : List Recording) : List (Nat × Op) :=
  events.filterMap (fun event =>
    match event with
    | .write index op => some (index, op)
    | .read _ => none)

def readsOf (events : List Recording) : List ReadRec :=
  events.filterMap (fun event =>
    match event with
    | .write _ _ => none
    | .read read => some read)

def opsAt (commits : List (List Op)) : Nat → List Op
  | 0 => []
  | index + 1 => (commits[index]?).getD []

/-- Every commit's ops are recorded at its index in their order, the commits in any. -/
def RecordsHistory (commits : List (List Op)) (writes : List (Nat × Op)) : Prop :=
  ∀ index, (writes.filter (fun write => write.1 = index)).map Prod.snd = opsAt commits index

def publishedFrom (snapshot : Snapshot) : List (List (List Op)) → List Snapshot
  | [] => [snapshot]
  | group :: groups => snapshot :: publishedFrom (Store.stageGroup snapshot group).next groups

def published (groups : List (List (List Op))) : List Snapshot :=
  publishedFrom Snapshot.empty groups

/-- A read of some key from a published snapshot, recorded at that snapshot's index. -/
def Observed (groups : List (List (List Op))) (read : ReadRec) : Prop :=
  ∃ snapshot ∈ published groups,
    read.readIndex = snapshot.index ∧ read.value = snapshot.get read.key

/-! ### Published snapshots -/

theorem mem_publishedFrom {groups : List (List (List Op))} {snapshot : Snapshot}
    {commits : List (List Op)} (member : snapshot ∈ publishedFrom (stateAfter commits) groups) :
    ∃ count, count ≤ groups.flatten.length ∧
      snapshot = stateAfter (commits ++ groups.flatten.take count) := by
  induction groups generalizing commits with
  | nil =>
      rw [publishedFrom, List.mem_singleton] at member
      exact ⟨0, Nat.zero_le _, by rw [List.take_zero, List.append_nil, member]⟩
  | cons group groups ih =>
      rcases List.mem_cons.mp member with here | later
      · exact ⟨0, Nat.zero_le _, by rw [List.take_zero, List.append_nil, here]⟩
      · have flushed : (Store.stageGroup (stateAfter commits) group).next =
            stateAfter (commits ++ group) := by
          rw [stageGroup_eq, stateAfter_append]
        rw [flushed] at later
        obtain ⟨count, bound, same⟩ := ih later
        refine ⟨group.length + count, ?_, ?_⟩
        · rw [List.flatten_cons, List.length_append]
          omega
        · rw [same, List.flatten_cons, List.take_length_add_append, List.append_assoc]

theorem exists_of_mem_published {groups : List (List (List Op))} {snapshot : Snapshot}
    (member : snapshot ∈ published groups) :
    snapshot.index ≤ groups.flatten.length ∧
      snapshot = stateAfter (groups.flatten.take snapshot.index) := by
  have start : snapshot ∈ publishedFrom (stateAfter []) groups := member
  obtain ⟨count, bound, same⟩ := mem_publishedFrom start
  rw [List.nil_append] at same
  have index : snapshot.index = count := by
    rw [same, index_stateAfter, List.length_take, Nat.min_eq_left bound]
  rw [index]
  exact ⟨bound, same⟩

/-! ### Values as the last of the writes -/

def visibleAfter (key : Bytes) (ops : List Op) (before : Option Bytes) : Option Bytes :=
  ops.foldl (fun value op => if op.key = key then op.written else value) before

theorem value_applyOps (key : Bytes) (ops : List Op) (map : Map) (index : Nat) :
    ((applyOps ops map index).find? key).map Entry.value =
      visibleAfter key ops ((map.find? key).map Entry.value) := by
  induction ops generalizing map with
  | nil => rfl
  | cons op ops ih =>
      change ((applyOps ops (op.apply map index) index).find? key).map Entry.value =
        visibleAfter key ops (if op.key = key then op.written else _)
      rw [ih]
      by_cases same : op.key = key
      · rw [if_pos same, ← same, Op.value_apply_key]
      · rw [if_neg same, Op.find?_apply_other op map index key (fun equal => same equal.symm)]

def Stored.value : Stored → Option Bytes
  | .present value => some value
  | .deleted => none

theorem value_ofValue (value : Option Bytes) : (Stored.ofValue value).value = value := by
  cases value <;> rfl

def lastValue (log : List IndexedWrite) : Option Bytes :=
  log.foldl (fun _ write => write.2.value) none

theorem lastValue_append (first second : List IndexedWrite) :
    lastValue (first ++ second) =
      second.foldl (fun _ write => write.2.value) (lastValue first) :=
  List.foldl_append

theorem getLast?_eq_lastValue (log : List IndexedWrite) :
    (match log.getLast? with
      | some (_, .present value) => some value
      | _ => none) = lastValue log := by
  rcases List.eq_nil_or_concat' log with rfl | ⟨front, ⟨index, stored⟩, rfl⟩
  · rfl
  · rw [List.getLast?_append, lastValue_append]
    cases stored <;> rfl

/-! ### The logs of a recorded workload -/

def logOf (key : Bytes) (writes : List (Nat × Op)) : List IndexedWrite :=
  (writes.filter (fun write => write.2.key = key)).map
    (fun write => (write.1, Stored.ofValue write.2.written))

theorem logOf_cons (key : Bytes) (index : Nat) (op : Op) (writes : List (Nat × Op)) :
    logOf key ((index, op) :: writes) =
      (if op.key = key then [(index, Stored.ofValue op.written)] else []) ++ logOf key writes := by
  by_cases same : op.key = key <;> simp [logOf, same]

theorem log_foldl_record (key : Bytes) (events : List Recording) (model : Model) :
    ((events.foldl Model.record model).writes.find? key).getD [] =
      (model.writes.find? key).getD [] ++ logOf key (writesOf events) := by
  induction events generalizing model with
  | nil => exact (List.append_nil _).symm
  | cons event events ih =>
      rw [List.foldl_cons, ih]
      cases event with
      | read read => rfl
      | write index op =>
          change ((model.writes.insert op.key _).find? key).getD [] ++ _ =
            _ ++ logOf key ((index, op) :: writesOf events)
          rw [SortedMap.find?_insert, logOf_cons]
          by_cases same : key = op.key
          · rw [if_pos same, if_pos same.symm, ← List.append_assoc, same]
            rfl
          · rw [if_neg same, if_neg (fun equal => same equal.symm), List.nil_append]

theorem reads_foldl_record (events : List Recording) (model : Model) :
    (events.foldl Model.record model).reads = model.reads ++ readsOf events := by
  induction events generalizing model with
  | nil => exact (List.append_nil _).symm
  | cons event events ih =>
      rw [List.foldl_cons, ih]
      cases event with
      | write index op => rfl
      | read read =>
          change model.reads ++ [read] ++ readsOf events = model.reads ++ (read :: readsOf events)
          rw [List.append_assoc, List.singleton_append]

theorem filter_logOf (key : Bytes) (writes : List (Nat × Op)) (index : Nat) :
    (logOf key writes).filter (fun write => write.1 = index) =
      (((writes.filter (fun write => write.1 = index)).map Prod.snd).filter
        (fun op => op.key = key)).map (fun op => (index, Stored.ofValue op.written)) := by
  induction writes with
  | nil => rfl
  | cons write writes ih =>
      obtain ⟨at', op⟩ := write
      rw [logOf_cons, List.filter_append, ih]
      by_cases same : op.key = key <;> by_cases here : at' = index <;> simp [same, here]

/-! ### Exactness -/

theorem foldl_writes (key : Bytes) (index : Nat) (ops : List Op) (before : Option Bytes) :
    ((ops.filter (fun op => op.key = key)).map
        (fun op => (index, Stored.ofValue op.written))).foldl
      (fun _ write => write.2.value) before = visibleAfter key ops before := by
  rw [List.foldl_map, List.foldl_filter]
  simp only [value_ofValue, decide_eq_true_eq]
  rfl

section Exact

variable {commits : List (List Op)} {writes : List (Nat × Op)}

/-- In the sorted log of a key, the last write up to an index left what the state after
that many commits holds. -/
theorem lastValue_sorted (recorded : RecordsHistory commits writes) (key : Bytes) (count : Nat) :
    lastValue ((sortByKey Prod.fst (logOf key writes)).filter (fun write => write.1 ≤ count)) =
      (stateAfter (commits.take count)).get key := by
  have atIndex : ∀ index, (sortByKey Prod.fst (logOf key writes)).filter
      (fun write => write.1 = index) = ((opsAt commits index).filter
        (fun op => op.key = key)).map (fun op => (index, Stored.ofValue op.written)) := by
    intro index
    rw [filter_sortByKey, filter_logOf, recorded index]
  induction count with
  | zero =>
      have none :
          (sortByKey Prod.fst (logOf key writes)).filter (fun write => write.1 ≤ 0) = [] := by
        simp only [Nat.le_zero]
        rw [atIndex 0]
        rfl
      rw [none]
      rfl
  | succ count ih =>
      rw [filter_le_succ Prod.fst (pairwise_sortByKey _ _), lastValue_append, ih, atIndex,
        foldl_writes, List.take_add_one, stateAfter_append, opsAt]
      cases commits[count]? with
      | none => rfl
      | some ops => exact (value_applyOps key ops _ _).symm

theorem expected_recordAll {events : List Recording} {read : ReadRec}
    (recorded : RecordsHistory commits (writesOf events)) :
    Model.expected ((Model.recordAll events).writes.mapValues (sortByKey Prod.fst)) read =
      (stateAfter (commits.take read.readIndex)).get read.key := by
  have log := log_foldl_record read.key events Model.new
  rw [show (Model.new.writes.find? read.key).getD [] = [] from rfl, List.nil_append] at log
  have partitioned : Partitioned (fun write : IndexedWrite => decide (write.1 ≤ read.readIndex))
      (sortByKey Prod.fst (logOf read.key (writesOf events))) :=
    partitioned_le Prod.fst (pairwise_sortByKey _ _) read.readIndex
  rw [← lastValue_sorted recorded, ← partitioned.take_partitionPoint, ← getLast?_eq_lastValue,
    ← log, Model.expected, SortedMap.find?_mapValues]
  change ((((Model.recordAll events).writes.find? read.key).map _).bind _) = _
  rw [Model.recordAll]
  cases (events.foldl Model.record Model.new).writes.find? read.key <;> rfl

def violation (commits : List (List Op)) (read : ReadRec) : Option (ReadRec × Option Bytes) :=
  let expected := (stateAfter (commits.take read.readIndex)).get read.key
  if read.value ≠ expected then some (read, expected) else none

theorem check_recordAll {events : List Recording}
    (recorded : RecordsHistory commits (writesOf events)) :
    (Model.recordAll events).check.1 =
      ⟨(readsOf events).filterMap (violation commits), (readsOf events).length⟩ := by
  have reads : (Model.recordAll events).reads = readsOf events :=
    reads_foldl_record events Model.new
  simp only [Model.check, reads, expected_recordAll recorded]
  rfl

end Exact

theorem Observed.value_eq {groups : List (List (List Op))} {read : ReadRec}
    (observed : Observed groups read) :
    read.value = (stateAfter (groups.flatten.take read.readIndex)).get read.key := by
  obtain ⟨snapshot, member, index, value⟩ := observed
  have same := (exists_of_mem_published member).2
  rw [value, index]
  exact congrArg (Snapshot.get · read.key) same

theorem filterMap_violation {groups : List (List (List Op))} {reads : List ReadRec}
    (observed : ∀ read ∈ reads, Observed groups read) :
    reads.filterMap (violation groups.flatten) = [] := by
  rw [List.filterMap_eq_nil_iff]
  intro read member
  exact if_neg (not_not.mpr (observed read member).value_eq)

/-- For reads from published snapshots the checker reports nothing; with the value of one
of them replaced it reports that read, and the snapshot's value as what was expected. -/
theorem check_exact {groups : List (List (List Op))} {events : List Recording}
    (recorded : RecordsHistory groups.flatten (writesOf events))
    (observed : ∀ read ∈ readsOf events, Observed groups read) :
    (Model.recordAll events).check.1 = ⟨[], (readsOf events).length⟩ ∧
      ∀ (changed : List Recording) (before after : List ReadRec) (read : ReadRec)
        (value : Option Bytes), RecordsHistory groups.flatten (writesOf changed) →
        readsOf events = before ++ read :: after →
        readsOf changed = before ++ { read with value := value } :: after →
        value ≠ read.value →
          (Model.recordAll changed).check.1 =
            ⟨[({ read with value := value }, read.value)], (readsOf events).length⟩ := by
  constructor
  · rw [check_recordAll recorded, filterMap_violation observed]
  · intro changed before after read value changedRecorded reads changedReads different
    rw [reads] at observed
    have here : Observed groups read := observed read (by simp)
    have front := filterMap_violation (fun other member =>
      observed other (List.mem_append_left _ member))
    have back := filterMap_violation (fun other member =>
      observed other (List.mem_append_right _ (List.mem_cons_of_mem read member)))
    have reported : violation groups.flatten { read with value := value } =
        some ({ read with value := value }, read.value) := by
      rw [here.value_eq] at different ⊢
      exact if_pos different
    rw [check_recordAll changedRecorded, changedReads, reads, List.filterMap_append, front,
      List.filterMap_cons_some reported, back]
    simp

def sampleGroups : List (List (List Op)) :=
  [[[.put [107] [1], .put [107] [2]], [.put [107] [2]]], [[.delete [107]]]]

def sampleEvents : List Recording :=
  [.write 3 (.delete [107]), .read ⟨2, [107], some [2]⟩, .write 1 (.put [107] [1]),
    .write 2 (.put [107] [2]), .read ⟨3, [107], none⟩, .write 1 (.put [107] [2])]

theorem check_exact_sample :
    (Model.recordAll sampleEvents).check.1 = ⟨[], 2⟩ := by
  have recorded : RecordsHistory sampleGroups.flatten (writesOf sampleEvents) := by
    rintro (_ | _ | _ | _ | index)
    · decide
    · decide
    · decide
    · decide
    · simp [writesOf, sampleEvents, opsAt, sampleGroups]
  have observed : ∀ read ∈ readsOf sampleEvents, Observed sampleGroups read := by
    change ∀ read ∈ readsOf sampleEvents, ∃ snapshot ∈ published sampleGroups,
      read.readIndex = snapshot.index ∧ read.value = snapshot.get read.key
    decide
  exact (check_exact recorded observed).1

end Keystory.Checker
