/-
The cooperative scheduler: a table of slots with generations, a free list and a
queue of task ids. What the futures do is left open: between the steps of `run`,
and inside every poll and destructor, tasks may be added and any waker ever
handed out may be woken. A history records what was seen from outside.
-/

import Keystory.General.Steps
import Mathlib.Data.List.Nodup

namespace Keystory.Rt

open General

/-- A table slot and the generation the slot was allocated with. -/
@[ext, grind ext] structure TaskId where
  slot : Nat
  generation : Nat
deriving DecidableEq, Repr

/-- `fut` is empty while the occupant is being polled. -/
structure Slot (Future : Type) where
  generation : Nat
  live : Bool
  fut : Option Future
deriving DecidableEq, Repr

/-- The free list has the slot freed last at its head. -/
structure Table (Future : Type) where
  slots : List (Slot Future)
  free : List Nat
deriving DecidableEq, Repr

variable {Future : Type}

/-- The table part of `Scheduler::add`; `none` is an index out of bounds. -/
def Table.insert (table : Table Future) (fut : Future) : Option (Table Future × TaskId) :=
  match table.free with
  | slot :: free => do
      let entry ← table.slots[slot]?
      let generation := entry.generation + 1
      let slots := table.slots.set slot { generation, live := true, fut := some fut }
      some ({ slots, free }, { slot, generation })
  | [] =>
      let slots := table.slots ++ [{ generation := 0, live := true, fut := some fut }]
      some ({ table with slots }, { slot := table.slots.length, generation := 0 })

/-- Take the future out of its slot, if the id is still current. -/
def Table.take (table : Table Future) (id : TaskId) : Option (Future × Table Future) := do
  let entry ← table.slots[id.slot]?
  if entry.live ∧ entry.generation = id.generation then
    let fut ← entry.fut
    some (fut, { table with slots := table.slots.set id.slot { entry with fut := none } })
  else
    none

/-- The future stays pending: put it back. -/
def Table.restore (table : Table Future) (slot : Nat) (fut : Future) : Option (Table Future) := do
  let entry ← table.slots[slot]?
  some { table with slots := table.slots.set slot { entry with fut := some fut } }

/-- The future is done and dropped: give the slot back. -/
def Table.release (table : Table Future) (slot : Nat) : Option (Table Future) := do
  let entry ← table.slots[slot]?
  some { slots := table.slots.set slot { entry with live := false, fut := none }
         free := slot :: table.free }

inductive Phase (Future : Type) where
  | outside
  | looping
  | polling (id : TaskId) (fut : Future)
  /-- the poll returned ready; the future is being dropped -/
  | dropping (id : TaskId)
deriving DecidableEq, Repr

inductive Observation (Future : Type) where
  | added (id : TaskId) (fut : Future)
  | woken (id : TaskId)
  /-- a poll of the future starts, with a waker for this id -/
  | polled (id : TaskId) (fut : Future)
  | ready (id : TaskId)
  | returned
deriving DecidableEq, Repr

structure Scheduler (Future : Type) where
  tasks : Table Future
  queue : List TaskId
  phase : Phase Future
  history : List (Observation Future)
deriving DecidableEq, Repr

def Scheduler.new : Scheduler Future where
  tasks := { slots := [], free := [] }
  queue := []
  phase := .outside
  history := []

inductive Event (Future : Type) where
  | add (fut : Future)
  | wake (id : TaskId)
  | run
  /-- `run` pops the queue; it returns when the queue is empty -/
  | pop
  | pending
  | ready
  /-- the destructor of a finished future has returned -/
  | dropped
deriving DecidableEq, Repr

def Observation.polls (id : TaskId) : Observation Future → Bool
  | .polled other _ => other = id
  | _ => false

def Observation.queues (id : TaskId) : Observation Future → Bool
  | .added other _ => other = id
  | .woken other => other = id
  | _ => false

/-- Wakers are made for polls only. -/
def handedOut (history : List (Observation Future)) (id : TaskId) : Bool :=
  history.any (Observation.polls id)

theorem handedOut_iff {history : List (Observation Future)} {id : TaskId} :
    handedOut history id = true ↔ ∃ fut, .polled id fut ∈ history := by
  rw [handedOut, List.any_eq_true]
  constructor
  · rintro ⟨entry, member, polls⟩
    cases entry with
    | polled other fut =>
        obtain rfl : other = id := of_decide_eq_true polls
        exact ⟨fut, member⟩
    | _ => cases polls
  · rintro ⟨fut, member⟩
    exact ⟨_, member, decide_eq_true rfl⟩

def Scheduler.step (state : Scheduler Future) : Event Future → Option (Scheduler Future)
  | .add fut => do
      let (tasks, id) ← state.tasks.insert fut
      some { state with
        tasks
        queue := state.queue ++ [id]
        history := state.history ++ [.added id fut] }
  | .wake id =>
      if handedOut state.history id then
        some { state with
          queue := state.queue ++ [id]
          history := state.history ++ [.woken id] }
      else
        none
  | .run =>
      match state.phase with
      | .outside => some { state with phase := .looping }
      | _ => none
  | .pop =>
      match state.phase with
      | .looping =>
          match state.queue with
          | [] => some { state with phase := .outside, history := state.history ++ [.returned] }
          | id :: queue =>
              match state.tasks.take id with
              | some (fut, tasks) =>
                  some { tasks, queue, phase := .polling id fut,
                         history := state.history ++ [.polled id fut] }
              | none => some { state with queue }
      | _ => none
  | .pending =>
      match state.phase with
      | .polling id fut => do
          let tasks ← state.tasks.restore id.slot fut
          some { state with tasks, phase := .looping }
      | _ => none
  | .ready =>
      match state.phase with
      | .polling id _ =>
          some { state with phase := .dropping id, history := state.history ++ [.ready id] }
      | _ => none
  | .dropped =>
      match state.phase with
      | .dropping id => do
          let tasks ← state.tasks.release id.slot
          some { state with tasks, phase := .looping }
      | _ => none

/-- What each event does, and when. -/
inductive Moves (state : Scheduler Future) : Event Future → Scheduler Future → Prop where
  | reuse {fut : Future} {slot : Nat} {free : List Nat} {entry : Slot Future}
      (top : state.tasks.free = slot :: free) (there : state.tasks.slots[slot]? = some entry) :
      Moves state (.add fut)
        { tasks :=
            { slots := state.tasks.slots.set slot ⟨entry.generation + 1, true, some fut⟩, free }
          queue := state.queue ++ [⟨slot, entry.generation + 1⟩]
          phase := state.phase
          history := state.history ++ [.added ⟨slot, entry.generation + 1⟩ fut] }
  | grow {fut : Future} (full : state.tasks.free = []) :
      Moves state (.add fut)
        { tasks := { slots := state.tasks.slots ++ [⟨0, true, some fut⟩], free := [] }
          queue := state.queue ++ [⟨state.tasks.slots.length, 0⟩]
          phase := state.phase
          history := state.history ++ [.added ⟨state.tasks.slots.length, 0⟩ fut] }
  | wake {id : TaskId} (handed : handedOut state.history id = true) :
      Moves state (.wake id)
        { state with queue := state.queue ++ [id], history := state.history ++ [.woken id] }
  | run (here : state.phase = .outside) : Moves state .run { state with phase := .looping }
  | returns (here : state.phase = .looping) (empty : state.queue = []) :
      Moves state .pop
        { state with phase := .outside, history := state.history ++ [.returned] }
  | poll {id : TaskId} {queue : List TaskId} {fut : Future} (here : state.phase = .looping)
      (next : state.queue = id :: queue)
      (there : state.tasks.slots[id.slot]? = some ⟨id.generation, true, some fut⟩) :
      Moves state .pop
        { tasks :=
            { state.tasks with
              slots := state.tasks.slots.set id.slot ⟨id.generation, true, none⟩ }
          queue
          phase := .polling id fut
          history := state.history ++ [.polled id fut] }
  | skip {id : TaskId} {queue : List TaskId} (here : state.phase = .looping)
      (next : state.queue = id :: queue)
      (stale : ∀ fut, state.tasks.slots[id.slot]? ≠ some ⟨id.generation, true, some fut⟩) :
      Moves state .pop { state with queue }
  | pending {id : TaskId} {fut : Future} {entry : Slot Future}
      (here : state.phase = .polling id fut)
      (there : state.tasks.slots[id.slot]? = some entry) :
      Moves state .pending
        { state with
          tasks :=
            { state.tasks with
              slots := state.tasks.slots.set id.slot { entry with fut := some fut } }
          phase := .looping }
  | ready {id : TaskId} {fut : Future} (here : state.phase = .polling id fut) :
      Moves state .ready
        { state with phase := .dropping id, history := state.history ++ [.ready id] }
  | dropped {id : TaskId} {entry : Slot Future} (here : state.phase = .dropping id)
      (there : state.tasks.slots[id.slot]? = some entry) :
      Moves state .dropped
        { state with
          tasks :=
            { slots := state.tasks.slots.set id.slot { entry with live := false, fut := none }
              free := id.slot :: state.tasks.free }
          phase := .looping }

theorem take_eq_some_iff {table rest : Table Future} {id : TaskId} {fut : Future} :
    table.take id = some (fut, rest) ↔
      table.slots[id.slot]? = some ⟨id.generation, true, some fut⟩ ∧
        rest = { table with slots := table.slots.set id.slot ⟨id.generation, true, none⟩ } := by
  unfold Table.take
  cases there : table.slots[id.slot]? with
  | none => simp
  | some entry =>
      obtain ⟨generation, live, held⟩ := entry
      by_cases current : live = true ∧ generation = id.generation
      · obtain ⟨rfl, rfl⟩ := current
        cases held with
        | none => simp
        | some held => grind
      · grind

theorem moves_of_step {state next : Scheduler Future} {event : Event Future}
    (stepped : state.step event = some next) : Moves state event next := by
  cases event with
  | add fut =>
      obtain ⟨⟨tasks, id⟩, inserted, same⟩ := Option.bind_eq_some_iff.mp stepped
      cases same
      unfold Table.insert at inserted
      split at inserted
      case h_1 slot free top =>
          obtain ⟨entry, there, same⟩ := Option.bind_eq_some_iff.mp inserted
          cases same
          exact .reuse top there
      case h_2 full =>
          cases inserted
          rw [full]
          exact .grow full
  | wake id =>
      rw [Scheduler.step] at stepped
      split at stepped
      case isTrue handed =>
          cases stepped
          exact .wake handed
      case isFalse => cases stepped
  | run =>
      rw [Scheduler.step] at stepped
      split at stepped
      case h_1 here =>
          cases stepped
          exact .run here
      case h_2 => cases stepped
  | pop =>
      rw [Scheduler.step] at stepped
      split at stepped
      case h_1 here =>
          split at stepped
          case h_1 empty =>
              cases stepped
              exact .returns here empty
          case h_2 id queue next =>
              split at stepped
              case h_1 fut tasks taken =>
                  cases stepped
                  obtain ⟨there, rfl⟩ := take_eq_some_iff.mp taken
                  exact .poll here next there
              case h_2 taken =>
                  cases stepped
                  refine .skip here next ?_
                  intro fut there
                  rw [take_eq_some_iff.mpr ⟨there, rfl⟩] at taken
                  cases taken
      case h_2 => cases stepped
  | pending =>
      rw [Scheduler.step] at stepped
      split at stepped
      case h_1 id fut here =>
          obtain ⟨tasks, restored, same⟩ := Option.bind_eq_some_iff.mp stepped
          cases same
          obtain ⟨entry, there, same⟩ := Option.bind_eq_some_iff.mp restored
          cases same
          exact .pending here there
      case h_2 => cases stepped
  | ready =>
      rw [Scheduler.step] at stepped
      split at stepped
      case h_1 id fut here =>
          cases stepped
          exact .ready here
      case h_2 => cases stepped
  | dropped =>
      rw [Scheduler.step] at stepped
      split at stepped
      case h_1 id here =>
          obtain ⟨tasks, released, same⟩ := Option.bind_eq_some_iff.mp stepped
          cases same
          obtain ⟨entry, there, same⟩ := Option.bind_eq_some_iff.mp released
          cases same
          exact .dropped here there
      case h_2 => cases stepped

end Keystory.Rt
