/-
The scheduler with its futures.

A boxed future is what an `async` block compiles to: code between await points, and
at each of them a `YieldOnce` that is pending once, wakes its own task and is ready
the next time. `run` pops an id, polls the box behind it and puts it back or frees
its slot. Whatever the futures do to the state they share, as long as each of them ends,
`run` does too, and it is a plain line of tasks taking turns: slots, generations and
wakers do not show.
-/

import Keystory.General.Cooperative
import Keystory.Rt.Invariant

namespace Keystory.Rt

open General

/-- A future between two polls, of those that end whatever their calls are answered. The flag
of a `YieldOnce` says that it was polled. -/
inductive Future (Call : Type) (Reply : Call → Type) where
  | ready
  | call (request : Call) (next : Reply request → Future Call Reply)
  | add (child next : Future Call Reply)
  | yieldOnce (polled : Bool) (next : Future Call Reply)

variable {Call : Type} {Reply : Call → Type} {State : Type}

/-- The scheduler's futures are boxes; what is in a box changes as it is polled. -/
structure Executor (Call : Type) (Reply : Call → Type) (State : Type) where
  sched : Scheduler Nat
  boxes : List (Future Call Reply)
  shared : State

namespace Executor

def new (shared : State) : Executor Call Reply State := ⟨Scheduler.new, [], shared⟩

def add (ex : Executor Call Reply State) (fut : Future Call Reply) :
    Option (Executor Call Reply State) := do
  let sched ← ex.sched.step (.add ex.boxes.length)
  return { ex with sched, boxes := ex.boxes ++ [fut] }

end Executor

/-- One poll: what is left to poll later, if anything. -/
def Future.poll (serve : (request : Call) → State → Option (Reply request × State))
    (id : TaskId) : Future Call Reply → Executor Call Reply State →
      Option (Option (Future Call Reply) × Executor Call Reply State)
  | .ready, ex => some (none, ex)
  | .call request next, ex => do
      let (reply, shared) ← serve request ex.shared
      (next reply).poll serve id { ex with shared }
  | .add child next, ex => do
      let ex ← ex.add child
      next.poll serve id ex
  | .yieldOnce polled next, ex =>
      if polled then next.poll serve id ex
      else do
        let sched ← ex.sched.step (.wake id)
        return (some (.yieldOnce true next), { ex with sched })

namespace Executor

/-- After the poll: a finished future is dropped and its slot freed, another one is
put back in its box. -/
def settle (box : Nat) : Option (Future Call Reply) × Executor Call Reply State →
    Option (Executor Call Reply State)
  | (none, ex) => do
      let sched ← ex.sched.step .ready
      let sched ← sched.step .dropped
      return { ex with sched }
  | (some left, ex) => do
      let sched ← ex.sched.step .pending
      return { ex with sched, boxes := ex.boxes.set box left }

variable (serve : (request : Call) → State → Option (Reply request × State))

def turn (ex : Executor Call Reply State) : Option (Executor Call Reply State) := do
  let sched ← ex.sched.step .pop
  match sched.phase with
  | .polling id box => do
      let fut ← ex.boxes[box]?
      let outcome ← fut.poll serve id { ex with sched }
      settle box outcome
  | _ => return { ex with sched }

def loop : (fuel : Nat) → Executor Call Reply State → Option (Executor Call Reply State)
  | 0, _ => none
  | fuel + 1, ex => do
      let ex ← ex.turn serve
      match ex.sched.phase with
      | .outside => return ex
      | _ => ex.loop fuel

def run (fuel : Nat) (ex : Executor Call Reply State) : Option (Executor Call Reply State) := do
  let sched ← ex.sched.step .run
  loop serve fuel { ex with sched }

end Executor

/-! ### The line of tasks -/

/-- What the future still has to do, with the await points as pauses. -/
def Future.task : Future Call Reply → Task Call Reply
  | .ready => .done
  | .call request next => .call request (fun reply => (next reply).task)
  | .add child next => .spawn child.task next.task
  | .yieldOnce polled next => if polled then next.task else .pause next.task

namespace Executor

def Holds (ex : Executor Call Reply State) (id : TaskId) (box : Nat) : Prop :=
  ex.sched.tasks.slots[id.slot]? = some ⟨id.generation, true, some box⟩

def taskOf (ex : Executor Call Reply State) (id : TaskId) : Task Call Reply :=
  match ex.sched.tasks.slots[id.slot]? with
  | some ⟨_, _, some box⟩ => (ex.boxes[box]?).elim .done Future.task
  | _ => .done

/-- The ids in line are those of the tasks not being polled, and what they have to do
are the given tasks; no box is behind two of them. -/
structure Lined (ex : Executor Call Reply State) (ids : List TaskId)
    (tasks : List (Task Call Reply)) : Prop where
  inv : Inv ex.sched
  mem_iff : ∀ id, id ∈ ids ↔ ∃ box, ex.Holds id box
  nodup : ids.Nodup
  todo : ids.map ex.taskOf = tasks
  apart : ∀ id other box, ex.Holds id box → ex.Holds other box → id = other
  inside : ∀ id box, ex.Holds id box → box < ex.boxes.length

theorem added_slot {state next : Scheduler Nat} (inv : Inv state) {box : Nat}
    (moves : Moves state (.add box) next) :
    ∃ id : TaskId, next.queue = state.queue ++ [id] ∧ next.phase = state.phase ∧
      next.history = state.history ++ [.added id box] ∧
      next.tasks.slots[id.slot]? = some ⟨id.generation, true, some box⟩ ∧
      (∀ entry, state.tasks.slots[id.slot]? = some entry → entry.live = false) ∧
      ∀ slot, slot ≠ id.slot → next.tasks.slots[slot]? = state.tasks.slots[slot]? := by
  cases moves with
  | @reuse _ slot free entry top there =>
      have vacant := (inv.free.mem_iff slot).mp (by rw [top]; exact List.mem_cons_self)
      have bound : slot < state.tasks.slots.length := (List.getElem?_eq_some_iff.mp there).1
      refine ⟨⟨slot, entry.generation + 1⟩, rfl, rfl, rfl, ?_, ?_, ?_⟩
      · exact List.getElem?_set_self bound
      · intro other found
        rw [found] at vacant
        exact Option.some.inj vacant
      · intro other different
        exact List.getElem?_set_ne (Ne.symm different)
  | grow full =>
      refine ⟨⟨state.tasks.slots.length, 0⟩, rfl, rfl, rfl, ?_, ?_, ?_⟩
      · exact List.getElem?_concat_length
      · intro other found
        rw [List.getElem?_eq_none (Nat.le_refl _)] at found
        cases found
      · intro other different
        dsimp only
        rw [List.getElem?_append]
        split
        · rfl
        · rename_i high
          rw [List.getElem?_eq_none (Nat.le_of_not_lt high), List.getElem?_eq_none]
          rw [List.length_singleton]
          change other ≠ state.tasks.slots.length at different
          omega

section Line

variable {ids : List TaskId} {tasks : List (Task Call Reply)}
  {ex after : Executor Call Reply State}

theorem Holds.taskOf {id : TaskId} {box : Nat} (holds : ex.Holds id box)
    {fut : Future Call Reply} (held : ex.boxes[box]? = some fut) : ex.taskOf id = fut.task := by
  unfold Executor.taskOf
  rw [holds]
  dsimp only
  rw [held]
  rfl

theorem taskOf_congr {id : TaskId} {box : Nat} (holds : ex.Holds id box)
    (slot : after.sched.tasks.slots[id.slot]? = ex.sched.tasks.slots[id.slot]?)
    (content : after.boxes[box]? = ex.boxes[box]?) : after.taskOf id = ex.taskOf id := by
  unfold taskOf
  rw [slot, holds]
  dsimp only
  rw [content]

theorem Holds.id_eq {id other : TaskId} {box : Nat} (holds : ex.Holds id box)
    {entry : Slot Nat} (there : ex.sched.tasks.slots[other.slot]? = some entry)
    (sameSlot : id.slot = other.slot) : entry = ⟨id.generation, true, some box⟩ := by
  rw [← sameSlot, holds] at there
  exact (Option.some.inj there).symm

theorem holds_set {id : TaskId} {live : Bool} {old content : Option Nat}
    (there : ex.sched.tasks.slots[id.slot]? = some ⟨id.generation, true, old⟩)
    (slots : after.sched.tasks.slots =
      ex.sched.tasks.slots.set id.slot ⟨id.generation, live, content⟩) (other : TaskId)
    (box : Nat) : after.Holds other box ↔
      (ex.Holds other box ∧ other ≠ id) ∨ (other = id ∧ live = true ∧ content = some box) := by
  have bound := (List.getElem?_eq_some_iff.mp there).1
  unfold Holds
  rw [slots]
  by_cases sameSlot : id.slot = other.slot
  · rw [← sameSlot, List.getElem?_set_self bound, there]
    simp only [Option.some.injEq, Slot.mk.injEq]
    constructor
    · rintro ⟨generation, isLive, held⟩
      exact Or.inr ⟨TaskId.ext sameSlot.symm generation.symm, isLive, held⟩
    · rintro (⟨⟨generation, _, _⟩, different⟩ | ⟨rfl, isLive, held⟩)
      · exact absurd (TaskId.ext sameSlot.symm generation.symm) different
      · exact ⟨rfl, isLive, held⟩
  · rw [List.getElem?_set_ne sameSlot]
    constructor
    · intro occupied
      exact Or.inl ⟨occupied, fun same => sameSlot (congrArg TaskId.slot same).symm⟩
    · rintro (⟨occupied, _⟩ | ⟨rfl, _⟩)
      · exact occupied
      · exact absurd rfl sameSlot

theorem Lined.frame (lined : ex.Lined ids tasks) (inv : Inv after.sched)
    (holds : ∀ id box, after.Holds id box ↔ ex.Holds id box)
    (content : ∀ id box, ex.Holds id box → after.boxes[box]? = ex.boxes[box]?) :
    after.Lined ids tasks := by
  refine ⟨inv, ?_, lined.nodup, ?_, ?_, ?_⟩
  · intro id
    rw [lined.mem_iff id]
    exact exists_congr fun box => (holds id box).symm
  · rw [← lined.todo]
    apply List.map_congr_left
    intro id member
    obtain ⟨box, there⟩ := (lined.mem_iff id).mp member
    exact taskOf_congr there (((holds id box).mpr there).trans there.symm) (content id box there)
  · intro id other box first second
    exact lined.apart id other box ((holds id box).mp first) ((holds other box).mp second)
  · intro id box there
    have earlier := (holds id box).mp there
    have bound := lined.inside id box earlier
    have same := content id box earlier
    rw [List.getElem?_eq_getElem bound] at same
    exact (List.getElem?_eq_some_iff.mp same).1

theorem Lined.join (lined : ex.Lined ids tasks) (inv : Inv after.sched) {joins : TaskId}
    {box : Nat} {fut : Future Call Reply}
    (holds : ∀ id other, after.Holds id other ↔ ex.Holds id other ∨ (id = joins ∧ other = box))
    (absent : ∀ other, ¬ex.Holds joins other) (unused : ∀ id, ¬ex.Holds id box)
    (content : ∀ id other, ex.Holds id other → after.boxes[other]? = ex.boxes[other]?)
    (held : after.boxes[box]? = some fut) :
    after.Lined (ids ++ [joins]) (tasks ++ [fut.task]) := by
  have joined : after.Holds joins box := (holds joins box).mpr (Or.inr ⟨rfl, rfl⟩)
  refine ⟨inv, ?_, ?_, ?_, ?_, ?_⟩
  · intro id
    rw [List.mem_append, lined.mem_iff id, List.mem_singleton]
    constructor
    · rintro (⟨other, there⟩ | rfl)
      · exact ⟨other, (holds id other).mpr (Or.inl there)⟩
      · exact ⟨box, joined⟩
    · rintro ⟨other, there⟩
      exact ((holds id other).mp there).imp (fun earlier => ⟨other, earlier⟩) And.left
  · rw [List.nodup_append]
    refine ⟨lined.nodup, List.nodup_singleton _, ?_⟩
    rintro id member other last rfl
    obtain ⟨other, there⟩ := (lined.mem_iff id).mp member
    rw [List.mem_singleton.mp last] at there
    exact absent other there
  · rw [List.map_append, ← lined.todo, List.map_singleton, joined.taskOf held]
    congr 1
    apply List.map_congr_left
    intro id member
    obtain ⟨other, there⟩ := (lined.mem_iff id).mp member
    exact taskOf_congr there (((holds id other).mpr (Or.inl there)).trans there.symm)
      (content id other there)
  · intro id other box' first second
    rcases (holds id box').mp first with former | ⟨rfl, rfl⟩ <;>
      rcases (holds other box').mp second with latter | ⟨rfl, same⟩
    · exact lined.apart id other box' former latter
    · exact absurd (same ▸ former) (unused id)
    · exact absurd latter (unused other)
    · rfl
  · intro id other there
    rcases (holds id other).mp there with earlier | ⟨_, rfl⟩
    · have bound := lined.inside id other earlier
      have same := content id other earlier
      rw [List.getElem?_eq_getElem bound] at same
      exact (List.getElem?_eq_some_iff.mp same).1
    · exact (List.getElem?_eq_some_iff.mp held).1

theorem Lined.leave {leaves : TaskId} {task : Task Call Reply}
    (lined : ex.Lined (leaves :: ids) (task :: tasks)) (inv : Inv after.sched)
    (holds : ∀ id box, after.Holds id box ↔ ex.Holds id box ∧ id ≠ leaves)
    (content : after.boxes = ex.boxes) : after.Lined ids tasks := by
  obtain ⟨notLater, nodup⟩ := List.nodup_cons.mp lined.nodup
  have todo := lined.todo
  rw [List.map_cons, List.cons.injEq] at todo
  refine ⟨inv, ?_, nodup, ?_, ?_, ?_⟩
  · intro id
    constructor
    · intro member
      obtain ⟨box, there⟩ := (lined.mem_iff id).mp (List.mem_cons_of_mem leaves member)
      exact ⟨box, (holds id box).mpr ⟨there, fun same => notLater (same ▸ member)⟩⟩
    · rintro ⟨box, there⟩
      obtain ⟨earlier, different⟩ := (holds id box).mp there
      exact (List.mem_cons.mp ((lined.mem_iff id).mpr ⟨box, earlier⟩)).resolve_left different
  · rw [← todo.2]
    apply List.map_congr_left
    intro id member
    obtain ⟨box, there⟩ := (lined.mem_iff id).mp (List.mem_cons_of_mem leaves member)
    have still := (holds id box).mpr ⟨there, fun same => notLater (same ▸ member)⟩
    exact taskOf_congr there (still.trans there.symm) (by rw [content])
  · intro id other box first second
    exact lined.apart id other box ((holds id box).mp first).1 ((holds other box).mp second).1
  · intro id box there
    rw [content]
    exact lined.inside id box ((holds id box).mp there).1

theorem Lined.add (lined : ex.Lined ids tasks) (fut : Future Call Reply) :
    ∃ next id, ex.add fut = some next ∧ next.Lined (ids ++ [id]) (tasks ++ [fut.task]) ∧
      next.sched.queue = ex.sched.queue ++ [id] ∧ next.sched.phase = ex.sched.phase ∧
      (∀ entry ∈ ex.sched.history, entry ∈ next.sched.history) ∧ next.shared = ex.shared ∧
      (∀ box, box < ex.boxes.length → next.boxes[box]? = ex.boxes[box]?) ∧
      ∀ id box, box < ex.boxes.length → (next.Holds id box ↔ ex.Holds id box) := by
  obtain ⟨sched, stepped⟩ := Option.isSome_iff_exists.mp
    (@Inv.step_isSome _ _ lined.inv (.add ex.boxes.length) trivial)
  obtain ⟨id, queue, phase, history, there, vacant, others⟩ :=
    added_slot lined.inv (moves_of_step stepped)
  let next : Executor Call Reply State := { ex with sched, boxes := ex.boxes ++ [fut] }
  have boxes (box : Nat) (bound : box < ex.boxes.length) : next.boxes[box]? = ex.boxes[box]? :=
    List.getElem?_append_left bound
  have absent (box : Nat) : ¬ex.Holds id box := by
    intro holds
    cases vacant _ holds
  have holds (other : TaskId) (box : Nat) :
      next.Holds other box ↔ ex.Holds other box ∨ (other = id ∧ box = ex.boxes.length) := by
    by_cases sameSlot : other.slot = id.slot
    · constructor
      · intro occupied
        right
        have same := Holds.id_eq occupied there sameSlot
        simp only [Slot.mk.injEq, Option.some.injEq] at same
        exact ⟨TaskId.ext sameSlot same.1.symm, same.2.2.symm⟩
      · rintro (occupied | ⟨rfl, rfl⟩)
        · rw [Holds, sameSlot] at occupied
          cases vacant _ occupied
        · exact there
    · have unchanged := others other.slot sameSlot
      constructor
      · intro occupied
        exact Or.inl (unchanged.symm.trans occupied)
      · rintro (occupied | ⟨rfl, _⟩)
        · exact unchanged.trans occupied
        · exact absurd rfl sameSlot
  refine ⟨next, id, ?_, ?_, queue, phase, ?_, rfl, boxes, ?_⟩
  · rw [Executor.add, stepped]
    rfl
  · refine lined.join (lined.inv.step stepped) holds absent ?_ ?_ List.getElem?_concat_length
    · intro other occupied
      exact Nat.lt_irrefl _ (lined.inside other _ occupied)
    · intro other box occupied
      exact boxes box (lined.inside other box occupied)
  · intro entry member
    change entry ∈ sched.history
    rw [history]
    exact List.mem_append_left _ member
  · intro other box bound
    rw [holds other box]
    constructor
    · rintro (occupied | ⟨_, rfl⟩)
      · exact occupied
      · exact absurd bound (Nat.lt_irrefl _)
    · exact Or.inl

/-- A box is out of its slot and being polled; the other tasks are in line. -/
structure Polling (ex : Executor Call Reply State) (id : TaskId) (box : Nat) (ids : List TaskId)
    (tasks : List (Task Call Reply)) : Prop where
  lined : ex.Lined ids tasks
  phase : ex.sched.phase = .polling id box
  handed : handedOut ex.sched.history id = true
  inside : box < ex.boxes.length
  alone : ∀ other, ¬ex.Holds other box

theorem Polling.add {id : TaskId} {box : Nat} (polling : ex.Polling id box ids tasks)
    (queue : ex.sched.queue = ids) (fut : Future Call Reply) :
    ∃ next new, ex.add fut = some next ∧ next.Polling id box (ids ++ [new]) (tasks ++ [fut.task]) ∧
      next.sched.queue = ids ++ [new] ∧ next.shared = ex.shared := by
  obtain ⟨next, new, added, lined, longer, phase, history, shared, boxes, holds⟩ :=
    polling.lined.add fut
  refine ⟨next, new, added, ⟨lined, phase.trans polling.phase, ?_, ?_, ?_⟩, ?_, shared⟩
  · obtain ⟨polled, member⟩ := handedOut_iff.mp polling.handed
    exact handedOut_iff.mpr ⟨polled, history _ member⟩
  · have same := boxes box polling.inside
    rw [List.getElem?_eq_getElem polling.inside] at same
    exact (List.getElem?_eq_some_iff.mp same).1
  · intro other there
    exact polling.alone other ((holds other box polling.inside).mp there)
  · rw [longer, queue]

theorem Polling.shared {id : TaskId} {box : Nat} (polling : ex.Polling id box ids tasks)
    (state : State) : ({ ex with shared := state }).Polling id box ids tasks := by
  refine ⟨?_, polling.phase, polling.handed, polling.inside, polling.alone⟩
  exact polling.lined.frame polling.lined.inv (fun _ _ => Iff.rfl) (fun _ _ _ => rfl)

theorem Polling.wake {id : TaskId} {box : Nat} (polling : ex.Polling id box ids tasks)
    (queue : ex.sched.queue = ids) :
    ∃ sched, ex.sched.step (.wake id) = some sched ∧
      ({ ex with sched := sched }).Polling id box ids tasks ∧ sched.queue = ids ++ [id] := by
  obtain ⟨sched, stepped⟩ := Option.isSome_iff_exists.mp
    (@Inv.step_isSome _ _ polling.lined.inv (.wake id) polling.handed)
  have kept := polling.lined.inv.step stepped
  refine ⟨sched, stepped, ?_⟩
  cases moves_of_step stepped with
  | wake handed =>
      refine ⟨⟨?_, polling.phase, ?_, polling.inside, polling.alone⟩, by rw [queue]⟩
      · exact polling.lined.frame kept (fun _ _ => Iff.rfl) (fun _ _ _ => rfl)
      · obtain ⟨polled, member⟩ := handedOut_iff.mp handed
        exact handedOut_iff.mpr ⟨polled, List.mem_append_left _ member⟩

variable {serve : (request : Call) → State → Option (Reply request × State)}

/-- A poll is the turn of the task; it wakes the task when something is left of it. -/
theorem Polling.poll {id : TaskId} {box : Nat} {fut : Future Call Reply}
    {result : Task.Turn Call Reply State} (polling : ex.Polling id box ids tasks)
    (queue : ex.sched.queue = ids) (turned : fut.task.turn serve ex.shared = some result) :
    ∃ left next more, fut.poll serve id ex = some (left, next) ∧
      next.Polling id box (ids ++ more) (tasks ++ result.started) ∧
      next.shared = result.state ∧ left.map Future.task = result.left ∧
      next.sched.queue = ids ++ more ++ (if left.isSome then [id] else []) := by
  induction fut generalizing ex ids tasks result with
  | ready =>
      cases turned
      refine ⟨none, ex, [], rfl, ?_, rfl, rfl, ?_⟩
      · rw [List.append_nil, List.append_nil]
        exact polling
      · rw [queue, List.append_nil]
        exact (List.append_nil ids).symm
  | call request next ih =>
      obtain ⟨⟨reply, state⟩, served, rest⟩ := Option.bind_eq_some_iff.mp turned
      obtain ⟨left, after, more, polled, kept⟩ := ih reply (polling.shared state) queue rest
      refine ⟨left, after, more, ?_, kept⟩
      rw [Future.poll, served]
      exact polled
  | add child next _ ih =>
      obtain ⟨inner, turnedNext, rfl⟩ := Option.map_eq_some_iff.mp turned
      obtain ⟨middle, new, added, adding, longer, shared⟩ := polling.add queue child
      rw [← shared] at turnedNext
      obtain ⟨left, after, more, polled, kept, state, same, waiting⟩ := ih adding longer turnedNext
      refine ⟨left, after, new :: more, ?_, ?_, state, same, ?_⟩
      · rw [Future.poll, added]
        exact polled
      · rw [List.append_assoc, List.append_assoc] at kept
        exact kept
      · rw [waiting, List.append_assoc ids]
        rfl
  | yieldOnce flag next ih =>
      cases flag with
      | true =>
          obtain ⟨left, after, more, polled, kept⟩ := ih polling queue turned
          exact ⟨left, after, more, polled, kept⟩
      | false =>
          cases turned
          obtain ⟨sched, stepped, kept, longer⟩ := polling.wake queue
          refine ⟨some (.yieldOnce true next), { ex with sched := sched }, [], ?_, ?_, rfl, rfl, ?_⟩
          · change (ex.sched.step (.wake id)).bind _ = _
            rw [stepped]
            rfl
          · rw [List.append_nil, List.append_nil]
            exact kept
          · rw [List.append_nil]
            exact longer

theorem Polling.poll_panics {id : TaskId} {box : Nat} {fut : Future Call Reply}
    (polling : ex.Polling id box ids tasks) (queue : ex.sched.queue = ids)
    (turned : fut.task.turn serve ex.shared = none) : fut.poll serve id ex = none := by
  induction fut generalizing ex ids tasks with
  | ready => cases turned
  | call request next ih =>
      rw [Future.poll]
      cases served : serve request ex.shared with
      | none => rfl
      | some answer =>
          rw [Future.task, Task.turn, served, Option.bind_some] at turned
          exact ih answer.1 (polling.shared answer.2) queue turned
  | add child next _ ih =>
      rw [Future.task, Task.turn, Option.map_eq_none_iff] at turned
      obtain ⟨middle, new, added, adding, longer, shared⟩ := polling.add queue child
      rw [← shared] at turned
      rw [Future.poll, added]
      exact ih adding longer turned
  | yieldOnce flag next ih =>
      cases flag with
      | true => exact ih polling queue turned
      | false => cases turned

theorem Lined.pop {task : Task Call Reply} (lined : ex.Lined ex.sched.queue (task :: tasks))
    (looping : ex.sched.phase = .looping) :
    ∃ sched id box fut, ex.sched.step .pop = some sched ∧ ex.boxes[box]? = some fut ∧
      fut.task = task ∧ ({ ex with sched := sched }).Polling id box sched.queue tasks := by
  obtain ⟨sched, stepped⟩ := Option.isSome_iff_exists.mp
    (@Inv.step_isSome _ _ lined.inv .pop looping)
  have kept := lined.inv.step stepped
  have line := lined
  have todo := lined.todo
  cases waiting : ex.sched.queue with
  | nil =>
      rw [waiting] at todo
      cases todo
  | cons first later =>
      rw [waiting] at line todo
      obtain ⟨box, holds⟩ := (line.mem_iff first).mp List.mem_cons_self
      obtain ⟨fut, held⟩ : ∃ fut, ex.boxes[box]? = some fut :=
        ⟨_, List.getElem?_eq_getElem (line.inside first box holds)⟩
      have sameTask : fut.task = task := by
        rw [← holds.taskOf held]
        exact (List.cons.inj todo).1
      refine ⟨sched, first, box, fut, stepped, held, sameTask, ?_⟩
      cases moves_of_step stepped with
      | returns here empty =>
          rw [waiting] at empty
          cases empty
      | skip here next stale =>
          rw [waiting] at next
          cases next
          exact absurd holds (stale box)
      | @poll id queue other here next there =>
          rw [waiting] at next
          cases next
          obtain rfl : other = box := by
            rw [holds] at there
            simpa using there.symm
          let taken : Executor Call Reply State :=
            { ex with sched :=
              { tasks :=
                  { ex.sched.tasks with
                    slots := ex.sched.tasks.slots.set first.slot ⟨first.generation, true, none⟩ }
                queue := later
                phase := .polling first other
                history := ex.sched.history ++ [.polled first other] } }
          have left (id : TaskId) (box : Nat) :
              taken.Holds id box ↔ ex.Holds id box ∧ id ≠ first := by
            rw [@holds_set _ _ _ ex taken first true _ none holds rfl id box]
            simp
          refine ⟨line.leave kept left rfl, rfl, ?_, line.inside first other holds, ?_⟩
          · exact handedOut_iff.mpr ⟨other, List.mem_append_right _ (List.mem_singleton.mpr rfl)⟩
          · intro id occupied
            obtain ⟨earlier, different⟩ := (left id other).mp occupied
            exact different (line.apart id first other earlier holds)

theorem Polling.pending {id : TaskId} {box : Nat} (polling : ex.Polling id box ids tasks)
    (queue : ex.sched.queue = ids ++ [id]) (left : Future Call Reply) :
    ∃ sched, ex.sched.step .pending = some sched ∧
      ({ ex with sched := sched, boxes := ex.boxes.set box left }).Lined sched.queue
        (tasks ++ [left.task]) ∧ sched.phase = .looping := by
  obtain ⟨sched, stepped⟩ := Option.isSome_iff_exists.mp
    (@Inv.step_isSome _ _ polling.lined.inv .pending ⟨id, box, polling.phase⟩)
  have kept := polling.lined.inv.step stepped
  have empty := (polling.lined.inv.agrees.polling id box polling.phase).1
  refine ⟨sched, stepped, ?_⟩
  cases moves_of_step stepped with
  | @pending other fut entry here there =>
      rw [polling.phase] at here
      cases here
      rw [empty] at there
      cases there
      let back : Executor Call Reply State :=
        { ex with
          sched :=
            { ex.sched with
              tasks :=
                { ex.sched.tasks with
                  slots := ex.sched.tasks.slots.set id.slot ⟨id.generation, true, some box⟩ }
              phase := .looping }
          boxes := ex.boxes.set box left }
      have absent (other : Nat) : ¬ex.Holds id other := by
        intro occupied
        rw [Holds, empty] at occupied
        simp at occupied
      have holds (other : TaskId) (content : Nat) :
          back.Holds other content ↔ ex.Holds other content ∨ (other = id ∧ content = box) := by
        rw [@holds_set _ _ _ ex back id true none (some box) empty rfl other content]
        constructor
        · rintro (⟨occupied, _⟩ | ⟨same, _, held⟩)
          · exact Or.inl occupied
          · exact Or.inr ⟨same, (Option.some.inj held).symm⟩
        · rintro (occupied | ⟨same, rfl⟩)
          · exact Or.inl ⟨occupied, fun same => absent content (same ▸ occupied)⟩
          · exact Or.inr ⟨same, rfl, rfl⟩
      have lined : back.Lined (ids ++ [id]) (tasks ++ [left.task]) := by
        refine polling.lined.join kept holds absent polling.alone ?_
          (List.getElem?_set_self polling.inside)
        intro other content occupied
        apply List.getElem?_set_ne
        rintro rfl
        exact polling.alone other occupied
      rw [← queue] at lined
      exact ⟨lined, rfl⟩

theorem Polling.finish {id : TaskId} {box : Nat} (polling : ex.Polling id box ids tasks)
    (queue : ex.sched.queue = ids) :
    ∃ ready sched, ex.sched.step .ready = some ready ∧ ready.step .dropped = some sched ∧
      ({ ex with sched := sched }).Lined sched.queue tasks ∧ sched.phase = .looping := by
  obtain ⟨ready, readied⟩ := Option.isSome_iff_exists.mp
    (@Inv.step_isSome _ _ polling.lined.inv .ready ⟨id, box, polling.phase⟩)
  have between := polling.lined.inv.step readied
  have empty := (polling.lined.inv.agrees.polling id box polling.phase).1
  subst queue
  cases moves_of_step readied with
  | @ready other fut here =>
      rw [polling.phase] at here
      cases here
      obtain ⟨sched, stepped⟩ := Option.isSome_iff_exists.mp
        (@Inv.step_isSome _ _ between .dropped ⟨id, rfl⟩)
      have kept := between.step stepped
      refine ⟨_, sched, readied, stepped, ?_⟩
      cases moves_of_step stepped with
      | @dropped other entry here there =>
          cases here
          dsimp only at there
          rw [empty] at there
          cases there
          refine ⟨?_, rfl⟩
          refine polling.lined.frame kept ?_ (fun _ _ _ => rfl)
          intro other content
          rw [@holds_set _ _ _ ex _ id false none none empty rfl other content]
          constructor
          · rintro (⟨occupied, _⟩ | ⟨_, impossible, _⟩)
            · exact occupied
            · cases impossible
          · intro occupied
            refine Or.inl ⟨occupied, ?_⟩
            rintro rfl
            rw [Holds, empty] at occupied
            simp at occupied

/-- One round of the loop is one turn of the first task in line. -/
theorem Lined.turn {task : Task Call Reply} {result : Task.Turn Call Reply State}
    (lined : ex.Lined ex.sched.queue (task :: tasks)) (looping : ex.sched.phase = .looping)
    (turned : task.turn serve ex.shared = some result) :
    ∃ next, ex.turn serve = some next ∧
      next.Lined next.sched.queue (tasks ++ result.started ++ result.left.toList) ∧
      next.sched.phase = .looping ∧ next.shared = result.state := by
  obtain ⟨sched, id, box, fut, popped, held, sameTask, polling⟩ := lined.pop looping
  rw [← sameTask] at turned
  obtain ⟨left, next, more, polled, kept, state, same, queue⟩ := polling.poll rfl turned
  have phase : sched.phase = .polling id box := polling.phase
  have start : ex.turn serve = settle box (left, next) := by
    rw [Executor.turn, popped]
    simp only [Option.bind_eq_bind, Option.bind_some, phase, held, polled]
  rw [start]
  cases left with
  | none =>
      rw [Option.isSome_none] at queue
      obtain ⟨ready, dropped, readied, freed, lined, looping⟩ :=
        kept.finish (queue.trans (List.append_nil _))
      refine ⟨{ next with sched := dropped }, ?_, ?_, looping, state⟩
      · rw [settle, readied, Option.bind_eq_bind, Option.bind_some, freed]
        rfl
      · rw [← same, Option.map_none, Option.toList_none, List.append_nil]
        exact lined
  | some left =>
      obtain ⟨back, restored, lined, looping⟩ := kept.pending queue left
      refine ⟨{ next with sched := back, boxes := next.boxes.set box left }, ?_, ?_, looping, state⟩
      · rw [settle, restored]
        rfl
      · rw [← same]
        exact lined

theorem Lined.turn_panics {task : Task Call Reply}
    (lined : ex.Lined ex.sched.queue (task :: tasks)) (looping : ex.sched.phase = .looping)
    (turned : task.turn serve ex.shared = none) : ex.turn serve = none := by
  obtain ⟨sched, id, box, fut, popped, held, sameTask, polling⟩ := lined.pop looping
  rw [← sameTask] at turned
  have phase : sched.phase = .polling id box := polling.phase
  rw [Executor.turn, popped]
  simp only [Option.bind_eq_bind, Option.bind_some, phase, held,
    polling.poll_panics rfl turned, Option.bind_none]

theorem Lined.returns (lined : ex.Lined ex.sched.queue []) (looping : ex.sched.phase = .looping) :
    ∃ next, ex.turn serve = some next ∧ next.Lined [] [] ∧ next.sched.phase = .outside ∧
      next.sched.queue = [] ∧ next.shared = ex.shared := by
  have empty : ex.sched.queue = [] := List.map_eq_nil_iff.mp lined.todo
  obtain ⟨sched, stepped⟩ := Option.isSome_iff_exists.mp
    (@Inv.step_isSome _ _ lined.inv .pop looping)
  have kept := lined.inv.step stepped
  rw [empty] at lined
  rw [Executor.turn, stepped]
  cases moves_of_step stepped with
  | returns =>
      exact ⟨_, rfl, lined.frame kept (fun _ _ => Iff.rfl) (fun _ _ _ => rfl), rfl, empty, rfl⟩
  | poll here next =>
      rw [empty] at next
      cases next
  | skip here next =>
      rw [empty] at next
      cases next

/-! ### Whole runs -/

theorem loop_succ (fuel : Nat) {next : Executor Call Reply State}
    (turned : ex.turn serve = some next) (looping : next.sched.phase = .looping) :
    loop serve (fuel + 1) ex = loop serve fuel next := by
  rw [loop, turned]
  simp only [Option.bind_eq_bind, Option.bind_some, looping]

/-- The loop takes the turns of the line, and ends when it is empty. -/
theorem Lined.loop {state : State} {outcome : Option State}
    (drains : Task.Drains serve tasks state outcome) {ex : Executor Call Reply State}
    (lined : ex.Lined ex.sched.queue tasks) (looping : ex.sched.phase = .looping)
    (here : ex.shared = state) :
    (∀ final, outcome = some final → ∃ rounds ended,
      (∀ fuel, rounds ≤ fuel → Executor.loop serve fuel ex = some ended) ∧
      ended.Lined [] [] ∧ ended.sched.phase = .outside ∧ ended.sched.queue = [] ∧
      ended.shared = final) ∧
    (outcome = none → ∀ fuel, Executor.loop serve fuel ex = none) := by
  induction drains generalizing ex with
  | empty state =>
      refine ⟨?_, (fun impossible => by cases impossible)⟩
      intro final same
      cases same
      obtain ⟨ended, turned, ends, outside, queue, shared⟩ := lined.returns looping
      refine ⟨1, ended, ?_, ends, outside, queue, shared.trans here⟩
      intro fuel enough
      obtain ⟨fuel, rfl⟩ : ∃ rest, fuel = rest + 1 := ⟨fuel - 1, by omega⟩
      rw [Executor.loop, turned]
      simp only [Option.bind_eq_bind, Option.bind_some, outside]
      rfl
  | panic turned =>
      refine ⟨(fun _ impossible => by cases impossible), ?_⟩
      intro _ fuel
      subst here
      cases fuel with
      | zero => rfl
      | succ fuel =>
          rw [Executor.loop, lined.turn_panics looping turned]
          rfl
  | turn turned _ ih =>
      subst here
      obtain ⟨next, moved, line, stillLooping, state⟩ := lined.turn looping turned
      obtain ⟨ends, panics⟩ := ih line stillLooping state
      constructor
      · intro final same
        obtain ⟨rounds, ended, ran, rest⟩ := ends final same
        refine ⟨rounds + 1, ended, ?_, rest⟩
        intro fuel enough
        obtain ⟨fuel, rfl⟩ : ∃ rest, fuel = rest + 1 := ⟨fuel - 1, by omega⟩
        rw [loop_succ fuel moved stillLooping]
        exact ran fuel (by omega)
      · intro panicked fuel
        cases fuel with
        | zero => rfl
        | succ fuel =>
            rw [loop_succ fuel moved stillLooping]
            exact panics panicked fuel

theorem Lined.run {outcome : Option State} (lined : ex.Lined ex.sched.queue tasks)
    (outside : ex.sched.phase = .outside)
    (drains : Task.Drains serve tasks ex.shared outcome) :
    (∀ final, outcome = some final → ∃ rounds ended,
      (∀ fuel, rounds ≤ fuel → ex.run serve fuel = some ended) ∧
      ended.Lined [] [] ∧ ended.sched.phase = .outside ∧ ended.sched.queue = [] ∧
      ended.shared = final) ∧
    (outcome = none → ∀ fuel, ex.run serve fuel = none) := by
  obtain ⟨sched, stepped⟩ := Option.isSome_iff_exists.mp
    (@Inv.step_isSome _ _ lined.inv .run outside)
  have kept := lined.inv.step stepped
  have starts (fuel : Nat) : ex.run serve fuel = Executor.loop serve fuel { ex with sched } := by
    rw [Executor.run, stepped]
    rfl
  simp only [starts]
  cases moves_of_step stepped with
  | run here =>
      have line : ({ ex with sched := { ex.sched with phase := .looping } }).Lined
          ex.sched.queue tasks :=
        lined.frame kept (fun _ _ => Iff.rfl) (fun _ _ _ => rfl)
      exact Lined.loop drains line rfl rfl

end Line

def liveTasks (ex : Executor Call Reply State) : Nat :=
  (ex.sched.tasks.slots.filter Slot.live).length

theorem Lined.liveTasks_eq_zero {ex : Executor Call Reply State} (lined : ex.Lined [] [])
    (outside : ex.sched.phase = .outside) : ex.liveTasks = 0 := by
  rw [liveTasks, List.length_eq_zero_iff, List.filter_eq_nil_iff]
  rintro ⟨generation, live, fut⟩ member isLive
  obtain ⟨slot, bound, there⟩ := List.mem_iff_getElem.mp member
  have found : ex.sched.tasks.slots[slot]? = some ⟨generation, live, fut⟩ := by
    rw [List.getElem?_eq_getElem bound, there]
  obtain rfl : live = true := isLive
  cases fut with
  | none =>
      have current := lined.inv.agrees.held ⟨slot, generation⟩ found
      rw [outside] at current
      cases current
  | some box => exact absurd ((lined.mem_iff ⟨slot, generation⟩).mpr ⟨box, found⟩) List.not_mem_nil

theorem Lined.new (shared : State) :
    (new shared : Executor Call Reply State).Lined [] [] := by
  refine ⟨Inv.new, ?_, List.nodup_nil, rfl, ?_, ?_⟩
  · intro id
    exact ⟨fun member => absurd member List.not_mem_nil, fun ⟨_, there⟩ => by cases there⟩
  · intro id other box there
    cases there
  · intro id box there
    cases there

theorem Lined.addAll {ids : List TaskId} {tasks : List (Task Call Reply)}
    {ex : Executor Call Reply State} (lined : ex.Lined ids tasks) (queue : ex.sched.queue = ids)
    (futs : List (Future Call Reply)) :
    ∃ next, futs.foldlM Executor.add ex = some next ∧
      next.Lined next.sched.queue (tasks ++ futs.map Future.task) ∧
      next.sched.phase = ex.sched.phase ∧ next.shared = ex.shared := by
  induction futs generalizing ex ids tasks with
  | nil =>
      rw [List.map_nil, List.append_nil]
      exact ⟨ex, rfl, queue.symm ▸ lined, rfl, rfl⟩
  | cons fut rest ih =>
      obtain ⟨middle, id, added, line, longer, phase, _, shared, _⟩ := lined.add fut
      rw [queue] at longer
      obtain ⟨next, rested, final, samePhase, sameShared⟩ := ih line longer
      refine ⟨next, ?_, ?_, samePhase.trans phase, sameShared.trans shared⟩
      · rw [List.foldlM_cons, added]
        exact rested
      · rw [List.append_assoc] at final
        exact final

/-- Whatever futures that end are added, with children of their own and requests to the state
they share: the line of their tasks has one outcome, in the order of the queue, and
`run` has it too. It returns after finitely many rounds, with every task finished, every
slot free and the queue empty, or panics where a request does. -/
theorem run_takes_turns (serve : (request : Call) → State → Option (Reply request × State))
    (futs : List (Future Call Reply)) (shared : State) :
    ∃ ready outcome, futs.foldlM Executor.add (new shared) = some ready ∧
      (∀ other, Task.Drains serve (futs.map Future.task) shared other ↔ other = outcome) ∧
      (∀ final, outcome = some final → ∃ rounds ended,
        (∀ fuel, rounds ≤ fuel → ready.run serve fuel = some ended) ∧ ended.shared = final ∧
        ended.sched.queue = [] ∧ ended.liveTasks = 0) ∧
      (outcome = none → ∀ fuel, ready.run serve fuel = none) := by
  obtain ⟨ready, added, lined, phase, same⟩ := (Lined.new shared).addAll rfl futs
  obtain ⟨outcome, drains⟩ := Task.exists_drains serve (futs.map Future.task) shared
  rw [List.nil_append] at lined
  have here : ready.shared = shared := same
  obtain ⟨ends, panics⟩ := lined.run phase (here.symm ▸ drains)
  refine ⟨ready, outcome, added, ?_, ?_, panics⟩
  · intro other
    constructor
    · exact fun otherDrains => otherDrains.unique drains
    · rintro rfl
      exact drains
  · intro final finished
    obtain ⟨rounds, ended, ran, empty, outside, queue, state⟩ := ends final finished
    exact ⟨rounds, ended, ran, state, queue, empty.liveTasks_eq_zero outside⟩

end Executor

end Keystory.Rt
