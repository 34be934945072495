/-
What holds of the scheduler at every moment, in the middle of a `run` as well as
between calls: the free list against the table, the table against the history,
and every queued id of an unfinished task still ahead of the next return.
-/

import Keystory.Rt.Scheduler

namespace Keystory.Rt

open General

variable {Future : Type}

def Phase.current? : Phase Future → Option TaskId
  | .polling id _ => some id
  | .dropping id => some id
  | _ => none

def Observation.added? : Observation Future → Option TaskId
  | .added id _ => some id
  | _ => none

def Observation.about? : Observation Future → Option TaskId
  | .woken id => some id
  | .polled id _ => some id
  | .ready id => some id
  | _ => none

def Table.Live (table : Table Future) (id : TaskId) : Prop :=
  ∃ fut, table.slots[id.slot]? = some ⟨id.generation, true, fut⟩

/-- A poll is of the future added under this id, which has not finished, and uses up an entry
that its own addition or a waker of its own has queued. When a `run` returns, each task queued
since the return before was polled after that, unless it had finished by then. -/
def Lawful (earlier : List (Observation Future)) : Observation Future → Prop
  | .polled id fut =>
      .added id fut ∈ earlier ∧ .ready id ∉ earlier ∧
        earlier.countP (Observation.polls id) < earlier.countP (Observation.queues id)
  | .returned =>
      ∀ before entry between id, earlier = before ++ entry :: between →
        entry.queues id = true → .returned ∉ between → .ready id ∉ before →
        (∃ fut, .polled id fut ∈ between) ∨ .ready id ∈ between
  | _ => True

/-- The free list has each slot that is not live, once. -/
structure Table.FreeExact (table : Table Future) : Prop where
  nodup : table.free.Nodup
  mem_iff : ∀ slot, slot ∈ table.free ↔ (table.slots[slot]?).map Slot.live = some false

/-- The table, the phase and the history tell the same of every task. -/
structure Agrees (state : Scheduler Future) : Prop where
  polling : ∀ id fut, state.phase = .polling id fut →
    state.tasks.slots[id.slot]? = some ⟨id.generation, true, none⟩ ∧
      .added id fut ∈ state.history ∧ .ready id ∉ state.history
  dropping : ∀ id, state.phase = .dropping id →
    state.tasks.slots[id.slot]? = some ⟨id.generation, true, none⟩ ∧ .ready id ∈ state.history
  held : ∀ id : TaskId, state.tasks.slots[id.slot]? = some ⟨id.generation, true, none⟩ →
    state.phase.current? = some id
  occupant : ∀ (id : TaskId) fut,
    state.tasks.slots[id.slot]? = some ⟨id.generation, true, some fut⟩ →
    .added id fut ∈ state.history ∧ .ready id ∉ state.history
  issued : ∀ id fut, .added id fut ∈ state.history →
    ∃ entry, state.tasks.slots[id.slot]? = some entry ∧ id.generation ≤ entry.generation ∧
      (.ready id ∉ state.history → entry.live = true ∧ entry.generation = id.generation)
  known : ∀ id entry, entry ∈ state.history → entry.about? = some id →
    ∃ fut, .added id fut ∈ state.history

def Waiting (state : Scheduler Future) : Prop :=
  ∀ before entry between id, state.history = before ++ entry :: between →
    entry.queues id = true → .returned ∉ between → .ready id ∉ before →
    (∃ fut, .polled id fut ∈ between) ∨ .ready id ∈ between ∨ id ∈ state.queue

theorem Agrees.new : Agrees (Scheduler.new : Scheduler Future) := by
  constructor <;> simp [Scheduler.new]

section Keeps

variable {state next : Scheduler Future} {event : Event Future}

theorem Table.FreeExact.step (free : state.tasks.FreeExact) (agrees : Agrees state)
    (moves : Moves state event next) : next.tasks.FreeExact := by
  obtain ⟨nodup, mem_iff⟩ := free
  have dropping := agrees.dropping
  constructor
  · cases moves <;> grind
  · cases moves <;> grind

theorem Agrees.polling_step (free : state.tasks.FreeExact) (agrees : Agrees state)
    (moves : Moves state event next) (id : TaskId) (fut : Future)
    (there : next.phase = .polling id fut) :
    next.tasks.slots[id.slot]? = some ⟨id.generation, true, none⟩ ∧
      .added id fut ∈ next.history ∧ .ready id ∉ next.history := by
  have polling := agrees.polling
  have occupant := agrees.occupant
  have freed := free.mem_iff
  cases moves <;> grind

theorem Agrees.dropping_step (free : state.tasks.FreeExact) (agrees : Agrees state)
    (moves : Moves state event next) (id : TaskId)
    (there : next.phase = .dropping id) :
    next.tasks.slots[id.slot]? = some ⟨id.generation, true, none⟩ ∧
      .ready id ∈ next.history := by
  have polling := agrees.polling
  have dropping := agrees.dropping
  have freed := free.mem_iff
  cases moves <;> grind

theorem Agrees.held_step (agrees : Agrees state)
    (moves : Moves state event next) (id : TaskId)
    (there : next.tasks.slots[id.slot]? = some ⟨id.generation, true, none⟩) :
    next.phase.current? = some id := by
  have held := agrees.held
  have polling := agrees.polling
  have dropping := agrees.dropping
  cases moves <;> grind [Phase.current?]

/-- A reused slot gets a generation it never had, so the new id was never issued. -/
theorem Agrees.fresh_reuse (agrees : Agrees state) {slot : Nat} {entry : Slot Future}
    (there : state.tasks.slots[slot]? = some entry) (fut : Future) :
    .added ⟨slot, entry.generation + 1⟩ fut ∉ state.history := by
  intro member
  obtain ⟨other, found, bound, _⟩ := agrees.issued _ _ member
  grind

theorem Agrees.fresh_grow (agrees : Agrees state) (fut : Future) :
    .added ⟨state.tasks.slots.length, 0⟩ fut ∉ state.history := by
  intro member
  obtain ⟨other, found, _⟩ := agrees.issued _ _ member
  grind

theorem Agrees.occupant_step (agrees : Agrees state)
    (moves : Moves state event next) (id : TaskId) (fut : Future)
    (there : next.tasks.slots[id.slot]? = some ⟨id.generation, true, some fut⟩) :
    .added id fut ∈ next.history ∧ .ready id ∉ next.history := by
  have occupant := agrees.occupant
  have polling := agrees.polling
  have unfinished : ∀ id, (∀ fut, .added id fut ∉ state.history) → .ready id ∉ state.history := by
    intro id never member
    obtain ⟨fut, member⟩ := agrees.known id _ member rfl
    exact never fut member
  cases moves with
  | reuse top found =>
      have fresh := unfinished _ (agrees.fresh_reuse found)
      grind
  | grow full =>
      have fresh := unfinished _ agrees.fresh_grow
      grind
  | _ => grind

theorem Agrees.issued_step (free : state.tasks.FreeExact) (agrees : Agrees state)
    (moves : Moves state event next) (id : TaskId) (fut : Future)
    (member : .added id fut ∈ next.history) :
    ∃ entry, next.tasks.slots[id.slot]? = some entry ∧ id.generation ≤ entry.generation ∧
      (.ready id ∉ next.history → entry.live = true ∧ entry.generation = id.generation) := by
  have issued := agrees.issued id fut
  have dropping := agrees.dropping
  have freed := free.mem_iff
  cases moves <;> grind

theorem Agrees.known_step (agrees : Agrees state)
    (moves : Moves state event next) (id : TaskId) (entry : Observation Future)
    (member : entry ∈ next.history) (about : entry.about? = some id) :
    ∃ fut, .added id fut ∈ next.history := by
  have known := agrees.known id
  have polling := agrees.polling
  have occupant := agrees.occupant
  cases moves with
  | wake handed =>
      obtain ⟨fut, polled⟩ := handedOut_iff.mp handed
      have added := agrees.known _ _ polled rfl
      grind [Observation.about?]
  | _ => grind [Observation.about?]

theorem Agrees.step (free : state.tasks.FreeExact) (agrees : Agrees state)
    (moves : Moves state event next) : Agrees next where
  polling := agrees.polling_step free moves
  dropping := agrees.dropping_step free moves
  held := agrees.held_step moves
  occupant := agrees.occupant_step moves
  issued := agrees.issued_step free moves
  known := agrees.known_step moves

theorem added_nodup_step (agrees : Agrees state) (moves : Moves state event next)
    (nodup : (state.history.filterMap Observation.added?).Nodup) :
    (next.history.filterMap Observation.added?).Nodup := by
  have issued : ∀ id, id ∈ state.history.filterMap Observation.added? →
      ∃ fut, .added id fut ∈ state.history := by
    intro id member
    obtain ⟨entry, member, named⟩ := List.mem_filterMap.mp member
    cases entry with
    | added other fut =>
        cases named
        exact ⟨fut, member⟩
    | _ => cases named
  cases moves with
  | reuse top found =>
      have fresh := agrees.fresh_reuse found
      grind [Observation.added?]
  | grow full =>
      have fresh := agrees.fresh_grow
      grind [Observation.added?]
  | _ => grind [Observation.added?]

theorem polls_le_queued_step (moves : Moves state event next) (id : TaskId)
    (bound : state.history.countP (Observation.polls id) + state.queue.count id ≤
      state.history.countP (Observation.queues id)) :
    next.history.countP (Observation.polls id) + next.queue.count id ≤
      next.history.countP (Observation.queues id) := by
  cases moves <;> grind [Observation.polls, Observation.queues]

theorem Agrees.added_of_queues (agrees : Agrees state) {entry : Observation Future} {id : TaskId}
    (member : entry ∈ state.history) (queues : entry.queues id = true) :
    ∃ fut, .added id fut ∈ state.history := by
  cases entry with
  | added other fut =>
      obtain rfl : other = id := of_decide_eq_true queues
      exact ⟨fut, member⟩
  | woken other =>
      obtain rfl : other = id := of_decide_eq_true queues
      exact agrees.known other _ member rfl
  | _ => cases queues

theorem Agrees.future_of_unfinished (agrees : Agrees state) (here : state.phase = .looping)
    {id : TaskId} {fut : Future} (added : .added id fut ∈ state.history)
    (unfinished : .ready id ∉ state.history) :
    ∃ fut, state.tasks.slots[id.slot]? = some ⟨id.generation, true, some fut⟩ := by
  obtain ⟨⟨generation, live, held⟩, there, _, current⟩ := agrees.issued id fut added
  obtain ⟨rfl, rfl⟩ := current unfinished
  cases held with
  | some fut => exact ⟨fut, there⟩
  | none =>
      have outside := agrees.held id there
      rw [here] at outside
      cases outside

theorem Waiting.concat (waiting : Waiting state) {observation : Observation Future}
    (grown : next.history = state.history ++ [observation])
    (queued : ∀ id, observation.queues id = true → id ∈ next.queue)
    (kept : ∀ id ∈ state.queue, observation = .returned ∨ (∃ fut, observation = .polled id fut) ∨
      id ∈ next.queue) : Waiting next := by
  intro before entry between id same queues unreturned unfinished
  rw [grown] at same
  rcases concat_eq_append_cons_iff.mp same with ⟨_, rfl, rfl⟩ | ⟨rest, rfl, old⟩
  · exact Or.inr (Or.inr (queued id queues))
  · have earlier := waiting before entry rest id old queues
    grind

theorem Waiting.step (waiting : Waiting state) (agrees : Agrees state)
    (moves : Moves state event next) : Waiting next := by
  cases moves with
  | reuse | grow | wake | ready =>
      exact waiting.concat rfl (by simp [Observation.queues]) (by simp +contextual)
  | returns here empty => exact waiting.concat rfl (by simp [Observation.queues]) (by simp)
  | poll here following there =>
      refine waiting.concat rfl (by simp [Observation.queues]) ?_
      intro other member
      rw [following] at member
      rcases List.mem_cons.mp member with rfl | rest
      · exact Or.inr (Or.inl ⟨_, rfl⟩)
      · exact Or.inr (Or.inr rest)
  | run | pending | dropped => exact waiting
  | skip here following stale =>
      intro before entry between id same queues unreturned unfinished
      have earlier := waiting before entry between id same queues unreturned unfinished
      rw [following] at earlier
      by_cases finished : .ready id ∈ state.history
      · grind [Observation.queues]
      · change state.history = _ at same
        have member : entry ∈ state.history := by simp [same]
        obtain ⟨fut, added⟩ := agrees.added_of_queues member queues
        obtain ⟨fut, there⟩ := agrees.future_of_unfinished here added finished
        grind

theorem lawful_step (agrees : Agrees state) (waiting : Waiting state)
    (polls_le_queued : ∀ id, state.history.countP (Observation.polls id) + state.queue.count id ≤
      state.history.countP (Observation.queues id))
    (chronicle : Chronicle Lawful state.history) (moves : Moves state event next) :
    Chronicle Lawful next.history := by
  cases moves with
  | reuse | grow | wake | ready => exact chronicle.concat trivial
  | run | skip | pending | dropped => exact chronicle
  | returns here empty =>
      refine chronicle.concat ?_
      intro before entry between id same queues unreturned unfinished
      have earlier := waiting before entry between id same queues unreturned unfinished
      simpa [empty] using earlier
  | @poll id queue fut here following there =>
      obtain ⟨added, unfinished⟩ := agrees.occupant _ _ there
      have bound := polls_le_queued id
      rw [following, List.count_cons_self] at bound
      exact chronicle.concat ⟨added, unfinished, by omega⟩

end Keeps

structure Inv (state : Scheduler Future) : Prop where
  free : state.tasks.FreeExact
  agrees : Agrees state
  added_nodup : (state.history.filterMap Observation.added?).Nodup
  polls_le_queued : ∀ id, state.history.countP (Observation.polls id) + state.queue.count id ≤
    state.history.countP (Observation.queues id)
  waiting : Waiting state
  chronicle : Chronicle Lawful state.history

theorem Inv.new : Inv (Scheduler.new : Scheduler Future) where
  free := ⟨List.nodup_nil, by simp [Scheduler.new]⟩
  agrees := Agrees.new
  added_nodup := List.nodup_nil
  polls_le_queued := fun id => Nat.le_refl 0
  waiting := by
    intro before entry between id same
    simp [Scheduler.new] at same
  chronicle := Chronicle.nil

theorem Inv.step {state next : Scheduler Future} {event : Event Future} (inv : Inv state)
    (stepped : state.step event = some next) : Inv next := by
  have moves := moves_of_step stepped
  exact
    { free := inv.free.step inv.agrees moves
      agrees := inv.agrees.step inv.free moves
      added_nodup := added_nodup_step inv.agrees moves inv.added_nodup
      polls_le_queued := fun id => polls_le_queued_step moves id (inv.polls_le_queued id)
      waiting := inv.waiting.step inv.agrees moves
      chronicle := lawful_step inv.agrees inv.waiting inv.polls_le_queued inv.chronicle moves }

theorem inv_of_run {events : List (Event Future)} {state : Scheduler Future}
    (ran : runSteps Scheduler.step Scheduler.new events = some state) : Inv state :=
  runSteps_invariant Inv Inv.step Inv.new ran

theorem Agrees.live_iff {state : Scheduler Future} (agrees : Agrees state) (id : TaskId) :
    state.tasks.Live id ↔
      (∃ fut, .added id fut ∈ state.history) ∧
        (.ready id ∉ state.history ∨ state.phase = .dropping id) := by
  constructor
  · rintro ⟨held, there⟩
    cases held with
    | some fut =>
        obtain ⟨added, unfinished⟩ := agrees.occupant id fut there
        exact ⟨⟨fut, added⟩, Or.inl unfinished⟩
    | none =>
        have out := agrees.held id there
        cases phase : state.phase with
        | polling other fut =>
            rw [phase] at out
            cases out
            obtain ⟨_, added, unfinished⟩ := agrees.polling id fut phase
            exact ⟨⟨fut, added⟩, Or.inl unfinished⟩
        | dropping other =>
            rw [phase] at out
            cases out
            exact ⟨agrees.known id _ (agrees.dropping id phase).2 rfl, Or.inr rfl⟩
        | outside | looping =>
            rw [phase] at out
            cases out
  · rintro ⟨⟨fut, added⟩, unfinished | dropping⟩
    · obtain ⟨⟨generation, live, held⟩, there, _, current⟩ := agrees.issued id fut added
      obtain ⟨rfl, rfl⟩ := current unfinished
      exact ⟨held, there⟩
    · exact ⟨none, (agrees.dropping id dropping).1⟩

/-- No index is out of bounds: every call goes through wherever it can be made. -/
theorem Inv.step_isSome {state : Scheduler Future} (inv : Inv state) {event : Event Future}
    (possible : match event with
      | .add _ => True
      | .wake id => handedOut state.history id = true
      | .run => state.phase = .outside
      | .pop => state.phase = .looping
      | .pending | .ready => ∃ id fut, state.phase = .polling id fut
      | .dropped => ∃ id, state.phase = .dropping id) :
    (state.step event).isSome = true := by
  cases event with
  | add fut =>
      cases top : state.tasks.free with
      | nil => simp [Scheduler.step, Table.insert, top]
      | cons slot free =>
          have there := (inv.free.mem_iff slot).mp (by simp [top])
          obtain ⟨entry, found, _⟩ := Option.map_eq_some_iff.mp there
          simp [Scheduler.step, Table.insert, top, found]
  | wake id => simp [Scheduler.step, possible]
  | run => simp [Scheduler.step, possible]
  | pop =>
      simp only [Scheduler.step, possible]
      split
      · rfl
      · split <;> rfl
  | pending =>
      obtain ⟨id, fut, here⟩ := possible
      simp [Scheduler.step, here, Table.restore, (inv.agrees.polling id fut here).1]
  | ready =>
      obtain ⟨id, fut, here⟩ := possible
      simp [Scheduler.step, here]
  | dropped =>
      obtain ⟨id, here⟩ := possible
      simp [Scheduler.step, here, Table.release, (inv.agrees.dropping id here).1]

/-! ### Tasks and wakers -/

structure Straight (state : Scheduler Future) : Prop where
  free : state.tasks.FreeExact
  /-- a task is live from its addition until its finished future is dropped -/
  live : ∀ id, state.tasks.Live id ↔
    (∃ fut, .added id fut ∈ state.history) ∧
      (.ready id ∉ state.history ∨ state.phase = .dropping id)
  ids : (state.history.filterMap Observation.added?).Nodup
  /-- each poll is of the future with this id, unfinished, and due to an addition or a waker of
  the same id that no earlier poll has used up -/
  polls : ∀ earlier id fut later, state.history = earlier ++ .polled id fut :: later →
    .added id fut ∈ earlier ∧ .ready id ∉ earlier ∧
      earlier.countP (Observation.polls id) < earlier.countP (Observation.queues id)
  /-- an unfinished task that was woken is polled before `run` returns, unless the poll it was
  woken in finished it -/
  wakes : ∀ before id between later,
    state.history = before ++ .woken id :: (between ++ .returned :: later) →
    .returned ∉ between → .ready id ∉ before →
    (∃ fut, .polled id fut ∈ between) ∨ .ready id ∈ between

/-- Slots, generations and the queue stay straight, whatever the futures, their destructors
and the callers of the scheduler do. -/
theorem scheduler_straight {events : List (Event Future)} {state : Scheduler Future}
    (reached : runSteps Scheduler.step Scheduler.new events = some state) : Straight state := by
  have inv := inv_of_run reached
  refine ⟨inv.free, inv.agrees.live_iff, inv.added_nodup, ?_, ?_⟩
  · intro earlier id fut later same
    exact inv.chronicle earlier _ later same
  · intro before id between later same unreturned unfinished
    have law := inv.chronicle (before ++ .woken id :: between) .returned later (by simp [same])
    exact law before (.woken id) between id rfl (decide_eq_true rfl) unreturned unfinished

/-- A task wakes itself, finishes and adds another one while it is dropped; its waker is woken
once more after a third task has taken its slot. -/
theorem scheduler_straight_reuse :
    ∃ (events : List (Event Nat)) (state : Scheduler Nat),
      runSteps Scheduler.step Scheduler.new events = some state ∧
      state.history =
        [.added ⟨0, 0⟩ 5, .polled ⟨0, 0⟩ 5, .woken ⟨0, 0⟩, .polled ⟨0, 0⟩ 5, .ready ⟨0, 0⟩,
          .added ⟨1, 0⟩ 6, .added ⟨0, 1⟩ 7, .woken ⟨0, 0⟩, .polled ⟨1, 0⟩ 6,
          .polled ⟨0, 1⟩ 7, .ready ⟨0, 1⟩, .returned] ∧
      state.tasks.free = [0] ∧ Straight state := by
  let events : List (Event Nat) :=
    [.add 5, .run, .pop, .wake ⟨0, 0⟩, .pending, .pop, .ready, .add 6, .dropped, .add 7,
      .wake ⟨0, 0⟩, .pop, .pending, .pop, .ready, .dropped, .pop, .pop]
  have reached : ∃ state, runSteps Scheduler.step Scheduler.new events = some state :=
    ⟨_, rfl⟩
  obtain ⟨state, ran⟩ := reached
  refine ⟨events, state, ran, ?_, ?_, scheduler_straight ran⟩
  · cases ran
    rfl
  · cases ran
    rfl

end Keystory.Rt
