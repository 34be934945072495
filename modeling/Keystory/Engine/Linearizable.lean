/-
The concurrent store is durably linear: over all threads, crashes and reopens there is
one list of commits, an acknowledged commit is in it at its index for good, and
whatever a caller or an open sees is the state after the first of them.
-/

import Keystory.Engine.Concurrent

namespace Keystory

open General

namespace CommitQueue

/-! ### Calls between the steps of the log -/

def Event.logs : Event → Bool
  | .append _ _ | .publish _ => true
  | .commit _ _ | .checkpoint _ | .resume _ | .wake _ | .load _ | .storeIndex _ => false
  | .settle _ | .take _ | .drop _ | .snapshot | .index => false

/-- No group lands and none is published. -/
structure Still (state next : State) : Prop where
  snap : next.snap = state.snap
  commits : next.commits = state.commits
  staged : ∀ call group staged, state.phase call = .staged group staged →
    next.phase call = .staged group staged
  landed : ∀ call group staged, state.phase call = .landed group staged →
    next.phase call = .landed group staged

section Still

variable {state next : State} {call : Nat}

theorem still_turn (here : state.phase call = .looping) : Still state (state.turn call) := by
  unfold State.turn
  split
  case h_1 => constructor <;> grind
  case h_2 => split <;> constructor <;> grind

theorem still_seek (here : state.phase call = .seeking) : Still state (state.seek call) := by
  unfold State.seek
  split <;> constructor <;> grind

theorem Still.trans {middle : State} (first : Still state middle) (second : Still middle next) :
    Still state next where
  snap := second.snap.trans first.snap
  commits := second.commits.trans first.commits
  staged := fun call group staged here => second.staged _ _ _ (first.staged call group staged here)
  landed := fun call group staged here => second.landed _ _ _ (first.landed call group staged here)

theorem still_of_step {event : Event} (quiet : event.logs = false)
    (stepped : state.step event = some next) : Still state next := by
  cases event with
  | append call failure => cases quiet
  | publish call => cases quiet
  | commit call ops =>
      rw [State.step] at stepped
      split at stepped
      case h_1 fresh =>
          split at stepped
          case h_1 =>
              cases stepped
              constructor <;> grind
          case h_2 =>
              cases stepped
              refine Still.trans ?_ (still_turn (by simp))
              constructor <;> grind
      case h_2 => cases stepped
  | checkpoint call =>
      rw [State.step] at stepped
      split at stepped
      case h_1 fresh =>
          cases stepped
          refine Still.trans ?_ (still_seek (by simp))
          constructor <;> grind
      case h_2 => cases stepped
  | resume call =>
      rw [State.step] at stepped
      split at stepped
      case h_1 here =>
          cases stepped
          exact still_turn here
      case h_2 here =>
          cases stepped
          exact still_seek here
      case h_3 => cases stepped
  | snapshot =>
      cases stepped
      constructor <;> grind
  | index =>
      cases stepped
      constructor <;> grind
  | _ =>
      rw [State.step] at stepped
      split at stepped <;> cases stepped <;> constructor <;> grind [woken_cases]

theorem history_isPrefix_of_step {event : Event} (stepped : state.step event = some next) :
    state.history <+: next.history := by
  refine @keeps_of_step (fun later => state.history <+: later.history) ?_ _ _ _
    List.prefix_rfl stepped
  intro later final sofar moves
  cases moves <;> first | exact sofar | exact sofar.trans (List.prefix_append _ _)

/-- Nobody has seen more than is published. -/
structure Recent (state : State) : Prop where
  loaded : ∀ snapshot, .loaded snapshot ∈ state.history → snapshot.index ≤ state.snap.index
  index : ∀ index, .readIndex index ∈ state.history → index ≤ state.snap.index

theorem Recent.opened (base : Snapshot) : Recent (State.opened base) := by
  constructor <;> simp [State.opened]

theorem Recent.moves {base : Snapshot} (recent : Recent state) (inv : Inv base state)
    (moves : Moves state next) : Recent next := by
  obtain ⟨loaded, index⟩ := recent
  have current := inv.published.index_le
  cases moves with
  | @publish call group staged here =>
      have grows : state.snap.index ≤ staged.next.index := by
        rw [inv.published.landed call group staged here, index_after]
        exact inv.published.part.index_le
      constructor <;> grind
  | _ => constructor <;> grind

theorem recent_of_step {base : Snapshot} {event : Event} (inv : Inv base state)
    (recent : Recent state) (stepped : state.step event = some next) :
    Inv base next ∧ Recent next := by
  refine @keeps_of_step (fun later => Inv base later ∧ Recent later) ?_ _ _ _ ⟨inv, recent⟩ stepped
  intro later final both moves
  exact ⟨both.1.moves moves, both.2.moves both.1 moves⟩

end Still

end CommitQueue

open CommitQueue (Pending Note)

/-! ### What all histories tell -/

def Precedes (earlier later : List Note) : Prop :=
  ∀ call index other above, .returned call (.ok index) ∈ earlier →
    .returned other (.ok above) ∈ later → index < above

/-- What one store told its callers agrees with the list of published commits. -/
structure Agrees (published : List (List Op)) (life : List Note) : Prop where
  /-- an acknowledged commit is the one at its index -/
  acknowledged : ∀ call index, .returned call (.ok index) ∈ life → 0 < index ∧
    ∃ ops, published[index - 1]? = some ops ∧ .enqueued call ops ∈ life ∧
      ∀ other, .enqueued call other ∈ life → other = ops
  /-- a snapshot is the state after the first commits -/
  loaded : ∀ snapshot, .loaded snapshot ∈ life → snapshot.index ≤ published.length ∧
    snapshot = stateAfter (published.take snapshot.index)
  index : ∀ index, .readIndex index ∈ life → index ≤ published.length

theorem Agrees.mono {published more : List (List Op)} {life : List Note}
    (agrees : Agrees published life) (grows : published <+: more) : Agrees more life where
  acknowledged := by
    intro call index member
    obtain ⟨positive, ops, found, enqueued, once⟩ := agrees.acknowledged call index member
    have within := (List.getElem?_eq_some_iff.mp found).1
    obtain ⟨rest, rfl⟩ := grows
    exact ⟨positive, ops, (List.getElem?_append_left within).trans found, enqueued, once⟩
  loaded := by
    intro snapshot member
    obtain ⟨within, same⟩ := agrees.loaded snapshot member
    refine ⟨within.trans grows.length_le, ?_⟩
    rw [take_agree grows within]
    exact same
  index := fun index member => (agrees.index index member).trans grows.length_le

theorem Agrees.index_le {published : List (List Op)} {life : List Note}
    (agrees : Agrees published life) {call index : Nat}
    (member : .returned call (.ok index) ∈ life) : index ≤ published.length := by
  obtain ⟨positive, ops, found, _⟩ := agrees.acknowledged call index member
  have within := (List.getElem?_eq_some_iff.mp found).1
  omega

/-! ### The queue and the directory -/

/-- What an open store and the calls on it have in common, since it was opened after the
commits `base`. -/
structure Joined (base : List (List Op)) (live : Live) (world : World) : Prop where
  inv : CommitQueue.Inv (stateAfter base) world.queue
  recent : CommitQueue.Recent world.queue
  snap : world.queue.snap = live.store.snap
  /-- the commits that the log has for certain -/
  commits : world.sys.published ++ (if live.landed.isSome then world.sys.pending else []) =
    base ++ world.queue.commits.map Pending.ops
  appending : ∀ group staged program, live.task = .append group staged program →
    ∃ call own, world.queue.phase call = .staged own staged ∧ group = own.map Pending.ops
  landed : ∀ staged, live.landed = some staged →
    ∃ call group, world.queue.phase call = .landed group staged
  older : world.sys.exposed = false → ∀ life ∈ world.past, ∀ call index,
    .returned call (.ok index) ∈ life → index ≤ base.length

section Joined

variable {faults : Faults} {base : List (List Op)} {live : Live} {world : World}

theorem after_stateAfter (base : List (List Op)) (commits : List Pending) :
    CommitQueue.after (stateAfter base) commits = stateAfter (base ++ commits.map Pending.ops) :=
  (stateAfter_append base _).symm

theorem Joined.published_isPrefix (joined : Joined base live world) :
    world.sys.published <+: base ++ world.queue.commits.map Pending.ops := by
  rw [← joined.commits]
  exact List.prefix_append _ _

theorem Joined.base_isPrefix (joined : Joined base live world)
    (snap : live.store.snap = stateAfter world.sys.published) : base <+: world.sys.published := by
  refine List.prefix_of_prefix_length_le (List.prefix_append _ _) joined.published_isPrefix ?_
  obtain ⟨count, within, same⟩ := joined.inv.published.part
  have index := congrArg Snapshot.index same
  rw [joined.snap, snap, index_stateAfter, CommitQueue.index_after, index_stateAfter] at index
  omega

theorem Joined.agrees (joined : Joined base live world)
    (snap : live.store.snap = stateAfter world.sys.published) :
    Agrees world.sys.published world.queue.history := by
  have front := joined.published_isPrefix
  have seen : world.queue.snap.index = world.sys.published.length := by
    rw [joined.snap, snap, index_stateAfter]
  constructor
  case acknowledged =>
      intro call index member
      obtain ⟨place, ops, same, there, enqueued⟩ := joined.inv.numbered member
      rw [index_stateAfter] at same
      have within : index ≤ world.sys.published.length := by
        have shown := joined.inv.recorded.le_index joined.inv.seen member
        have current := joined.inv.published.index_le
        omega
      refine ⟨by omega, ops, ?_, enqueued, ?_⟩
      · have found : (base ++ world.queue.commits.map Pending.ops)[index - 1]? = some ops := by
          rw [List.getElem?_append_right (by omega), List.getElem?_map,
            show index - 1 - base.length = place by omega, there]
          rfl
        obtain ⟨rest, whole⟩ := front
        rw [← whole, List.getElem?_append_left (by omega)] at found
        exact found
      · intro other again
        exact joined.inv.recorded.once call other ops again enqueued
  case loaded =>
      intro snapshot member
      have within := joined.recent.loaded snapshot member
      obtain ⟨count, bound, same⟩ := joined.inv.recorded.loaded snapshot member
      have index : snapshot.index = base.length + count := by
        rw [same, CommitQueue.index_after, index_stateAfter, List.length_take,
          Nat.min_eq_left bound]
      rw [seen] at within
      refine ⟨within, ?_⟩
      rw [← take_agree front within, index, List.take_length_add_append, ← List.map_take,
        ← after_stateAfter]
      exact same
  case index =>
      intro index member
      rw [← seen]
      exact joined.recent.index index member

theorem Joined.precedes (joined : Joined base live world)
    (unexposed : world.sys.exposed = false) :
    ∀ life ∈ world.past, Precedes life world.queue.history := by
  intro life member call index other above first second
  have bound := joined.older unexposed life member call index first
  obtain ⟨place, _, same, _⟩ := joined.inv.numbered second
  rw [index_stateAfter] at same
  omega

theorem Joined.appending_unique (joined : Joined base live world) {call : Nat}
    {group : List (List Op)} {own : List Pending} {staged other : Store.Staged}
    {program : Wal.SegmentProgram (Except Failure Unit × Wal)}
    (task : live.task = .append group staged program)
    (here : world.queue.phase call = .staged own other) :
    other = staged ∧ group = own.map Pending.ops := by
  obtain ⟨holder, carried, there, same⟩ := joined.appending group staged program task
  obtain rfl := joined.inv.exclusive.alone holder call (by rw [there]; rfl) (by rw [here]; rfl)
  rw [here] at there
  cases there
  exact ⟨rfl, same⟩

theorem Joined.landed_unique (joined : Joined base live world) {call : Nat}
    {group : List Pending} {staged other : Store.Staged} (landed : live.landed = some staged)
    (here : world.queue.phase call = .landed group other) : other = staged := by
  obtain ⟨holder, carried, there⟩ := joined.landed staged landed
  obtain rfl := joined.inv.exclusive.alone holder call (by rw [there]; rfl) (by rw [here]; rfl)
  rw [here] at there
  cases there
  rfl

theorem Joined.quiet (joined : Joined base live world) {event : CommitQueue.Event}
    {queue : CommitQueue.State} (unlogged : event.logs = false)
    (moved : world.queue.step event = some queue) (ckpt : Bool) (calls : List Nat) :
    Joined base live { world with queue := queue, ckpt := ckpt, calls := calls } := by
  have still := CommitQueue.still_of_step unlogged moved
  obtain ⟨inv, recent⟩ := CommitQueue.recent_of_step joined.inv joined.recent moved
  refine ⟨inv, recent, still.snap.trans joined.snap, ?_, ?_, ?_, joined.older⟩
  · rw [still.commits]
    exact joined.commits
  · intro group staged program task
    obtain ⟨call, own, here, same⟩ := joined.appending group staged program task
    exact ⟨call, own, still.staged call own staged here, same⟩
  · intro staged landed
    obtain ⟨call, group, here⟩ := joined.landed staged landed
    exact ⟨call, group, still.landed call group staged here⟩

theorem Joined.beside (joined : Joined base live world) {sys : System} {after : Live}
    (beside : World.Beside world.sys sys) (before : world.sys.phase = .running live)
    (phase : sys.phase = .running after) (ckpt : Bool) :
    Joined base after { world with sys := sys, ckpt := ckpt } := by
  obtain ⟨_, same, snap, landed, task⟩ := beside.live after phase
  rw [before] at same
  cases same
  refine ⟨joined.inv, joined.recent, joined.snap.trans snap.symm, ?_, ?_, ?_, ?_⟩
  · rw [beside.published, beside.pending, landed]
    exact joined.commits
  · intro group staged program same
    obtain ⟨earlier, there⟩ := task group staged program same
    exact joined.appending group staged earlier there
  · rw [landed]
    exact joined.landed
  · rw [beside.exposed]
    exact joined.older

theorem Joined.beginFlush {store : Store} {stage : Stage}
    (joined : Joined base ⟨store, .free, none, stage⟩ world) {call : Nat} {own : List Pending}
    {staged : Store.Staged} (here : world.queue.phase call = .staged own staged)
    {program : Wal.SegmentProgram (Except Failure Unit × Wal)} {pending : List (List Op)}
    {phase : Phase} :
    Joined base ⟨store, .append (own.map Pending.ops)
        (Store.stageGroup store.snap (own.map Pending.ops)) program, none, stage⟩
      { world with sys := { world.sys with phase := phase, pending := pending } } := by
  refine ⟨joined.inv, joined.recent, joined.snap, joined.commits, ?_, joined.landed, joined.older⟩
  intro group other also same
  cases same
  have same := joined.inv.published.staged call own staged here
  rw [joined.snap] at same
  exact ⟨call, own, same ▸ here, rfl⟩

theorem Joined.flushed {store : Store} {group : List (List Op)} {staged : Store.Staged}
    {program : Wal.SegmentProgram (Except Failure Unit × Wal)} {stage : Stage} {wal : Wal}
    (joined : Joined base ⟨store, .append group staged program, none, stage⟩ world)
    (pending : world.sys.pending = group) {call : Nat} {queue : CommitQueue.State} {phase : Phase}
    (moved : world.queue.step (.append call none) = some queue) :
    Joined base ⟨store.landed wal group.length, .free, some staged, stage⟩
      { world with sys := { world.sys with phase := phase }, queue := queue } := by
  obtain ⟨inv, recent⟩ := CommitQueue.recent_of_step joined.inv joined.recent moved
  rw [CommitQueue.State.step] at moved
  split at moved
  case h_2 => cases moved
  case h_1 own other here =>
      cases moved
      obtain ⟨rfl, same⟩ := joined.appending_unique rfl here
      refine ⟨inv, recent, joined.snap, ?_, by simp, ?_, joined.older⟩
      · have before : world.sys.published = base ++ world.queue.commits.map Pending.ops := by
          simpa using joined.commits
        change world.sys.published ++ world.sys.pending =
          base ++ (world.queue.commits ++ own).map Pending.ops
        rw [before, pending, same, List.map_append, List.append_assoc]
      · intro landed also
        cases also
        exact ⟨call, own, by simp⟩

theorem Joined.flushFailed {store : Store} {group : List (List Op)} {staged : Store.Staged}
    {program : Wal.SegmentProgram (Except Failure Unit × Wal)} {stage : Stage} {wal : Wal}
    (joined : Joined base ⟨store, .append group staged program, none, stage⟩ world)
    {pending : List (List Op)} {call : Nat} {failure : Failure} {queue : CommitQueue.State}
    {phase : Phase} (moved : world.queue.step (.append call (some failure)) = some queue) :
    Joined base ⟨{ store with wal := wal }, .free, none, stage⟩
      { world with
        sys := { world.sys with phase := phase, pending := pending }, queue := queue } := by
  obtain ⟨inv, recent⟩ := CommitQueue.recent_of_step joined.inv joined.recent moved
  rw [CommitQueue.State.step] at moved
  split at moved
  case h_2 => cases moved
  case h_1 own other here =>
      cases moved
      exact ⟨inv, recent, joined.snap, joined.commits, by simp, by simp, joined.older⟩

theorem Joined.publish {store : Store} {task : Task} {staged : Store.Staged} {stage : Stage}
    (joined : Joined base ⟨store, task, some staged, stage⟩ world) {call : Nat}
    {queue : CommitQueue.State} {phase : Phase}
    (moved : world.queue.step (.publish call) = some queue) :
    Joined base ⟨store.publish staged, task, none, stage⟩
      { world with
        sys :=
          { world.sys with
            phase := phase
            published := world.sys.published ++ world.sys.pending
            pending := [] }
        queue := queue } := by
  obtain ⟨inv, recent⟩ := CommitQueue.recent_of_step joined.inv joined.recent moved
  rw [CommitQueue.State.step] at moved
  split at moved
  case h_2 => cases moved
  case h_1 own other here =>
      cases moved
      obtain rfl := joined.landed_unique rfl here
      refine ⟨inv, recent, rfl, ?_, ?_, by simp, joined.older⟩
      · simpa using joined.commits
      · -- the log cannot be held by an append: its call would hold the flush flag too
        intro group also program same
        obtain ⟨holder, carried, there, _⟩ := joined.appending group also program same
        obtain rfl :=
          joined.inv.exclusive.alone holder call (by rw [there]; rfl) (by rw [here]; rfl)
        rw [here] at there
        cases there

theorem Joined.opened {store : Store} {sys : System} {past : List (List Note)}
    (snap : store.snap = stateAfter sys.published)
    (older : sys.exposed = false → ∀ life ∈ past, Agrees sys.published life) :
    Joined sys.published ⟨store, .free, none, .idle⟩ ⟨sys, .opened store.snap, false, [], past⟩ where
  inv := snap ▸ CommitQueue.Inv.opened store.snap
  recent := CommitQueue.Recent.opened store.snap
  snap := rfl
  commits := by simp [CommitQueue.State.opened]
  appending := by simp
  landed := by simp
  older := fun unexposed life member call index returned =>
    (older unexposed life member).index_le returned

end Joined

/-! ### Every step -/

theorem logs_of_admits {world : World} {event : CommitQueue.Event}
    (admitted : world.admits event = true) : event.logs = false := by
  cases event <;> first | rfl | cases admitted

def Asked (world : World) (ops : List Op) : Prop :=
  ∃ life ∈ world.lives, ∃ call, .enqueued call ops ∈ life

structure Whole (faults : Faults) (world : World) : Prop where
  sys : Inv faults world.sys
  joined : ∀ live, world.sys.phase = .running live → ∃ base, Joined base live world
  agrees : world.sys.exposed = false → ∀ life ∈ world.lives, Agrees world.sys.published life
  ordered : world.sys.exposed = false → world.lives.Pairwise Precedes
  lawful : ∀ life ∈ world.lives, Chronicle CommitQueue.Lawful life
  asked : ∀ ops ∈ world.sys.history, Asked world ops

section Whole

variable {faults : Faults} {world next : World}

theorem Asked.mono {ops : List Op} (asked : Asked world ops) (past : next.past = world.past)
    (grows : world.queue.history <+: next.queue.history) : Asked next ops := by
  obtain ⟨life, member, call, enqueued⟩ := asked
  rw [World.lives, List.mem_append, List.mem_singleton] at member
  rcases member with old | rfl
  · exact ⟨life, List.mem_append_left _ (past ▸ old), call, enqueued⟩
  · exact ⟨_, List.mem_append_right _ List.mem_cons_self, call, grows.subset enqueued⟩

theorem Whole.running (whole : Whole faults world) (sys : Inv faults next.sys) {live : Live}
    {base : List (List Op)} (phase : next.sys.phase = .running live)
    (joined : Joined base live next) (past : next.past = world.past)
    (exposed : next.sys.exposed = world.sys.exposed)
    (grows : world.sys.published <+: next.sys.published)
    (asked : ∀ ops ∈ next.sys.history, Asked next ops) : Whole faults next := by
  obtain ⟨_, _, _, _, consistent⟩ := sys.running phase
  have current := joined.agrees consistent.snap
  have lives : next.lives = world.past ++ [next.queue.history] := by rw [World.lives, past]
  refine ⟨sys, ?_, ?_, ?_, ?_, asked⟩
  · intro other same
    rw [phase] at same
    cases same
    exact ⟨base, joined⟩
  · intro unexposed life member
    rw [lives, List.mem_append, List.mem_singleton] at member
    rcases member with old | rfl
    · exact (whole.agrees (exposed ▸ unexposed) life (List.mem_append_left _ old)).mono grows
    · exact current
  · intro unexposed
    rw [lives, List.pairwise_append]
    refine ⟨(List.pairwise_append.mp (whole.ordered (exposed ▸ unexposed))).1,
      List.pairwise_singleton .., ?_⟩
    intro life member final last
    rw [List.mem_singleton] at last
    rw [last]
    exact joined.precedes unexposed life (past ▸ member)
  · intro life member
    rw [lives, List.mem_append, List.mem_singleton] at member
    rcases member with old | rfl
    · exact whole.lawful life (List.mem_append_left _ old)
    · exact joined.inv.recorded.lawful

theorem Whole.beside (whole : Whole faults world) {sys : System} (inv : Inv faults sys)
    (beside : World.Beside world.sys sys) (ckpt : Bool) :
    Whole faults { world with sys := sys, ckpt := ckpt } where
  sys := inv
  joined := by
    intro after phase
    obtain ⟨before, running, _⟩ := beside.live after phase
    obtain ⟨base, joined⟩ := whole.joined before running
    exact ⟨base, joined.beside beside running phase ckpt⟩
  agrees := by
    change sys.exposed = false → ∀ life ∈ world.lives, Agrees sys.published life
    rw [beside.exposed, beside.published]
    exact whole.agrees
  ordered := by
    change sys.exposed = false → world.lives.Pairwise Precedes
    rw [beside.exposed]
    exact whole.ordered
  lawful := whole.lawful
  asked := fun ops member => whole.asked ops (beside.history ▸ member)

theorem Inv.pending_eq {sys : System} {store : Store} {group : List (List Op)}
    {staged : Store.Staged} {wal : Wal} {landed : Option Store.Staged} {stage : Stage}
    (inv : Inv faults sys)
    (phase : sys.phase =
      .running ⟨store, .append group staged (.done (.ok (), wal)), landed, stage⟩) :
    sys.pending = group := by
  obtain ⟨_, _, _, _, running⟩ := inv.running phase
  obtain ⟨_, ⟨_, pending, _⟩ | ⟨_, _, failure, failed⟩⟩ := running.holding
  · exact pending
  · cases failed

theorem Inv.append_unlanded {sys : System} {store : Store} {group : List (List Op)}
    {staged : Store.Staged} {program : Wal.SegmentProgram (Except Failure Unit × Wal)}
    {landed : Option Store.Staged} {stage : Stage} (inv : Inv faults sys)
    (phase : sys.phase = .running ⟨store, .append group staged program, landed, stage⟩) :
    landed = none := by
  obtain ⟨_, _, _, _, running⟩ := inv.running phase
  exact running.holding.1

theorem Joined.moves {base : List (List Op)} {live after : Live} (joined : Joined base live world)
    (inv : Inv faults world.sys) (before : world.sys.phase = .running live)
    (moves : World.Moves faults world next) (phase : next.sys.phase = .running after) :
    Joined base after next := by
  cases moves with
  | inside _ admitted moved =>
      rw [before] at phase
      cases phase
      exact joined.quiet (logs_of_admits admitted) moved _ _
  | beginFlush here moved =>
      cases System.step_moves moved with
      | beginFlush _ store stage free nonempty checked bound =>
          rw [before] at free
          cases free
          cases phase
          exact joined.beginFlush here
  | beginCheckpoint here moved =>
      exact joined.beside (World.beside_of_step rfl moved) before phase _
  | appended running moved also =>
      rw [before] at running
      cases running
      obtain rfl := inv.append_unlanded before
      cases System.step_moves moved with
      | flushed _ _ _ _ _ again =>
          rw [before] at again
          cases again
          cases phase
          exact joined.flushed (inv.pending_eq before) also
      | flushFailed _ _ _ _ _ _ _ again =>
          rw [before] at again
          cases again
          cases phase
          exact joined.flushFailed also
  | publish moved also =>
      cases System.step_moves moved with
      | publish store task staged stage running =>
          rw [before] at running
          cases running
          cases phase
          exact joined.publish also
  | rotated here moved also =>
      have rotated := joined.beside (World.beside_of_step rfl moved) before phase true
      exact rotated.quiet rfl also _ world.calls
  | outside besides moved =>
      exact joined.beside (World.beside_of_step (World.touches_of_aside besides) moved) before
        phase _
  | stopped beside stops moved => exact absurd phase (stops after)
  | opened opening moved =>
      rw [before] at opening
      cases opening

theorem Whole.grows (whole : Whole faults world) {live : Live}
    (before : world.sys.phase = .running live) (moves : World.Moves faults world next) :
    next.past = world.past ∧ next.sys.exposed = world.sys.exposed ∧
      world.sys.published <+: next.sys.published ∧
      ∀ ops ∈ next.sys.history, Asked next ops := by
  have carry : ∀ {queue event}, world.queue.step event = some queue → ∀ sys ckpt calls,
      ∀ ops ∈ world.sys.history, Asked ⟨sys, queue, ckpt, calls, world.past⟩ ops :=
    fun moved _ _ _ ops member =>
      (whole.asked ops member).mono rfl (CommitQueue.history_isPrefix_of_step moved)
  cases moves with
  | inside _ admitted moved => exact ⟨rfl, rfl, List.prefix_rfl, carry moved _ _ _⟩
  | @beginFlush call own staged sys here moved =>
      obtain ⟨base, joined⟩ := whole.joined live before
      cases System.step_moves moved with
      | beginFlush _ store stage free nonempty checked bound =>
          refine ⟨rfl, rfl, List.prefix_rfl, ?_⟩
          intro ops member
          rcases List.mem_append.mp member with old | new
          · exact whole.asked ops (List.mem_append_left _ old)
          · change ops ∈ (if _ then _ else _) at new
            split at new
            · obtain ⟨commit, carried, rfl⟩ := List.mem_map.mp new
              have enqueued :=
                joined.inv.recorded.carried call own (by rw [here]; rfl) commit carried
              exact ⟨_, List.mem_append_right _ List.mem_cons_self, commit.ticket, enqueued⟩
            · exact whole.asked ops (List.mem_append_right _ new)
  | beginCheckpoint here moved =>
      have beside := World.beside_of_step rfl moved
      exact ⟨rfl, beside.exposed, beside.published ▸ List.prefix_rfl,
        fun ops member => whole.asked ops (beside.history ▸ member)⟩
  | appended running moved also =>
      cases System.step_moves moved with
      | flushed => exact ⟨rfl, rfl, List.prefix_rfl, carry also _ _ _⟩
      | flushFailed =>
          refine ⟨rfl, rfl, List.prefix_rfl, ?_⟩
          intro ops member
          refine carry also _ _ _ ops ?_
          rcases List.mem_append.mp member with old | new
          · exact List.mem_append_left _ old
          · change ops ∈ (if _ then _ else _) at new
            split at new
            · cases new
            · exact List.mem_append_right _ new
  | publish moved also =>
      cases System.step_moves moved with
      | publish =>
          refine ⟨rfl, rfl, List.prefix_append _ _, ?_⟩
          rw [System.history, List.append_nil]
          exact carry also _ _ _
  | rotated here moved also =>
      have beside := World.beside_of_step rfl moved
      exact ⟨rfl, beside.exposed, beside.published ▸ List.prefix_rfl,
        fun ops member => carry also _ _ _ ops (beside.history ▸ member)⟩
  | outside besides moved =>
      have beside := World.beside_of_step (World.touches_of_aside besides) moved
      exact ⟨rfl, beside.exposed, beside.published ▸ List.prefix_rfl,
        fun ops member => whole.asked ops (beside.history ▸ member)⟩
  | stopped beside stops moved =>
      exact ⟨rfl, beside.exposed, beside.published ▸ List.prefix_rfl,
        fun ops member => whole.asked ops (beside.history ▸ member)⟩
  | opened opening moved =>
      rw [before] at opening
      cases opening

/-- An open that is not told of an unsynced record keeps all that was published. -/
theorem Reopening.published_isPrefix {sys : System} {store : Store}
    (reopening : Reopening faults sys (.done (.ok store))) (unexposed : sys.exposed = false) :
    sys.published <+: (sys.published ++ sys.pending).take store.snap.index := by
  obtain ⟨lo, base, sure, maybe, sound, _, spec⟩ := reopening
  obtain ⟨entries, commits, _, _, atLeast, recovers⟩ := spec.2 store rfl
  have all : sys.published.length ≤ store.snap.index := by
    rw [recovers.snap, index_stateAfter]
    exact (sound.certain unexposed).trans atLeast
  rw [List.take_append, List.take_of_length_le all]
  exact List.prefix_append _ _

theorem Whole.opened (whole : Whole faults world) {sys : System} {store : Store}
    (inv : Inv faults sys) (phase : world.sys.phase = .opening (.done (.ok store)))
    (stepped : world.sys.step faults .endOpen = some sys) :
    Whole faults ⟨sys, .opened store.snap, false, [], world.lives⟩ := by
  cases System.step_moves stepped with
  | refused failure also =>
      rw [phase] at also
      cases also
  | opened _ also =>
      rw [phase] at also
      cases also
      obtain ⟨_, _, _, _, running⟩ := inv.running rfl
      have agrees : (world.sys.exposed || !Wal.settledTail world.sys.segments) = false →
          ∀ life ∈ world.lives,
          Agrees ((world.sys.published ++ world.sys.pending).take store.snap.index) life := by
        intro unexposed life member
        have before := (Bool.or_eq_false_iff.mp unexposed).1
        exact (whole.agrees before life member).mono
          ((whole.sys.opening phase).published_isPrefix before)
      have fresh : ∀ {property : List Note → Prop}, (∀ life ∈ world.lives, property life) →
          property [] → ∀ life ∈ world.lives ++ [[]], property life := by
        intro property old new life member
        rcases List.mem_append.mp member with earlier | last
        · exact old life earlier
        · rw [List.mem_singleton.mp last]
          exact new
      refine ⟨inv, ?_, ?_, ?_, ?_, ?_⟩
      · intro live same
        cases same
        exact ⟨_, Joined.opened running.snap agrees⟩
      · intro unexposed
        exact fresh (agrees unexposed) ⟨by simp, by simp, by simp⟩
      · intro unexposed
        change (world.lives ++ [[]]).Pairwise Precedes
        rw [List.pairwise_append]
        refine ⟨whole.ordered (Bool.or_eq_false_iff.mp unexposed).1, List.pairwise_singleton .., ?_⟩
        simp [Precedes]
      · exact fresh whole.lawful Chronicle.nil
      · intro ops member
        rw [System.history, List.append_nil] at member
        obtain ⟨life, known, asked⟩ := whole.asked ops (List.mem_of_mem_take member)
        exact ⟨life, List.mem_append_left _ known, asked⟩

theorem Whole.onward (whole : Whole faults world) {live after : Live}
    (inv : Inv faults next.sys) (moves : World.Moves faults world next)
    (before : world.sys.phase = .running live) (phase : next.sys.phase = .running after) :
    Whole faults next := by
  obtain ⟨base, joined⟩ := whole.joined live before
  obtain ⟨past, exposed, grows, asked⟩ := whole.grows before moves
  exact whole.running inv phase (joined.moves whole.sys before moves phase) past exposed grows asked

theorem Whole.step {event : World.Event} (honest : faults ≠ .any) (whole : Whole faults world)
    (stepped : world.step faults event = some next) : Whole faults next := by
  have onward : ∀ {live after}, Inv faults next.sys → world.sys.phase = .running live →
      next.sys.phase = .running after → Whole faults next :=
    fun inv before phase => whole.onward inv (World.step_moves stepped) before phase
  cases World.step_moves stepped with
  | inside phase admitted moved => exact onward whole.sys phase phase
  | beginFlush here moved =>
      have inv := whole.sys.step honest moved
      cases System.step_moves moved with
      | beginFlush _ _ _ phase => exact onward inv phase rfl
  | beginCheckpoint here moved =>
      have inv := whole.sys.step honest moved
      cases System.step_moves moved with
      | beginCheckpoint _ phase => exact onward inv phase rfl
  | appended phase moved also =>
      have inv := whole.sys.step honest moved
      cases System.step_moves moved with
      | flushed => exact onward inv phase rfl
      | flushFailed => exact onward inv phase rfl
  | publish moved also =>
      have inv := whole.sys.step honest moved
      cases System.step_moves moved with
      | publish _ _ _ _ phase => exact onward inv phase rfl
  | rotated here moved also =>
      have inv := whole.sys.step honest moved
      cases System.step_moves moved with
      | rotated _ _ _ _ _ _ phase => exact onward inv phase rfl
      | rotateFailed _ _ _ _ _ _ phase => exact onward inv phase rfl
  | outside besides moved =>
      exact whole.beside (whole.sys.step honest moved)
        (World.beside_of_step (World.touches_of_aside besides) moved) _
  | stopped beside stops moved => exact whole.beside (whole.sys.step honest moved) beside _
  | opened phase moved => exact whole.opened (whole.sys.step honest moved) phase moved

theorem Whole.initial : Whole faults World.initial where
  sys := Inv.initial
  joined := by simp [World.initial, System.initial]
  agrees := fun _ life member => by
    rw [List.mem_singleton.mp member]
    exact ⟨by simp [World.initial, CommitQueue.State.opened],
      by simp [World.initial, CommitQueue.State.opened],
      by simp [World.initial, CommitQueue.State.opened]⟩
  ordered := fun _ => List.pairwise_singleton ..
  lawful := fun life member => by
    rw [List.mem_singleton.mp member]
    exact Chronicle.nil
  asked := by simp [World.initial, System.initial, System.history]

theorem Whole.run {events : List World.Event} (honest : faults ≠ .any)
    (ran : runSteps (World.step faults) World.initial events = some world) :
    Whole faults world :=
  runSteps_invariant (Whole faults) (fun whole stepped => whole.step honest stepped) Whole.initial
    ran

end Whole

/-! ### The concurrent store is durably linear -/

theorem Inv.recovers {faults : Faults} {sys : System} (inv : Inv faults sys)
    (unexposed : sys.exposed = false) :
    ∃ commits, sys.published <+: commits ∧ commits <+: sys.history ∧
      ∀ options, sys.recovers options = some (stateAfter commits) := by
  obtain ⟨lo, base, sure, maybe, sound, generations, readable⟩ := inv.atRest
  obtain ⟨entries, ending, recoverable⟩ := readable.recoverable
  obtain ⟨commits, inside, logged, atLeast⟩ := sound.recovered recoverable
  refine ⟨commits, ?_, inside.trans sound.inside,
    recovers_eq sound recoverable inside logged atLeast generations⟩
  exact List.prefix_of_prefix_length_le (List.prefix_append _ _) (inside.trans sound.inside)
    ((sound.certain unexposed).trans atLeast)

def outsideCalls (count : Nat) : List World.Event :=
  (logCalls count).map .outside

def flushing (call : Nat) : List World.Event :=
  [.inside (.load call), .lockLog call] ++ outsideCalls 2 ++
    [.appended call, .publish call, .inside .snapshot, .inside (.storeIndex call),
     .inside (.settle call), .inside (.take call), .inside (.drop call)]

/-- The second of two writers waits for the first; a third is cut short in its write; after
the reopen another commits. -/
def interrupted : List World.Event :=
  [.outside (.beginOpen {})] ++ outsideCalls 7 ++
    [.endOpen, .inside (.commit 0 [.put [97] [1]]), .inside (.commit 1 [.put [97] [2]])] ++
    flushing 0 ++ [.inside (.resume 1)] ++ flushing 1 ++
    [.inside (.commit 2 [.delete [97]]), .inside (.load 2), .lockLog 2] ++ outsideCalls 1 ++
    [.crash ⟨fun _ => 20, fun _ => 0, fun _ => 0, fun _ => 0⟩, .outside (.beginOpen {})] ++
    outsideCalls 7 ++ [.endOpen, .inside (.commit 0 [.put [98] [3]])] ++ flushing 0

end Keystory
