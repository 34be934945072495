/-
No call on a concurrent store waits for ever: the queue lock, the flush flag, the log
lock and the checkpoint lock never leave a set of calls waiting for each other.
While file-system calls succeed, the calls on their way can always go on until all
of them have returned and the store can be closed.
-/

import Keystory.Engine.Linearizable
import Mathlib.Algebra.Order.BigOperators.Group.List
import Mathlib.Algebra.Order.Ring.Nat
import Mathlib.Data.List.Perm.Subperm

namespace Keystory

open General

namespace CommitQueue

/-! ### Requests and checkpoints in the queue -/

def Phase.seeks : Phase → Bool
  | .seeking | .dozing | .instant | .pinned => true
  | .unborn | .refused _ | .looping | .asleep | .claimed _ | .staged _ _ | .landed _ _ => false
  | .published _ _ | .settling _ | .releasing _ | .returned _ | .past => false

def Note.asks? : Note → Option Pending
  | .enqueued call ops => some ⟨ops, call⟩
  | .handed _ | .published _ | .loaded _ | .readIndex _ | .returned _ _ => none

def requests (history : List Note) : List Pending :=
  history.filterMap Note.asks?

@[simp, grind =] theorem woken_seeks (phase : Phase) : phase.woken.seeks = phase.seeks := by
  cases phase <;> rfl

@[simp, grind =] theorem woken_underway (phase : Phase) :
    phase.woken.underway = phase.underway := by
  cases phase <;> rfl

theorem mem_requests {history : List Note} {commit : Pending} :
    commit ∈ requests history ↔ .enqueued commit.ticket commit.ops ∈ history := by
  rw [requests, List.mem_filterMap]
  constructor
  · rintro ⟨note, member, asks⟩
    cases note <;> cases asks
    exact member
  · intro member
    exact ⟨_, member, rfl⟩

@[simp] theorem requests_concat (history : List Note) (note : Note) :
    requests (history ++ [note]) = requests history ++ note.asks?.toList := by
  rw [requests, List.filterMap_append]
  cases asks : note.asks? <;> simp [asks, requests]

section Steps

variable {state next : State} {event : Event}

theorem requests_turn (call : Nat) :
    requests (state.turn call).history = requests state.history := by
  unfold State.turn
  split
  case h_1 => simp [Note.asks?]
  case h_2 => split <;> rfl

theorem requests_seek (call : Nat) :
    requests (state.seek call).history = requests state.history := by
  unfold State.seek
  split <;> rfl

theorem requests_of_step (stepped : state.step event = some next) :
    requests next.history = requests state.history ∨
      ∃ call ops, event = .commit call ops ∧ (Wal.checkOps ops).isOk = true ∧
        requests next.history = requests state.history ++ [⟨ops, call⟩] := by
  cases event with
  | commit call ops =>
      rw [State.step] at stepped
      split at stepped
      case h_1 fresh =>
          split at stepped
          case h_1 =>
              cases stepped
              left
              simp [Note.asks?]
          case h_2 passed =>
              cases stepped
              right
              refine ⟨call, ops, rfl, by rw [passed]; rfl, ?_⟩
              rw [requests_turn]
              simp [Note.asks?]
      case h_2 => cases stepped
  | checkpoint call =>
      rw [State.step] at stepped
      split at stepped <;> cases stepped
      exact Or.inl (requests_seek call)
  | resume call =>
      rw [State.step] at stepped
      split at stepped <;> cases stepped
      · exact Or.inl (requests_turn call)
      · exact Or.inl (requests_seek call)
  | append call failure =>
      rw [State.step] at stepped
      split at stepped
      · split at stepped <;> cases stepped <;> simp [Note.asks?]
      · cases stepped
  | snapshot =>
      cases stepped
      simp [Note.asks?]
  | index =>
      cases stepped
      simp [Note.asks?]
  | _ =>
      rw [State.step] at stepped
      split at stepped <;> cases stepped <;> simp [Note.asks?]

theorem logged_of_step (logs : event.logs = true) (stepped : state.step event = some next) :
    requests next.history = requests state.history ∧
      (∀ call, (next.phase call).seeks = (state.phase call).seeks) ∧
      ∀ call, (next.phase call).underway = true → (state.phase call).underway = true := by
  cases event with
  | append call failure =>
      rw [State.step] at stepped
      split at stepped
      case h_2 => cases stepped
      case h_1 group staged here =>
          split at stepped <;> cases stepped <;>
            exact ⟨by simp [Note.asks?], by grind [Phase.seeks], by grind [Phase.underway]⟩
  | publish call =>
      rw [State.step] at stepped
      split at stepped
      case h_2 => cases stepped
      case h_1 group staged here =>
          cases stepped
          exact ⟨by simp [Note.asks?], by grind [Phase.seeks], by grind [Phase.underway]⟩
  | _ => cases logs

theorem landed_of_failed {call other : Nat} {failure : Failure} {group : List Pending}
    {staged : Store.Staged} (stepped : state.step (.append call (some failure)) = some next)
    (there : next.phase other = .landed group staged) :
    state.phase other = .landed group staged := by
  rw [State.step] at stepped
  split at stepped <;> cases stepped
  grind

theorem unlanded_of_publish {call : Nat} (exclusive : Exclusive state)
    (stepped : state.step (.publish call) = some next) (other : Nat) (group : List Pending)
    (staged : Store.Staged) : next.phase other ≠ .landed group staged := by
  have alone := exclusive.alone
  rw [State.step] at stepped
  split at stepped <;> cases stepped
  grind [Phase.holds]

theorem leave_of_step {call : Nat} (here : state.phase call = .pinned)
    (stepped : state.step (.drop call) = some next) :
    requests next.history = requests state.history ∧
      (∀ other group staged, next.phase other = .landed group staged →
        state.phase other = .landed group staged) ∧
      (∀ other, (next.phase other).seeks = true →
        other ≠ call ∧ (state.phase other).seeks = true) ∧
      ∀ other, (next.phase other).underway = true → (state.phase other).underway = true := by
  rw [State.step, here] at stepped
  cases stepped
  exact ⟨rfl, by grind [woken_cases], by grind [Phase.seeks], by grind [Phase.underway]⟩

/-- What a step that neither logs nor leaves an exclusive instant does to the phases. -/
structure Calm (event : Event) (state next : State) : Prop where
  landed : ∀ call group staged, next.phase call = .landed group staged →
    state.phase call = .landed group staged
  pinned : ∀ call, state.phase call = .pinned → next.phase call = .pinned
  seeks : ∀ call, (next.phase call).seeks = true ↔
    (state.phase call).seeks = true ∨ event = .checkpoint call
  underway : ∀ call, (next.phase call).underway = true →
    (state.phase call).underway = true ∨ call ∈ World.callsOf event

theorem calm_of_step (unlogged : event.logs = false)
    (stays : ∀ call, event = .drop call → state.phase call ≠ .pinned)
    (stepped : state.step event = some next) : Calm event state next := by
  cases event with
  | append call failure => cases unlogged
  | publish call => cases unlogged
  | commit call ops =>
      rw [State.step] at stepped
      split at stepped
      case h_2 => cases stepped
      case h_1 fresh =>
          split at stepped <;> cases stepped
          · constructor <;> grind [Phase.seeks, Phase.underway, World.callsOf]
          · unfold State.turn
            split
            · constructor <;> grind [Phase.seeks, Phase.underway, World.callsOf]
            · split <;> constructor <;> grind [Phase.seeks, Phase.underway, World.callsOf]
  | checkpoint call =>
      rw [State.step] at stepped
      split at stepped <;> cases stepped
      unfold State.seek
      split <;> constructor <;> grind [Phase.seeks, Phase.underway, World.callsOf]
  | resume call =>
      rw [State.step] at stepped
      split at stepped <;> cases stepped
      · unfold State.turn
        split
        · constructor <;> grind [Phase.seeks, Phase.underway]
        · split <;> constructor <;> grind [Phase.seeks, Phase.underway]
      · unfold State.seek
        split <;> constructor <;> grind [Phase.seeks, Phase.underway]
  | drop call =>
      rw [State.step] at stepped
      split at stepped
      case h_1 done here =>
          cases stepped
          constructor <;> grind [woken_cases, Phase.seeks, Phase.underway]
      case h_2 here => exact absurd here (stays call rfl)
      case h_3 => cases stepped
  | snapshot =>
      cases stepped
      constructor <;> grind
  | index =>
      cases stepped
      constructor <;> grind
  | _ =>
      rw [State.step] at stepped
      split at stepped <;> cases stepped <;> constructor <;> grind [Phase.seeks, Phase.underway]

end Steps

end CommitQueue

open CommitQueue (Pending Note requests)

/-! ### The locks and their holders -/

def Live.checkpointing (live : Live) : Bool := (Phase.running live).checkpointing

theorem Live.checkpointing_append (store : Store) (group : List (List Op)) (staged : Store.Staged)
    (program : Wal.SegmentProgram (Except Failure Unit × Wal)) (landed : Option Store.Staged)
    (stage : Stage) :
    (⟨store, .append group staged program, landed, stage⟩ : Live).checkpointing =
      (⟨store, .free, none, stage⟩ : Live).checkpointing := by
  cases stage <;> rfl

theorem Live.checkpointing_congr {task : Task} {stage : Stage} (store other : Store)
    (landed also : Option Store.Staged) :
    (⟨store, task, landed, stage⟩ : Live).checkpointing =
      (⟨other, task, also, stage⟩ : Live).checkpointing := by
  cases task <;> cases stage <;> rfl

/-- Every lock that is taken has a holder on its way, and checkpoints are one at a time. -/
structure Tied (live : Live) (world : World) : Prop where
  landed : ∀ call group staged, world.queue.phase call = .landed group staged →
    live.landed.isSome = true
  rotating : ∀ cur program, live.task = .rotate cur program →
    live.stage = .idle ∧ ∃ call, world.queue.phase call = .pinned
  checked : ∀ commit ∈ requests world.queue.history, (Wal.checkOps commit.ops).isOk = true
  known : ∀ call, (world.queue.phase call).underway = true → call ∈ world.calls
  one : ∀ one two, (world.queue.phase one).seeks = true → (world.queue.phase two).seeks = true →
    one = two
  locked : world.ckpt = true ↔
    (∃ call, (world.queue.phase call).seeks = true) ∨ live.checkpointing = true
  apart : ∀ call, (world.queue.phase call).seeks = true → live.checkpointing = true →
    ∃ cur program, live.task = .rotate cur program

section Tied

variable {faults : Faults} {live after : Live} {world next : World}

theorem Tied.unsought (tied : Tied live world) (checkpointing : live.checkpointing = true)
    (rotated : ∀ cur program, live.task ≠ .rotate cur program) (call : Nat) :
    (world.queue.phase call).seeks ≠ true := by
  intro seeks
  obtain ⟨cur, program, task⟩ := tied.apart call seeks checkpointing
  exact rotated cur program task

theorem Tied.same (tied : Tied live world) {sys : System} (landed : after.landed = live.landed)
    (stage : after.checkpointing = live.checkpointing)
    (rotating : ∀ cur program, after.task = .rotate cur program →
      after.stage = live.stage ∧ ∃ earlier, live.task = .rotate cur earlier)
    (still : ∀ cur program, live.task = .rotate cur program →
      ∃ later, after.task = .rotate cur later) :
    Tied after { world with sys := sys } where
  landed := landed ▸ tied.landed
  rotating := by
    intro cur program task
    obtain ⟨same, earlier, before⟩ := rotating cur program task
    exact same ▸ tied.rotating cur earlier before
  checked := tied.checked
  known := tied.known
  one := tied.one
  locked := stage ▸ tied.locked
  apart := by
    intro call seeks checkpointing
    obtain ⟨cur, program, before⟩ := tied.apart call seeks (stage ▸ checkpointing)
    obtain ⟨later, task⟩ := still cur program before
    exact ⟨cur, later, task⟩

theorem Tied.alone (tied : Tied live world) {sys : System} {queue : CommitQueue.State}
    {ckpt : Bool} (landed : ∀ call group staged, queue.phase call = .landed group staged →
      after.landed.isSome = true)
    (asked : requests queue.history = requests world.queue.history)
    (underway : ∀ call, (queue.phase call).underway = true →
      (world.queue.phase call).underway = true)
    (ckptAfter : ckpt = after.checkpointing)
    (rotated : ∀ cur program, after.task ≠ .rotate cur program)
    (unsought : ∀ call, (queue.phase call).seeks ≠ true) :
    Tied after { world with sys := sys, queue := queue, ckpt := ckpt } where
  landed := landed
  rotating := fun cur program task => absurd task (rotated cur program)
  checked := asked ▸ tied.checked
  known := fun call here => tied.known call (underway call here)
  one := fun one _ seeks => absurd seeks (unsought one)
  locked := by
    change ckpt = true ↔ _
    rw [ckptAfter]
    constructor
    · exact Or.inr
    · rintro (⟨call, seeks⟩ | checkpointing)
      · exact absurd seeks (unsought call)
      · exact checkpointing
  apart := fun call seeks => absurd seeks (unsought call)

theorem Tied.inside (tied : Tied live world) {event : CommitQueue.Event}
    {queue : CommitQueue.State} (admitted : world.admits event = true)
    (moved : world.queue.step event = some queue) :
    Tied live
      { world with
        queue := queue
        ckpt := world.ckpt || World.isCheckpoint event
        calls := World.callsOf event ++ world.calls } := by
  have stays : ∀ call, event = .drop call → world.queue.phase call ≠ .pinned := by
    rintro call rfl pinned
    simp [World.admits, pinned] at admitted
  have calm := CommitQueue.calm_of_step (logs_of_admits admitted) stays moved
  have free : ∀ call, event = .checkpoint call → world.ckpt = false := by
    rintro call rfl
    simpa [World.admits] using admitted
  constructor
  case landed =>
      intro call group staged here
      exact tied.landed call group staged (calm.landed call group staged here)
  case rotating =>
      intro cur program task
      obtain ⟨idle, call, pinned⟩ := tied.rotating cur program task
      exact ⟨idle, call, calm.pinned call pinned⟩
  case checked =>
      intro commit member
      rcases CommitQueue.requests_of_step moved with same | ⟨call, ops, _, passed, more⟩
      · exact tied.checked commit (same ▸ member)
      · rw [more, List.mem_append, List.mem_singleton] at member
        rcases member with old | rfl
        · exact tied.checked commit old
        · exact passed
  case known =>
      intro call underway
      rcases calm.underway call underway with before | new
      · exact List.mem_append_right _ (tied.known call before)
      · exact List.mem_append_left _ new
  case one =>
      intro one two first second
      have locked := tied.locked
      rcases (calm.seeks one).mp first with before | rfl
      · rcases (calm.seeks two).mp second with also | rfl
        · exact tied.one one two before also
        · exact absurd (locked.mpr (Or.inl ⟨one, before⟩)) (by simp [free two rfl])
      · rcases (calm.seeks two).mp second with also | same
        · exact absurd (locked.mpr (Or.inl ⟨two, also⟩)) (by simp [free one rfl])
        · cases same
          rfl
  case locked =>
      have locked := tied.locked
      rw [Bool.or_eq_true]
      constructor
      · rintro (held | begins)
        · rcases locked.mp held with ⟨call, seeks⟩ | checkpointing
          · exact Or.inl ⟨call, (calm.seeks call).mpr (Or.inl seeks)⟩
          · exact Or.inr checkpointing
        · cases event with
          | checkpoint call => exact Or.inl ⟨call, (calm.seeks call).mpr (Or.inr rfl)⟩
          | _ => cases begins
      · rintro (⟨call, seeks⟩ | checkpointing)
        · rcases (calm.seeks call).mp seeks with before | rfl
          · exact Or.inl (locked.mpr (Or.inl ⟨call, before⟩))
          · exact Or.inr rfl
        · exact Or.inl (locked.mpr (Or.inr checkpointing))
  case apart =>
      intro call seeks checkpointing
      rcases (calm.seeks call).mp seeks with before | rfl
      · exact tied.apart call before checkpointing
      · exact absurd (tied.locked.mpr (Or.inr checkpointing)) (by simp [free call rfl])

theorem Tied.moved (tied : Tied live world) {queue : CommitQueue.State} {sys : System}
    (landed : ∀ call group staged, queue.phase call = .landed group staged →
      after.landed.isSome = true)
    (stage : after.checkpointing = live.checkpointing)
    (rotated : ∀ cur program, after.task ≠ .rotate cur program)
    (before : ∀ cur program, live.task ≠ .rotate cur program)
    (asked : requests queue.history = requests world.queue.history)
    (seeks : ∀ call, (queue.phase call).seeks = (world.queue.phase call).seeks)
    (underway : ∀ call, (queue.phase call).underway = true →
      (world.queue.phase call).underway = true) :
    Tied after { world with sys := sys, queue := queue } where
  landed := landed
  rotating := fun cur program task => absurd task (rotated cur program)
  checked := asked ▸ tied.checked
  known := fun call here => tied.known call (underway call here)
  one := by
    intro one two first second
    exact tied.one one two (seeks one ▸ first) (seeks two ▸ second)
  locked := by
    change world.ckpt = true ↔ (∃ call, (queue.phase call).seeks = true) ∨ _
    simp only [seeks, stage]
    exact tied.locked
  apart := by
    intro call here checkpointing
    obtain ⟨cur, program, task⟩ := tied.apart call (seeks call ▸ here) (stage ▸ checkpointing)
    exact absurd task (before cur program)

theorem Tied.moves {base : List (List Op)} (tied : Tied live world)
    (joined : Joined base live world) (inv : Inv faults world.sys)
    (before : world.sys.phase = .running live) (moves : World.Moves faults world next)
    (phase : next.sys.phase = .running after) : Tied after next := by
  cases moves with
  | inside _ admitted moved =>
      rw [before] at phase
      cases phase
      exact tied.inside admitted moved
  | beginFlush here moved =>
      cases System.step_moves moved with
      | beginFlush _ store stage free nonempty checked bound =>
          rw [before] at free
          cases free
          cases phase
          exact tied.same rfl (Live.checkpointing_append ..) (by simp) (by simp)
  | @beginCheckpoint call sys here moved =>
      cases System.step_moves moved with
      | beginCheckpoint store free small =>
          rw [before] at free
          cases free
          cases phase
          have seeks : (world.queue.phase call).seeks = true := by rw [here]; rfl
          refine ⟨tied.landed, fun _ _ _ => ⟨rfl, call, here⟩, tied.checked, tied.known, tied.one,
            ?_, fun _ _ _ => ⟨_, _, rfl⟩⟩
          exact ⟨fun _ => Or.inr rfl, fun _ => tied.locked.mpr (Or.inl ⟨call, seeks⟩)⟩
  | appended running moved also =>
      rw [before] at running
      cases running
      obtain rfl := inv.append_unlanded before
      obtain ⟨asked, seeks, underway⟩ := CommitQueue.logged_of_step rfl also
      cases System.step_moves moved with
      | flushed _ _ _ _ _ again =>
          rw [before] at again
          cases again
          cases phase
          refine tied.moved (fun _ _ _ _ => rfl) ?_ (by simp) (by simp) asked seeks underway
          rw [Live.checkpointing_append]
          exact Live.checkpointing_congr ..
      | flushFailed _ _ _ _ _ _ _ again =>
          rw [before] at again
          cases again
          cases phase
          refine tied.moved ?_ ?_ (by simp) (by simp) asked seeks underway
          · intro call group staged there
            exact tied.landed call group staged (CommitQueue.landed_of_failed also there)
          · rw [Live.checkpointing_append]
            exact Live.checkpointing_congr ..
  | publish moved also =>
      obtain ⟨asked, seeks, underway⟩ := CommitQueue.logged_of_step rfl also
      cases System.step_moves moved with
      | publish store task staged stage running =>
          rw [before] at running
          cases running
          cases phase
          have unlanded := CommitQueue.unlanded_of_publish joined.inv.exclusive also
          have rotated : ∀ cur program, task ≠ .rotate cur program := by
            intro cur program same
            obtain ⟨_, holder, pinned⟩ := tied.rotating cur program same
            obtain ⟨call, group, there⟩ := joined.landed staged rfl
            obtain rfl := joined.inv.exclusive.alone call holder (by rw [there]; rfl)
              (by rw [pinned]; rfl)
            rw [there] at pinned
            cases pinned
          exact tied.moved
            (fun call group staged there => absurd there (unlanded call group staged))
            (Live.checkpointing_congr ..) rotated rotated asked seeks underway
  | @rotated call sys queue here moved also =>
      obtain ⟨asked, landed, seeks, underway⟩ := CommitQueue.leave_of_step here also
      have unsought : ∀ other, (queue.phase other).seeks ≠ true := by
        intro other sought
        obtain ⟨different, earlier⟩ := seeks other sought
        exact different (tied.one other call earlier (by rw [here]; rfl))
      cases System.step_moves moved with
      | rotated store cur boundary wal groups stage running =>
          rw [before] at running
          cases running
          cases phase
          exact tied.alone (fun _ _ _ there => tied.landed _ _ _ (landed _ _ _ there)) asked
            underway
            rfl (by simp) unsought
      | rotateFailed store cur failure wal groups stage running =>
          rw [before] at running
          cases running
          cases phase
          exact tied.alone (fun _ _ _ there => tied.landed _ _ _ (landed _ _ _ there)) asked
            underway
            rfl (by simp) unsought
  | @outside event sys besides moved =>
      cases System.step_moves moved with
      | beginOpen options closed => cases phase
      | openCall fate program outcome opening served => cases phase
      | damage garbage closed fallback spoilt =>
          rw [before] at closed
          cases closed
      | saved store task landed cur boundary running =>
          rw [before] at running
          cases running
          cases phase
          have rotated : ∀ cur program, task ≠ .rotate cur program :=
            fun cur program same => nomatch (tied.rotating cur program same).1
          have checkpointing : (⟨store, task, landed, .saving cur boundary (.done (.ok ()))⟩ :
              Live).checkpointing = true := by cases task <;> rfl
          exact tied.alone tied.landed rfl (fun _ now => now) rfl rotated
            (tied.unsought checkpointing rotated)
      | saveFailed store task landed cur boundary failure running =>
          rw [before] at running
          cases running
          cases phase
          have rotated : ∀ cur program, task ≠ .rotate cur program :=
            fun cur program same => nomatch (tied.rotating cur program same).1
          have checkpointing : (⟨store, task, landed, .saving cur boundary (.done (.error failure))⟩ :
              Live).checkpointing = true := by cases task <;> rfl
          exact tied.alone tied.landed rfl (fun _ now => now) rfl rotated
            (tied.unsought checkpointing rotated)
      | beginRemove store landed covered running =>
          rw [before] at running
          cases running
          cases phase
          have locked : world.ckpt = true := tied.locked.mpr (Or.inr rfl)
          exact tied.alone tied.landed rfl (fun _ now => now) locked (by simp)
            (tied.unsought rfl (by simp))
      | removed store result landed stage running =>
          rw [before] at running
          cases running
          cases phase
          exact tied.alone tied.landed rfl (fun _ now => now) rfl (by simp)
            (tied.unsought rfl (by simp))
      | appendCall fate store group staged landed stage program outcome running served =>
          rw [before] at running
          cases running
          cases phase
          exact tied.same rfl (by rw [Live.checkpointing_append, Live.checkpointing_append])
            (by simp)
            (by simp)
      | rotateCall fate store cur landed stage program outcome running served =>
          rw [before] at running
          cases running
          cases phase
          exact tied.same rfl rfl (fun _ _ same => ⟨rfl, program, by cases same; rfl⟩)
            (fun _ _ same => ⟨outcome.1, by cases same; rfl⟩)
      | removeCall fate store landed stage program outcome running served =>
          rw [before] at running
          cases running
          cases phase
          exact tied.same rfl rfl (by simp) (by simp)
      | fileCall fate store task landed cur boundary program outcome running served =>
          rw [before] at running
          cases running
          cases phase
          refine tied.same rfl (by cases task <;> rfl) ?_ (fun _ program same => ⟨program, same⟩)
          intro cur program same
          exact nomatch (tied.rotating cur program same).1
      | _ => cases besides
  | stopped beside stops moved => exact absurd phase (stops after)
  | opened opening moved =>
      rw [before] at opening
      cases opening

end Tied

/-! ### Room for what was asked -/

def load (commits : List (List Op)) : Nat :=
  (commits.map (fun ops => ops.length + 1)).sum

theorem load_append (first second : List (List Op)) :
    load (first ++ second) = load first + load second := by
  rw [load, List.map_append, List.sum_append]
  rfl

theorem load_cons (ops : List Op) (commits : List (List Op)) :
    load (ops :: commits) = ops.length + 1 + load commits := by
  rw [load, List.map_cons, List.sum_cons]
  rfl

theorem length_le_load (commits : List (List Op)) : commits.length ≤ load commits := by
  induction commits with
  | nil => exact Nat.le_refl 0
  | cons ops commits ih =>
      rw [load_cons, List.length_cons]
      omega

theorem load_le_of_isPrefix {commits more : List (List Op)} (front : commits <+: more) :
    load commits ≤ load more := by
  obtain ⟨rest, rfl⟩ := front
  rw [load_append]
  exact Nat.le_add_right ..

theorem load_le_of_subperm {commits more : List Pending} (inside : commits.Subperm more) :
    load (commits.map Pending.ops) ≤ load (more.map Pending.ops) := by
  obtain ⟨same, perm, sub⟩ := inside
  rw [load, load, List.map_map, List.map_map, ← (perm.map _).sum_eq]
  exact (sub.map _).sum_le_sum (fun _ _ => Nat.zero_le _)

theorem size_apply_le (op : Op) (map : Map) (index : Nat) :
    (op.apply map index).size ≤ map.size + 1 := by
  cases op with
  | put key value =>
      rw [Op.apply]
      split
      · split
        · exact Nat.le_succ _
        · exact SortedMap.size_insert_le ..
      · exact SortedMap.size_insert_le ..
  | delete key => exact (SortedMap.size_erase_le map key).trans (Nat.le_succ _)

theorem size_applyOps_le (ops : List Op) (map : Map) (index : Nat) :
    (applyOps ops map index).size ≤ map.size + ops.length := by
  induction ops generalizing map with
  | nil => exact Nat.le_refl _
  | cons op ops ih =>
      have rest := ih (op.apply map index)
      have first := size_apply_le op map index
      rw [applyOps, List.foldl_cons, List.length_cons]
      change (applyOps ops (op.apply map index) index).size ≤ _
      omega

theorem size_foldl_commit_le (commits : List (List Op)) (snapshot : Snapshot) :
    (commits.foldl Snapshot.commit snapshot).data.size ≤ snapshot.data.size + load commits := by
  induction commits generalizing snapshot with
  | nil => exact Nat.le_refl _
  | cons ops commits ih =>
      have rest := ih (snapshot.commit ops)
      have first : (snapshot.commit ops).data.size ≤ snapshot.data.size + ops.length :=
        size_applyOps_le ops snapshot.data (snapshot.index + 1)
      rw [List.foldl_cons, load_cons]
      omega

theorem size_stateAfter_le (commits : List (List Op)) :
    (stateAfter commits).data.size ≤ load commits := by
  have bound := size_foldl_commit_le commits Snapshot.empty
  change _ ≤ 0 + _ at bound
  rw [Nat.zero_add] at bound
  exact bound

theorem CommitQueue.Inv.subperm_requests {base : Snapshot} {state : CommitQueue.State}
    (inv : CommitQueue.Inv base state) {group : List Pending}
    (carried : group = [] ∨ ∃ call, (state.phase call).standing = .carrying group) :
    (state.commits ++ group).Subperm (requests state.history) := by
  have once : ((state.commits ++ group).map Pending.ticket).Nodup := by
    rw [List.map_append, List.nodup_append]
    rcases carried with rfl | ⟨call, carries⟩
    · exact ⟨inv.ledger.acceptedOnce, List.nodup_nil, by simp⟩
    · refine ⟨inv.ledger.acceptedOnce, (inv.ledger.carriedOnce call group carries).1, ?_⟩
      rintro _ one _ two rfl
      obtain ⟨commit, accepted, named⟩ := List.mem_map.mp one
      obtain ⟨other, member, also⟩ := List.mem_map.mp two
      refine (inv.ledger.carried call group carries other member).2.2.1 ?_
      rw [also, ← named]
      exact inv.ledger.acceptedHanded commit accepted
  refine List.subperm_of_subset once.of_map ?_
  intro commit member
  rw [CommitQueue.mem_requests]
  rcases List.mem_append.mp member with accepted | waiting
  · exact inv.recorded.committed commit accepted
  · rcases carried with rfl | ⟨call, carries⟩
    · cases waiting
    · exact inv.recorded.carried call group carries commit waiting

/-! ### Going on -/

def World.Event.ordinary : World.Event → Bool
  | .inside event => event.ordinary
  | .lockLog _ | .appended _ | .publish _ | .rotated _ => true
  | .outside event =>
      match event with
      | .logCall fate | .fileCall fate => fate = .ok
      | .endSave | .beginRemove | .endRemove => true
      | _ => false
  | .endOpen | .close | .crash _ => false

def Proceeds (faults : Faults) (world final : World) : Prop :=
  ∃ events, (∀ event ∈ events, World.Event.ordinary event = true) ∧
    runSteps (World.step faults) world events = some final

/-- An open store, since it was opened after `base`, with room for all that was asked of it. -/
structure Going (faults : Faults) (base : List (List Op)) (world : World) : Prop where
  whole : Whole faults world
  running : ∃ live, world.sys.phase = .running live ∧ Joined base live world ∧ Tied live world
  room : load base + load ((requests world.queue.history).map Pending.ops) < 2 ^ 64

section Going

variable {faults : Faults} {base : List (List Op)} {world middle next final : World}

theorem Proceeds.refl (world : World) : Proceeds faults world world :=
  ⟨[], by simp, rfl⟩

theorem Proceeds.trans (first : Proceeds faults world middle)
    (second : Proceeds faults middle final) : Proceeds faults world final := by
  obtain ⟨before, ordinary, ran⟩ := first
  obtain ⟨later, also, again⟩ := second
  refine ⟨before ++ later, ?_, runSteps_append_eq_some.mpr ⟨middle, ran, again⟩⟩
  intro event member
  rcases List.mem_append.mp member with old | new
  · exact ordinary event old
  · exact also event new

theorem Proceeds.step {event : World.Event} (ordinary : event.ordinary = true)
    (stepped : world.step faults event = some next) : Proceeds faults world next :=
  ⟨[event], by simpa using ordinary, runSteps_cons_eq_some.mpr ⟨next, stepped, rfl⟩⟩

theorem running_of_step {event : World.Event} {live : Live} (ordinary : event.ordinary = true)
    (before : world.sys.phase = .running live) (stepped : world.step faults event = some next) :
    (∃ after, next.sys.phase = .running after) ∧
      requests next.queue.history = requests world.queue.history := by
  have asked : ∀ {event queue}, event.ordinary = true → world.queue.step event = some queue →
      requests queue.history = requests world.queue.history := by
    intro event queue ordinary moved
    rcases CommitQueue.requests_of_step moved with same | ⟨call, ops, rfl, _⟩
    · exact same
    · cases ordinary
  cases event with
  | inside event =>
      rw [World.step, Option.ite_none_right_eq_some] at stepped
      obtain ⟨queue, moved, same⟩ := Option.bind_eq_some_iff.mp stepped.2
      cases same
      exact ⟨⟨live, before⟩, asked ordinary moved⟩
  | lockLog call =>
      rw [World.step] at stepped
      split at stepped
      case h_1 =>
          obtain ⟨sys, moved, same⟩ := Option.bind_eq_some_iff.mp stepped
          cases same
          cases System.step_moves moved
          exact ⟨⟨_, rfl⟩, rfl⟩
      case h_2 =>
          obtain ⟨sys, moved, same⟩ := Option.bind_eq_some_iff.mp stepped
          cases same
          cases System.step_moves moved
          exact ⟨⟨_, rfl⟩, rfl⟩
      case h_3 => cases stepped
  | appended call =>
      rw [World.step] at stepped
      split at stepped
      case h_2 => cases stepped
      case h_1 =>
          obtain ⟨sys, moved, rest⟩ := Option.bind_eq_some_iff.mp stepped
          obtain ⟨queue, also, same⟩ := Option.bind_eq_some_iff.mp rest
          cases same
          cases System.step_moves moved <;> exact ⟨⟨_, rfl⟩, asked rfl also⟩
  | publish call =>
      rw [World.step] at stepped
      obtain ⟨sys, moved, rest⟩ := Option.bind_eq_some_iff.mp stepped
      obtain ⟨queue, also, same⟩ := Option.bind_eq_some_iff.mp rest
      cases same
      cases System.step_moves moved
      exact ⟨⟨_, rfl⟩, asked rfl also⟩
  | rotated call =>
      rw [World.step] at stepped
      split at stepped
      case h_2 => cases stepped
      case h_1 =>
          obtain ⟨sys, moved, rest⟩ := Option.bind_eq_some_iff.mp stepped
          obtain ⟨queue, also, same⟩ := Option.bind_eq_some_iff.mp rest
          cases same
          cases System.step_moves moved <;> exact ⟨⟨_, rfl⟩, asked rfl also⟩
  | outside event =>
      rw [World.step, Option.ite_none_right_eq_some] at stepped
      obtain ⟨sys, moved, same⟩ := Option.bind_eq_some_iff.mp stepped.2
      cases same
      refine ⟨?_, rfl⟩
      cases System.step_moves moved with
      | openCall fate program outcome phase served =>
          rw [before] at phase
          cases phase
      | beginOpen => cases ordinary
      | damage => cases ordinary
      | opened => cases ordinary
      | refused => cases ordinary
      | close => cases ordinary
      | crash => cases ordinary
      | _ => exact ⟨_, rfl⟩
  | endOpen => cases ordinary
  | close => cases ordinary
  | crash cut => cases ordinary

theorem Going.step (honest : faults ≠ .any) (going : Going faults base world)
    {event : World.Event} (ordinary : event.ordinary = true)
    (stepped : world.step faults event = some next) : Going faults base next := by
  obtain ⟨whole, ⟨live, before, joined, tied⟩, room⟩ := going
  obtain ⟨⟨after, phase⟩, asked⟩ := running_of_step ordinary before stepped
  have moves := World.step_moves stepped
  refine ⟨whole.step honest stepped, ⟨after, phase, ?_, ?_⟩, asked ▸ room⟩
  · exact joined.moves whole.sys before moves phase
  · exact tied.moves joined whole.sys before moves phase

theorem Going.proceeds (honest : faults ≠ .any) (going : Going faults base world)
    (proceeds : Proceeds faults world final) : Going faults base final := by
  obtain ⟨events, ordinary, ran⟩ := proceeds
  exact runSteps_invariant_of (fun event => World.Event.ordinary event = true) (Going faults base)
    (fun ordinary going stepped => going.step honest ordinary stepped) ordinary going ran

theorem Going.requests_proceeds (honest : faults ≠ .any) (going : Going faults base world)
    (proceeds : Proceeds faults world final) :
    requests final.queue.history = requests world.queue.history := by
  obtain ⟨events, ordinary, ran⟩ := proceeds
  refine (runSteps_invariant_of (fun event => World.Event.ordinary event = true)
    (fun later => Going faults base later ∧
      requests later.queue.history = requests world.queue.history) ?_ ordinary ⟨going, rfl⟩ ran).2
  rintro later event next ordinary ⟨going, same⟩ stepped
  obtain ⟨live, before, _⟩ := going.running
  exact ⟨going.step honest ordinary stepped,
    (running_of_step ordinary before stepped).2.trans same⟩

/-! ### Programs run to their ends -/

theorem allow_ok (faults : Faults) (probe : Bool) : faults.allow probe .ok = true := by
  cases faults <;> rfl

/-- The program that holds the log can be run to its end. -/
theorem proceeds_log {Result : Type} {task : Wal.SegmentProgram Result → Phase}
    (calls : ∀ program segments, System.logCall faults .ok
        { world.sys with segments := segments, phase := task program } =
      (program.step (Wal.directory faults) .ok segments).map (fun next =>
        { world.sys with segments := next.2, phase := task next.1 }))
    {program : Wal.SegmentProgram Result} (phase : world.sys.phase = task program) :
    ∃ result segments, Proceeds faults world
      { world with
        sys := { world.sys with segments := segments, phase := task (.done result) } } := by
  have moves : ∀ program segments,
      World.step faults
        { world with sys := { world.sys with segments := segments, phase := task program } }
        (.outside (.logCall .ok)) =
      (program.step (Wal.directory faults) .ok segments).map (fun next =>
        { world with sys := { world.sys with segments := next.2, phase := task next.1 } }) := by
    intro program segments
    change ((System.logCall faults .ok
      { world.sys with segments := segments, phase := task program }).bind _) = _
    rw [calls]
    cases program.step (Wal.directory faults) .ok segments <;> rfl
  obtain ⟨count, ran⟩ := Program.runSteps_exec moves (fun _ => allow_ok faults _) program
    world.sys.segments
  rw [← phase] at ran
  refine ⟨_, _, List.replicate count (.outside (.logCall .ok)), ?_, ran⟩
  intro event member
  rw [List.eq_of_mem_replicate member]
  rfl

theorem proceeds_file {store : Store} {task : Task} {landed : Option Store.Staged}
    {cur : Snapshot} {boundary : Nat} {program : Checkpoint.FileProgram (Except Failure Unit)}
    (phase : world.sys.phase = .running ⟨store, task, landed, .saving cur boundary program⟩) :
    ∃ result files, Proceeds faults world
      { world with
        sys := { world.sys with
          files := files
          phase := .running ⟨store, task, landed, .saving cur boundary (.done result)⟩ } } := by
  have moves : ∀ program files,
      World.step faults
        { world with
          sys := { world.sys with
            files := files
            phase := .running ⟨store, task, landed, .saving cur boundary program⟩ } }
        (.outside (.fileCall .ok)) =
      (program.step (Checkpoint.directory faults) .ok files).map (fun next =>
        { world with
          sys := { world.sys with
            files := next.2
            phase := .running ⟨store, task, landed, .saving cur boundary next.1⟩ } }) := by
    intro program files
    change ((program.step (Checkpoint.directory faults) .ok files).bind _).bind _ = _
    cases program.step (Checkpoint.directory faults) .ok files <;> rfl
  obtain ⟨count, ran⟩ := Program.runSteps_exec moves (fun _ => allow_ok faults _) program
    world.sys.files
  rw [← phase] at ran
  refine ⟨_, _, List.replicate count (.outside (.fileCall .ok)), ?_, ran⟩
  intro event member
  rw [List.eq_of_mem_replicate member]
  rfl

theorem proceeds_remove {store : Store} {program : Wal.SegmentProgram (Except Failure Nat)}
    {landed : Option Store.Staged} {stage : Stage}
    (phase : world.sys.phase = .running ⟨store, .remove program, landed, stage⟩) :
    ∃ final, Proceeds faults world final ∧ final.queue = world.queue ∧
      final.sys.phase = .running ⟨store, .free, landed, stage⟩ := by
  have calls : ∀ program segments, System.logCall faults .ok
      { world.sys with
        segments := segments, phase := .running ⟨store, .remove program, landed, stage⟩ } =
      (program.step (Wal.directory faults) .ok segments).map (fun next =>
        { world.sys with
          segments := next.2, phase := .running ⟨store, .remove next.1, landed, stage⟩ }) := by
    intro program segments
    change (program.step (Wal.directory faults) .ok segments).bind _ = _
    cases program.step (Wal.directory faults) .ok segments <;> rfl
  obtain ⟨result, segments, ended⟩ := proceeds_log calls phase
  exact ⟨_, ended.trans (@Proceeds.step _ _ _ (.outside .endRemove) rfl rfl), rfl, rfl⟩

theorem proceeds_append {call : Nat} {own : List Pending} {staged other : Store.Staged}
    {store : Store} {group : List (List Op)}
    {program : Wal.SegmentProgram (Except Failure Unit × Wal)} {stage : Stage}
    (here : world.queue.phase call = .staged own other)
    (phase : world.sys.phase = .running ⟨store, .append group staged program, none, stage⟩) :
    ∃ final failure, Proceeds faults world final ∧
      world.queue.step (.append call failure) = some final.queue := by
  have calls : ∀ program segments, System.logCall faults .ok
      { world.sys with
        segments := segments
        phase := .running ⟨store, .append group staged program, none, stage⟩ } =
      (program.step (Wal.directory faults) .ok segments).map (fun next =>
        { world.sys with
          segments := next.2
          phase := .running ⟨store, .append group staged next.1, none, stage⟩ }) := by
    intro program segments
    change (program.step (Wal.directory faults) .ok segments).bind _ = _
    cases program.step (Wal.directory faults) .ok segments <;> rfl
  obtain ⟨⟨result, wal⟩, segments, ended⟩ := proceeds_log calls phase
  obtain ⟨queue, moved⟩ : ∃ queue,
      world.queue.step (.append call (World.failure? result)) = some queue := by
    cases result with
    | ok done => exact ⟨_, by rw [World.failure?, CommitQueue.State.step, here]⟩
    | error failure => exact ⟨_, by rw [World.failure?, CommitQueue.State.step, here]⟩
  have onward : ∀ {sys}, System.endFlush
      { world.sys with
        segments := segments
        phase := .running ⟨store, .append group staged (.done (result, wal)), none, stage⟩ } =
        some sys →
      ∃ final failure, Proceeds faults world final ∧
        world.queue.step (.append call failure) = some final.queue := by
    intro sys stepped
    refine ⟨{ world with sys := sys, queue := queue }, World.failure? result,
      ended.trans (@Proceeds.step _ _ _ (.appended call) rfl ?_), moved⟩
    change Option.bind (System.endFlush _) _ = _
    rw [stepped]
    change Option.bind (world.queue.step (.append call (World.failure? result))) _ = _
    rw [moved]
    rfl
  cases result with
  | ok done => exact onward rfl
  | error failure => exact onward rfl

theorem proceeds_rotate {call : Nat} {store : Store} {cur : Snapshot}
    {program : Wal.SegmentProgram (Except Failure Nat × Wal)} {landed : Option Store.Staged}
    {stage : Stage} (here : world.queue.phase call = .pinned)
    (phase : world.sys.phase = .running ⟨store, .rotate cur program, landed, stage⟩) :
    ∃ final, Proceeds faults world final ∧
      world.queue.step (.drop call) = some final.queue := by
  have calls : ∀ program segments, System.logCall faults .ok
      { world.sys with
        segments := segments, phase := .running ⟨store, .rotate cur program, landed, stage⟩ } =
      (program.step (Wal.directory faults) .ok segments).map (fun next =>
        { world.sys with
          segments := next.2, phase := .running ⟨store, .rotate cur next.1, landed, stage⟩ }) := by
    intro program segments
    change (program.step (Wal.directory faults) .ok segments).bind _ = _
    cases program.step (Wal.directory faults) .ok segments <;> rfl
  obtain ⟨⟨result, wal⟩, segments, ended⟩ := proceeds_log calls phase
  have moved : world.queue.step (.drop call) = some (world.queue.dropGuard.goto call .past) := by
    rw [CommitQueue.State.step, here]
  have onward : ∀ {sys}, System.endRotate
      { world.sys with
        segments := segments
        phase := .running ⟨store, .rotate cur (.done (result, wal)), landed, stage⟩ } = some sys →
      ∃ final, Proceeds faults world final ∧
        world.queue.step (.drop call) = some final.queue := by
    intro sys stepped
    refine ⟨⟨sys, _, sys.phase.checkpointing, world.calls, world.past⟩,
      ended.trans (@Proceeds.step _ _ _ (.rotated call) rfl ?_), moved⟩
    rw [World.step, here]
    change Option.bind (System.endRotate _) _ = _
    rw [stepped]
    change Option.bind (world.queue.step (.drop call)) _ = _
    rw [moved]
    rfl
  cases result with
  | ok boundary => exact onward rfl
  | error failure => exact onward rfl

theorem Going.inside (going : Going faults base world) {event : CommitQueue.Event}
    {queue : CommitQueue.State} (ordinary : event.ordinary = true)
    (admitted : world.admits event = true) (moved : world.queue.step event = some queue) :
    ∃ final, Proceeds faults world final ∧ final.queue = queue := by
  obtain ⟨live, phase, _⟩ := going.running
  have stepped : world.step faults (.inside event) = some
      { world with
        queue := queue
        ckpt := world.ckpt || World.isCheckpoint event
        calls := World.callsOf event ++ world.calls } := by
    rw [World.step, phase, Phase.isRunning, admitted, moved]
    rfl
  exact ⟨_, @Proceeds.step _ _ _ (.inside event) ordinary stepped, rfl⟩

theorem Going.acceptable (going : Going faults base world) {call : Nat} {own : List Pending}
    {staged : Store.Staged} (here : world.queue.phase call = .staged own staged) :
    own.map Pending.ops ≠ [] ∧ (∀ ops ∈ own.map Pending.ops, (Wal.checkOps ops).isOk = true) ∧
      world.queue.snap.index + (own.map Pending.ops).length < 2 ^ 64 := by
  obtain ⟨live, _, joined, tied⟩ := going.running
  have carries : (world.queue.phase call).standing = .carrying own := by rw [here]; rfl
  refine ⟨?_, ?_, ?_⟩
  · intro empty
    have member := (joined.inv.ledger.carriedOnce call own carries).2
    rw [List.map_eq_nil_iff.mp empty] at member
    cases member
  · intro ops member
    obtain ⟨commit, carried, rfl⟩ := List.mem_map.mp member
    refine tied.checked commit (CommitQueue.mem_requests.mpr ?_)
    exact joined.inv.recorded.carried call own carries commit carried
  · have asked := load_le_of_subperm (joined.inv.subperm_requests (Or.inr ⟨call, carries⟩))
    have counted := length_le_load ((world.queue.commits ++ own).map Pending.ops)
    have recovered := length_le_load base
    have room := going.room
    have seen := joined.inv.published.part.index_le
    rw [index_stateAfter] at seen
    rw [List.map_append, List.length_append, List.length_map] at counted
    rw [List.map_append] at asked
    omega

theorem Going.append_free (going : Going faults base world) {call : Nat} {own : List Pending}
    {staged : Store.Staged} {store : Store} {stage : Stage}
    (here : world.queue.phase call = .staged own staged)
    (phase : world.sys.phase = .running ⟨store, .free, none, stage⟩) :
    ∃ final failure, Proceeds faults world final ∧
      world.queue.step (.append call failure) = some final.queue := by
  obtain ⟨live, running, joined, _⟩ := going.running
  rw [phase] at running
  cases running
  have acceptable := going.acceptable here
  rw [joined.snap] at acceptable
  obtain ⟨sys, stepped, program, taken⟩ : ∃ sys,
      world.sys.beginFlush (own.map Pending.ops) = some sys ∧ ∃ program, sys.phase =
        .running ⟨store, .append (own.map Pending.ops)
          (Store.stageGroup store.snap (own.map Pending.ops)) program, none, stage⟩ := by
    rw [System.beginFlush, phase]
    exact ⟨_, if_pos acceptable, _, rfl⟩
  have locked : world.step faults (.lockLog call) = some { world with sys := sys } := by
    rw [World.step, here]
    change (world.sys.beginFlush _).bind _ = _
    rw [stepped]
    rfl
  have first := @Proceeds.step faults world _ (.lockLog call) rfl locked
  obtain ⟨final, failure, later, moved⟩ :=
    @proceeds_append faults { world with sys := sys } _ _ _ _ _ _ _ _ here taken
  exact ⟨final, failure, first.trans later, moved⟩

/-- A staged group gets the log: an append that holds it is its own, and a removal ends. -/
theorem Going.append (honest : faults ≠ .any) (going : Going faults base world) {call : Nat}
    {own : List Pending} {staged : Store.Staged}
    (here : world.queue.phase call = .staged own staged) :
    ∃ final failure, Proceeds faults world final ∧
      world.queue.step (.append call failure) = some final.queue := by
  obtain ⟨⟨store, task, landed, stage⟩, phase, joined, tied⟩ := going.running
  have only : ∀ other, (world.queue.phase other).holds = true →
      world.queue.phase other = .staged own staged := by
    intro other holds
    rw [joined.inv.exclusive.alone other call holds (by rw [here]; rfl), here]
  obtain rfl : landed = none := by
    cases landed with
    | none => rfl
    | some other =>
        obtain ⟨holder, group, there⟩ := joined.landed other rfl
        cases there.symm.trans (only holder (by rw [there]; rfl))
  cases task with
  | free => exact going.append_free here phase
  | append group other program => exact proceeds_append here phase
  | rotate cur program =>
      obtain ⟨_, holder, pinned⟩ := tied.rotating cur program rfl
      cases pinned.symm.trans (only holder (by rw [pinned]; rfl))
  | remove program =>
      obtain ⟨middle, reached, same, phase⟩ := proceeds_remove phase
      obtain ⟨final, failure, later, moved⟩ :=
        (going.proceeds honest reached).append_free (same ▸ here) phase
      exact ⟨final, failure, reached.trans later, same ▸ moved⟩

theorem Going.rotate (going : Going faults base world) {call : Nat}
    (here : world.queue.phase call = .pinned) :
    ∃ final, Proceeds faults world final ∧ world.queue.step (.drop call) = some final.queue := by
  obtain ⟨⟨store, task, landed, stage⟩, phase, joined, tied⟩ := going.running
  have only : ∀ other, (world.queue.phase other).holds = true →
      world.queue.phase other = .pinned := by
    intro other holds
    rw [joined.inv.exclusive.alone other call holds (by rw [here]; rfl), here]
  have seeks : (world.queue.phase call).seeks = true := by rw [here]; rfl
  cases task with
  | rotate cur program => exact proceeds_rotate here phase
  | append group staged program =>
      obtain ⟨holder, own, there, _⟩ := joined.appending group staged program rfl
      cases there.symm.trans (only holder (by rw [there]; rfl))
  | remove program => exact absurd seeks (tied.unsought rfl (by simp) call)
  | free =>
      obtain rfl : landed = none := by
        cases landed with
        | none => rfl
        | some other =>
            obtain ⟨holder, group, there⟩ := joined.landed other rfl
            cases there.symm.trans (only holder (by rw [there]; rfl))
      obtain rfl : stage = .idle := by
        cases stage with
        | idle => rfl
        | saving cur boundary program => exact absurd seeks (tied.unsought rfl (by simp) call)
        | saved covered => exact absurd seeks (tied.unsought rfl (by simp) call)
      have small : store.snap.data.size < 2 ^ 64 := by
        obtain ⟨_, _, _, _, running⟩ := going.whole.sys.running phase
        have bound := size_stateAfter_le world.sys.published
        have front := load_le_of_isPrefix joined.published_isPrefix
        have asked := load_le_of_subperm (joined.inv.subperm_requests (Or.inl rfl))
        have room := going.room
        rw [load_append] at front
        rw [List.append_nil] at asked
        rw [show store.snap = _ from running.snap]
        omega
      obtain ⟨sys, stepped, taken⟩ : ∃ sys, world.sys.beginCheckpoint = some sys ∧ sys.phase =
          .running ⟨store, .rotate store.snap store.wal.rotateSegment, none, .idle⟩ := by
        rw [System.beginCheckpoint, phase]
        exact ⟨_, if_pos small, rfl⟩
      have locked : world.step faults (.lockLog call) = some { world with sys := sys } := by
        rw [World.step, here]
        change world.sys.beginCheckpoint.bind _ = _
        rw [stepped]
        rfl
      have first := @Proceeds.step faults world _ (.lockLog call) rfl locked
      obtain ⟨final, later, moved⟩ :=
        @proceeds_rotate faults { world with sys := sys } _ _ _ _ _ _ here taken
      exact ⟨final, first.trans later, moved⟩

theorem Going.publish (going : Going faults base world) {call : Nat} {own : List Pending}
    {staged : Store.Staged} (here : world.queue.phase call = .landed own staged) :
    ∃ final, Proceeds faults world final ∧
      world.queue.step (.publish call) = some final.queue := by
  obtain ⟨⟨store, task, landed, stage⟩, phase, joined, tied⟩ := going.running
  obtain ⟨other, rfl⟩ := Option.isSome_iff_exists.mp (tied.landed call own staged here)
  obtain ⟨queue, moved⟩ : ∃ queue, world.queue.step (.publish call) = some queue :=
    ⟨_, by rw [CommitQueue.State.step, here]⟩
  obtain ⟨sys, stepped⟩ : ∃ sys, world.sys.publish = some sys := ⟨_, by rw [System.publish, phase]⟩
  refine ⟨{ world with sys := sys, queue := queue }, @Proceeds.step _ _ _ (.publish call) rfl ?_,
    moved⟩
  change world.sys.publish.bind _ = _
  rw [stepped]
  change (world.queue.step (.publish call)).bind _ = _
  rw [moved]
  rfl

/-! ### Every call returns -/

theorem Going.inv (going : Going faults base world) :
    CommitQueue.Inv (stateAfter base) world.queue := by
  obtain ⟨_, _, joined, _⟩ := going.running
  exact joined.inv

theorem CommitQueue.underway_of_holds {phase : CommitQueue.Phase} (holds : phase.holds = true) :
    phase.underway = true := by
  cases phase <;> first | rfl | cases holds

open CommitQueue in
/-- The holder of the flush flag gets closer to the drop of its guard. -/
theorem Going.further (honest : faults ≠ .any) (going : Going faults base world) {call : Nat}
    (holds : (world.queue.phase call).holds = true) :
    ∃ final, Proceeds faults world final ∧ Further world.queue call final.queue := by
  cases here : world.queue.phase call with
  | claimed group =>
      obtain ⟨final, reached, same⟩ := @Going.inside _ _ _ going (.load call) _ rfl rfl
        (by rw [State.step, here])
      refine ⟨final, reached, same ▸ ?_⟩
      exact .on (by simp [Phase.holds]) (by simp [here, Phase.rank]) (by simp +contextual)
  | staged group staged =>
      obtain ⟨final, failure, reached, moved⟩ := going.append honest here
      refine ⟨final, reached, ?_⟩
      rw [State.step, here] at moved
      generalize final.queue = queue at moved
      cases failure with
      | none =>
          cases moved
          exact .on (by simp [Phase.holds]) (by simp [here, Phase.rank]) (by simp +contextual)
      | some failure =>
          cases moved
          exact .on (by simp [Phase.holds]) (by simp [here, Phase.rank, failed])
            (by simp +contextual)
  | landed group staged =>
      obtain ⟨final, reached, moved⟩ := going.publish here
      refine ⟨final, reached, ?_⟩
      rw [State.step, here] at moved
      generalize final.queue = queue at moved
      cases moved
      exact .on (by simp [Phase.holds]) (by simp [here, Phase.rank]) (by simp +contextual)
  | published group staged =>
      obtain ⟨final, reached, same⟩ := @Going.inside _ _ _ going (.storeIndex call) _ rfl rfl
        (by rw [State.step, here])
      have short := length_due_le group staged
      refine ⟨final, reached, same ▸ ?_⟩
      exact .on (by simp [Phase.holds]) (by simp [here, Phase.rank]; omega) (by simp +contextual)
  | settling rest =>
      cases rest with
      | nil =>
          have owing : world.queue.ledger.standing call = .owing [] := by
            change (world.queue.phase call).standing = _
            rw [here]
            rfl
          have settled : world.queue.tickets call ≠ none :=
            (going.inv.ledger.owedOnce call [] owing).2.resolve_left List.not_mem_nil
          obtain ⟨done, settled⟩ := Option.ne_none_iff_exists'.mp settled
          obtain ⟨final, reached, same⟩ := @Going.inside _ _ _ going (.take call) _ rfl rfl
            (by rw [State.step, here, settled])
          refine ⟨final, reached, same ▸ ?_⟩
          exact .on (by simp [Phase.holds]) (by simp [here, Phase.rank]) (by simp +contextual)
      | cons entry rest =>
          obtain ⟨final, reached, same⟩ := @Going.inside _ _ _ going (.settle call) _ rfl rfl
            (by rw [State.step, here])
          refine ⟨final, reached, same ▸ ?_⟩
          exact .on (by simp [Phase.holds]) (by simp [here, Phase.rank]) (by simp +contextual)
  | releasing done =>
      obtain ⟨final, reached, same⟩ := @Going.inside _ _ _ going (.drop call) _ rfl
        (by rw [World.admits, here]) (by rw [State.step, here])
      refine ⟨final, reached, same ▸ ?_⟩
      exact .ended (by simp [Phase.underway]) rfl (by simp +contextual)
  | instant =>
      obtain ⟨final, reached, same⟩ := @Going.inside _ _ _ going (.load call) _ rfl rfl
        (by rw [State.step, here])
      refine ⟨final, reached, same ▸ ?_⟩
      exact .on (by simp [Phase.holds]) (by simp [here, Phase.rank]) (by simp +contextual)
  | pinned =>
      obtain ⟨final, reached, moved⟩ := going.rotate here
      refine ⟨final, reached, ?_⟩
      rw [State.step, here] at moved
      generalize final.queue = queue at moved
      cases moved
      exact .ended (by simp [Phase.underway]) rfl (by simp +contextual)
  | _ =>
      rw [here] at holds
      cases holds

theorem Going.drains (honest : faults ≠ .any) (going : Going faults base world) {call : Nat}
    (holds : (world.queue.phase call).holds = true) :
    ∃ final, Proceeds faults world final ∧ (final.queue.phase call).underway = false ∧
      ∀ other, other ≠ call → final.queue.phase other = (world.queue.phase other).woken := by
  generalize bound : (world.queue.phase call).rank = steps
  induction steps using Nat.strongRecOn generalizing world with
  | ind steps ih =>
      obtain ⟨next, reached, further⟩ := going.further honest holds
      cases further with
      | on still closer same =>
          obtain ⟨final, later, closed, woken⟩ :=
            ih _ (bound ▸ closer) (going.proceeds honest reached) still rfl
          refine ⟨final, reached.trans later, closed, ?_⟩
          intro other different
          rw [woken other different, same other different]
      | ended closed flag woken => exact ⟨next, reached, closed, woken⟩

open CommitQueue in
/-- While some call is on its way, one of those can come to its end. -/
theorem Going.ends_one (honest : faults ≠ .any) (going : Going faults base world) {call : Nat}
    (underway : (world.queue.phase call).underway = true) :
    ∃ ended final, Proceeds faults world final ∧ (world.queue.phase ended).underway = true ∧
      (final.queue.phase ended).underway = false ∧
      ∀ other, (final.queue.phase other).underway = true →
        (world.queue.phase other).underway = true := by
  have drained : ∀ {middle : World} {holder : Nat}, Going faults base middle →
      (middle.queue.phase holder).holds = true →
      ∃ final, Proceeds faults middle final ∧ (final.queue.phase holder).underway = false ∧
        ∀ other, (final.queue.phase other).underway = true →
          (middle.queue.phase other).underway = true := by
    intro middle holder going holds
    obtain ⟨final, reached, closed, woken⟩ := going.drains honest holds
    refine ⟨final, reached, closed, ?_⟩
    intro other still
    by_cases same : other = holder
    · rw [same, closed] at still
      cases still
    · rw [woken other same, woken_underway] at still
      exact still
  have inv := going.inv
  cases up : world.queue.flushing with
  | true =>
      obtain ⟨holder, holds⟩ := inv.exclusive.held up
      obtain ⟨final, reached, closed, others⟩ := drained going holds
      exact ⟨holder, final, reached, underway_of_holds holds, closed, others⟩
  | false =>
      -- nobody sleeps, so the call runs for the queue lock and gets it
      have resumed : ∃ next, Proceeds faults world next ∧
          ((next.queue.phase call).underway = false ∨ (next.queue.phase call).holds = true) ∧
          ∀ other, (next.queue.phase other).underway = true →
            (world.queue.phase other).underway = true := by
        rcases underway_cases underway with holds | (here | here) | sleeps
        · exact absurd (inv.exclusive.flagged call holds) (by simp [up])
        · obtain ⟨next, reached, same⟩ := @Going.inside _ _ _ going (.resume call) _ rfl rfl
            (by rw [State.step, here])
          refine ⟨next, reached, ?_⟩
          rw [same, State.turn]
          split
          · exact ⟨Or.inl (by simp [Phase.underway]), by grind [Phase.underway]⟩
          · rw [up]
            exact ⟨Or.inr (by simp [Phase.holds]), by grind [Phase.underway]⟩
        · obtain ⟨next, reached, same⟩ := @Going.inside _ _ _ going (.resume call) _ rfl rfl
            (by rw [State.step, here])
          refine ⟨next, reached, ?_⟩
          rw [same, State.seek, up]
          exact ⟨Or.inr (by simp [Phase.holds]), by grind [Phase.underway]⟩
        · exact absurd (inv.exclusive.asleep call sleeps) (by simp [up])
      obtain ⟨next, reached, closed | holds, others⟩ := resumed
      · exact ⟨call, next, reached, underway, closed, others⟩
      · obtain ⟨final, later, closed, fewer⟩ := drained (going.proceeds honest reached) holds
        exact ⟨call, final, reached.trans later, underway, closed,
          fun other still => others other (fewer other still)⟩

theorem Going.ends_all (honest : faults ≠ .any) (going : Going faults base world)
    (calls : List Nat)
    (known : ∀ call, (world.queue.phase call).underway = true → call ∈ calls) :
    ∃ final, Proceeds faults world final ∧
      ∀ call, (final.queue.phase call).underway = false := by
  generalize bound : calls.length = count
  induction count using Nat.strongRecOn generalizing world calls with
  | ind count ih =>
      by_cases quiet : ∀ call, (world.queue.phase call).underway = false
      · exact ⟨world, .refl world, quiet⟩
      · obtain ⟨call, busy⟩ := not_forall.mp quiet
        obtain ⟨ended, next, reached, before, closed, others⟩ :=
          going.ends_one honest (Bool.not_eq_false _ ▸ busy)
        have member := known ended before
        have fewer :
            ∀ other, (next.queue.phase other).underway = true → other ∈ calls.erase ended := by
          intro other still
          refine (List.mem_erase_of_ne ?_).mpr (known other (others other still))
          rintro rfl
          rw [closed] at still
          cases still
        have shorter : (calls.erase ended).length < count := by
          have positive := List.length_pos_of_mem member
          rw [List.length_erase_of_mem member]
          omega
        obtain ⟨final, later, ends⟩ :=
          ih _ shorter (going.proceeds honest reached) _ fewer rfl
        exact ⟨final, reached.trans later, ends⟩

theorem proceeds_saved {store : Store} {covered : Nat}
    (phase : world.sys.phase = .running ⟨store, .free, none, .saved covered⟩) :
    ∃ final, Proceeds faults world final ∧ final.queue = world.queue ∧
      final.sys.phase = .running ⟨store, .free, none, .idle⟩ := by
  obtain ⟨sys, stepped, taken⟩ : ∃ sys, world.sys.beginRemove = some sys ∧ sys.phase =
      .running ⟨store, .remove (store.wal.removeSegmentsBefore covered), none, .idle⟩ := by
    rw [System.beginRemove, phase]
    exact ⟨_, rfl, rfl⟩
  have began : world.step faults (.outside .beginRemove) = some { world with sys := sys } := by
    change world.sys.beginRemove.bind _ = _
    rw [stepped]
    rfl
  have first := @Proceeds.step faults world _ (.outside .beginRemove) rfl began
  obtain ⟨final, later, same, ended⟩ :=
    @proceeds_remove faults { world with sys := sys } _ _ _ _ taken
  exact ⟨final, first.trans later, same, ended⟩

theorem proceeds_idle {store : Store} {stage : Stage}
    (phase : world.sys.phase = .running ⟨store, .free, none, stage⟩) :
    ∃ final after, Proceeds faults world final ∧ final.queue = world.queue ∧
      final.sys.phase = .running ⟨after, .free, none, .idle⟩ := by
  cases stage with
  | idle => exact ⟨world, store, .refl world, rfl, phase⟩
  | saved covered =>
      obtain ⟨final, reached, same, idle⟩ := proceeds_saved phase
      exact ⟨final, store, reached, same, idle⟩
  | saving cur boundary program =>
      obtain ⟨result, files, ended⟩ := proceeds_file phase
      cases result with
      | error failure =>
          exact ⟨_, store, ended.trans (@Proceeds.step _ _ _ (.outside .endSave) rfl rfl), rfl, rfl⟩
      | ok done =>
          obtain ⟨middle, saved, same, phase⟩ : ∃ middle, Proceeds faults world middle ∧
              middle.queue = world.queue ∧ middle.sys.phase =
                .running ⟨store.saved boundary, .free, none, .saved store.prevBoundary⟩ :=
            ⟨_, ended.trans (@Proceeds.step _ _ _ (.outside .endSave) rfl rfl), rfl, rfl⟩
          obtain ⟨final, later, also, idle⟩ := proceeds_saved phase
          exact ⟨final, _, saved.trans later, also.trans same, idle⟩

/-- When all calls are over, the store comes to rest and can be closed. -/
theorem Going.closes (honest : faults ≠ .any) (going : Going faults base world)
    (quiet : ∀ call, (world.queue.phase call).underway = false) :
    ∃ final closed, Proceeds faults world final ∧ final.queue = world.queue ∧
      final.ckpt = false ∧ final.step faults .close = some closed := by
  have idle : ∀ call phase, phase.underway = true → world.queue.phase call ≠ phase := by
    rintro call phase underway rfl
    rw [quiet call] at underway
    cases underway
  obtain ⟨⟨store, task, landed, stage⟩, phase, joined, tied⟩ := going.running
  obtain rfl : landed = none := by
    cases landed with
    | none => rfl
    | some other =>
        obtain ⟨holder, group, there⟩ := joined.landed other rfl
        exact absurd there (idle holder _ rfl)
  obtain ⟨middle, freed, same, free⟩ : ∃ middle, Proceeds faults world middle ∧
      middle.queue = world.queue ∧ middle.sys.phase = .running ⟨store, .free, none, stage⟩ := by
    cases task with
    | free => exact ⟨world, .refl world, rfl, phase⟩
    | append group staged program =>
        obtain ⟨holder, own, there, _⟩ := joined.appending group staged program rfl
        exact absurd there (idle holder _ rfl)
    | rotate cur program =>
        obtain ⟨_, holder, there⟩ := tied.rotating cur program rfl
        exact absurd there (idle holder _ rfl)
    | remove program => exact proceeds_remove phase
  obtain ⟨final, after, later, also, rests⟩ := proceeds_idle free
  have reached := freed.trans later
  obtain ⟨live, running, _, held⟩ := (going.proceeds honest reached).running
  rw [rests] at running
  cases running
  have unlocked : final.ckpt = false := by
    refine Bool.eq_false_iff.mpr (fun locked => ?_)
    rcases held.locked.mp locked with ⟨call, seeks⟩ | checkpointing
    · have returned := quiet call
      rw [also, same] at seeks
      cases there : world.queue.phase call <;>
        simp [there, CommitQueue.Phase.seeks, CommitQueue.Phase.underway] at seeks returned
    · cases checkpointing
  have noneUnderway : final.calls.any (fun call => (final.queue.phase call).underway) = false := by
    simp [also, same, quiet]
  refine ⟨final, { final with sys := { final.sys with phase := .closed } }, reached,
    also.trans same, unlocked, ?_⟩
  rw [World.step, unlocked, noneUnderway]
  change final.sys.close.bind _ = _
  rw [System.close, rests]
  rfl

end Going

/-! ### Every run -/

/-- The store and its locks, whoever has it open. -/
structure Held (faults : Faults) (world : World) : Prop where
  whole : Whole faults world
  tied : ∀ live, world.sys.phase = .running live → Tied live world

section Held

variable {faults : Faults} {world next : World}

theorem Tied.opened (sys : System) (store : Store) (past : List (List Note)) :
    Tied ⟨store, .free, none, .idle⟩ ⟨sys, .opened store.snap, false, [], past⟩ := by
  constructor <;>
    simp [CommitQueue.State.opened, CommitQueue.requests, CommitQueue.Phase.underway,
      CommitQueue.Phase.seeks, Live.checkpointing, Phase.checkpointing]

theorem running_before {after : Live} (moves : World.Moves faults world next)
    (phase : next.sys.phase = .running after) :
    (∃ live, world.sys.phase = .running live) ∨ Tied after next := by
  have besides : ∀ {sys}, World.Beside world.sys sys → sys.phase = .running after →
      ∃ live, world.sys.phase = .running live := by
    intro sys beside running
    obtain ⟨before, earlier, _⟩ := beside.live after running
    exact ⟨before, earlier⟩
  cases moves with
  | inside running => exact Or.inl ⟨_, running⟩
  | beginFlush here moved =>
      cases System.step_moves moved with
      | beginFlush _ _ _ running => exact Or.inl ⟨_, running⟩
  | beginCheckpoint here moved => exact Or.inl (besides (World.beside_of_step rfl moved) phase)
  | appended running => exact Or.inl ⟨_, running⟩
  | publish moved also =>
      cases System.step_moves moved with
      | publish _ _ _ _ running => exact Or.inl ⟨_, running⟩
  | rotated here moved also => exact Or.inl (besides (World.beside_of_step rfl moved) phase)
  | outside aside moved =>
      exact Or.inl (besides (World.beside_of_step (World.touches_of_aside aside) moved) phase)
  | stopped beside stops => exact absurd phase (stops after)
  | opened opening moved =>
      cases System.step_moves moved with
      | opened store again =>
          rw [opening] at again
          cases again
          cases phase
          exact Or.inr (Tied.opened ..)
      | refused failure again =>
          rw [opening] at again
          cases again

theorem Held.step {event : World.Event} (honest : faults ≠ .any) (held : Held faults world)
    (stepped : world.step faults event = some next) : Held faults next := by
  have moves := World.step_moves stepped
  refine ⟨held.whole.step honest stepped, ?_⟩
  intro after phase
  rcases running_before moves phase with ⟨live, before⟩ | tied
  · obtain ⟨base, joined⟩ := held.whole.joined live before
    exact (held.tied live before).moves joined held.whole.sys before moves phase
  · exact tied

theorem Held.run {events : List World.Event} (honest : faults ≠ .any)
    (ran : runSteps (World.step faults) World.initial events = some world) : Held faults world :=
  runSteps_invariant (Held faults) (fun held stepped => held.step honest stepped)
    ⟨Whole.initial, by simp [World.initial, System.initial]⟩ ran

end Held

/-- No deadlock: in every run, from any moment at which the store is open and counts and
indices have room for what was asked, the calls on their way can go on, with file-system
calls that succeed and without new ones, until the locks are free, the queue is empty, every
commit has its result and the store can be closed. -/
theorem concurrent_store_comes_to_rest {faults : Faults} {events : List World.Event}
    {world : World} {live : Live} (honest : faults ≠ .any)
    (ran : runSteps (World.step faults) World.initial events = some world)
    (phase : world.sys.phase = .running live)
    (room : load world.sys.published +
      load ((requests world.queue.history).map Pending.ops) < 2 ^ 64) :
    ∃ final closed, Proceeds faults world final ∧ final.ckpt = false ∧
      final.queue.flushing = false ∧ final.queue.pending = [] ∧
      final.step faults .close = some closed ∧
      ∀ call ops, .enqueued call ops ∈ world.queue.history →
        ∃ done, .returned call done ∈ final.queue.history := by
  have held := Held.run honest ran
  obtain ⟨base, joined⟩ := held.whole.joined live phase
  have tied := held.tied live phase
  obtain ⟨_, _, _, _, consistent⟩ := held.whole.sys.running phase
  have opened := load_le_of_isPrefix (joined.base_isPrefix consistent.snap)
  have going : Going faults base world :=
    ⟨held.whole, ⟨live, phase, joined, tied⟩, by omega⟩
  obtain ⟨middle, ended, quiet⟩ := going.ends_all honest world.calls tied.known
  obtain ⟨final, closed, rested, same, unlocked, closes⟩ :=
    (going.proceeds honest ended).closes honest quiet
  have reached := ended.trans rested
  have inv := (going.proceeds honest reached).inv
  obtain ⟨released, emptied⟩ := inv.at_rest (fun call => same ▸ quiet call)
  refine ⟨final, closed, reached, unlocked, released, emptied, closes, ?_⟩
  intro call ops asked
  have still : .enqueued call ops ∈ final.queue.history := by
    have request : ⟨ops, call⟩ ∈ requests world.queue.history :=
      CommitQueue.mem_requests.mpr asked
    rw [← going.requests_proceeds honest reached] at request
    exact CommitQueue.mem_requests.mp request
  have made := inv.recorded.enqueued call ops still
  have returned := quiet call
  rw [← same] at returned
  cases there : final.queue.phase call with
  | returned done => exact ⟨done, (inv.recorded.returned call done).mpr (by rw [there]; rfl)⟩
  | unborn => exact absurd (by rw [there]; rfl) made
  | refused failure => exact absurd (by rw [there]; rfl) made
  | past => exact absurd (by rw [there]; rfl) made
  | _ =>
      rw [there] at returned
      cases returned

/-- A writer in its append, two that wait for it and a checkpoint that waits too. -/
def crowded : List World.Event :=
  [.outside (.beginOpen {})] ++ outsideCalls 7 ++
    [.endOpen, .inside (.commit 0 [.put [97] [1]]), .inside (.commit 1 [.put [97] [2]]),
     .inside (.checkpoint 2), .inside (.commit 3 [.delete [97]]), .inside (.load 0), .lockLog 0] ++
    outsideCalls 1

theorem concurrent_store_comes_to_rest_when_crowded :
    ∃ world final closed, runSteps (World.step .none) World.initial crowded = some world ∧
      world.ckpt = true ∧ world.queue.flushing = true ∧ Proceeds .none world final ∧
      final.ckpt = false ∧ final.queue.flushing = false ∧ final.queue.pending = [] ∧
      final.step .none .close = some closed ∧
      ∃ done, .returned 3 done ∈ final.queue.history := by
  have facts : (runSteps (World.step .none) World.initial crowded).map (fun world =>
      ((world.sys.phase.isRunning, world.sys.published, world.ckpt, world.queue.flushing),
        requests world.queue.history)) =
      some ((true, [], true, true),
        [⟨[.put [97] [1]], 0⟩, ⟨[.put [97] [2]], 1⟩, ⟨[.delete [97]], 3⟩]) := by
    decide +kernel
  obtain ⟨world, ran, seen⟩ := Option.map_eq_some_iff.mp facts
  obtain ⟨⟨running, published, locked, flushing⟩, asked⟩ :
      (world.sys.phase.isRunning = true ∧ world.sys.published = [] ∧ world.ckpt = true ∧
        world.queue.flushing = true) ∧ requests world.queue.history =
        [⟨[.put [97] [1]], 0⟩, ⟨[.put [97] [2]], 1⟩, ⟨[.delete [97]], 3⟩] := by
    simpa using seen
  obtain ⟨live, phase⟩ : ∃ live, world.sys.phase = .running live := by
    cases phase : world.sys.phase with
    | running live => exact ⟨live, rfl⟩
    | closed => simp [phase, Phase.isRunning] at running
    | opening program => simp [phase, Phase.isRunning] at running
  have waiting : .enqueued 3 [.delete [97]] ∈ world.queue.history :=
    @CommitQueue.mem_requests _ ⟨[.delete [97]], 3⟩ |>.mp (by rw [asked]; simp)
  obtain ⟨final, closed, reached, unlocked, released, emptied, closes, answered⟩ :=
    concurrent_store_comes_to_rest (by decide) ran phase (by rw [published, asked]; decide)
  exact ⟨world, final, closed, ran, locked, flushing, reached, unlocked, released, emptied,
    closes, answered 3 _ waiting⟩

end Keystory
