/-
Group commit as its threads run it. Each section under the queue lock, each use of
a ticket, each load and store of the published snapshot and index, and the append
itself is one step; calls of any number of writers, checkpoints and readers take
their steps in any order. A sleeper has given the queue lock up and runs again
after the guard of a flush is dropped, or for no reason at all. Whether the log
takes a group is left open.
-/

import Keystory.Engine.History
import Keystory.General.Combining
import Keystory.General.Steps

namespace Keystory.CommitQueue

open General

/-- What a ticket carries: the commit index, or the failure of the group. -/
abbrev Outcome := Except Failure Nat

/-- A queued commit. Its ticket is named after the call that made it. -/
structure Pending where
  ops : List Op
  ticket : Nat
deriving DecidableEq

/-- Where a call stands between two of its steps. -/
inductive Phase where
  | unborn
  /-- `check_ops` turned the commit away -/
  | refused (failure : Failure)
  /-- a commit at the head of its loop, running for the queue lock -/
  | looping
  | asleep
  /-- it has claimed the flush and drained the queue -/
  | claimed (group : List Pending)
  /-- `flush_group` has applied the group to a copy of the snapshot -/
  | staged (group : List Pending) (staged : Store.Staged)
  | landed (group : List Pending) (staged : Store.Staged)
  | published (group : List Pending) (staged : Store.Staged)
  /-- the flush is over; these results are not in their tickets yet -/
  | settling (due : List (Nat × Outcome))
  /-- the own ticket is taken; the guard still lives -/
  | releasing (done : Outcome)
  | returned (done : Outcome)
  /-- a checkpoint at the head of the loop of `exclusive_instant` -/
  | seeking
  | dozing
  | instant
  | pinned
  /-- the checkpoint goes on outside the queue -/
  | past

/-- The call lives between the claim of the flag and the drop of its guard. -/
def Phase.holds : Phase → Bool
  | .claimed _ | .staged _ _ | .landed _ _ | .published _ _ | .settling _ | .releasing _ => true
  | .instant | .pinned => true
  | .unborn | .refused _ | .looping | .asleep | .returned _ | .seeking | .dozing | .past => false

def Phase.sleeps : Phase → Bool
  | .asleep | .dozing => true
  | .claimed _ | .staged _ _ | .landed _ _ | .published _ _ | .settling _ | .releasing _ => false
  | .unborn | .refused _ | .looping | .returned _ | .seeking | .instant | .pinned | .past => false

def Phase.woken : Phase → Phase
  | .asleep => .looping
  | .dozing => .seeking
  | phase => phase

/-- What can be told of a run from outside, in the order it happened. -/
inductive Note where
  | enqueued (call : Nat) (ops : List Op)
  /-- the records of the group are handed to `append_many` -/
  | handed (group : List Pending)
  | published (snapshot : Snapshot)
  /-- a load of the published snapshot, by anyone -/
  | loaded (snapshot : Snapshot)
  | readIndex (index : Nat)
  | returned (call : Nat) (done : Outcome)

/-- The shared state, the calls on their way, the commits the log has and the history. -/
structure State where
  pending : List Pending
  flushing : Bool
  tickets : Nat → Option Outcome
  snap : Snapshot
  index : Nat
  phase : Nat → Phase
  commits : List Pending
  history : List Note

def State.opened (base : Snapshot) : State where
  pending := []
  flushing := false
  tickets := fun _ => none
  snap := base
  index := base.index
  phase := fun _ => .unborn
  commits := []
  history := []

namespace State

def goto (state : State) (call : Nat) (phase : Phase) : State :=
  { state with phase := Function.update state.phase call phase }

def note (state : State) (entry : Note) : State :=
  { state with history := state.history ++ [entry] }

/-- `Ticket::set`, and `Ticket::take` with `none`. -/
def setTicket (state : State) (call : Nat) (result : Option Outcome) : State :=
  { state with tickets := Function.update state.tickets call result }

/-- The push of `commit_ops`; the loop follows under the same lock. -/
def enqueue (state : State) (call : Nat) (ops : List Op) : State :=
  let commit : Pending := { ops, ticket := call }
  ({ state with pending := state.pending ++ [commit] }.note (.enqueued call ops)).goto call .looping

/-- The loop body of `commit_ops`, until the queue lock is given up. -/
def turn (state : State) (call : Nat) : State :=
  match state.tickets call with
  | some done => ((state.setTicket call none).note (.returned call done)).goto call (.returned done)
  | none =>
      if state.flushing then
        state.goto call .asleep
      else
        { state with flushing := true, pending := [] }.goto call (.claimed state.pending)

/-- The loop of `exclusive_instant`, until the queue lock is given up. -/
def seek (state : State) (call : Nat) : State :=
  if state.flushing then
    state.goto call .dozing
  else
    { state with flushing := true }.goto call .instant

/-- `FlushGuard::drop`. -/
def dropGuard (state : State) : State :=
  { state with flushing := false, phase := fun call => (state.phase call).woken }

end State

def due (group : List Pending) (staged : Store.Staged) : List (Nat × Outcome) :=
  (group.zip staged.indices).map (fun entry => (entry.1.ticket, .ok entry.2))

def failed (failure : Failure) (group : List Pending) : List (Nat × Outcome) :=
  group.map (fun commit => (commit.ticket, .error failure))

inductive Event where
  | commit (call : Nat) (ops : List Op)
  | checkpoint (call : Nat)
  /-- an awake call gets the queue lock back -/
  | resume (call : Nat)
  | wake (call : Nat)
  | load (call : Nat)
  | append (call : Nat) (failure : Option Failure)
  | publish (call : Nat)
  | storeIndex (call : Nat)
  | settle (call : Nat)
  | take (call : Nat)
  | drop (call : Nat)
  /-- `snapshot` and `index` of any reader -/
  | snapshot
  | index

def State.step (state : State) : Event → Option State
  | .commit call ops =>
      match state.phase call with
      | .unborn =>
          match Wal.checkOps ops with
          | .error failure =>
              some ((state.note (.returned call (.error failure))).goto call (.refused failure))
          | .ok _ => some ((state.enqueue call ops).turn call)
      | _ => none
  | .checkpoint call =>
      match state.phase call with
      | .unborn => some ((state.goto call .seeking).seek call)
      | _ => none
  | .resume call =>
      match state.phase call with
      | .looping => some (state.turn call)
      | .seeking => some (state.seek call)
      | _ => none
  | .wake call =>
      match state.phase call with
      | .asleep => some (state.goto call .looping)
      | .dozing => some (state.goto call .seeking)
      | _ => none
  | .load call =>
      match state.phase call with
      | .claimed group =>
          some ((state.note (.loaded state.snap)).goto call
            (.staged group (Store.stageGroup state.snap (group.map Pending.ops))))
      | .instant => some ((state.note (.loaded state.snap)).goto call .pinned)
      | _ => none
  | .append call failure =>
      match state.phase call with
      | .staged group staged =>
          match failure with
          | none =>
              some (({ state with commits := state.commits ++ group }.note (.handed group)).goto
                call (.landed group staged))
          | some failure =>
              some ((state.note (.handed group)).goto call (.settling (failed failure group)))
      | _ => none
  | .publish call =>
      match state.phase call with
      | .landed group staged =>
          some (({ state with snap := staged.next }.note (.published staged.next)).goto call
            (.published group staged))
      | _ => none
  | .storeIndex call =>
      match state.phase call with
      | .published group staged =>
          some ({ state with index := staged.next.index }.goto call (.settling (due group staged)))
      | _ => none
  | .settle call =>
      match state.phase call with
      | .settling ((other, done) :: rest) =>
          some ((state.setTicket other (some done)).goto call (.settling rest))
      | _ => none
  | .take call =>
      match state.phase call, state.tickets call with
      | .settling [], some done => some ((state.setTicket call none).goto call (.releasing done))
      | _, _ => none
  | .drop call =>
      match state.phase call with
      | .releasing done =>
          some ((state.dropGuard.note (.returned call done)).goto call (.returned done))
      | .pinned => some (state.dropGuard.goto call .past)
      | _ => none
  | .snapshot => some (state.note (.loaded state.snap))
  | .index => some (state.note (.readIndex state.index))

/-! ### What a step can do -/

section Updates

variable (state : State) (call : Nat) (phase : Phase) (entry : Note) (result : Option Outcome)

@[simp, grind =] theorem goto_phase (other : Nat) :
    (state.goto call phase).phase other = if other = call then phase else state.phase other :=
  Function.update_apply ..

@[simp, grind =] theorem goto_pending : (state.goto call phase).pending = state.pending := rfl

@[simp, grind =] theorem goto_tickets (other : Nat) :
    (state.goto call phase).tickets other = state.tickets other := rfl

@[simp, grind =] theorem goto_snap : (state.goto call phase).snap = state.snap := rfl

@[simp, grind =] theorem goto_index : (state.goto call phase).index = state.index := rfl

@[simp, grind =] theorem goto_commits : (state.goto call phase).commits = state.commits := rfl

@[simp, grind =] theorem goto_history : (state.goto call phase).history = state.history := rfl

@[simp, grind =] theorem note_history : (state.note entry).history = state.history ++ [entry] := rfl

@[simp, grind =] theorem note_pending : (state.note entry).pending = state.pending := rfl

@[simp, grind =] theorem note_tickets (other : Nat) :
    (state.note entry).tickets other = state.tickets other := rfl

@[simp, grind =] theorem note_snap : (state.note entry).snap = state.snap := rfl

@[simp, grind =] theorem note_index : (state.note entry).index = state.index := rfl

@[simp, grind =] theorem note_phase (other : Nat) :
    (state.note entry).phase other = state.phase other := rfl

@[simp, grind =] theorem note_commits : (state.note entry).commits = state.commits := rfl

@[simp, grind =] theorem setTicket_tickets (other : Nat) :
    (state.setTicket call result).tickets other =
      if other = call then result else state.tickets other :=
  Function.update_apply ..

@[simp, grind =] theorem setTicket_pending :
    (state.setTicket call result).pending = state.pending := rfl

@[simp, grind =] theorem setTicket_snap : (state.setTicket call result).snap = state.snap := rfl

@[simp, grind =] theorem setTicket_index : (state.setTicket call result).index = state.index := rfl

@[simp, grind =] theorem setTicket_phase (other : Nat) :
    (state.setTicket call result).phase other = state.phase other := rfl

@[simp, grind =] theorem setTicket_commits :
    (state.setTicket call result).commits = state.commits := rfl

@[simp, grind =] theorem setTicket_history :
    (state.setTicket call result).history = state.history := rfl

@[simp, grind =] theorem enqueue_phase (ops : List Op) (other : Nat) :
    (state.enqueue call ops).phase other =
      if other = call then .looping else state.phase other :=
  Function.update_apply ..

@[simp, grind =] theorem enqueue_pending (ops : List Op) :
    (state.enqueue call ops).pending = state.pending ++ [⟨ops, call⟩] := rfl

@[simp, grind =] theorem enqueue_tickets (ops : List Op) (other : Nat) :
    (state.enqueue call ops).tickets other = state.tickets other := rfl

@[simp, grind =] theorem enqueue_snap (ops : List Op) :
    (state.enqueue call ops).snap = state.snap := rfl

@[simp, grind =] theorem enqueue_index (ops : List Op) :
    (state.enqueue call ops).index = state.index := rfl

@[simp, grind =] theorem enqueue_commits (ops : List Op) :
    (state.enqueue call ops).commits = state.commits := rfl

@[simp, grind =] theorem enqueue_history (ops : List Op) :
    (state.enqueue call ops).history = state.history ++ [.enqueued call ops] := rfl

@[simp, grind =] theorem dropGuard_phase (other : Nat) :
    state.dropGuard.phase other = (state.phase other).woken := rfl

@[simp, grind =] theorem dropGuard_pending : state.dropGuard.pending = state.pending := rfl

@[simp, grind =] theorem dropGuard_tickets (other : Nat) :
    state.dropGuard.tickets other = state.tickets other := rfl

@[simp, grind =] theorem dropGuard_snap : state.dropGuard.snap = state.snap := rfl

@[simp, grind =] theorem dropGuard_index : state.dropGuard.index = state.index := rfl

@[simp, grind =] theorem dropGuard_commits : state.dropGuard.commits = state.commits := rfl

@[simp, grind =] theorem dropGuard_history : state.dropGuard.history = state.history := rfl

end Updates

/-- What happens in a step: one of these, and for a new call two of them under one lock. -/
inductive Moves (state : State) : State → Prop where
  | refuse {call : Nat} {failure : Failure} (fresh : state.phase call = .unborn) :
      Moves state ((state.note (.returned call (.error failure))).goto call (.refused failure))
  | enqueue {call : Nat} {ops : List Op} (fresh : state.phase call = .unborn) :
      Moves state (state.enqueue call ops)
  | done {call : Nat} {done : Outcome} (here : state.phase call = .looping)
      (settled : state.tickets call = some done) :
      Moves state
        (((state.setTicket call none).note (.returned call done)).goto call (.returned done))
  | sleep {call : Nat} (here : state.phase call = .looping) (busy : state.flushing = true) :
      Moves state (state.goto call .asleep)
  | claim {call : Nat} (here : state.phase call = .looping)
      (unsettled : state.tickets call = none) (free : state.flushing = false) :
      Moves state
        ({ state with flushing := true, pending := [] }.goto call (.claimed state.pending))
  | request {call : Nat} (fresh : state.phase call = .unborn) :
      Moves state (state.goto call .seeking)
  | doze {call : Nat} (here : state.phase call = .seeking) (busy : state.flushing = true) :
      Moves state (state.goto call .dozing)
  | seize {call : Nat} (here : state.phase call = .seeking) (free : state.flushing = false) :
      Moves state ({ state with flushing := true }.goto call .instant)
  | wake {call : Nat} (here : state.phase call = .asleep) : Moves state (state.goto call .looping)
  | rouse {call : Nat} (here : state.phase call = .dozing) : Moves state (state.goto call .seeking)
  | load {call : Nat} {group : List Pending} (here : state.phase call = .claimed group) :
      Moves state ((state.note (.loaded state.snap)).goto call
        (.staged group (Store.stageGroup state.snap (group.map Pending.ops))))
  | pin {call : Nat} (here : state.phase call = .instant) :
      Moves state ((state.note (.loaded state.snap)).goto call .pinned)
  | land {call : Nat} {group : List Pending} {staged : Store.Staged}
      (here : state.phase call = .staged group staged) :
      Moves state
        (({ state with commits := state.commits ++ group }.note (.handed group)).goto call
          (.landed group staged))
  | fail {call : Nat} {group : List Pending} {staged : Store.Staged} {failure : Failure}
      (here : state.phase call = .staged group staged) :
      Moves state ((state.note (.handed group)).goto call (.settling (failed failure group)))
  | publish {call : Nat} {group : List Pending} {staged : Store.Staged}
      (here : state.phase call = .landed group staged) :
      Moves state
        (({ state with snap := staged.next }.note (.published staged.next)).goto call
          (.published group staged))
  | storeIndex {call : Nat} {group : List Pending} {staged : Store.Staged}
      (here : state.phase call = .published group staged) :
      Moves state
        ({ state with index := staged.next.index }.goto call (.settling (due group staged)))
  | settle {call other : Nat} {done : Outcome} {rest : List (Nat × Outcome)}
      (here : state.phase call = .settling ((other, done) :: rest)) :
      Moves state ((state.setTicket other (some done)).goto call (.settling rest))
  | take {call : Nat} {done : Outcome} (here : state.phase call = .settling [])
      (settled : state.tickets call = some done) :
      Moves state ((state.setTicket call none).goto call (.releasing done))
  | release {call : Nat} {done : Outcome} (here : state.phase call = .releasing done) :
      Moves state ((state.dropGuard.note (.returned call done)).goto call (.returned done))
  | leave {call : Nat} (here : state.phase call = .pinned) :
      Moves state (state.dropGuard.goto call .past)
  | snapshot : Moves state (state.note (.loaded state.snap))
  | index : Moves state (state.note (.readIndex state.index))

theorem moves_turn {state : State} {call : Nat} (here : state.phase call = .looping) :
    Moves state (state.turn call) := by
  unfold State.turn
  cases settled : state.tickets call with
  | some done => exact .done here settled
  | none =>
      by_cases busy : state.flushing = true
      · rw [if_pos busy]
        exact .sleep here busy
      · rw [if_neg busy]
        exact .claim here settled (Bool.eq_false_iff.mpr busy)

theorem moves_seek {state : State} {call : Nat} (here : state.phase call = .seeking) :
    Moves state (state.seek call) := by
  unfold State.seek
  by_cases busy : state.flushing = true
  · rw [if_pos busy]
    exact .doze here busy
  · rw [if_neg busy]
    exact .seize here (Bool.eq_false_iff.mpr busy)

theorem keeps_of_step {invariant : State → Prop}
    (keeps : ∀ {state next}, invariant state → Moves state next → invariant next)
    {state next : State} {event : Event} (holds : invariant state)
    (stepped : state.step event = some next) : invariant next := by
  cases event with
  | commit call ops =>
      rw [State.step] at stepped
      split at stepped
      case h_1 fresh =>
          split at stepped
          case h_1 =>
              cases stepped
              exact keeps holds (.refuse fresh)
          case h_2 =>
              cases stepped
              exact keeps (keeps holds (.enqueue fresh)) (moves_turn (by simp))
      case h_2 => cases stepped
  | checkpoint call =>
      rw [State.step] at stepped
      split at stepped
      case h_1 fresh =>
          cases stepped
          exact keeps (keeps holds (.request fresh)) (moves_seek (by simp))
      case h_2 => cases stepped
  | resume call =>
      rw [State.step] at stepped
      split at stepped
      case h_1 here =>
          cases stepped
          exact keeps holds (moves_turn here)
      case h_2 here =>
          cases stepped
          exact keeps holds (moves_seek here)
      case h_3 => cases stepped
  | wake call =>
      rw [State.step] at stepped
      split at stepped
      case h_1 here =>
          cases stepped
          exact keeps holds (.wake here)
      case h_2 here =>
          cases stepped
          exact keeps holds (.rouse here)
      case h_3 => cases stepped
  | load call =>
      rw [State.step] at stepped
      split at stepped
      case h_1 group here =>
          cases stepped
          exact keeps holds (.load here)
      case h_2 here =>
          cases stepped
          exact keeps holds (.pin here)
      case h_3 => cases stepped
  | append call failure =>
      rw [State.step] at stepped
      split at stepped
      case h_1 group staged here =>
          cases failure with
          | none =>
              cases stepped
              exact keeps holds (.land here)
          | some failure =>
              cases stepped
              exact keeps holds (.fail here)
      case h_2 => cases stepped
  | publish call =>
      rw [State.step] at stepped
      split at stepped
      case h_1 group staged here =>
          cases stepped
          exact keeps holds (.publish here)
      case h_2 => cases stepped
  | storeIndex call =>
      rw [State.step] at stepped
      split at stepped
      case h_1 group staged here =>
          cases stepped
          exact keeps holds (.storeIndex here)
      case h_2 => cases stepped
  | settle call =>
      rw [State.step] at stepped
      split at stepped
      case h_1 other done rest here =>
          cases stepped
          exact keeps holds (.settle here)
      case h_2 => cases stepped
  | take call =>
      rw [State.step] at stepped
      split at stepped
      case h_1 done here settled =>
          cases stepped
          exact keeps holds (.take here settled)
      case h_2 => cases stepped
  | drop call =>
      rw [State.step] at stepped
      split at stepped
      case h_1 done here =>
          cases stepped
          exact keeps holds (.release here)
      case h_2 here =>
          cases stepped
          exact keeps holds (.leave here)
      case h_3 => cases stepped
  | snapshot =>
      cases stepped
      exact keeps holds .snapshot
  | index =>
      cases stepped
      exact keeps holds .index

end Keystory.CommitQueue
