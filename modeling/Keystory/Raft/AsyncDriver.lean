/-
The cluster behind the async interface.

`put`, `get` and `scan` wait at a modelled I/O boundary and then make the synchronous
call; `run` drives one async workload on a scheduler of its own. Whatever a workload
that ends does with the answers it gets, driving it gives the output and leaves the
cluster that the calls made one after another would.
-/

import Keystory.Raft.Recorded
import Keystory.Rt.Executor

namespace Keystory.Raft.AsyncDriver

open General Rt Checker

inductive Request where
  | put (key value : Bytes)
  | get (key : Bytes)
  | scan (pref : Bytes)
deriving DecidableEq, Repr

def Request.call : Request → Call
  | .put key value => .put key value
  | .get key => .get key
  | .scan pref => .scan pref

variable {Result : Type}

/-- What a driven workload may ask for: a call of the cluster, or its output to be put
into the cell `block_on` reads it from. -/
abbrev Answer : Request ⊕ Result → Type
  | .inl _ => Reply
  | .inr _ => Unit

abbrev Driven (Result : Type) := Future (Request ⊕ Result) Answer

def serve : (request : Request ⊕ Result) → RaftCluster × Option Result →
    Option (Answer request × (RaftCluster × Option Result))
  | .inl request, (cluster, out) =>
      (cluster.call request.call).map (fun result => (result.2, (result.1, out)))
  | .inr output, (cluster, _) => some ((), (cluster, some output))

def afterYield (request : Request) (next : Reply → Driven Result) : Driven Result :=
  .yieldOnce false (.call (.inl request) next)

def put (key value : Bytes) (next : Reply → Driven Result) : Driven Result :=
  afterYield (.put key value) next

def get (key : Bytes) (next : Reply → Driven Result) : Driven Result :=
  afterYield (.get key) next

def scan (pref : Bytes) (next : Reply → Driven Result) : Driven Result :=
  afterYield (.scan pref) next

/-- An async block that awaits calls one after another, and ends whatever they return. -/
abbrev Workload (Result : Type) := Program Request (fun _ => Reply) Result

/-- The root future of `block_on`: the block, and then its output into the cell. -/
def root : Workload Result → Driven Result
  | .done output => .call (.inr output) (fun _ => .ready)
  | .call (.put key value) next => put key value (fun reply => root (next reply))
  | .call (.get key) next => get key (fun reply => root (next reply))
  | .call (.scan pref) next => scan pref (fun reply => root (next reply))

/-- `run`: a fresh scheduler's `block_on`. Without an output in the cell it panics. -/
def run (fuel : Nat) (work : Workload Result) (cluster : RaftCluster) :
    Option (Result × RaftCluster) := do
  let ready ← (Executor.new (cluster, none)).add (root work)
  let ended ← ready.run serve fuel
  let output ← ended.shared.2
  return (output, ended.shared.1)

def serveNow (request : Request) (cluster : RaftCluster) : Option (Reply × RaftCluster) :=
  (cluster.call request.call).map Prod.swap

/-! ### Driven is synchronous -/

theorem root_call (request : Request) (next : Reply → Workload Result) :
    root (.call request next) = afterYield request (fun reply => root (next reply)) := by
  cases request <;> rfl

theorem drains_root {work : Workload Result} {cluster final : RaftCluster} {output : Result}
    {cell : Option Result} (ran : work.attempt serveNow cluster = some (output, final)) :
    Task.Drains serve [(root work).task] (cluster, cell) (some (final, some output)) := by
  induction work generalizing cluster with
  | done result =>
      cases ran
      exact .call rfl (.turn rfl (.empty _))
  | call request next ih =>
      obtain ⟨⟨reply, middle⟩, served, rest⟩ := Option.bind_eq_some_iff.mp ran
      obtain ⟨⟨after, answer⟩, called, same⟩ := Option.map_eq_some_iff.mp served
      cases same
      have answered : serve (.inl request) (cluster, cell) = some (answer, (after, cell)) := by
        rw [serve, called]
        rfl
      rw [root_call]
      exact .turn rfl (.call answered (ih answer rest))

theorem run_of_attempt {work : Workload Result} {cluster final : RaftCluster} {output : Result}
    (ran : work.attempt serveNow cluster = some (output, final)) :
    ∃ rounds, ∀ fuel, rounds ≤ fuel → run fuel work cluster = some (output, final) := by
  obtain ⟨ready, id, added, lined, queue, phase, _, shared, _⟩ :=
    (Executor.Lined.new (cluster, (none : Option Result))).add (root work)
  have line : ready.Lined ready.sched.queue [(root work).task] := by
    rw [queue]
    exact lined
  have here : ready.shared = (cluster, none) := shared
  obtain ⟨rounds, ended, runs, _, _, _, state⟩ :=
    (line.run phase (here.symm ▸ drains_root ran)).1 _ rfl
  refine ⟨rounds, ?_⟩
  intro fuel enough
  rw [run, added, Option.bind_eq_bind, Option.bind_some, runs fuel enough, Option.bind_eq_bind,
    Option.bind_some, state]
  rfl

/-! ### On a cluster with a recorder -/

theorem attempt_recorded {n : Nat} {acked : Log} {events : List Recording} {cluster : RaftCluster}
    (recorded : cluster.Recorded n acked events) (work : Workload Result) :
    ∃ output final longer more, work.attempt serveNow cluster = some (output, final) ∧
      final.Recorded n longer more := by
  induction work generalizing cluster acked events with
  | done result => exact ⟨result, cluster, acked, events, rfl, recorded⟩
  | call request next ih =>
      obtain ⟨middle, reply, stepped⟩ := recorded.call_step request.call
      obtain ⟨between, first, kept, _⟩ := stepped.recorded
      obtain ⟨output, final, longer, more, ran, ended⟩ := ih reply kept
      refine ⟨output, final, longer, more, ?_, ended⟩
      rw [Program.attempt, serveNow, stepped.called]
      exact ran

/-- On a cluster with a recorder, after any calls made on it before: driving a workload that
ends comes to its end, its output and the cluster it leaves are those of its calls made at
once, and the checker finds no violation in what has been recorded. -/
theorem async_run_is_synchronous (n : Nat) (positive : 1 ≤ n) (calls : List Call)
    (work : Workload Result) :
    ∃ cluster trace output final model rounds,
      (RaftCluster.withModel n Model.new).run calls = some (cluster, trace) ∧
      work.attempt serveNow cluster = some (output, final) ∧
      (∀ fuel, rounds ≤ fuel → run fuel work cluster = some (output, final)) ∧
      final.model = some model ∧ model.check.1.violations = [] := by
  obtain ⟨cluster, trace, acked, events, ran, _, recorded, _⟩ :=
    (RaftCluster.Recorded.initial positive).run_steps calls
  obtain ⟨output, final, longer, more, attempted, ended⟩ := attempt_recorded recorded work
  obtain ⟨rounds, driven⟩ := run_of_attempt attempted
  refine ⟨cluster, trace, output, final, Model.recordAll more, rounds, ran, attempted, driven,
    ended.model, ?_⟩
  rw [ended.check_eq]

def increment : Workload (Option Bytes) :=
  .call (.get [1]) fun reply =>
    match reply with
    | .value (some (digit :: rest)) =>
        .call (.put [1] ((digit + 1) :: rest)) fun _ => .done (some ((digit + 1) :: rest))
    | _ => .done none

/-- The leader is failed before the workload starts. -/
theorem async_run_is_synchronous_incrementing :
    ∃ cluster trace final model rounds,
      (RaftCluster.withModel 3 Model.new).run [.put [1] [7], .fail 0] = some (cluster, trace) ∧
      increment.attempt serveNow cluster = some (some [8], final) ∧
      (∀ fuel, rounds ≤ fuel → run fuel increment cluster = some (some [8], final)) ∧
      final.model = some model ∧ model.check.1.violations = [] := by
  obtain ⟨cluster, trace, output, final, model, rounds, ran, attempted, driven, recorded, checked⟩ :=
    async_run_is_synchronous 3 (by decide) [.put [1] [7], .fail 0] increment
  have counted : ((RaftCluster.withModel 3 Model.new).run [.put [1] [7], .fail 0]).bind
      (fun result => (increment.attempt serveNow result.1).map Prod.fst) = some (some [8]) := by
    decide
  rw [ran, Option.bind_some, attempted, Option.map_some, Option.some_inj] at counted
  obtain rfl : output = some [8] := counted
  exact ⟨cluster, trace, final, model, rounds, ran, attempted, driven, recorded, checked⟩

end Keystory.Raft.AsyncDriver
