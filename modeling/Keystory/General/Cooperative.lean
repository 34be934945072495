/-
Tasks that share a state and take turns.

A task makes requests to the shared state, starts other tasks, and pauses. One turn
runs it from one pause to the next; the tasks wait in a line, and a task that paused
goes to its end, after those it started. Every line runs empty, whatever the
requests are answered with, or stops at a request that panics.
-/

import Mathlib.Logic.Hydra
import Keystory.General.Program

namespace Keystory.General

inductive Task (Call : Type) (Reply : Call → Type) where
  | done
  | call (request : Call) (next : Reply request → Task Call Reply)
  | spawn (child next : Task Call Reply)
  | pause (next : Task Call Reply)

namespace Task

variable {Call : Type} {Reply : Call → Type} {State : Type}

/-- What a turn leaves of the task, the tasks it started and the state. -/
structure Turn (Call : Type) (Reply : Call → Type) (State : Type) where
  left : Option (Task Call Reply)
  started : List (Task Call Reply)
  state : State

def turn (serve : (request : Call) → State → Option (Reply request × State)) :
    Task Call Reply → State → Option (Turn Call Reply State)
  | done, state => some ⟨none, [], state⟩
  | call request next, state =>
      (serve request state).bind (fun answer => (next answer.1).turn serve answer.2)
  | spawn child next, state =>
      (next.turn serve state).map (fun turn => { turn with started := child :: turn.started })
  | pause next, state => some ⟨some next, [], state⟩

/-- The line of tasks runs empty and leaves a state, or a request panics. -/
inductive Drains (serve : (request : Call) → State → Option (Reply request × State)) :
    List (Task Call Reply) → State → Option State → Prop where
  | empty (state : State) : Drains serve [] state (some state)
  | panic {task : Task Call Reply} {rest : List (Task Call Reply)} {state : State}
      (turned : task.turn serve state = none) : Drains serve (task :: rest) state none
  | turn {task : Task Call Reply} {rest : List (Task Call Reply)} {state : State}
      {result : Turn Call Reply State} {outcome : Option State}
      (turned : task.turn serve state = some result)
      (later : Drains serve (rest ++ result.started ++ result.left.toList) result.state outcome) :
      Drains serve (task :: rest) state outcome

/-! ### Every line comes to an end -/

/-- What may be left of a task after its first step, or was started by it. -/
inductive Part : Task Call Reply → Task Call Reply → Prop where
  | answered (request : Call) (next : Reply request → Task Call Reply) (reply : Reply request) :
      Part (next reply) (.call request next)
  | started (child next : Task Call Reply) : Part child (.spawn child next)
  | following (child next : Task Call Reply) : Part next (.spawn child next)
  | resumed (next : Task Call Reply) : Part next (.pause next)

theorem part_wellFounded (Call : Type) (Reply : Call → Type) :
    WellFounded (@Part Call Reply) := by
  refine ⟨fun task => ?_⟩
  induction task with
  | done => exact ⟨_, fun _ part => nomatch part⟩
  | call request next ih =>
      refine ⟨_, fun part smaller => ?_⟩
      cases smaller with
      | answered _ _ reply => exact ih reply
  | spawn child next childIh nextIh =>
      refine ⟨_, fun part smaller => ?_⟩
      cases smaller with
      | started => exact childIh
      | following => exact nextIh
  | pause next ih =>
      refine ⟨_, fun part smaller => ?_⟩
      cases smaller with
      | resumed => exact ih

variable {serve : (request : Call) → State → Option (Reply request × State)}

theorem part_of_turn {task part : Task Call Reply} {state : State}
    {result : Turn Call Reply State} (turned : task.turn serve state = some result)
    (member : part ∈ result.started ++ result.left.toList) : Relation.TransGen Part part task := by
  induction task generalizing state result with
  | done =>
      cases turned
      cases member
  | call request next ih =>
      obtain ⟨answer, _, rest⟩ := Option.bind_eq_some_iff.mp turned
      exact (ih answer.1 rest member).tail (.answered request next answer.1)
  | spawn child next _ ih =>
      obtain ⟨inner, turnedNext, rfl⟩ := Option.map_eq_some_iff.mp turned
      rw [List.cons_append, List.mem_cons] at member
      rcases member with rfl | later
      · exact .single (.started part next)
      · exact (ih turnedNext later).tail (.following child next)
  | pause next =>
      cases turned
      obtain rfl := List.mem_singleton.mp member
      exact .single (.resumed part)

theorem cutExpand_of_turn {task : Task Call Reply} {rest : List (Task Call Reply)} {state : State}
    {result : Turn Call Reply State} (turned : task.turn serve state = some result) :
    Relation.CutExpand (Relation.TransGen Part)
      (↑(rest ++ result.started ++ result.left.toList) : Multiset (Task Call Reply))
      (↑(task :: rest) : Multiset (Task Call Reply)) := by
  refine ⟨↑(result.started ++ result.left.toList), task, fun part member => ?_, ?_⟩
  · exact part_of_turn turned (Multiset.mem_coe.mp member)
  · rw [List.append_assoc, ← Multiset.coe_add, ← Multiset.cons_coe, Multiset.add_comm _ {task},
      Multiset.singleton_add, Multiset.cons_add]

theorem exists_drains (serve : (request : Call) → State → Option (Reply request × State))
    (tasks : List (Task Call Reply)) (state : State) :
    ∃ outcome, Drains serve tasks state outcome := by
  have wellFounded := (part_wellFounded Call Reply).transGen.cutExpand
  obtain ⟨line, same⟩ : ∃ line : Multiset (Task Call Reply), line = ↑tasks := ⟨_, rfl⟩
  induction line using wellFounded.induction generalizing tasks state with
  | _ line ih =>
      cases tasks with
      | nil => exact ⟨some state, .empty state⟩
      | cons task rest =>
          cases turned : task.turn serve state with
          | none => exact ⟨none, .panic turned⟩
          | some result =>
              have smaller := @cutExpand_of_turn _ _ _ _ _ rest _ _ turned
              rw [← same] at smaller
              obtain ⟨outcome, later⟩ := ih _ smaller _ result.state rfl
              exact ⟨outcome, .turn turned later⟩

theorem Drains.unique {tasks : List (Task Call Reply)} {state : State} {left right : Option State}
    (first : Drains serve tasks state left) (second : Drains serve tasks state right) :
    left = right := by
  induction first with
  | empty =>
      cases second
      rfl
  | panic turned =>
      cases second with
      | panic => rfl
      | turn other =>
          rw [turned] at other
          cases other
  | turn turned _ ih =>
      cases second with
      | panic other =>
          rw [turned] at other
          cases other
      | turn other later =>
          rw [turned] at other
          cases other
          exact ih later

theorem Drains.call {request : Call} {next : Reply request → Task Call Reply}
    {rest : List (Task Call Reply)} {state : State} {answer : Reply request × State}
    {outcome : Option State} (served : serve request state = some answer)
    (later : Drains serve (next answer.1 :: rest) answer.2 outcome) :
    Drains serve (.call request next :: rest) state outcome := by
  have same : (Task.call request next).turn serve state =
      (next answer.1).turn serve answer.2 := by
    rw [Task.turn, served, Option.bind_some]
  cases later with
  | panic turned => exact .panic (same.trans turned)
  | turn turned later => exact .turn (same.trans turned) later

end Task

namespace Program

variable {Call : Type} {Reply : Call → Type} {State Result : Type}

def attempt (serve : (request : Call) → State → Option (Reply request × State)) :
    Program Call Reply Result → State → Option (Result × State)
  | done result, state => some (result, state)
  | call request next, state =>
      (serve request state).bind (fun answer => (next answer.1).attempt serve answer.2)

end Program

end Keystory.General
