/-
Programs that make requests to a device, one at a time. A device may answer a
request in several ways, called fates; a program can be stopped between any two
requests. A specification therefore has two parts: what holds at every point the
program can be stopped, and what holds of its result.
-/

import Keystory.General.Steps

namespace Keystory.General

/-- A result, or a request and what to do with the reply. -/
inductive Program (Call : Type) (Reply : Call → Type) (Result : Type) where
  | done (result : Result)
  | call (request : Call) (next : Reply request → Program Call Reply Result)

/-- How requests are served, and which fates are considered. -/
structure Device (Call : Type) (Reply : Call → Type) (Fate State : Type) where
  serve : (request : Call) → Fate → State → Reply request × State
  allows : Call → Fate → Prop

namespace Program

variable {Call : Type} {Reply : Call → Type} {Fate State Result Next : Type}

def bind : Program Call Reply Result → (Result → Program Call Reply Next) →
    Program Call Reply Next
  | done result, next => next result
  | call request rest, next => call request (fun reply => (rest reply).bind next)

instance : Monad (Program Call Reply) where
  pure := done
  bind := bind

def request (call : Call) : Program Call Reply (Reply call) := .call call .done

/-! ### Specifications -/

/-- Every state the program can be stopped in satisfies `stopped`, and a result
satisfies `post` together with the state it is returned in. -/
def Spec (device : Device Call Reply Fate State) (stopped : State → Prop)
    (post : Result → State → Prop) : Program Call Reply Result → State → Prop
  | done result, state => stopped state ∧ post result state
  | call request next, state => stopped state ∧ ∀ fate, device.allows request fate →
      (next (device.serve request fate state).1).Spec device stopped post
        (device.serve request fate state).2

variable {device : Device Call Reply Fate State} {stopped weaker : State → Prop}
  {post loose : Result → State → Prop}

theorem Spec.now {program : Program Call Reply Result} {state : State}
    (spec : program.Spec device stopped post state) : stopped state := by
  cases program with
  | done result => exact spec.1
  | call request next => exact spec.1

theorem spec_request_bind {call : Call} {next : Reply call → Program Call Reply Result}
    {state : State} :
    (request call >>= next).Spec device stopped post state ↔
      stopped state ∧ ∀ fate, device.allows call fate →
        (next (device.serve call fate state).1).Spec device stopped post
          (device.serve call fate state).2 :=
  Iff.rfl

theorem Spec.mono {program : Program Call Reply Result} {state : State}
    (spec : program.Spec device stopped post state)
    (stops : ∀ state, stopped state → weaker state)
    (ends : ∀ result state, stopped state → post result state → loose result state) :
    program.Spec device weaker loose state := by
  induction program generalizing state with
  | done result => exact ⟨stops state spec.1, ends result state spec.1 spec.2⟩
  | call request next ih =>
      constructor
      · exact stops state spec.1
      · intro fate allowed
        exact ih _ (spec.2 fate allowed)

theorem Spec.bind {first : Program Call Reply Result}
    {next : Result → Program Call Reply Next} {final : Next → State → Prop} {state : State}
    (spec : first.Spec device stopped
      (fun result state => (next result).Spec device stopped final state) state) :
    (first >>= next).Spec device stopped final state := by
  induction first generalizing state with
  | done result => exact spec.2
  | call request rest ih =>
      constructor
      · exact spec.1
      · intro fate allowed
        exact ih _ (spec.2 fate allowed)

/-! ### Executions -/

def step (device : Device Call Reply Fate State)
    [∀ request fate, Decidable (device.allows request fate)] (fate : Fate) :
    Program Call Reply Result → State → Option (Program Call Reply Result × State)
  | done _, _ => none
  | call request next, state =>
      if device.allows request fate then
        some (next (device.serve request fate state).1, (device.serve request fate state).2)
      else none

theorem step_eq_some {device : Device Call Reply Fate State}
    [∀ request fate, Decidable (device.allows request fate)] {fate : Fate}
    {program : Program Call Reply Result} {state : State}
    {outcome : Program Call Reply Result × State}
    (stepped : program.step device fate state = some outcome) :
    ∃ request next, program = call request next ∧
      outcome = (next (device.serve request fate state).1, (device.serve request fate state).2) := by
  cases program with
  | done result => cases stepped
  | call request next =>
      rw [Program.step] at stepped
      obtain ⟨_, same⟩ := Option.ite_none_right_eq_some.mp stepped
      exact ⟨request, next, rfl, (Option.some.inj same).symm⟩

theorem Spec.step {device : Device Call Reply Fate State}
    [∀ request fate, Decidable (device.allows request fate)] {fate : Fate}
    {program : Program Call Reply Result} {state : State}
    {outcome : Program Call Reply Result × State}
    (spec : program.Spec device stopped post state)
    (stepped : program.step device fate state = some outcome) :
    outcome.1.Spec device stopped post outcome.2 := by
  cases program with
  | done result => cases stepped
  | call request next =>
      rw [Program.step, Option.ite_none_right_eq_some] at stepped
      obtain ⟨allowed, same⟩ := stepped
      cases same
      exact spec.2 fate allowed

/-- Where the events of a system are the requests of the program it runs, what is left of the
program still meets its specification. -/
theorem Spec.runSteps {device : Device Call Reply Fate State}
    [∀ request fate, Decidable (device.allows request fate)] {System Event : Type}
    {move : System → Event → Option System} {event : Fate → Event}
    {running : Program Call Reply Result → State → System}
    (moves : ∀ fate program state, move (running program state) (event fate) =
      (program.step device fate state).map (fun next => running next.1 next.2))
    {program : Program Call Reply Result} {state : State}
    (spec : program.Spec device stopped post state) {fates : List Fate} {final : System}
    (ran : General.runSteps move (running program state) (fates.map event) = some final) :
    ∃ rest reached, final = running rest reached ∧ rest.Spec device stopped post reached := by
  induction fates generalizing program state with
  | nil =>
      cases ran
      exact ⟨program, state, rfl, spec⟩
  | cons fate fates ih =>
      rw [List.map_cons] at ran
      obtain ⟨next, moved, later⟩ := runSteps_cons_eq_some.mp ran
      rw [moves] at moved
      obtain ⟨⟨rest, reached⟩, stepped, same⟩ := Option.map_eq_some_iff.mp moved
      subst same
      exact ih (spec.step stepped) later

def exec (device : Device Call Reply Fate State) (fate : Fate) :
    Program Call Reply Result → State → Result × State
  | done result, state => (result, state)
  | call request next, state =>
      (next (device.serve request fate state).1).exec device fate
        (device.serve request fate state).2

theorem exec_bind (device : Device Call Reply Fate State) (fate : Fate)
    (first : Program Call Reply Result) (next : Result → Program Call Reply Next)
    (state : State) :
    (first >>= next).exec device fate state =
      (next (first.exec device fate state).1).exec device fate
        (first.exec device fate state).2 := by
  induction first generalizing state with
  | done result => rfl
  | call request rest ih => exact ih _ _

theorem Spec.exec {program : Program Call Reply Result} {state : State} {fate : Fate}
    (spec : program.Spec device stopped post state)
    (allowed : ∀ request, device.allows request fate) :
    stopped (program.exec device fate state).2 ∧
      post (program.exec device fate state).1 (program.exec device fate state).2 := by
  induction program generalizing state with
  | done result => exact spec
  | call request next ih => exact ih _ (spec.2 fate (allowed request))

theorem runSteps_exec {device : Device Call Reply Fate State}
    [∀ request fate, Decidable (device.allows request fate)] {System Event : Type}
    {move : System → Event → Option System} {event : Event} {fate : Fate}
    {running : Program Call Reply Result → State → System}
    (moves : ∀ program state, move (running program state) event =
      (program.step device fate state).map (fun next => running next.1 next.2))
    (allowed : ∀ request, device.allows request fate) (program : Program Call Reply Result)
    (state : State) :
    ∃ count, General.runSteps move (running program state) (List.replicate count event) =
      some (running (.done (program.exec device fate state).1)
        (program.exec device fate state).2) := by
  induction program generalizing state with
  | done result => exact ⟨0, rfl⟩
  | call request next ih =>
      obtain ⟨count, ran⟩ :=
        ih (device.serve request fate state).1 (device.serve request fate state).2
      refine ⟨count + 1, runSteps_cons_eq_some.mpr ⟨_, ?_, ran⟩⟩
      rw [moves, step, if_pos (allowed request)]
      rfl

theorem Spec.of_exec {program : Program Call Reply Result} {state : State} (fate : Fate)
    (only : ∀ request other, device.allows request other → other = fate)
    (ends : post (program.exec device fate state).1 (program.exec device fate state).2) :
    program.Spec device (fun _ => True) post state := by
  induction program generalizing state with
  | done result => exact ⟨trivial, ends⟩
  | call request next ih =>
      refine ⟨trivial, ?_⟩
      intro other allowed
      cases only request other allowed
      exact ih _ ends

/-- The program can end with a result in a state, under fates the device allows. -/
def Ends (device : Device Call Reply Fate State) : Program Call Reply Result → State →
    Result → State → Prop
  | done returned, state, result, final => returned = result ∧ state = final
  | call request next, state, result, final => ∃ fate, device.allows request fate ∧
      (next (device.serve request fate state).1).Ends device
        (device.serve request fate state).2 result final

theorem Spec.ends {program : Program Call Reply Result} {state final : State}
    {result : Result} (spec : program.Spec device stopped post state)
    (ended : program.Ends device state result final) : post result final := by
  induction program generalizing state with
  | done returned =>
      obtain ⟨rfl, rfl⟩ := ended
      exact spec.2
  | call request next ih =>
      obtain ⟨fate, allowed, ended⟩ := ended
      exact ih _ (spec.2 fate allowed) ended

/-- The program run under the given fates, if they are allowed and last to its end. -/
def follow (device : Device Call Reply Fate State)
    [∀ request fate, Decidable (device.allows request fate)] :
    List Fate → Program Call Reply Result → State → Option (Result × State)
  | _, done result, state => some (result, state)
  | [], call _ _, _ => none
  | fate :: fates, call request next, state =>
      if device.allows request fate then
        (next (device.serve request fate state).1).follow device fates
          (device.serve request fate state).2
      else none

theorem follow_ends {device : Device Call Reply Fate State}
    [∀ request fate, Decidable (device.allows request fate)] (fates : List Fate)
    {program : Program Call Reply Result} {state final : State} {result : Result}
    (followed : program.follow device fates state = some (result, final)) :
    program.Ends device state result final := by
  induction program generalizing fates state with
  | done returned =>
      cases fates <;>
      · cases followed
        exact ⟨rfl, rfl⟩
  | call request next ih =>
      cases fates with
      | nil => cases followed
      | cons fate fates =>
          rw [follow, Option.ite_none_right_eq_some] at followed
          exact ⟨fate, followed.1, ih _ fates followed.2⟩

end Program

end Keystory.General
