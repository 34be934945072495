/-
Runs of a system given by a step function: each event is taken where it is
possible, and what every step preserves holds along every run. A history that a
system keeps grows at its end, so a law about each entry and those before it is
checked as the entry is written; whether each entry that asks for a later one has
got it changes only with the last.
-/

import Mathlib.Data.List.Basic
import Mathlib.Logic.Relation

namespace Keystory.General

variable {State Event : Type} {step : State → Event → Option State}

def runSteps (step : State → Event → Option State) (state : State) (events : List Event) :
    Option State :=
  events.foldlM step state

theorem runSteps_cons_eq_some {state final : State} {event : Event} {events : List Event} :
    runSteps step state (event :: events) = some final ↔
      ∃ next, step state event = some next ∧ runSteps step next events = some final := by
  rw [runSteps, List.foldlM_cons]
  exact Option.bind_eq_some_iff

theorem runSteps_append_eq_some {state final : State} {first second : List Event} :
    runSteps step state (first ++ second) = some final ↔
      ∃ middle, runSteps step state first = some middle ∧
        runSteps step middle second = some final := by
  rw [runSteps, List.foldlM_append]
  exact Option.bind_eq_some_iff

theorem runSteps_invariant_of (allowed : Event → Prop) (invariant : State → Prop)
    (keeps : ∀ {state event next}, allowed event → invariant state →
      step state event = some next → invariant next)
    {state final : State} {events : List Event} (all : ∀ event ∈ events, allowed event)
    (start : invariant state) (ran : runSteps step state events = some final) :
    invariant final := by
  induction events generalizing state with
  | nil =>
      cases ran
      exact start
  | cons event events ih =>
      obtain ⟨next, stepped, rest⟩ := runSteps_cons_eq_some.mp ran
      exact ih (fun other member => all other (List.mem_cons_of_mem event member))
        (keeps (all event List.mem_cons_self) start stepped) rest

theorem runSteps_invariant (invariant : State → Prop)
    (keeps : ∀ {state event next}, invariant state → step state event = some next →
      invariant next)
    {state final : State} {events : List Event} (start : invariant state)
    (ran : runSteps step state events = some final) : invariant final :=
  runSteps_invariant_of (fun _ => True) invariant (fun _ holds stepped => keeps holds stepped)
    (fun _ _ => trivial) start ran

theorem reflTransGen_of_runSteps {moves : State → State → Prop}
    (single : ∀ {state event next}, step state event = some next → moves state next)
    {state final : State} {events : List Event} (ran : runSteps step state events = some final) :
    Relation.ReflTransGen moves state final :=
  runSteps_invariant (Relation.ReflTransGen moves state)
    (fun reached stepped => reached.tail (single stepped)) Relation.ReflTransGen.refl ran

/-- The events of a run, each with the state it is taken in. -/
def runTrace (step : State → Event → Option State) : State → List Event → List (State × Event)
  | _, [] => []
  | state, event :: later =>
      (state, event) :: (step state event).elim [] (fun next => runTrace step next later)

theorem runTrace_concat {state final : State} {events : List Event}
    (ran : runSteps step state events = some final) (event : Event) :
    runTrace step state (events ++ [event]) = runTrace step state events ++ [(final, event)] := by
  induction events generalizing state with
  | nil =>
      cases ran
      cases taken : step final event with
      | none => simp [runTrace, taken]
      | some next => simp [runTrace, taken]
  | cons first events ih =>
      obtain ⟨next, stepped, rest⟩ := runSteps_cons_eq_some.mp ran
      simp [runTrace, stepped, ih rest]

section Histories

variable {Entry : Type} {lawful : List Entry → Entry → Prop}

theorem concat_eq_append_cons_iff {history earlier later : List Entry} {last entry : Entry} :
    history ++ [last] = earlier ++ entry :: later ↔
      (history = earlier ∧ last = entry ∧ later = []) ∨
        ∃ rest, later = rest ++ [last] ∧ history = earlier ++ entry :: rest := by
  constructor
  · intro same
    rcases List.eq_nil_or_concat' later with rfl | ⟨rest, final, rfl⟩
    · obtain ⟨front, ending⟩ := List.append_inj' same rfl
      cases ending
      exact Or.inl ⟨front, rfl, rfl⟩
    · rw [← List.cons_append, ← List.append_assoc] at same
      obtain ⟨front, ending⟩ := List.append_inj' same rfl
      cases ending
      exact Or.inr ⟨rest, rfl, front⟩
  · rintro (⟨rfl, rfl, rfl⟩ | ⟨rest, rfl, rfl⟩)
    · rfl
    · simp

/-- Each entry is lawful after those before it. -/
def Chronicle (lawful : List Entry → Entry → Prop) (history : List Entry) : Prop :=
  ∀ earlier entry later, history = earlier ++ entry :: later → lawful earlier entry

theorem Chronicle.nil : Chronicle lawful [] := by
  intro earlier entry later same
  simp at same

theorem Chronicle.concat {history : List Entry} {entry : Entry}
    (chronicle : Chronicle lawful history) (next : lawful history entry) :
    Chronicle lawful (history ++ [entry]) := by
  intro earlier other later same
  rcases concat_eq_append_cons_iff.mp same with ⟨rfl, rfl, _⟩ | ⟨rest, _, old⟩
  · exact next
  · exact chronicle earlier other rest old

/-- Each entry that asks is followed by one that answers. -/
def Followed (asks answers : Entry → Prop) (history : List Entry) : Prop :=
  ∀ earlier entry later, history = earlier ++ entry :: later → asks entry →
    ∃ answer ∈ later, answers answer

theorem Followed.nil {asks answers : Entry → Prop} : Followed asks answers [] := by
  intro earlier entry later same
  simp at same

theorem followed_concat_iff {asks answers : Entry → Prop} {history : List Entry} {last : Entry}
    (apart : answers last → ¬ asks last) :
    Followed asks answers (history ++ [last]) ↔
      answers last ∨ (¬ asks last ∧ Followed asks answers history) := by
  constructor
  · intro answered
    by_cases closes : answers last
    · exact Or.inl closes
    · refine Or.inr ⟨?_, ?_⟩
      · intro asked
        obtain ⟨answer, none, _⟩ := answered history last [] rfl asked
        exact absurd none List.not_mem_nil
      · intro earlier entry later same asked
        obtain ⟨answer, member, holds⟩ :=
          answered earlier entry (later ++ [last]) (by simp [same]) asked
        rcases List.mem_append.mp member with before | here
        · exact ⟨answer, before, holds⟩
        · exact absurd (List.mem_singleton.mp here ▸ holds) closes
  · intro either earlier entry later same asked
    rcases concat_eq_append_cons_iff.mp same with ⟨_, rfl, _⟩ | ⟨rest, rfl, old⟩
    · rcases either with closes | ⟨silent, _⟩
      · exact absurd asked (apart closes)
      · exact absurd asked silent
    · rcases either with closes | ⟨_, answered⟩
      · exact ⟨last, by simp, closes⟩
      · obtain ⟨answer, member, holds⟩ := answered earlier entry rest old asked
        exact ⟨answer, List.mem_append_left _ member, holds⟩

end Histories

end Keystory.General
