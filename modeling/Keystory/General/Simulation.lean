/-
Forward simulation of one system by the runs of another.

A move of the first system is answered when, from every related state of the
second, some steps lead to a state related to what the move left. Answers
compose, also along a fold, and a whole sequence of answered moves gives one run
of the second system that passes through related states.
-/

import Mathlib.Logic.Relation
import Mathlib.Tactic.Choose

namespace Keystory.General

variable {High Low Item : Type} {related : High → Low → Prop} {step : Low → Low → Prop}

def Answered (related : High → Low → Prop) (step : Low → Low → Prop) (before after : High) :
    Prop :=
  ∀ low, related before low → ∃ later, Relation.ReflTransGen step low later ∧ related after later

theorem Answered.of_related {before after : High}
    (same : ∀ low, related before low → related after low) :
    Answered related step before after :=
  fun low held => ⟨low, Relation.ReflTransGen.refl, same low held⟩

theorem Answered.refl (high : High) : Answered related step high high :=
  Answered.of_related fun _ held => held

theorem Answered.trans {first second third : High} (former : Answered related step first second)
    (latter : Answered related step second third) : Answered related step first third := by
  intro low held
  obtain ⟨middle, toMiddle, atMiddle⟩ := former low held
  obtain ⟨later, toLater, atLater⟩ := latter middle atMiddle
  exact ⟨later, toMiddle.trans toLater, atLater⟩

/-- A fold whose every move is answered is answered. What the moves rely on may
name the items already visited. -/
theorem Answered.foldlM {act : High → Item → Option High} {holds : List Item → High → Prop}
    (visited items : List Item)
    (each : ∀ {seen high item after}, item ∈ items → holds seen high →
      act high item = some after →
        holds (seen ++ [item]) after ∧ Answered related step high after)
    {start final : High} (before : holds visited start)
    (ran : items.foldlM act start = some final) :
    holds (visited ++ items) final ∧ Answered related step start final := by
  induction items generalizing visited start with
  | nil =>
      cases ran
      rw [List.append_nil]
      exact ⟨before, Answered.refl final⟩
  | cons item rest ih =>
      rw [List.foldlM_cons] at ran
      obtain ⟨next, moved, remaining⟩ := Option.bind_eq_some_iff.mp ran
      obtain ⟨between, answered⟩ := each List.mem_cons_self before moved
      obtain ⟨after, others⟩ := ih (visited ++ [item])
        (fun member => each (List.mem_cons_of_mem item member)) between remaining
      rw [List.append_assoc, List.singleton_append] at after
      exact ⟨after, answered.trans others⟩

theorem exists_visited_all {holds : List Item → Low → Prop} {items : List Item}
    (distinct : items.Nodup)
    (visit : ∀ {visited item low}, item ∈ items → item ∉ visited → holds visited low →
      ∃ later, holds (visited ++ [item]) later)
    {low : Low} (start : holds [] low) : ∃ later, holds items later := by
  suffices pass : ∀ visited rest : List Item, visited ++ rest = items →
      ∀ low, holds visited low → ∃ later, holds items later from pass [] items rfl low start
  intro visited rest
  induction rest generalizing visited with
  | nil =>
      intro same low held
      rw [List.append_nil] at same
      exact ⟨low, same ▸ held⟩
  | cons item rest ih =>
      intro same low held
      have fresh : item ∉ visited := by
        rw [← same] at distinct
        exact fun member => (List.nodup_append.mp distinct).2.2 item member item
          List.mem_cons_self rfl
      obtain ⟨next, onward⟩ := visit (same ▸ List.mem_append_right _ List.mem_cons_self) fresh held
      exact ih (visited ++ [item]) (by rw [List.append_assoc, List.singleton_append, same]) next
        onward

theorem Answered.stages {states : Nat → High}
    (answered : ∀ index, Answered related step (states index) (states (index + 1))) {first : Low}
    (start : related (states 0) first) :
    ∃ stages : Nat → Low, stages 0 = first ∧ ∀ index, related (states index) (stages index) ∧
      Relation.ReflTransGen step (stages index) (stages (index + 1)) := by
  choose onward walks arrives using answered
  let stages (index : Nat) : { low // related (states index) low } :=
    Nat.rec ⟨first, start⟩
      (fun index stage => ⟨onward index stage.1 stage.2, arrives index stage.1 stage.2⟩) index
  exact ⟨fun index => (stages index).1, rfl,
    fun index => ⟨(stages index).2, walks index (stages index).1 (stages index).2⟩⟩

end Keystory.General
