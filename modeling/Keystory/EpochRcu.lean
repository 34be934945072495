/-
Epoch-based reclamation: a cell whose old versions wait in a queue until no
reader can hold them. Every section under one lock and every atomic operation is
one step, so calls of any number of threads interleave freely. A drain removes no
version a reader holds if some reader was inside when its minimum was computed;
with an empty registry, a reader that enters in between is not protected.
-/

import Keystory.General.Steps
import Mathlib.Data.List.Perm.Basic
import Mathlib.Data.List.TakeWhile
import Mathlib.Logic.Function.Basic

namespace Keystory.EpochRcu

open General

abbrev Version := Nat

def u64Max : Nat := 18446744073709551615

/-- Where a call stands between two of its steps; a call inside its critical section
keeps the guard and the version it cloned. -/
inductive Phase where
  | idle
  -- `enter_raw` has loaded the epoch
  | loaded (entry : Nat)
  -- `snapshot` has not cloned yet
  | registered (entry : Nat)
  | reading (entry : Nat) (version : Version)
  -- `publish`, `retire` and `reclaim`, each after its first half
  | swapped (old : Version)
  | advanced (tag : Nat) (old : Version)
  | scanned (minActive : Nat)
deriving DecidableEq, Repr

structure State where
  epoch : Nat
  active : List Nat
  retired : List (Nat × Version)
  current : Version
  fresh : Version
  phase : Nat → Phase

def State.new : State where
  epoch := 0
  active := []
  retired := []
  current := 0
  fresh := 1
  phase := fun _ => .idle

/-- One atomic step of the call with this number. -/
inductive Step where
  | load (call : Nat)
  | register (call : Nat)
  | clone (call : Nat)
  | exit (call : Nat)
  | swap (call : Nat)
  | advance (call : Nat)
  | queue (call : Nat)
  | scan (call : Nat)
  | drain (call : Nat)
deriving DecidableEq, Repr

def Step.call : Step → Nat
  | .load call | .register call | .clone call | .exit call | .swap call | .advance call
  | .queue call | .scan call | .drain call => call

/-- `Vec::swap_remove`: the last element takes the place of the removed one. -/
def swapRemove (items : List Nat) (position : Nat) : List Nat :=
  match items.getLast? with
  | none => items
  | some last => (items.set position last).dropLast

def exitActive (active : List Nat) (entry : Nat) : List Nat :=
  match active.idxOf? entry with
  | none => active
  | some position => swapRemove active position

def freed (retired : List (Nat × Version)) (minActive : Nat) : Nat :=
  (retired.takeWhile (fun retiree => retiree.1 ≤ minActive)).length

def State.goto (state : State) (call : Nat) (phase : Phase) : State :=
  { state with phase := Function.update state.phase call phase }

section Goto

variable (state : State) (call : Nat) (phase : Phase)

@[simp, grind =] theorem goto_phase (other : Nat) :
    (state.goto call phase).phase other = if other = call then phase else state.phase other :=
  Function.update_apply ..

@[simp, grind =] theorem goto_epoch : (state.goto call phase).epoch = state.epoch := rfl

@[simp, grind =] theorem goto_retired : (state.goto call phase).retired = state.retired := rfl

@[simp, grind =] theorem goto_current : (state.goto call phase).current = state.current := rfl

@[simp, grind =] theorem goto_fresh : (state.goto call phase).fresh = state.fresh := rfl

end Goto

def State.step (state : State) : Step → Option State
  | .load call =>
      match state.phase call with
      | .idle => some (state.goto call (.loaded state.epoch))
      | _ => none
  | .register call =>
      match state.phase call with
      | .loaded entry =>
          some ({ state with active := state.active ++ [entry] }.goto call (.registered entry))
      | _ => none
  | .clone call =>
      match state.phase call with
      | .registered entry => some (state.goto call (.reading entry state.current))
      | _ => none
  | .exit call =>
      match state.phase call with
      | .reading entry _ =>
          some ({ state with active := exitActive state.active entry }.goto call .idle)
      | _ => none
  | .swap call =>
      match state.phase call with
      | .idle =>
          some ({ state with current := state.fresh, fresh := state.fresh + 1 }.goto call
            (.swapped state.current))
      | _ => none
  | .advance call =>
      match state.phase call with
      | .swapped old =>
          some ({ state with epoch := state.epoch + 1 }.goto call (.advanced (state.epoch + 1) old))
      | _ => none
  | .queue call =>
      match state.phase call with
      | .advanced tag old =>
          some ({ state with retired := state.retired ++ [(tag, old)] }.goto call .idle)
      | _ => none
  | .scan call =>
      match state.phase call with
      | .idle => some (state.goto call (.scanned (state.active.min?.getD u64Max)))
      | _ => none
  | .drain call =>
      match state.phase call with
      | .scanned minActive =>
          some ({ state with
            retired := state.retired.drop (freed state.retired minActive) }.goto call .idle)
      | _ => none

def State.removes (state : State) : Step → List (Nat × Version)
  | .drain call =>
      match state.phase call with
      | .scanned minActive => state.retired.take (freed state.retired minActive)
      | _ => []
  | _ => []

/-! ### The registry of entries -/

theorem swapRemove_perm {items : List Nat} {position : Nat} (within : position < items.length) :
    (items[position] :: swapRemove items position).Perm items := by
  rcases List.eq_nil_or_concat' items with rfl | ⟨front, last, rfl⟩
  · exact absurd within (Nat.not_lt_zero position)
  · have ending : (front ++ [last]).getLast? = some last := List.getLast?_concat
    rw [swapRemove, ending]
    rw [List.length_append, List.length_singleton] at within
    by_cases final : position = front.length
    · subst final
      simp only [List.getElem_concat_length, List.set_append_right _ _ (Nat.le_refl _)]
      simpa using (List.perm_append_singleton last front).symm
    · have earlier : position < front.length := by omega
      rw [List.getElem_append_left earlier]
      simp only [List.set_append_left _ _ earlier, List.dropLast_concat]
      calc List.Perm (front[position] :: front.set position last)
            (front[position] :: last :: front.eraseIdx position) :=
            (List.set_perm_cons_eraseIdx earlier last).cons _
        List.Perm _ (last :: front[position] :: front.eraseIdx position) := List.Perm.swap ..
        List.Perm _ (last :: front) := (List.getElem_cons_eraseIdx_perm earlier).cons _
        List.Perm _ (front ++ [last]) := (List.perm_append_singleton last front).symm

theorem exitActive_perm {active : List Nat} {entry : Nat} (member : entry ∈ active) :
    (entry :: exitActive active entry).Perm active := by
  unfold exitActive
  cases found : active.idxOf? entry with
  | none => exact absurd member (List.idxOf?_eq_none_iff.mp found)
  | some position =>
      obtain ⟨within, here, _⟩ := List.idxOf?_eq_some_iff.mp found
      have removed := swapRemove_perm within
      rw [here] at removed
      exact removed

def Phase.registered? : Phase → Option Nat
  | .registered entry => some entry
  | .reading entry _ => some entry
  | _ => none

def Registry (phase : Nat → Phase) (active : List Nat) : Prop :=
  ∃ calls : List Nat, calls.Nodup ∧ (∀ call, phase call ≠ .idle → call ∈ calls) ∧
    active.Perm (calls.filterMap (fun call => (phase call).registered?))

theorem Registry.split {phase : Nat → Phase} {active : List Nat} (registry : Registry phase active)
    (call : Nat) :
    ∃ others : List Nat, active.Perm ((phase call).registered?.toList ++ others) ∧
      ∀ (next : Phase) (after : List Nat), after.Perm (next.registered?.toList ++ others) →
        Registry (Function.update phase call next) after := by
  obtain ⟨calls, distinct, complete, same⟩ := registry
  have apart : call ∉ calls.erase call := distinct.not_mem_erase
  have consEntry : ∀ (someone : Nat → Phase) (rest : List Nat),
      (call :: rest).filterMap (fun other => (someone other).registered?) =
        (someone call).registered?.toList ++
          rest.filterMap (fun other => (someone other).registered?) := by
    intro someone rest
    rw [List.filterMap_cons]
    cases (someone call).registered? <;> rfl
  refine ⟨(calls.erase call).filterMap (fun other => (phase other).registered?), ?_, ?_⟩
  · by_cases member : call ∈ calls
    · rw [← consEntry]
      exact same.trans ((List.perm_cons_erase member).filterMap _)
    · have idle : phase call = .idle := by
        by_contra busy
        exact member (complete call busy)
      rw [idle, List.erase_of_not_mem member]
      exact same
  · intro next after moved
    refine ⟨call :: calls.erase call, List.nodup_cons.mpr ⟨apart, distinct.erase call⟩, ?_, ?_⟩
    · intro other busy
      by_cases here : other = call
      · rw [here]
        exact List.mem_cons_self
      · rw [Function.update_of_ne here] at busy
        exact List.mem_cons_of_mem _ ((List.mem_erase_of_ne here).mpr (complete other busy))
    · have unmoved : (calls.erase call).filterMap
          (fun other => (Function.update phase call next other).registered?) =
            (calls.erase call).filterMap (fun other => (phase other).registered?) := by
        apply List.filterMap_congr
        intro other member
        have elsewhere : other ≠ call := by
          rintro rfl
          exact apart member
        rw [Function.update_of_ne elsewhere]
      rw [consEntry, unmoved, Function.update_self]
      exact moved

/-! ### What holds of every reachable state -/

inductive State.Old (state : State) (version : Version) : Prop where
  | swapped {call : Nat} (there : state.phase call = .swapped version)
  | advanced {call tag : Nat} (there : state.phase call = .advanced tag version)
  | retired {tag : Nat} (there : (tag, version) ∈ state.retired)

structure Inv (state : State) : Prop where
  registry : Registry state.phase state.active
  loaded : ∀ call entry, state.phase call = .loaded entry → entry ≤ state.epoch
  entered : ∀ call entry, (state.phase call).registered? = some entry → entry ≤ state.epoch
  current : state.current < state.fresh
  old : ∀ version, state.Old version → version < state.fresh ∧ version ≠ state.current
  -- a held version is tagged, if at all, above its reader's entry
  advancedAbove : ∀ call entry version other tag, state.phase call = .reading entry version →
    state.phase other = .advanced tag version → entry < tag
  retiredAbove : ∀ call entry version tag, state.phase call = .reading entry version →
    (tag, version) ∈ state.retired → entry < tag

theorem Inv.new : Inv State.new where
  registry := ⟨[], List.nodup_nil, fun call busy => absurd rfl busy, List.Perm.refl _⟩
  loaded := fun call entry there => by cases there
  entered := fun call entry there => by cases there
  current := Nat.zero_lt_one
  old := by
    intro version old
    cases old with
    | swapped there => cases there
    | advanced there => cases there
    | retired there => cases there
  advancedAbove := fun call entry version other tag there => by cases there
  retiredAbove := fun call entry version tag there => by cases there

/-- What each step does, and from which phase. -/
inductive Moves (state : State) : Step → State → Prop where
  | load {call : Nat} (here : state.phase call = .idle) :
      Moves state (.load call) (state.goto call (.loaded state.epoch))
  | register {call entry : Nat} (here : state.phase call = .loaded entry) :
      Moves state (.register call)
        ({ state with active := state.active ++ [entry] }.goto call (.registered entry))
  | clone {call entry : Nat} (here : state.phase call = .registered entry) :
      Moves state (.clone call) (state.goto call (.reading entry state.current))
  | exit {call entry : Nat} {version : Version} (here : state.phase call = .reading entry version) :
      Moves state (.exit call)
        ({ state with active := exitActive state.active entry }.goto call .idle)
  | swap {call : Nat} (here : state.phase call = .idle) :
      Moves state (.swap call)
        ({ state with current := state.fresh, fresh := state.fresh + 1 }.goto call
          (.swapped state.current))
  | advance {call : Nat} {old : Version} (here : state.phase call = .swapped old) :
      Moves state (.advance call)
        ({ state with epoch := state.epoch + 1 }.goto call (.advanced (state.epoch + 1) old))
  | queue {call tag : Nat} {old : Version} (here : state.phase call = .advanced tag old) :
      Moves state (.queue call)
        ({ state with retired := state.retired ++ [(tag, old)] }.goto call .idle)
  | scan {call : Nat} (here : state.phase call = .idle) :
      Moves state (.scan call)
        (state.goto call (.scanned (state.active.min?.getD u64Max)))
  | drain {call minActive : Nat} (here : state.phase call = .scanned minActive) :
      Moves state (.drain call)
        ({ state with
          retired := state.retired.drop (freed state.retired minActive) }.goto call .idle)

theorem moves_of_step {state next : State} {step : Step}
    (stepped : state.step step = some next) : Moves state step next := by
  cases step <;>
  · rw [State.step] at stepped
    split at stepped
    case h_1 here =>
        cases stepped
        constructor
        exact here
    case h_2 => cases stepped

section Keeps

variable {state next : State} {step : Step}

theorem Inv.registry_step (inv : Inv state) (moves : Moves state step next) :
    Registry next.phase next.active := by
  obtain ⟨others, before, moved⟩ := inv.registry.split step.call
  cases moves with
  | load here | clone here | swap here | advance here | queue here | scan here | drain here =>
      refine moved _ _ ?_
      simp only [Step.call, here, Phase.registered?] at before
      exact before
  | register here =>
      refine moved _ _ ?_
      simp only [Step.call, here, Phase.registered?] at before
      exact (List.perm_append_comm).trans (before.cons _)
  | exit here =>
      refine moved _ _ ?_
      simp only [Step.call, here, Phase.registered?] at before
      have inside := before.symm.subset List.mem_cons_self
      exact ((exitActive_perm inside).trans before).cons_inv

theorem Inv.loaded_step (inv : Inv state) (moves : Moves state step next) :
    ∀ call entry, next.phase call = .loaded entry → entry ≤ next.epoch := by
  have before := inv.loaded
  cases moves <;> grind

theorem Inv.entered_step (inv : Inv state) (moves : Moves state step next) :
    ∀ call entry, (next.phase call).registered? = some entry → entry ≤ next.epoch := by
  have before := inv.entered
  have loaded := inv.loaded
  cases moves <;> grind [Phase.registered?]

theorem Inv.old_step (inv : Inv state) (moves : Moves state step next) :
    next.current < next.fresh ∧
      ∀ version, next.Old version → version < next.fresh ∧ version ≠ next.current := by
  have current := inv.current
  have swapped : ∀ call version, state.phase call = .swapped version →
      version < state.fresh ∧ version ≠ state.current :=
    fun call version there => inv.old version (.swapped there)
  have advanced : ∀ call tag version, state.phase call = .advanced tag version →
      version < state.fresh ∧ version ≠ state.current :=
    fun call tag version there => inv.old version (.advanced there)
  have retired : ∀ tag version, (tag, version) ∈ state.retired →
      version < state.fresh ∧ version ≠ state.current :=
    fun tag version there => inv.old version (.retired there)
  have dropped : ∀ count retiree, retiree ∈ state.retired.drop count → retiree ∈ state.retired :=
    fun count retiree => List.mem_of_mem_drop
  constructor
  · cases moves <;> grind
  · intro version old
    cases old with
    | swapped there => cases moves <;> grind
    | advanced there => cases moves <;> grind
    | retired there => cases moves <;> grind

/-- A tag is drawn above the epoch, which no entry exceeds; a version is cloned only while
it is current, before it can have a tag. -/
theorem Inv.above_step (inv : Inv state) (moves : Moves state step next) :
    (∀ call entry version other tag, next.phase call = .reading entry version →
      next.phase other = .advanced tag version → entry < tag) ∧
    ∀ call entry version tag, next.phase call = .reading entry version →
      (tag, version) ∈ next.retired → entry < tag := by
  have entered : ∀ call entry version, state.phase call = .reading entry version →
      entry ≤ state.epoch :=
    fun call entry version there => inv.entered call entry (by rw [there]; rfl)
  have advanced : ∀ call tag, state.phase call ≠ .advanced tag state.current :=
    fun call tag there => (inv.old _ (.advanced there)).2 rfl
  have retired : ∀ tag, (tag, state.current) ∉ state.retired :=
    fun tag there => (inv.old _ (.retired there)).2 rfl
  have dropped : ∀ count retiree, retiree ∈ state.retired.drop count → retiree ∈ state.retired :=
    fun count retiree => List.mem_of_mem_drop
  have advancedAbove := inv.advancedAbove
  have retiredAbove := inv.retiredAbove
  constructor
  · cases moves <;> grind
  · cases moves <;> grind

end Keeps

theorem Inv.step {state next : State} {step : Step} (inv : Inv state)
    (stepped : state.step step = some next) : Inv next := by
  have moves := moves_of_step stepped
  exact
    { registry := inv.registry_step moves
      loaded := inv.loaded_step moves
      entered := inv.entered_step moves
      current := (inv.old_step moves).1
      old := (inv.old_step moves).2
      advancedAbove := (inv.above_step moves).1
      retiredAbove := (inv.above_step moves).2 }

theorem inv_of_run {steps : List Step} {state : State}
    (ran : runSteps State.step State.new steps = some state) : Inv state :=
  runSteps_invariant Inv Inv.step Inv.new ran

/-! ### From the minimum to the drain -/

structure Guarded (bound : Nat) (state : State) : Prop where
  epoch : bound ≤ state.epoch
  advanced : ∀ call entry version other tag, state.phase call = .reading entry version →
    state.phase other = .advanced tag version → bound < tag
  retired : ∀ call entry version tag, state.phase call = .reading entry version →
    (tag, version) ∈ state.retired → bound < tag

theorem Guarded.step {bound : Nat} {state next : State} {step : Step}
    (guarded : Guarded bound state) (inv : Inv state)
    (stepped : state.step step = some next) : Guarded bound next := by
  have moves := moves_of_step stepped
  obtain ⟨epoch, advanced, retired⟩ := guarded
  have untagged : ∀ call tag, state.phase call ≠ .advanced tag state.current :=
    fun call tag there => (inv.old _ (.advanced there)).2 rfl
  have unqueued : ∀ tag, (tag, state.current) ∉ state.retired :=
    fun tag there => (inv.old _ (.retired there)).2 rfl
  have dropped : ∀ count retiree, retiree ∈ state.retired.drop count → retiree ∈ state.retired :=
    fun count retiree => List.mem_of_mem_drop
  constructor
  · cases moves <;> grind
  · cases moves <;> grind
  · cases moves <;> grind

theorem Inv.active_le_epoch {state : State} (inv : Inv state) {entry : Nat}
    (member : entry ∈ state.active) : entry ≤ state.epoch := by
  obtain ⟨calls, _, _, same⟩ := inv.registry
  obtain ⟨call, _, inside⟩ := List.mem_filterMap.mp (same.subset member)
  exact inv.entered call entry inside

theorem Inv.mem_active {state : State} (inv : Inv state) {call entry : Nat} {version : Version}
    (inside : state.phase call = .reading entry version) : entry ∈ state.active := by
  obtain ⟨calls, _, complete, same⟩ := inv.registry
  refine same.symm.subset (List.mem_filterMap.mpr ⟨call, complete call ?_, ?_⟩)
  · rw [inside]
    exact Phase.noConfusion
  · rw [inside]
    rfl

theorem Inv.guarded {state : State} (inv : Inv state) {minActive : Nat}
    (minimum : state.active.min? = some minActive) : Guarded minActive state := by
  obtain ⟨member, least⟩ := List.min?_eq_some_iff.mp minimum
  exact
    { epoch := inv.active_le_epoch member
      advanced := fun call entry version other tag reading there =>
        Nat.lt_of_le_of_lt (least _ (inv.mem_active reading))
          (inv.advancedAbove call entry version other tag reading there)
      retired := fun call entry version tag reading there =>
        Nat.lt_of_le_of_lt (least _ (inv.mem_active reading))
          (inv.retiredAbove call entry version tag reading there) }

theorem phase_of_step_other {state next : State} {step : Step} {call : Nat}
    (elsewhere : step.call ≠ call) (stepped : state.step step = some next) :
    next.phase call = state.phase call := by
  have moves := moves_of_step stepped
  cases moves <;> simp_all [Step.call, eq_comm]

theorem tag_le_of_mem_removes {state : State} {call minActive tag : Nat} {version : Version}
    (here : state.phase call = .scanned minActive)
    (removed : (tag, version) ∈ state.removes (.drain call)) :
    tag ≤ minActive ∧ (tag, version) ∈ state.retired := by
  simp only [State.removes, here] at removed
  refine ⟨?_, List.mem_of_mem_take removed⟩
  have taken := List.prefix_iff_eq_take.mp
    (List.takeWhile_prefix (l := state.retired) (fun retiree => retiree.1 ≤ minActive))
  unfold freed at removed
  rw [← taken] at removed
  simpa using List.mem_takeWhile_imp removed

/-- A drain removes no version that a reader inside its critical section holds, provided the
registry was not empty when the reclaim computed its minimum. -/
theorem drain_spares_readers {before between : List Step} {start scanned finish : State}
    {reclaim reader entry tag : Nat} {version : Version}
    (reached : runSteps State.step State.new before = some start)
    (occupied : start.active ≠ [])
    (minimum : start.step (.scan reclaim) = some scanned)
    (ran : runSteps State.step scanned between = some finish)
    (waiting : ∀ step ∈ between, step.call ≠ reclaim)
    (inside : finish.phase reader = .reading entry version) :
    (tag, version) ∉ finish.removes (.drain reclaim) := by
  intro removed
  have invStart := inv_of_run reached
  obtain ⟨minActive, least⟩ : ∃ minActive, start.active.min? = some minActive :=
    Option.ne_none_iff_exists'.mp (fun empty => occupied (List.min?_eq_none_iff.mp empty))
  -- the bound holds right after the scan, and no step of another call breaks it
  have atScan : scanned.phase reclaim = .scanned minActive ∧ Guarded minActive scanned := by
    refine ⟨?_, (invStart.guarded least).step invStart minimum⟩
    cases moves_of_step minimum
    simp [least]
  have atDrain := runSteps_invariant_of
    (fun step => step.call ≠ reclaim)
    (fun state =>
      Inv state ∧ state.phase reclaim = .scanned minActive ∧ Guarded minActive state)
    (fun elsewhere holds stepped => ⟨holds.1.step stepped,
      (phase_of_step_other elsewhere stepped).trans holds.2.1, holds.2.2.step holds.1 stepped⟩)
    waiting ⟨invStart.step minimum, atScan⟩ ran
  obtain ⟨small, queued⟩ := tag_le_of_mem_removes atDrain.2.1 removed
  have large := atDrain.2.2.retired reader entry version tag inside queued
  omega

/-- The version a registered reader cloned between the scan and the drain stays queued. -/
theorem drain_spares_readers_late :
    ∃ start scanned finish,
      runSteps State.step State.new [.load 1, .register 1] = some start ∧ start.active ≠ [] ∧
      start.step (.scan 0) = some scanned ∧
      runSteps State.step scanned [.clone 1, .swap 2, .advance 2, .queue 2] = some finish ∧
      finish.phase 1 = .reading 0 0 ∧ finish.retired = [(1, 0)] ∧
      (1, 0) ∉ finish.removes (.drain 0) := by
  have occupied : [0] ≠ [] := List.cons_ne_nil 0 []
  have waiting : ∀ step ∈ [Step.clone 1, .swap 2, .advance 2, .queue 2], step.call ≠ 0 := by
    decide
  refine ⟨_, _, _, rfl, occupied, rfl, rfl, rfl, rfl, ?_⟩
  exact drain_spares_readers
    (show runSteps State.step State.new [.load 1, .register 1] = some _ from rfl)
    occupied rfl rfl waiting (show State.phase _ 1 = .reading 0 0 from rfl)

/-- With an empty registry the minimum is `u64::MAX`: the reader that enters before the drain
loses the version it holds. -/
theorem drain_takes_held_version :
    ∃ start finish,
      runSteps State.step State.new
        [.scan 0, .load 1, .register 1, .clone 1, .swap 2, .advance 2, .queue 2] = some start ∧
      start.phase 1 = .reading 0 0 ∧ start.removes (.drain 0) = [(1, 0)] ∧
      start.step (.drain 0) = some finish ∧ finish.phase 1 = .reading 0 0 ∧
      finish.retired = [] :=
  ⟨_, _, rfl, rfl, rfl, rfl, rfl, rfl⟩

end Keystory.EpochRcu
