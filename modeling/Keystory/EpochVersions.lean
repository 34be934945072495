/-
Where the versions of an epoch-guarded cell are. Publications, readers and reclaims
interleave freely, and still each version ever allocated is in one place: it is the
current one, in the hands of a publication on its way, queued, or freed. A reclaim that
finds no reader inside empties the queue, so nothing is freed twice and nothing leaks.
-/

import Mathlib.Data.List.Nodup
import Keystory.EpochRcu

namespace Keystory.EpochRcu

open General

def Phase.withdrawn? : Phase → Option Version
  | .swapped old => some old
  | .advanced _ old => some old
  | _ => none

def State.drained (state : State) : List Step → List Version
  | [] => []
  | step :: rest =>
      (state.removes step).map Prod.snd ++
        match state.step step with
        | some next => next.drained rest
        | none => []

/-- Of the versions allocated so far, `gone` are freed, and the publications on their
way hold those of `outstanding`, listed with their calls. -/
structure Accounts (gone : List Version) (outstanding : List (Nat × Version)) (state : State) :
    Prop where
  listed : ∀ call version, (call, version) ∈ outstanding ↔
    (state.phase call).withdrawn? = some version
  balance : (state.current :: (outstanding.map Prod.snd ++
    (state.retired.map Prod.snd ++ gone))).Perm (List.range state.fresh)

namespace Accounts

variable {gone : List Version} {outstanding : List (Nat × Version)} {state next : State}

theorem new : Accounts [] [] State.new where
  listed := fun call version => by simp [State.new, Phase.withdrawn?]
  balance := List.Perm.refl _

theorem outstanding_nodup (accounts : Accounts gone outstanding state) : outstanding.Nodup := by
  have distinct := accounts.balance.nodup_iff.mpr List.nodup_range
  exact List.Nodup.of_map Prod.snd (List.nodup_append.mp (List.nodup_cons.mp distinct).2).1

theorem listed_update (accounts : Accounts gone outstanding state) {call : Nat} {phase : Phase}
    (same : (state.phase call).withdrawn? = phase.withdrawn?) (other : Nat) (version : Version) :
    (other, version) ∈ outstanding ↔
      (Function.update state.phase call phase other).withdrawn? = some version := by
  rw [accounts.listed]
  by_cases here : other = call
  · rw [here, Function.update_self, same]
  · rw [Function.update_of_ne here]

theorem swap (accounts : Accounts gone outstanding state) {call : Nat}
    (here : state.phase call = .idle) :
    Accounts gone ((call, state.current) :: outstanding)
      ({ state with current := state.fresh, fresh := state.fresh + 1 }.goto call
        (.swapped state.current)) where
  listed := by
    intro other version
    rw [List.mem_cons, accounts.listed, Prod.mk.injEq]
    change _ ↔ (Function.update state.phase call (.swapped state.current) other).withdrawn? =
      some version
    by_cases same : other = call
    · rw [same, Function.update_self, here]
      simp [Phase.withdrawn?, eq_comm]
    · rw [Function.update_of_ne same]
      simp [same]
  balance := by
    rw [goto_fresh, List.range_succ]
    exact (accounts.balance.cons state.fresh).trans (List.perm_append_singleton _ _).symm

theorem queue (accounts : Accounts gone outstanding state) {call tag : Nat} {old : Version}
    (here : state.phase call = .advanced tag old) :
    Accounts gone (outstanding.erase (call, old))
      ({ state with retired := state.retired ++ [(tag, old)] }.goto call .idle) where
  listed := by
    intro other version
    rw [accounts.outstanding_nodup.mem_erase_iff, accounts.listed, Ne, Prod.mk.injEq]
    change _ ↔ (Function.update state.phase call .idle other).withdrawn? = some version
    by_cases same : other = call
    · rw [same, Function.update_self, here]
      simp [Phase.withdrawn?, eq_comm]
    · rw [Function.update_of_ne same]
      simp [same]
  balance := by
    have member : (call, old) ∈ outstanding := by
      rw [accounts.listed, here]
      rfl
    have taken : (outstanding.map Prod.snd).Perm
        (old :: (outstanding.erase (call, old)).map Prod.snd) :=
      (List.perm_cons_erase member).map Prod.snd
    refine List.Perm.trans (List.Perm.cons state.current ?_) accounts.balance
    rw [goto_retired, List.map_append, List.append_assoc]
    calc List.Perm _ ((outstanding.erase (call, old)).map Prod.snd ++
            old :: (state.retired.map Prod.snd ++ gone)) :=
          List.Perm.append_left _ List.perm_middle
      List.Perm _ (old :: ((outstanding.erase (call, old)).map Prod.snd ++
            (state.retired.map Prod.snd ++ gone))) := List.perm_middle
      List.Perm _ _ := taken.symm.append_right _

theorem drain (accounts : Accounts gone outstanding state) {call minActive : Nat}
    (here : state.phase call = .scanned minActive) :
    Accounts (gone ++ (state.removes (.drain call)).map Prod.snd) outstanding
      ({ state with
        retired := state.retired.drop (freed state.retired minActive) }.goto call .idle) where
  listed := accounts.listed_update (by rw [here]; rfl)
  balance := by
    refine List.Perm.trans (List.Perm.cons state.current (List.Perm.append_left _ ?_))
      accounts.balance
    have parts := List.take_append_drop (freed state.retired minActive) state.retired
    conv_rhs => rw [← parts, List.map_append, List.append_assoc]
    rw [goto_retired, State.removes, here, ← List.append_assoc]
    exact List.perm_append_comm

/-- One step moves a version from one place to the next, or none. -/
theorem step {step : Step} (accounts : Accounts gone outstanding state)
    (moves : Moves state step next) :
    ∃ held, Accounts (gone ++ (state.removes step).map Prod.snd) held next := by
  cases moves with
  | load here | register here | clone here | exit here | scan here | advance here =>
      change ∃ held, Accounts (gone ++ []) held _
      rw [List.append_nil]
      exact ⟨outstanding, accounts.listed_update (by rw [here]; rfl), accounts.balance⟩
  | swap here =>
      change ∃ held, Accounts (gone ++ []) held _
      rw [List.append_nil]
      exact ⟨_, accounts.swap here⟩
  | queue here =>
      change ∃ held, Accounts (gone ++ []) held _
      rw [List.append_nil]
      exact ⟨_, accounts.queue here⟩
  | drain here => exact ⟨outstanding, accounts.drain here⟩

theorem run {steps : List Step} (accounts : Accounts gone outstanding state)
    (ran : runSteps State.step state steps = some next) :
    ∃ held, Accounts (gone ++ state.drained steps) held next := by
  induction steps generalizing gone outstanding state with
  | nil =>
      cases ran
      rw [State.drained, List.append_nil]
      exact ⟨outstanding, accounts⟩
  | cons step rest ih =>
      obtain ⟨middle, stepped, later⟩ := runSteps_cons_eq_some.mp ran
      obtain ⟨held, kept⟩ := accounts.step (moves_of_step stepped)
      obtain ⟨final, reached⟩ := ih kept later
      rw [State.drained, stepped, ← List.append_assoc]
      exact ⟨final, reached⟩

end Accounts

/-- Tags are drawn from the epoch. -/
structure Tagged (state : State) : Prop where
  advanced : ∀ call tag version, state.phase call = .advanced tag version → tag ≤ state.epoch
  retired : ∀ retiree ∈ state.retired, retiree.1 ≤ state.epoch

theorem Tagged.step {state next : State} {step : Step} (tagged : Tagged state)
    (stepped : state.step step = some next) : Tagged next := by
  have moves := moves_of_step stepped
  obtain ⟨advanced, retired⟩ := tagged
  have dropped : ∀ count retiree, retiree ∈ state.retired.drop count → retiree ∈ state.retired :=
    fun count retiree => List.mem_of_mem_drop
  constructor
  · cases moves <;> grind
  · cases moves <;> grind

theorem tagged_of_run {steps : List Step} {state : State}
    (ran : runSteps State.step State.new steps = some state) : Tagged state := by
  refine runSteps_invariant Tagged Tagged.step ⟨?_, ?_⟩ ran
  · intro call tag version there
    cases there
  · intro retiree member
    cases member

theorem Tagged.reclaims_all {state : State} (tagged : Tagged state)
    (counted : state.epoch ≤ u64Max) {call : Nat} (here : state.phase call = .idle)
    (quiet : state.active = []) :
    ∃ final, runSteps State.step state [.scan call, .drain call] = some final ∧
      final.retired = [] ∧
        state.drained [.scan call, .drain call] = state.retired.map Prod.snd := by
  have all : freed state.retired u64Max = state.retired.length := by
    unfold freed
    rw [List.takeWhile_eq_self_iff.mpr]
    intro retiree member
    exact decide_eq_true (le_trans (tagged.retired retiree member) counted)
  have scanned : state.step (.scan call) = some (state.goto call (.scanned u64Max)) := by
    rw [State.step, here, quiet]
    rfl
  have waits : (state.goto call (.scanned u64Max)).phase call = .scanned u64Max := by simp
  have drained : (state.goto call (.scanned u64Max)).step (.drain call) =
      some ({ state.goto call (.scanned u64Max) with retired := [] }.goto call .idle) := by
    rw [State.step, waits]
    simp [all]
  refine ⟨_, runSteps_cons_eq_some.mpr ⟨_, scanned,
    runSteps_cons_eq_some.mpr ⟨_, drained, rfl⟩⟩, rfl, ?_⟩
  rw [State.drained, scanned]
  simp only [State.drained, drained, State.removes, waits, goto_retired, all, List.take_length,
    List.map_nil, List.nil_append, List.append_nil]

/-- In every interleaving each allocated version is the current one, held by one
publication on its way, queued once or freed once, and a reclaim that meets no reader
frees all that is queued. An epoch that fits 64 bits has not wrapped. -/
theorem versions_freed_once {steps : List Step} {state : State}
    (ran : runSteps State.step State.new steps = some state) :
    (∃ outstanding : List (Nat × Version),
      (∀ call version, (call, version) ∈ outstanding ↔
        (state.phase call).withdrawn? = some version) ∧
      (state.current :: (outstanding.map Prod.snd ++ (state.retired.map Prod.snd ++
        State.new.drained steps))).Perm (List.range state.fresh)) ∧
    ∀ call, state.epoch ≤ u64Max → state.phase call = .idle → state.active = [] →
      ∃ final, runSteps State.step state [.scan call, .drain call] = some final ∧
        final.retired = [] ∧
        state.drained [.scan call, .drain call] = state.retired.map Prod.snd := by
  constructor
  · obtain ⟨held, accounts⟩ := Accounts.new.run ran
    exact ⟨held, accounts.listed, accounts.balance⟩
  · intro call counted here quiet
    exact (tagged_of_run ran).reclaims_all counted here quiet

/-- Two publications, the later of them queued first, and a reader that has left. -/
theorem versions_freed_once_crossed :
    ∃ state final,
      runSteps State.step State.new [.load 1, .register 1, .clone 1, .swap 2, .advance 2, .swap 3,
        .advance 3, .queue 3, .queue 2, .exit 1] = some state ∧
      state.retired = [(2, 1), (1, 0)] ∧
      runSteps State.step state [.scan 4, .drain 4] = some final ∧ final.retired = [] ∧
      state.drained [.scan 4, .drain 4] = [1, 0] := by
  obtain ⟨state, ran, queued, counted, here, quiet⟩ : ∃ state,
      runSteps State.step State.new [.load 1, .register 1, .clone 1, .swap 2, .advance 2, .swap 3,
        .advance 3, .queue 3, .queue 2, .exit 1] = some state ∧
      state.retired = [(2, 1), (1, 0)] ∧ state.epoch ≤ u64Max ∧ state.phase 4 = .idle ∧
      state.active = [] := ⟨_, rfl, rfl, by decide, rfl, rfl⟩
  obtain ⟨final, reclaimed, empty, freed⟩ := (versions_freed_once ran).2 4 counted here quiet
  rw [queued] at freed
  exact ⟨state, final, ran, queued, reclaimed, empty, freed⟩

end Keystory.EpochRcu
