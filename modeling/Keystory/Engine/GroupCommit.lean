/-
Group commit over every interleaving: one flush or checkpoint instant at a time,
every queued commit handed to the log once and answered with its own result,
indices without gaps, snapshots that are folds of the commits before them, and no
call left asleep with nobody to wake it.
-/

import Keystory.Engine.CommitQueue

namespace Keystory.CommitQueue

open General

/-! ### One holder of the flag -/

/-- The flag is up exactly while some call holds it, and nobody sleeps while it is down. -/
structure Exclusive (state : State) : Prop where
  alone : ∀ one two, (state.phase one).holds = true → (state.phase two).holds = true → one = two
  flagged : ∀ call, (state.phase call).holds = true → state.flushing = true
  held : state.flushing = true → ∃ call, (state.phase call).holds = true
  asleep : ∀ call, (state.phase call).sleeps = true → state.flushing = true

theorem woken_cases (phase : Phase) :
    phase.woken = phase ∨ (phase = .asleep ∧ phase.woken = .looping) ∨
      (phase = .dozing ∧ phase.woken = .seeking) := by
  cases phase <;> simp [Phase.woken]

@[simp, grind =] theorem woken_holds (phase : Phase) : phase.woken.holds = phase.holds := by
  cases phase <;> rfl

@[simp, grind =] theorem woken_sleeps (phase : Phase) : phase.woken.sleeps = false := by
  cases phase <;> rfl

inductive Flag (state next : State) : Prop where
  | keep (flag : next.flushing = state.flushing)
      (same : ∀ call, (next.phase call).holds = (state.phase call).holds)
      (asleep : ∀ call, (next.phase call).sleeps = true →
        (state.phase call).sleeps = true ∨ state.flushing = true)
  | raise (call : Nat) (before : state.flushing = false) (flag : next.flushing = true)
      (holds : (next.phase call).holds = true)
      (same : ∀ other, other ≠ call → next.phase other = state.phase other)
  | lower (call : Nat) (held : (state.phase call).holds = true) (flag : next.flushing = false)
      (ends : (next.phase call).holds = false)
      (same : ∀ other, other ≠ call → (next.phase other).holds = (state.phase other).holds)
      (awake : ∀ other, (next.phase other).sleeps = false)

section Keeps

variable {state next : State}

theorem flag_of_moves (moves : Moves state next) : Flag state next := by
  cases moves with
  | @claim call here unsettled free =>
      exact .raise call free rfl (by simp [Phase.holds]) (by simp +contextual)
  | @seize call here free =>
      exact .raise call free rfl (by simp [Phase.holds]) (by simp +contextual)
  | release here =>
      refine .lower _ (by rw [here]; rfl) rfl (by simp [Phase.holds]) (by simp +contextual) ?_
      intro other
      grind [Phase.sleeps]
  | leave here =>
      refine .lower _ (by rw [here]; rfl) rfl (by simp [Phase.holds]) (by simp +contextual) ?_
      intro other
      grind [Phase.sleeps]
  | _ =>
      refine .keep rfl ?_ ?_
      · intro other
        grind [Phase.holds]
      · intro other
        grind [Phase.sleeps]

theorem Exclusive.opened (base : Snapshot) : Exclusive (State.opened base) := by
  constructor <;> simp [State.opened, Phase.holds, Phase.sleeps]

theorem Exclusive.moves (exclusive : Exclusive state) (moves : Moves state next) :
    Exclusive next := by
  cases flag_of_moves moves with
  | keep flag same asleep =>
      constructor
      case alone => grind [exclusive.alone]
      case flagged => grind [exclusive.flagged]
      case held =>
          intro up
          obtain ⟨call, holds⟩ := exclusive.held (flag ▸ up)
          exact ⟨call, (same call).trans holds⟩
      case asleep => grind [exclusive.asleep]
  | raise call before flag holds same =>
      constructor
      case alone => grind [exclusive.flagged]
      case flagged => exact fun _ _ => flag
      case held => exact fun _ => ⟨call, holds⟩
      case asleep => exact fun _ _ => flag
  | lower call held flag ends same awake =>
      constructor
      case alone => grind [exclusive.alone]
      case flagged => grind [exclusive.alone]
      case held => exact fun up => absurd up (by rw [flag]; decide)
      case asleep => grind

end Keeps

/-! ### Snapshots -/

def after (base : Snapshot) (commits : List Pending) : Snapshot :=
  (commits.map Pending.ops).foldl Snapshot.commit base

theorem after_append (base : Snapshot) (first second : List Pending) :
    after base (first ++ second) = after (after base first) second := by
  rw [after, List.map_append, List.foldl_append]
  rfl

theorem index_after (base : Snapshot) (commits : List Pending) :
    (after base commits).index = base.index + commits.length := by
  rw [after, index_foldl_commit, List.length_map]

def Part (base : Snapshot) (commits : List Pending) (snapshot : Snapshot) : Prop :=
  ∃ count, count ≤ commits.length ∧ snapshot = after base (commits.take count)

theorem part_after (base : Snapshot) (commits : List Pending) :
    Part base commits (after base commits) :=
  ⟨commits.length, Nat.le_refl _, by rw [List.take_length]⟩

theorem Part.append {base snapshot : Snapshot} {commits : List Pending}
    (part : Part base commits snapshot) (more : List Pending) :
    Part base (commits ++ more) snapshot := by
  obtain ⟨count, within, rfl⟩ := part
  refine ⟨count, ?_, ?_⟩
  · rw [List.length_append]
    omega
  · rw [List.take_append_of_le_length within]

theorem Part.index_le {base snapshot : Snapshot} {commits : List Pending}
    (part : Part base commits snapshot) : snapshot.index ≤ base.index + commits.length := by
  obtain ⟨count, within, rfl⟩ := part
  rw [index_after, List.length_take]
  omega

/-- The published snapshot has all commits of the log, but for a group just landed. -/
structure Published (base : Snapshot) (state : State) : Prop where
  staged : ∀ call group staged, state.phase call = .staged group staged →
    staged = Store.stageGroup state.snap (group.map Pending.ops)
  landed : ∀ call group staged, state.phase call = .landed group staged →
    staged.next = after base state.commits
  published : ∀ call group staged, state.phase call = .published group staged →
    staged.next = state.snap
  whole : (∀ call group staged, state.phase call ≠ .landed group staged) →
    state.snap = after base state.commits
  part : Part base state.commits state.snap
  index_le : state.index ≤ state.snap.index

theorem Published.opened (base : Snapshot) : Published base (State.opened base) := by
  constructor
  case part => exact part_after base []
  all_goals simp [State.opened, after]

/-- While a call that has landed no group holds the flag, readers see every commit. -/
theorem Published.snap_eq {base : Snapshot} {state : State} (published : Published base state)
    (exclusive : Exclusive state) {call : Nat} (holds : (state.phase call).holds = true)
    (unlanded : ∀ group staged, state.phase call ≠ .landed group staged) :
    state.snap = after base state.commits := by
  refine published.whole ?_
  intro other group staged there
  obtain rfl := exclusive.alone other call (by rw [there]; rfl) holds
  exact unlanded group staged there

theorem Published.moves {base : Snapshot} {state next : State} (published : Published base state)
    (exclusive : Exclusive state) (moves : Moves state next) : Published base next := by
  cases moves with
  | @land call group staged here =>
      have only : ∀ other, (state.phase other).holds = true → other = call :=
        fun other holds => exclusive.alone other call holds (by rw [here]; rfl)
      have holds : (state.phase call).holds = true := by rw [here]; rfl
      have whole := published.snap_eq exclusive holds (by simp [here])
      have landing : staged.next = after base (state.commits ++ group) := by
        rw [published.staged call group staged here, stageGroup_eq, whole, after_append]
        rfl
      constructor
      case staged => grind [published.staged]
      case landed => grind [Phase.holds]
      case published => grind [published.published]
      case whole => exact fun none => absurd (by simp) (none call group staged)
      case part => exact published.part.append group
      case index_le => exact published.index_le
  | @publish call group staged here =>
      have only : ∀ other, (state.phase other).holds = true → other = call :=
        fun other holds => exclusive.alone other call holds (by rw [here]; rfl)
      have landing := published.landed call group staged here
      constructor
      case staged => grind [Phase.holds]
      case landed => grind [published.landed]
      case published => grind [Phase.holds]
      case whole => exact fun _ => landing
      case part =>
          change Part base state.commits staged.next
          rw [landing]
          exact part_after base state.commits
      case index_le =>
          change state.index ≤ staged.next.index
          rw [landing, index_after]
          exact Nat.le_trans published.index_le published.part.index_le
  | @storeIndex call group staged here =>
      constructor
      case staged => grind [published.staged]
      case landed => grind [published.landed]
      case published => grind [published.published]
      case whole =>
          intro none
          refine published.whole (fun other group staged there => none other group staged ?_)
          grind
      case part => exact published.part
      case index_le =>
          change staged.next.index ≤ state.snap.index
          rw [published.published call group staged here]
  | _ =>
      constructor
      case staged => grind [woken_cases, published.staged]
      case landed => grind [woken_cases, published.landed]
      case published => grind [woken_cases, published.published]
      case whole =>
          intro none
          refine published.whole (fun other group staged there => none other group staged ?_)
          grind [woken_cases]
      case part => exact published.part
      case index_le => exact published.index_le

/-! ### The ledger of commits -/

def Phase.standing : Phase → Standing Pending Failure
  | .looping | .asleep => .waiting
  | .claimed group | .staged group _ => .carrying group
  | .landed group flushed | .published group flushed => .owing (due group flushed)
  | .settling rest => .owing rest
  | .releasing done | .returned done => .closed done
  | .unborn | .refused _ | .seeking | .dozing | .instant | .pinned | .past => .outside

def Note.hands : Note → List Nat
  | .handed group => group.map Pending.ticket
  | _ => []

def handed (history : List Note) : List Nat :=
  history.flatMap Note.hands

def State.ledger (state : State) : Ledger Pending Failure where
  queue := state.pending
  standing := fun call => (state.phase call).standing
  tickets := state.tickets
  handed := handed state.history
  accepted := state.commits

theorem holds_of_busy {phase : Phase} (busy : phase.standing.busy = true) :
    phase.holds = true := by
  cases phase <;> first | rfl | (simp [Phase.standing, Standing.busy] at busy)

theorem ledger_goto (state : State) (call : Nat) (phase : Phase) :
    (state.goto call phase).ledger =
      { state.ledger with
        standing := Function.update state.ledger.standing call phase.standing } := by
  have standing : (fun other => ((state.goto call phase).phase other).standing) =
      Function.update state.ledger.standing call phase.standing := by
    funext other
    rw [goto_phase, Function.update_apply, apply_ite Phase.standing]
    rfl
  rw [State.ledger, standing]
  rfl

theorem ledger_goto_same {state : State} {call : Nat} {phase : Phase}
    (same : phase.standing = (state.phase call).standing) :
    (state.goto call phase).ledger = state.ledger := by
  rw [ledger_goto, same]
  change { state.ledger with
    standing := Function.update state.ledger.standing call (state.ledger.standing call) } = _
  rw [Function.update_eq_self]

theorem ledger_note (state : State) (entry : Note) :
    (state.note entry).ledger =
      { state.ledger with handed := handed state.history ++ entry.hands } := by
  have same : handed (state.history ++ [entry]) = handed state.history ++ entry.hands := by
    rw [handed, List.flatMap_append, List.flatMap_singleton]
    rfl
  rw [State.ledger, note_history, same]
  rfl

theorem ledger_note_same {state : State} {entry : Note} (silent : entry.hands = []) :
    (state.note entry).ledger = state.ledger := by
  rw [ledger_note, silent, List.append_nil]
  rfl

theorem ledger_dropGuard (state : State) : state.dropGuard.ledger = state.ledger := by
  have standing : (fun call => (state.phase call).woken.standing) =
      fun call => (state.phase call).standing := by
    funext call
    cases state.phase call <;> rfl
  rw [State.ledger]
  change Ledger.mk _ (fun call => (state.phase call).woken.standing) _ _ _ = _
  rw [standing]
  rfl

theorem due_stageGroup (group : List Pending) (snapshot : Snapshot) :
    due group (Store.stageGroup snapshot (group.map Pending.ops)) =
      Ledger.numbered Pending.ticket (snapshot.index + 1) group := by
  rw [due, stageGroup_eq, Ledger.numbered, List.zipIdx_eq_zip_range', List.length_map]

theorem ledger_setTicket (state : State) (call : Nat) (result : Option Outcome) :
    (state.setTicket call result).ledger =
      { state.ledger with tickets := Function.update state.ledger.tickets call result } := rfl

theorem ledger_moves {base : Snapshot} {state next : State} (exclusive : Exclusive state)
    (published : Published base state) (moves : Moves state next) :
    next.ledger = state.ledger ∨
      Ledger.Move Pending.ticket base.index state.ledger next.ledger := by
  have standing : ∀ {call phase}, state.phase call = phase →
      state.ledger.standing call = phase.standing := by
    rintro call phase rfl
    rfl
  cases moves with
  | refuse fresh =>
      left
      rw [ledger_goto_same (by rw [note_phase, fresh]; rfl), ledger_note_same rfl]
  | enqueue fresh =>
      right
      rw [State.enqueue, ledger_goto, ledger_note_same rfl]
      exact .enqueue (standing fresh) rfl
  | done here settled =>
      right
      rw [ledger_goto, ledger_note_same rfl, ledger_setTicket]
      exact .take settled (Or.inl (standing here))
  | claim here unsettled free =>
      right
      rw [ledger_goto]
      refine .claim (standing here) unsettled ?_
      intro other
      have idle : (state.phase other).holds ≠ true := by grind [exclusive.flagged]
      exact Bool.eq_false_iff.mpr (fun busy => idle (holds_of_busy busy))
  | load here =>
      left
      rw [ledger_goto_same (by rw [note_phase, here]; rfl), ledger_note_same rfl]
  | pin here =>
      left
      rw [ledger_goto_same (by rw [note_phase, here]; rfl), ledger_note_same rfl]
  | @land call group staged here =>
      right
      have holds : (state.phase call).holds = true := by rw [here]; rfl
      have whole := published.snap_eq exclusive holds (by simp [here])
      have results : due group staged =
          Ledger.numbered Pending.ticket (base.index + state.commits.length + 1) group := by
        rw [published.staged call group staged here, due_stageGroup, whole, index_after]
      rw [ledger_goto, ledger_note, Phase.standing, results]
      exact .accept (standing here)
  | fail here =>
      right
      rw [ledger_goto, ledger_note]
      exact .refuse (standing here)
  | publish here =>
      left
      rw [ledger_goto_same (by rw [note_phase, here]; rfl), ledger_note_same rfl]
      rfl
  | storeIndex here =>
      left
      rw [ledger_goto_same (by rw [here]; rfl)]
      rfl
  | settle here =>
      right
      rw [ledger_goto, ledger_setTicket]
      exact .settle (standing here)
  | take here settled =>
      right
      rw [ledger_goto, ledger_setTicket]
      exact .take settled (Or.inr (standing here))
  | release here =>
      left
      rw [ledger_goto_same (by rw [note_phase, dropGuard_phase, here]; rfl), ledger_note_same rfl,
        ledger_dropGuard]
  | leave here =>
      left
      rw [ledger_goto_same (by rw [dropGuard_phase, here]; rfl), ledger_dropGuard]
  | snapshot => exact Or.inl (ledger_note_same rfl)
  | index => exact Or.inl (ledger_note_same rfl)
  | _ => exact Or.inl (ledger_goto_same (by simp only [*]; rfl))

/-! ### Results and the history -/

def Phase.answer? : Phase → Option Outcome
  | .returned done => some done
  | .refused failure => some (.error failure)
  | .unborn | .looping | .asleep | .claimed _ | .staged _ _ | .landed _ _ | .published _ _ => none
  | .settling _ | .releasing _ | .seeking | .dozing | .instant | .pinned | .past => none

/-- A result comes after the index that readers are shown. -/
structure Seen (state : State) : Prop where
  ticket : ∀ call index, state.tickets call = some (.ok index) → index ≤ state.index
  owed : ∀ call rest other index, state.phase call = .settling rest → (other, .ok index) ∈ rest →
    index ≤ state.index
  taken : ∀ call index, state.phase call = .releasing (.ok index) → index ≤ state.index
  returned : ∀ call index, state.phase call = .returned (.ok index) → index ≤ state.index

/-- A commit returns after it was handed to the log, and no later look at the store misses it. -/
def Lawful (earlier : List Note) : Note → Prop
  | .returned call _ => (∃ ops, .enqueued call ops ∈ earlier) → call ∈ handed earlier
  | .loaded snapshot =>
      ∀ call index, .returned call (.ok index) ∈ earlier → index ≤ snapshot.index
  | .readIndex seen => ∀ call index, .returned call (.ok index) ∈ earlier → index ≤ seen
  | _ => True

/-- The history tells of the calls what their phases tell. -/
structure Recorded (base : Snapshot) (state : State) : Prop where
  published : ∀ snapshot, .published snapshot ∈ state.history → Part base state.commits snapshot
  loaded : ∀ snapshot, .loaded snapshot ∈ state.history → Part base state.commits snapshot
  returned : ∀ call done, .returned call done ∈ state.history ↔
    (state.phase call).answer? = some done
  enqueued : ∀ call ops, .enqueued call ops ∈ state.history →
    (state.phase call).standing ≠ .outside
  once : ∀ call one two, .enqueued call one ∈ state.history →
    .enqueued call two ∈ state.history → one = two
  queued : ∀ commit ∈ state.pending, .enqueued commit.ticket commit.ops ∈ state.history
  carried : ∀ call group, (state.phase call).standing = .carrying group → ∀ commit ∈ group,
    .enqueued commit.ticket commit.ops ∈ state.history
  committed : ∀ commit ∈ state.commits, .enqueued commit.ticket commit.ops ∈ state.history
  lawful : Chronicle Lawful state.history

structure Inv (base : Snapshot) (state : State) : Prop where
  exclusive : Exclusive state
  published : Published base state
  ledger : state.ledger.Lawful Pending.ticket base.index
  seen : Seen state
  recorded : Recorded base state

section Keeps

variable {base : Snapshot} {state next : State}

theorem Seen.moves (seen : Seen state) (exclusive : Exclusive state)
    (published : Published base state)
    (ledger : state.ledger.Lawful Pending.ticket base.index) (moves : Moves state next) :
    Seen next := by
  obtain ⟨ticket, owed, taken, returned⟩ := seen
  cases moves with
  | @storeIndex call group staged here =>
      have holds : (state.phase call).holds = true := by rw [here]; rfl
      have whole := published.snap_eq exclusive holds (by simp [here])
      have ahead : staged.next.index = base.index + state.commits.length := by
        rw [published.published call group staged here, whole, index_after]
      have grows : state.index ≤ staged.next.index := by
        rw [published.published call group staged here]
        exact published.index_le
      have bounded : ∀ other index, (other, .ok index) ∈ due group staged →
          index ≤ staged.next.index := by
        intro other index member
        obtain ⟨_, _, _, place, same, found⟩ :=
          ledger.owed call _ (show (state.phase call).standing = _ by rw [here]; rfl) _ _ member
        obtain ⟨commit, there, _⟩ := Option.map_eq_some_iff.mp found
        have within := (List.getElem?_eq_some_iff.mp there).1
        change place < state.commits.length at within
        omega
      constructor
      case ticket => grind
      case owed => grind
      case taken => grind
      case returned => grind
  | _ =>
      constructor
      case ticket => grind
      case owed => grind [woken_cases, failed]
      case taken => grind [woken_cases]
      case returned => grind [woken_cases]

theorem Recorded.published_moves (recorded : Recorded base state)
    (published : Published base state) (moves : Moves state next) (snapshot : Snapshot)
    (member : .published snapshot ∈ next.history) : Part base next.commits snapshot := by
  have old := recorded.published snapshot
  cases moves with
  | @land call group staged here => exact (old (by simpa using member)).append group
  | @publish call group staged here =>
      have whole : Part base state.commits staged.next := by
        rw [published.landed call group staged here]
        exact part_after base state.commits
      grind
  | _ => grind

theorem Recorded.loaded_moves (recorded : Recorded base state)
    (published : Published base state) (moves : Moves state next) (snapshot : Snapshot)
    (member : .loaded snapshot ∈ next.history) : Part base next.commits snapshot := by
  have old := recorded.loaded snapshot
  have now := published.part
  cases moves with
  | @land call group staged here => exact (old (by simpa using member)).append group
  | _ => grind

theorem Recorded.returned_moves (recorded : Recorded base state) (moves : Moves state next)
    (call : Nat) (done : Outcome) :
    .returned call done ∈ next.history ↔ (next.phase call).answer? = some done := by
  have returned := recorded.returned
  cases moves <;> grind [woken_cases, Phase.answer?]

theorem Recorded.enqueued_moves (recorded : Recorded base state) (moves : Moves state next)
    (call : Nat) (ops : List Op) (member : .enqueued call ops ∈ next.history) :
    (next.phase call).standing ≠ .outside := by
  have enqueued := recorded.enqueued
  cases moves <;> grind [woken_cases, Phase.standing]

theorem Recorded.once_moves (recorded : Recorded base state) (moves : Moves state next)
    (call : Nat) (one two : List Op) (first : .enqueued call one ∈ next.history)
    (second : .enqueued call two ∈ next.history) : one = two := by
  have enqueued := recorded.enqueued
  have once := recorded.once
  cases moves <;> grind [Phase.standing]

theorem answer?_eq_some_ok {phase : Phase} {index : Nat} :
    phase.answer? = some (.ok index) ↔ phase = .returned (.ok index) := by
  cases phase <;> simp [Phase.answer?]

theorem Recorded.le_index (recorded : Recorded base state) (seen : Seen state) {call index : Nat}
    (member : .returned call (.ok index) ∈ state.history) : index ≤ state.index :=
  seen.returned call index (answer?_eq_some_ok.mp ((recorded.returned _ _).mp member))

theorem Recorded.lawful_moves (recorded : Recorded base state) (published : Published base state)
    (ledger : state.ledger.Lawful Pending.ticket base.index) (seen : Seen state)
    (moves : Moves state next) : Chronicle Lawful next.history := by
  have loads : Lawful state.history (.loaded state.snap) := fun call index member =>
    Nat.le_trans (recorded.le_index seen member) published.index_le
  cases moves with
  | refuse fresh =>
      refine recorded.lawful.concat ?_
      rintro ⟨ops, member⟩
      exact absurd (by rw [fresh]; rfl) (recorded.enqueued _ ops member)
  | done here settled =>
      refine recorded.lawful.concat (fun _ => ?_)
      exact (ledger.settled _ _ settled).2.1
  | @release call done here =>
      refine recorded.lawful.concat (fun _ => ?_)
      exact (ledger.closed call done (show (state.phase call).standing = _ by rw [here]; rfl)).1
  | load here => exact recorded.lawful.concat loads
  | pin here => exact recorded.lawful.concat loads
  | snapshot => exact recorded.lawful.concat loads
  | index => exact recorded.lawful.concat (fun call index member => recorded.le_index seen member)
  | enqueue fresh => exact recorded.lawful.concat trivial
  | land here => exact recorded.lawful.concat trivial
  | fail here => exact recorded.lawful.concat trivial
  | publish here => exact recorded.lawful.concat trivial
  | _ => exact recorded.lawful

theorem Recorded.moves (recorded : Recorded base state) (published : Published base state)
    (ledger : state.ledger.Lawful Pending.ticket base.index) (seen : Seen state)
    (moves : Moves state next) : Recorded base next := by
  constructor
  case published => exact recorded.published_moves published moves
  case loaded => exact recorded.loaded_moves published moves
  case returned => exact recorded.returned_moves moves
  case enqueued => exact recorded.enqueued_moves moves
  case once => exact recorded.once_moves moves
  case queued =>
      have queued := recorded.queued
      cases moves <;> grind
  case carried =>
      have queued := recorded.queued
      have carried := recorded.carried
      cases moves <;> grind [woken_cases, Phase.standing]
  case committed =>
      have committed := recorded.committed
      have carried := recorded.carried
      cases moves <;> grind [Phase.standing]
  case lawful => exact recorded.lawful_moves published ledger seen moves

theorem Inv.moves (inv : Inv base state) (moves : Moves state next) : Inv base next := by
  obtain ⟨exclusive, published, ledger, seen, recorded⟩ := inv
  refine ⟨exclusive.moves moves, published.moves exclusive moves, ?_,
    seen.moves exclusive published ledger moves, recorded.moves published ledger seen moves⟩
  rcases ledger_moves exclusive published moves with same | moved
  · rw [same]
    exact ledger
  · exact ledger.move moved

theorem Inv.opened (base : Snapshot) : Inv base (State.opened base) where
  exclusive := Exclusive.opened base
  published := Published.opened base
  ledger := by
    constructor <;> simp [State.opened, State.ledger, handed, Phase.standing, Standing.busy]
  seen := by constructor <;> simp [State.opened]
  recorded := by constructor <;> simp [State.opened, Phase.answer?, Phase.standing, Chronicle.nil]

theorem inv_of_run {events : List Event}
    (ran : runSteps State.step (State.opened base) events = some state) : Inv base state :=
  runSteps_invariant (Inv base) (fun inv stepped => keeps_of_step Inv.moves inv stepped)
    (Inv.opened base) ran

end Keeps

/-! ### No call is stranded -/

def Phase.underway : Phase → Bool
  | .unborn | .refused _ | .returned _ | .past => false
  | .looping | .asleep | .claimed _ | .staged _ _ | .landed _ _ | .published _ _ => true
  | .settling _ | .releasing _ | .seeking | .dozing | .instant | .pinned => true

def Event.ordinary : Event → Bool
  | .resume _ | .load _ | .append _ _ | .publish _ | .storeIndex _ => true
  | .settle _ | .take _ | .drop _ => true
  | .commit _ _ | .checkpoint _ | .wake _ | .snapshot | .index => false

/-- How many steps a holder is from the drop of its guard, at most. -/
def Phase.rank : Phase → Nat
  | .claimed group => group.length + 6
  | .staged group _ => group.length + 5
  | .landed group _ => group.length + 4
  | .published group _ => group.length + 3
  | .settling rest => rest.length + 2
  | .releasing _ => 1
  | .instant => 2
  | .pinned => 1
  | .unborn | .refused _ | .looping | .asleep | .returned _ | .seeking | .dozing | .past => 0

def Reaches (state final : State) : Prop :=
  ∃ events, (∀ event ∈ events, event.ordinary = true) ∧
    runSteps State.step state events = some final

theorem Reaches.trans {state middle final : State} (first : Reaches state middle)
    (second : Reaches middle final) : Reaches state final := by
  obtain ⟨before, ordinary, ran⟩ := first
  obtain ⟨later, also, again⟩ := second
  refine ⟨before ++ later, ?_, runSteps_append_eq_some.mpr ⟨middle, ran, again⟩⟩
  intro event member
  rcases List.mem_append.mp member with old | new
  · exact ordinary event old
  · exact also event new

theorem Reaches.step {state next : State} {event : Event} (ordinary : event.ordinary = true)
    (stepped : state.step event = some next) : Reaches state next := by
  refine ⟨[event], by simpa using ordinary, ?_⟩
  exact runSteps_cons_eq_some.mpr ⟨next, stepped, rfl⟩

theorem Inv.reaches {base : Snapshot} {state final : State} (inv : Inv base state)
    (reaches : Reaches state final) : Inv base final := by
  obtain ⟨events, _, ran⟩ := reaches
  exact runSteps_invariant (Inv base) (fun inv stepped => keeps_of_step Inv.moves inv stepped)
    inv ran

inductive Further (state : State) (call : Nat) (next : State) : Prop where
  | on (holds : (next.phase call).holds = true)
      (closer : (next.phase call).rank < (state.phase call).rank)
      (same : ∀ other, other ≠ call → next.phase other = state.phase other)
  | ended (closed : (next.phase call).underway = false) (flag : next.flushing = false)
      (woken : ∀ other, other ≠ call → next.phase other = (state.phase other).woken)

theorem length_due_le (group : List Pending) (staged : Store.Staged) :
    (due group staged).length ≤ group.length := by
  rw [due, List.length_map, List.length_zip]
  exact Nat.min_le_left ..

theorem Inv.further {base : Snapshot} {state : State} (inv : Inv base state) {call : Nat}
    (holds : (state.phase call).holds = true) :
    ∃ event next, event.ordinary = true ∧ state.step event = some next ∧
      Further state call next := by
  cases here : state.phase call with
  | claimed group =>
      refine ⟨.load call, _, rfl, by rw [State.step, here], ?_⟩
      exact .on (by simp [Phase.holds]) (by simp [here, Phase.rank]) (by simp +contextual)
  | staged group staged =>
      refine ⟨.append call none, _, rfl, by rw [State.step, here], ?_⟩
      exact .on (by simp [Phase.holds]) (by simp [here, Phase.rank]) (by simp +contextual)
  | landed group staged =>
      refine ⟨.publish call, _, rfl, by rw [State.step, here], ?_⟩
      exact .on (by simp [Phase.holds]) (by simp [here, Phase.rank]) (by simp +contextual)
  | published group staged =>
      refine ⟨.storeIndex call, _, rfl, by rw [State.step, here], ?_⟩
      have short := length_due_le group staged
      exact .on (by simp [Phase.holds]) (by simp [here, Phase.rank]; omega) (by simp +contextual)
  | settling rest =>
      cases rest with
      | nil =>
          -- nothing is owed any more, so the own ticket is settled
          have owing : state.ledger.standing call = .owing [] := by
            change (state.phase call).standing = _
            rw [here]
            rfl
          have settled : state.tickets call ≠ none :=
            (inv.ledger.owedOnce call [] owing).2.resolve_left List.not_mem_nil
          obtain ⟨done, settled⟩ := Option.ne_none_iff_exists'.mp settled
          refine ⟨.take call, _, rfl, by rw [State.step, here, settled], ?_⟩
          exact .on (by simp [Phase.holds]) (by simp [here, Phase.rank]) (by simp +contextual)
      | cons entry rest =>
          refine ⟨.settle call, _, rfl, by rw [State.step, here], ?_⟩
          exact .on (by simp [Phase.holds]) (by simp [here, Phase.rank]) (by simp +contextual)
  | releasing done =>
      refine ⟨.drop call, _, rfl, by rw [State.step, here], ?_⟩
      exact .ended (by simp [Phase.underway]) rfl (by simp +contextual)
  | instant =>
      refine ⟨.load call, _, rfl, by rw [State.step, here], ?_⟩
      exact .on (by simp [Phase.holds]) (by simp [here, Phase.rank]) (by simp +contextual)
  | pinned =>
      refine ⟨.drop call, _, rfl, by rw [State.step, here], ?_⟩
      exact .ended (by simp [Phase.underway]) rfl (by simp +contextual)
  | _ =>
      rw [here] at holds
      cases holds

theorem Inv.drains {base : Snapshot} {state : State} (inv : Inv base state) {call : Nat}
    (holds : (state.phase call).holds = true) :
    ∃ final, Reaches state final ∧ (final.phase call).underway = false ∧
      final.flushing = false ∧
      ∀ other, other ≠ call → final.phase other = (state.phase other).woken := by
  generalize bound : (state.phase call).rank = steps
  induction steps using Nat.strongRecOn generalizing state with
  | ind steps ih =>
      obtain ⟨event, next, ordinary, stepped, further⟩ := inv.further holds
      have reached := Reaches.step ordinary stepped
      cases further with
      | on still closer same =>
          obtain ⟨final, later, closed, flag, woken⟩ :=
            ih _ (bound ▸ closer) (inv.reaches reached) still rfl
          refine ⟨final, reached.trans later, closed, flag, ?_⟩
          intro other different
          rw [woken other different, same other different]
      | ended closed flag woken => exact ⟨next, reached, closed, flag, woken⟩

theorem Inv.finishes_free {base : Snapshot} {state : State} (inv : Inv base state) {call : Nat}
    (free : state.flushing = false)
    (running : state.phase call = .looping ∨ state.phase call = .seeking) :
    ∃ final, Reaches state final ∧ (final.phase call).underway = false := by
  have resumed : ∃ next, Reaches state next ∧
      ((next.phase call).underway = false ∨ (next.phase call).holds = true) := by
    rcases running with here | here
    · have stepped : state.step (.resume call) = some (state.turn call) := by rw [State.step, here]
      refine ⟨state.turn call, .step rfl stepped, ?_⟩
      cases settled : state.tickets call with
      | some done => exact Or.inl (by simp [State.turn, settled, Phase.underway])
      | none => exact Or.inr (by simp [State.turn, settled, free, Phase.holds])
    · have stepped : state.step (.resume call) = some (state.seek call) := by rw [State.step, here]
      refine ⟨state.seek call, .step rfl stepped, ?_⟩
      exact Or.inr (by simp [State.seek, free, Phase.holds])
  obtain ⟨next, reached, closed | holds⟩ := resumed
  · exact ⟨next, reached, closed⟩
  · obtain ⟨final, later, closed, _⟩ := (inv.reaches reached).drains holds
    exact ⟨final, reached.trans later, closed⟩

theorem underway_cases {phase : Phase} (underway : phase.underway = true) :
    phase.holds = true ∨ (phase = .looping ∨ phase = .seeking) ∨ phase.sleeps = true := by
  cases phase <;> simp [Phase.underway, Phase.holds, Phase.sleeps] at underway ⊢

/-- From every state that can come about, the calls on their way can bring each of them to its
end; no new call and no spurious wake is needed. -/
theorem Inv.finishes {base : Snapshot} {state : State} (inv : Inv base state) {call : Nat}
    (underway : (state.phase call).underway = true) :
    ∃ final, Reaches state final ∧ (final.phase call).underway = false := by
  by_cases holds : (state.phase call).holds = true
  · obtain ⟨final, reached, closed, _⟩ := inv.drains holds
    exact ⟨final, reached, closed⟩
  · cases up : state.flushing with
    | false =>
        have running : state.phase call = .looping ∨ state.phase call = .seeking := by
          rcases underway_cases underway with held | running | sleeps
          · exact absurd held holds
          · exact running
          · have up' := inv.exclusive.asleep call sleeps
            rw [up] at up'
            cases up'
        exact inv.finishes_free up running
    | true =>
        -- the holder drops its guard first, and that wakes the call if it sleeps
        obtain ⟨holder, held⟩ := inv.exclusive.held up
        have different : call ≠ holder := by
          rintro rfl
          exact holds held
        obtain ⟨middle, reached, _, free, woken⟩ := inv.drains held
        have running : middle.phase call = .looping ∨ middle.phase call = .seeking := by
          rw [woken call different]
          cases here : state.phase call <;>
            simp [here, Phase.underway, Phase.holds, Phase.woken] at underway holds ⊢
        obtain ⟨final, later, closed⟩ := (inv.reaches reached).finishes_free free running
        exact ⟨final, reached.trans later, closed⟩

/-! ### Group commit is linear -/

/-- What group commit promises its callers, of a state and the history up to it. -/
structure Linear (base : Snapshot) (state : State) : Prop where
  /-- one flush or checkpoint instant at a time -/
  exclusive : ∀ one two, (state.phase one).holds = true → (state.phase two).holds = true →
    one = two
  /-- no commit is handed to the log twice -/
  handedOnce : (handed state.history).Nodup
  /-- a commit returns after it was handed on; a look at the store finds what had returned -/
  lawful : Chronicle Lawful state.history
  /-- an index belongs to the commit at its place after the opening index -/
  numbered : ∀ call index, .returned call (.ok index) ∈ state.history →
    ∃ place ops, index = base.index + place + 1 ∧ state.commits[place]? = some ⟨ops, call⟩ ∧
      .enqueued call ops ∈ state.history
  distinct : ∀ one two index, .returned one (.ok index) ∈ state.history →
    .returned two (.ok index) ∈ state.history → one = two
  answered : ∀ place commit done, state.commits[place]? = some commit →
    .returned commit.ticket done ∈ state.history → done = .ok (base.index + place + 1)
  /-- when all calls are over, no index is left out -/
  contiguous : (∀ call, (state.phase call).underway = false) →
    ∀ place, place < state.commits.length →
    ∃ call, .returned call (.ok (base.index + place + 1)) ∈ state.history
  /-- a commit that failed is none of those the snapshots are made of -/
  failed : ∀ call failure, .returned call (.error failure) ∈ state.history →
    ∀ commit ∈ state.commits, commit.ticket ≠ call
  snapshots : ∀ snapshot, .published snapshot ∈ state.history ∨ .loaded snapshot ∈ state.history →
    ∃ count, count ≤ state.commits.length ∧ snapshot.index = base.index + count ∧
      snapshot = after base (state.commits.take count)
  /-- a sleeper waits for a guard that lives -/
  awaited : ∀ call, (state.phase call).sleeps = true → ∃ holder, (state.phase holder).holds = true
  finishes : ∀ call, (state.phase call).underway = true →
    ∃ final, Reaches state final ∧ (final.phase call).underway = false

section Linear

variable {base : Snapshot} {state : State}

theorem standing_closed {phase : Phase} {done : Outcome} (closed : phase.standing = .closed done)
    (ended : phase.underway = false) : phase.answer? = some done := by
  cases phase <;> simp_all [Phase.standing, Phase.underway, Phase.answer?]

theorem Inv.at_rest (inv : Inv base state)
    (quiet : ∀ call, (state.phase call).underway = false) :
    state.flushing = false ∧ state.pending = [] := by
  constructor
  · refine Bool.eq_false_iff.mpr (fun flag => ?_)
    obtain ⟨call, holds⟩ := inv.exclusive.held flag
    have ended := quiet call
    cases there : state.phase call <;>
      simp [there, Phase.holds, Phase.underway] at holds ended
  · refine List.eq_nil_iff_forall_not_mem.mpr (fun item queued => ?_)
    have waits : (state.phase item.ticket).standing = .waiting := (inv.ledger.queued item queued).1
    have ended := quiet item.ticket
    cases there : state.phase item.ticket <;>
      simp [there, Phase.standing, Phase.underway] at waits ended

theorem Inv.answer_cases (inv : Inv base state) {call : Nat} {done : Outcome}
    (member : .returned call done ∈ state.history) :
    ((∃ failure, done = .error failure) ∧ call ∉ handed state.history) ∨
      Ledger.Right Pending.ticket base.index state.commits call done := by
  have answer := (inv.recorded.returned call done).mp member
  cases here : state.phase call with
  | refused failure =>
      rw [here] at answer
      cases answer
      have outside : state.ledger.standing call = .outside := by
        change (state.phase call).standing = _
        rw [here]
        rfl
      exact Or.inl ⟨⟨failure, rfl⟩, (inv.ledger.outside call outside).1⟩
  | returned result =>
      rw [here] at answer
      cases answer
      have closed : state.ledger.standing call = .closed done := by
        change (state.phase call).standing = _
        rw [here]
        rfl
      exact Or.inr (inv.ledger.closed call done closed).2.2
  | _ =>
      rw [here] at answer
      cases answer

theorem Inv.numbered (inv : Inv base state) {call index : Nat}
    (member : .returned call (.ok index) ∈ state.history) :
    ∃ place ops, index = base.index + place + 1 ∧ state.commits[place]? = some ⟨ops, call⟩ ∧
      .enqueued call ops ∈ state.history := by
  rcases inv.answer_cases member with ⟨⟨failure, same⟩, _⟩ | ⟨place, same, found⟩
  · cases same
  · obtain ⟨⟨ops, ticket⟩, there, named⟩ := Option.map_eq_some_iff.mp found
    cases named
    have known := inv.recorded.committed ⟨ops, ticket⟩ (List.mem_of_getElem? there)
    exact ⟨place, ops, same, there, known⟩

theorem Inv.answered (inv : Inv base state) {place : Nat} {commit : Pending} {done : Outcome}
    (there : state.commits[place]? = some commit)
    (member : .returned commit.ticket done ∈ state.history) :
    done = .ok (base.index + place + 1) := by
  have accepted : commit ∈ state.commits := List.mem_of_getElem? there
  rcases inv.answer_cases member with ⟨_, unknown⟩ | right
  · exact absurd (inv.ledger.acceptedHanded commit accepted) unknown
  · cases done with
    | error failure => exact absurd rfl (right commit accepted)
    | ok index =>
        obtain ⟨other, rfl, found⟩ := right
        have same : (state.commits.map Pending.ticket)[other]? =
            (state.commits.map Pending.ticket)[place]? := by
          rw [List.getElem?_map, List.getElem?_map, found, there]
          rfl
        have within : other < (state.commits.map Pending.ticket).length := by
          rw [List.length_map]
          obtain ⟨_, found, _⟩ := Option.map_eq_some_iff.mp found
          exact (List.getElem?_eq_some_iff.mp found).1
        obtain rfl := (List.getElem?_inj within inv.ledger.acceptedOnce).mp same
        rfl

theorem Inv.contiguous (inv : Inv base state)
    (quiet : ∀ call, (state.phase call).underway = false) {place : Nat}
    (within : place < state.commits.length) :
    ∃ call, .returned call (.ok (base.index + place + 1)) ∈ state.history := by
  have there := List.getElem?_eq_getElem within
  generalize state.commits[place] = commit at there
  have known := inv.ledger.acceptedHanded commit (List.mem_of_getElem? there)
  have idle : ∀ call, state.ledger.standing call ≠ .waiting ∧
      ∀ rest, state.ledger.standing call ≠ .owing rest := by
    intro call
    have closed := quiet call
    change (state.phase call).standing ≠ _ ∧ ∀ rest, (state.phase call).standing ≠ _
    cases here : state.phase call <;> simp_all [Phase.underway, Phase.standing]
  rcases inv.ledger.answered _ known with ⟨holder, rest, owes, _⟩ | settled | ⟨done, closed⟩
  · exact absurd owes ((idle holder).2 rest)
  · obtain ⟨done, settled⟩ := Option.ne_none_iff_exists'.mp settled
    rcases (inv.ledger.settled _ done settled).1 with waits | ⟨rest, owes⟩
    · exact absurd waits (idle _).1
    · exact absurd owes ((idle _).2 rest)
  · have member := (inv.recorded.returned _ done).mpr (standing_closed closed (quiet _))
    exact ⟨commit.ticket, inv.answered there member ▸ member⟩

theorem Inv.linear (inv : Inv base state) : Linear base state where
  exclusive := inv.exclusive.alone
  handedOnce := inv.ledger.handedOnce
  lawful := inv.recorded.lawful
  numbered := fun _ _ member => inv.numbered member
  distinct := by
    intro one two index first second
    obtain ⟨place, ops, same, there, _⟩ := inv.numbered first
    obtain ⟨other, also, again, found, _⟩ := inv.numbered second
    obtain rfl : place = other := by omega
    rw [there] at found
    cases found
    rfl
  answered := fun _ _ _ there member => inv.answered there member
  contiguous := fun quiet _ within => inv.contiguous quiet within
  failed := by
    intro call failure member commit accepted
    rcases inv.answer_cases member with ⟨_, unknown⟩ | right
    · rintro rfl
      exact unknown (inv.ledger.acceptedHanded commit accepted)
    · exact right commit accepted
  snapshots := by
    intro snapshot member
    obtain ⟨count, within, same⟩ : Part base state.commits snapshot :=
      member.elim (inv.recorded.published snapshot) (inv.recorded.loaded snapshot)
    refine ⟨count, within, ?_, same⟩
    rw [same, index_after, List.length_take, Nat.min_eq_left within]
  awaited := fun call sleeps => inv.exclusive.held (inv.exclusive.asleep call sleeps)
  finishes := fun _ underway => inv.finishes underway

end Linear

/-- Whatever the order of the steps of writers, checkpoints and readers, and whichever appends
fail: group commit keeps its promises. -/
theorem group_commit_linear (base : Snapshot) (events : List Event) (state : State)
    (ran : runSteps State.step (State.opened base) events = some state) : Linear base state :=
  (inv_of_run ran).linear

def contested : List Event :=
  [.commit 0 [.put [1] [2]], .commit 1 [.put [1] [3]], .checkpoint 2, .load 0, .wake 1, .resume 1,
   .append 0 (some .os), .settle 0, .take 0, .drop 0, .resume 1, .resume 2, .load 1,
   .append 1 none, .publish 1, .snapshot, .storeIndex 1, .settle 1, .take 1, .drop 1, .index,
   .resume 2, .load 2, .drop 2]

theorem group_commit_linear_contested :
    ∃ state, runSteps State.step (State.opened Snapshot.empty) contested = some state ∧
      state.index = 1 ∧ Linear Snapshot.empty state := by
  have shown : (runSteps State.step (State.opened Snapshot.empty) contested).map State.index =
      some 1 := by decide +kernel
  obtain ⟨state, ran, index⟩ := Option.map_eq_some_iff.mp shown
  exact ⟨state, ran, index, group_commit_linear Snapshot.empty contested state ran⟩

end Keystory.CommitQueue
