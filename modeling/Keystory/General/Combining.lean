/-
Requests that one caller at a time carries out for all: each call leaves its
request in a queue, one of them takes the whole queue, has it decided as a group
and leaves every call of the group its result in a ticket. The ledger tells where
each request is between the queue and the return of its call; no request is lost,
handed on twice or answered with the result of another.
-/

import Mathlib.Data.List.Nodup
import Mathlib.Logic.Function.Basic

namespace Keystory.General

/-- How a call stands in the ledger. -/
inductive Standing (Item Failure : Type) where
  | outside
  | waiting
  /-- it has taken the queue, and the group is not decided -/
  | carrying (group : List Item)
  /-- the group is decided, and these results are still to be left in tickets -/
  | owing (due : List (Nat × Except Failure Nat))
  | closed (result : Except Failure Nat)

def Standing.busy {Item Failure : Type} : Standing Item Failure → Bool
  | .carrying _ => true
  | .owing _ => true
  | _ => false

structure Ledger (Item Failure : Type) where
  queue : List Item
  standing : Nat → Standing Item Failure
  tickets : Nat → Option (Except Failure Nat)
  /-- the calls whose requests were handed on to be decided, in order -/
  handed : List Nat
  /-- the requests that were accepted, in order -/
  accepted : List Item

namespace Ledger

variable {Item Failure : Type} (ticket : Item → Nat) (first : Nat)

def numbered (index : Nat) (group : List Item) : List (Nat × Except Failure Nat) :=
  (group.zipIdx index).map (fun entry => (ticket entry.1, .ok entry.2))

def refused (failure : Failure) (group : List Item) : List (Nat × Except Failure Nat) :=
  group.map (fun item => (ticket item, .error failure))

inductive Move (ledger : Ledger Item Failure) : Ledger Item Failure → Prop where
  | enqueue {call : Nat} {item : Item} (fresh : ledger.standing call = .outside)
      (own : ticket item = call) :
      Move ledger
        { ledger with
          queue := ledger.queue ++ [item]
          standing := Function.update ledger.standing call .waiting }
  | claim {call : Nat} (waits : ledger.standing call = .waiting)
      (unanswered : ledger.tickets call = none)
      (free : ∀ other, (ledger.standing other).busy = false) :
      Move ledger
        { ledger with
          queue := []
          standing := Function.update ledger.standing call (.carrying ledger.queue) }
  | accept {call : Nat} {group : List Item} (carries : ledger.standing call = .carrying group) :
      Move ledger
        { ledger with
          standing := Function.update ledger.standing call
            (.owing (numbered ticket (first + ledger.accepted.length + 1) group))
          handed := ledger.handed ++ group.map ticket
          accepted := ledger.accepted ++ group }
  | refuse {call : Nat} {group : List Item} {failure : Failure}
      (carries : ledger.standing call = .carrying group) :
      Move ledger
        { ledger with
          standing := Function.update ledger.standing call (.owing (refused ticket failure group))
          handed := ledger.handed ++ group.map ticket }
  | settle {call other : Nat} {result : Except Failure Nat} {due : List (Nat × Except Failure Nat)}
      (owes : ledger.standing call = .owing ((other, result) :: due)) :
      Move ledger
        { ledger with
          tickets := Function.update ledger.tickets other (some result)
          standing := Function.update ledger.standing call (.owing due) }
  | take {call : Nat} {result : Except Failure Nat} (answered : ledger.tickets call = some result)
      (ends : ledger.standing call = .waiting ∨ ledger.standing call = .owing []) :
      Move ledger
        { ledger with
          tickets := Function.update ledger.tickets call none
          standing := Function.update ledger.standing call (.closed result) }

/-! ### What every move keeps -/

def Right (accepted : List Item) (call : Nat) : Except Failure Nat → Prop
  | .ok index =>
      ∃ place, index = first + place + 1 ∧ (accepted[place]?).map ticket = some call
  | .error _ => ∀ item ∈ accepted, ticket item ≠ call

def Carried (ledger : Ledger Item Failure) (call : Nat) : Prop :=
  ∃ holder group, ledger.standing holder = .carrying group ∧ call ∈ group.map ticket

def Due (ledger : Ledger Item Failure) (call : Nat) : Prop :=
  ∃ holder due, ledger.standing holder = .owing due ∧ call ∈ due.map Prod.fst

structure Lawful (ledger : Ledger Item Failure) : Prop where
  alone : ∀ one two, (ledger.standing one).busy = true → (ledger.standing two).busy = true →
    one = two
  outside : ∀ call, ledger.standing call = .outside →
    call ∉ ledger.handed ∧ ledger.tickets call = none
  queued : ∀ item ∈ ledger.queue, ledger.standing (ticket item) = .waiting ∧
    ledger.tickets (ticket item) = none ∧ ticket item ∉ ledger.handed
  queuedOnce : (ledger.queue.map ticket).Nodup
  carried : ∀ call group, ledger.standing call = .carrying group → ∀ item ∈ group,
    (ticket item = call ∨ ledger.standing (ticket item) = .waiting) ∧
      ledger.tickets (ticket item) = none ∧ ticket item ∉ ledger.handed ∧
      ticket item ∉ ledger.queue.map ticket
  carriedOnce : ∀ call group, ledger.standing call = .carrying group →
    (group.map ticket).Nodup ∧ call ∈ group.map ticket
  owed : ∀ call due, ledger.standing call = .owing due → ∀ other result, (other, result) ∈ due →
    (other = call ∨ ledger.standing other = .waiting) ∧ ledger.tickets other = none ∧
      other ∈ ledger.handed ∧ Right ticket first ledger.accepted other result
  owedOnce : ∀ call due, ledger.standing call = .owing due →
    (due.map Prod.fst).Nodup ∧ (call ∈ due.map Prod.fst ∨ ledger.tickets call ≠ none)
  settled : ∀ call result, ledger.tickets call = some result →
    (ledger.standing call = .waiting ∨ ∃ due, ledger.standing call = .owing due) ∧
      call ∈ ledger.handed ∧ Right ticket first ledger.accepted call result
  closed : ∀ call result, ledger.standing call = .closed result →
    call ∈ ledger.handed ∧ ledger.tickets call = none ∧
      Right ticket first ledger.accepted call result
  waits : ∀ call, ledger.standing call = .waiting →
    call ∈ ledger.queue.map ticket ∨ ledger.Carried ticket call ∨ ledger.Due call ∨
      ledger.tickets call ≠ none
  answered : ∀ call ∈ ledger.handed,
    ledger.Due call ∨ ledger.tickets call ≠ none ∨ ∃ result, ledger.standing call = .closed result
  handedOnce : ledger.handed.Nodup
  acceptedOnce : (ledger.accepted.map ticket).Nodup
  acceptedHanded : ∀ item ∈ ledger.accepted, ticket item ∈ ledger.handed

section Keeps

variable {ticket : Item → Nat} {first : Nat} {ledger next : Ledger Item Failure}

theorem Carried.mono {call : Nat} (carried : ledger.Carried ticket call)
    (keep : ∀ holder group, ledger.standing holder = .carrying group →
      next.standing holder = .carrying group) : next.Carried ticket call := by
  obtain ⟨holder, group, carries, member⟩ := carried
  exact ⟨holder, group, keep holder group carries, member⟩

theorem Due.mono {call : Nat} (owed : ledger.Due call)
    (keep : ∀ holder due, ledger.standing holder = .owing due → call ∈ due.map Prod.fst →
      next.standing holder = .owing due) : next.Due call := by
  obtain ⟨holder, due, owes, member⟩ := owed
  exact ⟨holder, due, keep holder due owes member, member⟩

theorem Right.append {accepted group : List Item} {call : Nat} {result : Except Failure Nat}
    (right : Right ticket first accepted call result)
    (apart : ∀ item ∈ group, ticket item ≠ call) :
    Right ticket first (accepted ++ group) call result := by
  cases result with
  | ok index =>
      obtain ⟨place, same, found⟩ := right
      obtain ⟨item, there, named⟩ := Option.map_eq_some_iff.mp found
      refine ⟨place, same, ?_⟩
      rw [List.getElem?_append_left (List.getElem?_eq_some_iff.mp there).1]
      exact found
  | error failure =>
      intro item member
      rcases List.mem_append.mp member with old | new
      · exact right item old
      · exact apart item new

theorem map_fst_numbered (index : Nat) (group : List Item) :
    (numbered ticket index group : List (Nat × Except Failure Nat)).map Prod.fst =
      group.map ticket := by
  rw [numbered, List.map_map]
  change (group.zipIdx index).map (ticket ∘ Prod.fst) = _
  rw [← List.map_map, List.zipIdx_map_fst]

theorem map_fst_refused (failure : Failure) (group : List Item) :
    (refused ticket failure group).map Prod.fst = group.map ticket := by
  rw [refused, List.map_map]
  rfl

theorem right_of_mem_numbered {accepted group : List Item} {call : Nat}
    {result : Except Failure Nat}
    (member : (call, result) ∈ numbered ticket (first + accepted.length + 1) group) :
    Right ticket first (accepted ++ group) call result := by
  obtain ⟨⟨item, index⟩, there, same⟩ := List.mem_map.mp member
  cases same
  obtain ⟨above, found⟩ := List.mk_mem_zipIdx_iff_le_and_getElem?_sub.mp there
  refine ⟨index - first - 1, by omega, ?_⟩
  rw [List.getElem?_append_right (by omega),
    show index - first - 1 - accepted.length = index - (first + accepted.length + 1) by omega,
    found]
  rfl

theorem right_of_mem_refused {accepted group : List Item} {failure : Failure} {call : Nat}
    {result : Except Failure Nat}
    (apart : ∀ item ∈ accepted, ticket item ∉ group.map ticket)
    (member : (call, result) ∈ refused ticket failure group) :
    Right ticket first accepted call result := by
  obtain ⟨item, there, same⟩ := List.mem_map.mp member
  cases same
  intro other old together
  exact apart other old (together ▸ List.mem_map_of_mem there)

theorem Lawful.enqueue (lawful : ledger.Lawful ticket first) {call : Nat} {item : Item}
    (fresh : ledger.standing call = .outside) (own : ticket item = call) :
    Lawful ticket first
      { ledger with
        queue := ledger.queue ++ [item]
        standing := Function.update ledger.standing call .waiting } := by
  have unknown := lawful.outside call fresh
  constructor
  case alone => grind [Function.update_apply, Standing.busy, lawful.alone]
  case outside => grind [Function.update_apply, lawful.outside]
  case queued => grind [Function.update_apply, lawful.queued]
  case queuedOnce => grind [lawful.queuedOnce, lawful.queued]
  case carried => grind [Function.update_apply, lawful.carried]
  case carriedOnce => grind [Function.update_apply, lawful.carriedOnce]
  case owed => grind [Function.update_apply, lawful.owed]
  case owedOnce => grind [Function.update_apply, lawful.owedOnce]
  case settled => grind [Function.update_apply, lawful.settled]
  case closed => grind [Function.update_apply, lawful.closed]
  case waits =>
      intro other waiting
      by_cases same : other = call
      · exact Or.inl (by simp [same, own])
      · have before : ledger.standing other = .waiting := by grind [Function.update_apply]
        rcases lawful.waits other before with there | there | there | there
        · exact Or.inl (by simp [there])
        · exact Or.inr (Or.inl (there.mono (by grind [Function.update_apply])))
        · exact Or.inr (Or.inr (Or.inl (there.mono (by grind [Function.update_apply]))))
        · exact Or.inr (Or.inr (Or.inr there))
  case answered =>
      intro other member
      rcases lawful.answered other member with there | there | there
      · exact Or.inl (there.mono (by grind [Function.update_apply]))
      · exact Or.inr (Or.inl there)
      · exact Or.inr (Or.inr (by grind [Function.update_apply]))
  case handedOnce => exact lawful.handedOnce
  case acceptedOnce => exact lawful.acceptedOnce
  case acceptedHanded => exact lawful.acceptedHanded

theorem Lawful.claim (lawful : ledger.Lawful ticket first) {call : Nat}
    (waiting : ledger.standing call = .waiting) (unanswered : ledger.tickets call = none)
    (free : ∀ other, (ledger.standing other).busy = false) :
    Lawful ticket first
      { ledger with
        queue := []
        standing := Function.update ledger.standing call (.carrying ledger.queue) } := by
  -- nobody holds anything, so an unanswered call that waits is in the queue
  have undue : ∀ other, ¬ ledger.Due other := by
    rintro other ⟨holder, due, owes, _⟩
    grind [Standing.busy]
  have inQueue : ∀ other, ledger.standing other = .waiting → ledger.tickets other = none →
      other ∈ ledger.queue.map ticket := by
    intro other there unsettled
    rcases lawful.waits other there with found | ⟨holder, group, carries, _⟩ | found | found
    · exact found
    · grind [Standing.busy]
    · exact absurd found (undue other)
    · exact absurd unsettled found
  have own := inQueue call waiting unanswered
  constructor
  case alone => grind [Function.update_apply]
  case outside => grind [Function.update_apply, lawful.outside]
  case queued => simp
  case queuedOnce => simp
  case carried => grind [Function.update_apply, Standing.busy, lawful.queued]
  case carriedOnce => grind [Function.update_apply, Standing.busy, lawful.queuedOnce]
  case owed => grind [Function.update_apply, Standing.busy]
  case owedOnce => grind [Function.update_apply, Standing.busy]
  case settled => grind [Function.update_apply, lawful.settled]
  case closed => grind [Function.update_apply, lawful.closed]
  case waits =>
      intro other there
      have before : ledger.standing other = .waiting := by grind [Function.update_apply]
      by_cases unsettled : ledger.tickets other = none
      · exact Or.inr (Or.inl ⟨call, ledger.queue, by simp, inQueue other before unsettled⟩)
      · exact Or.inr (Or.inr (Or.inr unsettled))
  case answered =>
      intro other member
      rcases lawful.answered other member with found | found | found
      · exact absurd found (undue other)
      · exact Or.inr (Or.inl found)
      · exact Or.inr (Or.inr (by grind [Function.update_apply]))
  case handedOnce => exact lawful.handedOnce
  case acceptedOnce => exact lawful.acceptedOnce
  case acceptedHanded => exact lawful.acceptedHanded

theorem Lawful.decided (lawful : ledger.Lawful ticket first) {call : Nat} {group : List Item}
    (carries : ledger.standing call = .carrying group)
    {due : List (Nat × Except Failure Nat)} (named : due.map Prod.fst = group.map ticket)
    {more : List Item} (within : more = group ∨ more = [])
    (right : ∀ other result, (other, result) ∈ due →
      Right ticket first (ledger.accepted ++ more) other result) :
    Lawful ticket first
      { ledger with
        standing := Function.update ledger.standing call (.owing due)
        handed := ledger.handed ++ group.map ticket
        accepted := ledger.accepted ++ more } := by
  have mine := lawful.carried call group carries
  obtain ⟨once, own⟩ := lawful.carriedOnce call group carries
  have only : ∀ holder, (ledger.standing holder).busy = true → holder = call :=
    fun holder busy => lawful.alone holder call busy (by rw [carries]; rfl)
  have undue : ∀ other, ¬ ledger.Due other := by
    rintro other ⟨holder, due, owes, _⟩
    grind [Standing.busy]
  -- results known so far are of calls handed on before
  have apart : ∀ other ∈ ledger.handed, ∀ item ∈ more, ticket item ≠ other := by grind
  constructor
  case alone => grind [Function.update_apply, Standing.busy]
  case outside => grind [Function.update_apply, lawful.outside]
  case queued => grind [Function.update_apply, lawful.queued]
  case queuedOnce => exact lawful.queuedOnce
  case carried => grind [Function.update_apply, Standing.busy]
  case carriedOnce => grind [Function.update_apply, Standing.busy]
  case owed =>
      intro holder owing there other result member
      have same : holder = call := by grind [Function.update_apply, Standing.busy]
      have entered : other ∈ group.map ticket := by grind [Function.update_apply]
      grind [Function.update_apply]
  case owedOnce => grind [Function.update_apply, Standing.busy]
  case settled =>
      intro other result there
      obtain ⟨stands, handed, known⟩ := lawful.settled other result there
      refine ⟨by grind [Function.update_apply], List.mem_append_left _ handed, ?_⟩
      exact known.append (apart other handed)
  case closed =>
      intro other result there
      obtain ⟨handed, unsettled, known⟩ :=
        lawful.closed other result (by grind [Function.update_apply])
      exact ⟨List.mem_append_left _ handed, unsettled, known.append (apart other handed)⟩
  case waits =>
      intro other there
      have before : ledger.standing other = .waiting := by grind [Function.update_apply]
      rcases lawful.waits other before with found | ⟨holder, taken, held, member⟩ | found | found
      · exact Or.inl found
      · obtain rfl := only holder (by rw [held]; rfl)
        obtain rfl : taken = group := by grind
        exact Or.inr (Or.inr (Or.inl ⟨holder, due, by simp, named ▸ member⟩))
      · exact absurd found (undue other)
      · exact Or.inr (Or.inr (Or.inr found))
  case answered =>
      intro other member
      rcases List.mem_append.mp member with old | new
      · rcases lawful.answered other old with found | found | found
        · exact absurd found (undue other)
        · exact Or.inr (Or.inl found)
        · exact Or.inr (Or.inr (by grind [Function.update_apply]))
      · exact Or.inl ⟨call, due, by simp, named ▸ new⟩
  case handedOnce => grind [lawful.handedOnce]
  case acceptedOnce => grind [lawful.acceptedOnce, lawful.acceptedHanded]
  case acceptedHanded => grind [lawful.acceptedHanded]

theorem Lawful.settle (lawful : ledger.Lawful ticket first) {call other : Nat}
    {result : Except Failure Nat} {due : List (Nat × Except Failure Nat)}
    (owes : ledger.standing call = .owing ((other, result) :: due)) :
    Lawful ticket first
      { ledger with
        tickets := Function.update ledger.tickets other (some result)
        standing := Function.update ledger.standing call (.owing due) } := by
  have only : ∀ holder, (ledger.standing holder).busy = true → holder = call :=
    fun holder busy => lawful.alone holder call busy (by rw [owes]; rfl)
  have mine := lawful.owed call _ owes
  obtain ⟨once, own⟩ := lawful.owedOnce call _ owes
  have paid := mine other result List.mem_cons_self
  have moved : ∀ someone, ledger.Due someone → someone = other ∨ someone ∈ due.map Prod.fst := by
    rintro someone ⟨holder, owing, there, member⟩
    obtain rfl := only holder (by rw [there]; rfl)
    grind
  constructor
  case alone => grind [Function.update_apply, Standing.busy]
  case outside => grind [Function.update_apply, lawful.outside]
  case queued => grind [Function.update_apply, lawful.queued]
  case queuedOnce => exact lawful.queuedOnce
  case carried => grind [Function.update_apply, Standing.busy]
  case carriedOnce => grind [Function.update_apply, Standing.busy]
  case owed => grind [Function.update_apply, Standing.busy]
  case owedOnce => grind [Function.update_apply, Standing.busy]
  case settled => grind [Function.update_apply, lawful.settled]
  case closed => grind [Function.update_apply, lawful.closed]
  case waits =>
      intro someone there
      have before : ledger.standing someone = .waiting := by grind [Function.update_apply]
      rcases lawful.waits someone before with found | ⟨holder, group, carries, _⟩ | found | found
      · exact Or.inl found
      · grind [Standing.busy]
      · rcases moved someone found with rfl | member
        · exact Or.inr (Or.inr (Or.inr (by simp)))
        · exact Or.inr (Or.inr (Or.inl ⟨call, due, by simp, member⟩))
      · exact Or.inr (Or.inr (Or.inr (by grind [Function.update_apply])))
  case answered =>
      intro someone member
      rcases lawful.answered someone member with found | found | found
      · rcases moved someone found with rfl | member
        · exact Or.inr (Or.inl (by simp))
        · exact Or.inl ⟨call, due, by simp, member⟩
      · exact Or.inr (Or.inl (by grind [Function.update_apply]))
      · exact Or.inr (Or.inr (by grind [Function.update_apply]))
  case handedOnce => exact lawful.handedOnce
  case acceptedOnce => exact lawful.acceptedOnce
  case acceptedHanded => exact lawful.acceptedHanded

theorem Lawful.take (lawful : ledger.Lawful ticket first) {call : Nat}
    {result : Except Failure Nat} (answer : ledger.tickets call = some result)
    (ends : ledger.standing call = .waiting ∨ ledger.standing call = .owing []) :
    Lawful ticket first
      { ledger with
        tickets := Function.update ledger.tickets call none
        standing := Function.update ledger.standing call (.closed result) } := by
  have mine := lawful.settled call result answer
  constructor
  case alone => grind [Function.update_apply, Standing.busy, lawful.alone]
  case outside => grind [Function.update_apply, lawful.outside]
  case queued => grind [Function.update_apply, lawful.queued]
  case queuedOnce => exact lawful.queuedOnce
  case carried => grind [Function.update_apply, lawful.carried]
  case carriedOnce => grind [Function.update_apply, lawful.carriedOnce]
  case owed => grind [Function.update_apply, lawful.owed]
  case owedOnce => grind [Function.update_apply, lawful.owedOnce]
  case settled => grind [Function.update_apply, lawful.settled]
  case closed => grind [Function.update_apply, lawful.closed]
  case waits =>
      intro other there
      have before : ledger.standing other = .waiting := by grind [Function.update_apply]
      have different : other ≠ call := by grind [Function.update_apply]
      rcases lawful.waits other before with found | found | found | found
      · exact Or.inl found
      · exact Or.inr (Or.inl (found.mono (by grind [Function.update_apply])))
      · exact Or.inr (Or.inr (Or.inl (found.mono (by grind [Function.update_apply]))))
      · exact Or.inr (Or.inr (Or.inr (by grind [Function.update_apply])))
  case answered =>
      intro other member
      by_cases same : other = call
      · exact Or.inr (Or.inr ⟨result, by simp [same]⟩)
      · rcases lawful.answered other member with found | found | found
        · exact Or.inl (found.mono (by grind [Function.update_apply]))
        · exact Or.inr (Or.inl (by grind [Function.update_apply]))
        · exact Or.inr (Or.inr (by grind [Function.update_apply]))
  case handedOnce => exact lawful.handedOnce
  case acceptedOnce => exact lawful.acceptedOnce
  case acceptedHanded => exact lawful.acceptedHanded

theorem Lawful.move (lawful : ledger.Lawful ticket first)
    (moved : Move ticket first ledger next) : next.Lawful ticket first := by
  cases moved with
  | enqueue fresh own => exact lawful.enqueue fresh own
  | claim waits unanswered free => exact lawful.claim waits unanswered free
  | accept carries =>
      refine lawful.decided carries (map_fst_numbered _ _) (Or.inl rfl) ?_
      intro other result member
      exact right_of_mem_numbered member
  | @refuse call group failure carries =>
      have unknown := lawful.carried call group carries
      have kept := lawful.decided carries (map_fst_refused failure group) (Or.inr rfl) (by
        intro other result member
        rw [List.append_nil]
        refine right_of_mem_refused ?_ member
        intro item old there
        obtain ⟨mine, found, same⟩ := List.mem_map.mp there
        exact (unknown mine found).2.2.1 (same ▸ lawful.acceptedHanded item old))
      rw [List.append_nil] at kept
      exact kept
  | settle owes => exact lawful.settle owes
  | take answered ends => exact lawful.take answered ends

end Keeps

end Ledger

end Keystory.General
