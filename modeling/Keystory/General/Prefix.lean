/-
Lists compared through their prefixes, over any element type.

These are the facts replicated logs and torn files share: what a prefix says
about a position, and when two prefixes of one list coincide.
-/

import Mathlib.Data.List.Basic

namespace Keystory.General

variable {Item : Type}

theorem getElem?_of_isPrefix {held whole : List Item} (isPrefix : held <+: whole)
    {position : Nat} {item : Item} (found : held[position]? = some item) :
    whole[position]? = some item := by
  obtain ⟨rest, rfl⟩ := isPrefix
  obtain ⟨inside, _⟩ := List.getElem?_eq_some_iff.mp found
  rw [List.getElem?_append_left inside]
  exact found

theorem take_succ_of_getElem? {items : List Item} {position : Nat} {item : Item}
    (found : items[position]? = some item) :
    items.take (position + 1) = items.take position ++ [item] := by
  rw [List.take_add_one, found]
  rfl

theorem lt_length_of_getElem? {items : List Item} {position : Nat} {item : Item}
    (found : items[position]? = some item) : position < items.length :=
  (List.getElem?_eq_some_iff.mp found).1

theorem getElem?_of_isPrefix_of_lt {held whole : List Item} (isPrefix : held <+: whole)
    {position : Nat} (inside : position < held.length) :
    held[position]? = whole[position]? := by
  have found : held[position]? = some held[position] := List.getElem?_eq_getElem inside
  rw [found, getElem?_of_isPrefix isPrefix found]

theorem eq_of_prefixes {left right whole : List Item} (leftHeld : left <+: whole)
    (rightHeld : right <+: whole) (lengths : left.length = right.length) : left = right :=
  (List.prefix_of_prefix_length_le leftHeld rightHeld (Nat.le_of_eq lengths)).eq_of_length lengths

theorem take_prefix_of_isPrefix {held whole : List Item} (isPrefix : held <+: whole)
    (count : Nat) : held.take count <+: whole :=
  (List.take_prefix count held).trans isPrefix

theorem take_eq_take_of_le {left right : List Item} {short long : Nat}
    (agree : left.take long = right.take long) (order : short ≤ long) :
    left.take short = right.take short := by
  have leftCut : left.take short = (left.take long).take short := by
    rw [List.take_take, Nat.min_eq_left order]
  have rightCut : right.take short = (right.take long).take short := by
    rw [List.take_take, Nat.min_eq_left order]
  rw [leftCut, rightCut, agree]

/-! ### The longest common prefix -/

def commonPrefix [DecidableEq Item] : List Item → List Item → List Item
  | left :: lefts, right :: rights =>
      if left = right then left :: commonPrefix lefts rights else []
  | _, _ => []

theorem prefix_commonPrefix_iff [DecidableEq Item] {shared left right : List Item} :
    shared <+: commonPrefix left right ↔ shared <+: left ∧ shared <+: right := by
  induction left generalizing right shared with
  | nil => simp +contextual [commonPrefix]
  | cons head lefts ih =>
      cases right with
      | nil => simp +contextual [commonPrefix]
      | cons other rights =>
          cases shared with
          | nil => simp
          | cons first rest =>
              unfold commonPrefix
              split
              · rename_i same
                subst same
                simp only [List.cons_prefix_cons, ih]
                tauto
              · rename_i different
                simp only [List.cons_prefix_cons, List.prefix_nil]
                constructor
                · intro impossible
                  cases impossible
                · rintro ⟨⟨rfl, _⟩, rfl, _⟩
                  exact absurd rfl different

theorem commonPrefix_prefix_left [DecidableEq Item] (left right : List Item) :
    commonPrefix left right <+: left :=
  (prefix_commonPrefix_iff.mp List.prefix_rfl).1

theorem commonPrefix_prefix_right [DecidableEq Item] (left right : List Item) :
    commonPrefix left right <+: right :=
  (prefix_commonPrefix_iff.mp List.prefix_rfl).2

end Keystory.General
