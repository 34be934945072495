/-
Items written one after another, and what a write cut short leaves of them: the
encodings of the first few items whole, and less than one more.
-/

import Mathlib.Data.List.Basic

namespace Keystory.General

variable {Item Byte : Type} (encode : Item → List Byte)

def CutAfter (items whole : List Item) (torn : List Byte) : Prop :=
  torn = [] ∨ ∃ item, whole ++ [item] <+: items ∧ torn <+: encode item ∧ torn ≠ encode item

theorem exists_cut {items : List Item} {part : List Byte}
    (start : part <+: items.flatMap encode) :
    ∃ whole torn, whole <+: items ∧ part = whole.flatMap encode ++ torn ∧
      CutAfter encode items whole torn := by
  induction items generalizing part with
  | nil => exact ⟨[], [], List.nil_prefix, List.prefix_nil.mp start, Or.inl rfl⟩
  | cons item items ih =>
      rw [List.flatMap_cons] at start
      rcases List.prefix_or_prefix_of_prefix start (List.prefix_append (encode item) _) with
        short | ⟨rest, long⟩
      · by_cases full : part = encode item
        · exact ⟨[item], [], by simp, by simp [full], Or.inl rfl⟩
        · exact ⟨[], part, List.nil_prefix, rfl, Or.inr ⟨item, by simp, short, full⟩⟩
      · rw [← long, List.prefix_append_right_inj] at start
        obtain ⟨whole, torn, inside, same, cut⟩ := ih start
        refine ⟨item :: whole, torn, List.cons_prefix_cons.mpr ⟨rfl, inside⟩, ?_, ?_⟩
        · rw [← long, same, List.flatMap_cons, List.append_assoc]
        · rcases cut with rfl | ⟨next, following, partly, different⟩
          · exact Or.inl rfl
          · exact Or.inr ⟨next, List.cons_prefix_cons.mpr ⟨rfl, following⟩, partly, different⟩

variable {encode}

theorem CutAfter.covers {items whole sure : List Item} {torn : List Byte}
    (cut : CutAfter encode items whole torn) (nonempty : ∀ item, encode item ≠ [])
    (inside : whole <+: items) (certain : sure <+: items)
    (covered : sure.flatMap encode <+: whole.flatMap encode ++ torn) : sure <+: whole := by
  rcases List.prefix_or_prefix_of_prefix certain inside with shorter | ⟨rest, longer⟩
  · exact shorter
  · cases rest with
    | nil => simp [← longer]
    | cons item rest =>
        -- the item after `whole` would have to fit into what is left of it
        rw [← longer, List.flatMap_append, List.prefix_append_right_inj, List.flatMap_cons]
          at covered
        have fits : encode item <+: torn := (List.prefix_append _ _).trans covered
        rcases cut with rfl | ⟨next, following, partly, different⟩
        · exact absurd (List.prefix_nil.mp fits) (nonempty item)
        · have same : whole ++ [item] = whole ++ [next] := by
            have first : whole ++ [item] <+: items := by
              refine (?_ : whole ++ [item] <+: sure).trans certain
              rw [← longer]
              exact ⟨rest, by simp⟩
            exact (List.prefix_of_prefix_length_le first following (by simp)).eq_of_length
              (by simp)
          cases List.append_cancel_left same
          exact absurd (partly.eq_of_length_le fits.length_le) different

end Keystory.General
