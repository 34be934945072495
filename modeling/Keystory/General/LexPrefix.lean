/-
Prefixes in the lexicographic order of lists. The lists that start with a given
one follow each other without a gap, from that list on: up to the list whose last
letter below the highest is moved to the next one, or, where every letter is the
highest, without an end.
-/

import Mathlib.Data.List.Lex
import Mathlib.Order.Cover

namespace Keystory.General

variable {Letter : Type} [LinearOrder Letter]

theorem cons_le_cons_iff {first second : Letter} {left right : List Letter} :
    first :: left ≤ second :: right ↔ first < second ∨ first = second ∧ left ≤ right := by
  rw [← not_lt, List.cons_lt_cons_iff, not_or, not_and, not_lt, not_lt, le_iff_lt_or_eq]
  constructor
  · rintro ⟨below | same, later⟩
    · exact Or.inl below
    · exact Or.inr ⟨same, later same.symm⟩
  · rintro (below | ⟨rfl, later⟩)
    · exact ⟨Or.inl below, fun same => absurd same (ne_of_gt below)⟩
    · exact ⟨Or.inr rfl, fun _ => later⟩

theorem not_cons_le_nil (letter : Letter) (word : List Letter) : ¬ letter :: word ≤ [] := by
  rw [not_le]
  exact List.nil_lt_cons letter word

theorem nil_le (word : List Letter) : [] ≤ word := by
  rw [← not_lt]
  exact List.not_lt_nil word

theorem le_of_isPrefix {word key : List Letter} (start : word <+: key) : word ≤ key := by
  obtain ⟨rest, rfl⟩ := start
  induction word with
  | nil => exact nil_le _
  | cons letter word ih => exact cons_le_cons_iff.mpr (Or.inr ⟨rfl, ih⟩)

theorem isPrefix_of_le_of_le {word between key : List Letter} (start : word <+: key)
    (above : word ≤ between) (below : between ≤ key) : word <+: between := by
  induction word generalizing between key with
  | nil => exact List.nil_prefix
  | cons letter word ih =>
      cases between with
      | nil => exact absurd above (not_cons_le_nil letter word)
      | cons other between =>
          obtain ⟨rest, rfl⟩ := start
          rw [cons_le_cons_iff] at above
          rw [List.cons_append, cons_le_cons_iff] at below
          rcases above with lower | ⟨rfl, above⟩
          · rcases below with higher | ⟨rfl, _⟩
            · exact absurd (lt_trans lower higher) (lt_irrefl letter)
            · exact absurd lower (lt_irrefl _)
          · rcases below with higher | ⟨_, below⟩
            · exact absurd higher (lt_irrefl letter)
            · exact List.cons_prefix_cons.mpr ⟨rfl, ih (List.prefix_append word rest) above below⟩

theorem isPrefix_iff_le_of_isTop {word : List Letter} (highest : ∀ letter ∈ word, IsTop letter)
    (key : List Letter) : word <+: key ↔ word ≤ key := by
  induction word generalizing key with
  | nil => exact ⟨fun _ => nil_le key, fun _ => List.nil_prefix⟩
  | cons letter word ih =>
      have rest := ih (fun other member => highest other (List.mem_cons_of_mem letter member))
      have top := highest letter List.mem_cons_self
      cases key with
      | nil => simp [not_cons_le_nil]
      | cons other key =>
          rw [List.cons_prefix_cons, cons_le_cons_iff, rest key]
          constructor
          · exact Or.inr
          · rintro (below | same)
            · exact absurd below (not_lt_of_ge (top other))
            · exact same

theorem isPrefix_iff_between {body tail : List Letter} {last next : Letter} (cover : last ⋖ next)
    (highest : ∀ letter ∈ tail, IsTop letter) (key : List Letter) :
    body ++ last :: tail <+: key ↔ body ++ last :: tail ≤ key ∧ key < body ++ [next] := by
  induction body generalizing key with
  | nil =>
      cases key with
      | nil => simp [not_cons_le_nil]
      | cons letter key =>
          have bound : letter :: key < [next] ↔ letter ≤ last := by
            rw [List.cons_lt_cons_iff]
            constructor
            · rintro (below | ⟨_, shorter⟩)
              · exact cover.le_of_lt below
              · exact absurd shorter (List.not_lt_nil key)
            · exact fun low => Or.inl (lt_of_le_of_lt low cover.lt)
          rw [List.nil_append, List.nil_append, List.cons_prefix_cons, cons_le_cons_iff, bound,
            isPrefix_iff_le_of_isTop highest key]
          constructor
          · rintro ⟨rfl, start⟩
            exact ⟨Or.inr ⟨rfl, start⟩, le_refl last⟩
          · rintro ⟨higher | same, low⟩
            · exact absurd higher (not_lt_of_ge low)
            · exact same
  | cons letter body ih =>
      cases key with
      | nil => simp [not_cons_le_nil]
      | cons other key =>
          rw [List.cons_append, List.cons_append, List.cons_prefix_cons, cons_le_cons_iff,
            List.cons_lt_cons_iff, ih key]
          constructor
          · rintro ⟨rfl, above, below⟩
            exact ⟨Or.inr ⟨rfl, above⟩, Or.inr ⟨rfl, below⟩⟩
          · rintro ⟨lower | ⟨rfl, above⟩, higher | ⟨same, below⟩⟩
            · exact absurd (lt_trans lower higher) (lt_irrefl letter)
            · exact absurd (same ▸ lower) (lt_irrefl other)
            · exact absurd higher (lt_irrefl letter)
            · exact ⟨rfl, above, below⟩

end Keystory.General
