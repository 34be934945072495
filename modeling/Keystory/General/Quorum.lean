/-
Majorities of a fixed group `0..n`, and the member two of them share.
-/

import Mathlib.Data.Finset.Card
import Mathlib.Data.Finset.Range

namespace Keystory.General

def IsQuorum (n : Nat) (members : Finset Nat) : Prop :=
  members ⊆ Finset.range n ∧ n / 2 + 1 ≤ members.card

theorem IsQuorum.intersect {n : Nat} {left right : Finset Nat} (leftQuorum : IsQuorum n left)
    (rightQuorum : IsQuorum n right) : ∃ member, member ∈ left ∧ member ∈ right := by
  have crowded : (Finset.range n).card < left.card + right.card := by
    have leftSize := leftQuorum.2
    have rightSize := rightQuorum.2
    rw [Finset.card_range]
    omega
  obtain ⟨member, both⟩ :=
    Finset.inter_nonempty_of_card_lt_card_add_card leftQuorum.1 rightQuorum.1 crowded
  exact ⟨member, (Finset.mem_inter.mp both).1, (Finset.mem_inter.mp both).2⟩

end Keystory.General
