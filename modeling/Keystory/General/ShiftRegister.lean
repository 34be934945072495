/-
Division of polynomials over the field of two elements by a shift register.

The register is reflected: its lowest bit is the highest coefficient. That bit
leaves first and meets the next bit of the message, and where the two differ the
divisor is subtracted from what is left.
-/

import Mathlib.Algebra.Field.ZMod
import Mathlib.Algebra.Polynomial.Div
import Mathlib.RingTheory.Polynomial.DegreeLT
import Mathlib.Tactic.LinearCombination

namespace Keystory.General

open Polynomial

def bitValue (bit : Bool) : ZMod 2 := if bit then 1 else 0

theorem bitValue_xor (first second : Bool) :
    bitValue (first ^^ second) = bitValue first + bitValue second := by
  cases first <;> cases second <;> decide

theorem bitValue_and (first second : Bool) :
    bitValue (first && second) = bitValue first * bitValue second := by
  cases first <;> cases second <;> decide

/-- The polynomial that a reflected register holds. -/
noncomputable def reflected (width : Nat) (bits : Nat → Bool) : (ZMod 2)[X] :=
  ∑ i ∈ Finset.range width, C (bitValue (bits i)) * X ^ (width - 1 - i)

/-- The polynomial of a message whose first bit is the highest coefficient. -/
noncomputable def messagePolynomial (message : List Bool) : (ZMod 2)[X] :=
  message.foldl (fun value bit => value * X + C (bitValue bit)) 0

/-- What the register divides by: the fed-back bits under a leading one. -/
noncomputable def divisor (width : Nat) (feedback : Nat → Bool) : (ZMod 2)[X] :=
  X ^ width + reflected width feedback

def shiftIn (feedback bits : Nat → Bool) (bit : Bool) (i : Nat) : Bool :=
  ((bits 0 ^^ bit) && feedback i) ^^ bits (i + 1)

theorem degree_reflected_lt (width : Nat) (bits : Nat → Bool) :
    (reflected width bits).degree < width := by
  rw [← mem_degreeLT]
  refine Submodule.sum_mem _ ?_
  intro i inside
  rw [mem_degreeLT]
  refine (degree_C_mul_X_pow_le _ _).trans_lt ?_
  have below := Finset.mem_range.mp inside
  exact_mod_cast (by omega : width - 1 - i < width)

theorem monic_divisor (width : Nat) (feedback : Nat → Bool) :
    (divisor width feedback).Monic :=
  monic_X_pow_add (degree_reflected_lt width feedback)

theorem degree_divisor (width : Nat) (feedback : Nat → Bool) :
    (divisor width feedback).degree = width := by
  rw [divisor, degree_add_eq_left_of_degree_lt]
  · exact degree_X_pow width
  · rw [degree_X_pow]
    exact degree_reflected_lt width feedback

/-- Moving every bit down multiplies by the indeterminate; the lowest bit is carried out. -/
theorem reflected_mul_X {width : Nat} {bits : Nat → Bool} (clear : bits width = false) :
    reflected width bits * X =
      C (bitValue (bits 0)) * X ^ width + reflected width (fun i => bits (i + 1)) := by
  have whole : ∑ i ∈ Finset.range (width + 1), C (bitValue (bits i)) * X ^ (width - i) =
      reflected width bits * X := by
    rw [Finset.sum_range_succ, clear, reflected, Finset.sum_mul]
    have none : C (bitValue false) = (0 : (ZMod 2)[X]) := C_0
    rw [none, zero_mul, add_zero]
    refine Finset.sum_congr rfl ?_
    intro i inside
    have below := Finset.mem_range.mp inside
    have power : width - i = width - 1 - i + 1 := by omega
    rw [power, pow_succ, mul_assoc]
  have apart : ∑ i ∈ Finset.range (width + 1), C (bitValue (bits i)) * X ^ (width - i) =
      C (bitValue (bits 0)) * X ^ width + reflected width (fun i => bits (i + 1)) := by
    rw [Finset.sum_range_succ', add_comm, Nat.sub_zero, reflected]
    congr 1
    refine Finset.sum_congr rfl ?_
    intro i inside
    have power : width - (i + 1) = width - 1 - i := by omega
    rw [power]
  rw [← whole, apart]

theorem reflected_xor (width : Nat) (carry : Bool) (feedback bits : Nat → Bool) :
    reflected width (fun i => (carry && feedback i) ^^ bits i) =
      C (bitValue carry) * reflected width feedback + reflected width bits := by
  rw [reflected, reflected, reflected, Finset.mul_sum, ← Finset.sum_add_distrib]
  refine Finset.sum_congr rfl ?_
  intro i _
  rw [bitValue_xor, bitValue_and, C_add, C_mul]
  ring

theorem reflected_shiftIn {width : Nat} (feedback : Nat → Bool) {bits : Nat → Bool}
    (clear : bits width = false) (bit : Bool) :
    reflected width bits * X + C (bitValue bit) * X ^ width =
      C (bitValue (bits 0 ^^ bit)) * divisor width feedback +
        reflected width (shiftIn feedback bits bit) := by
  have twice : C (bitValue (bits 0 ^^ bit)) * reflected width feedback +
      C (bitValue (bits 0 ^^ bit)) * reflected width feedback = 0 :=
    CharTwo.add_self_eq_zero _
  have next : reflected width (shiftIn feedback bits bit) =
      C (bitValue (bits 0 ^^ bit)) * reflected width feedback +
        reflected width (fun i => bits (i + 1)) :=
    reflected_xor width (bits 0 ^^ bit) feedback (fun i => bits (i + 1))
  calc reflected width bits * X + C (bitValue bit) * X ^ width
      = C (bitValue (bits 0 ^^ bit)) * X ^ width + reflected width (fun i => bits (i + 1)) := by
        rw [reflected_mul_X clear, bitValue_xor, C_add]
        ring
    _ = C (bitValue (bits 0 ^^ bit)) * divisor width feedback +
          reflected width (shiftIn feedback bits bit) := by
        rw [next, divisor, mul_add, ← add_assoc, add_assoc (_ * X ^ width), twice, add_zero]

theorem shiftIn_clear {width : Nat} {feedback bits : Nat → Bool}
    (fits : ∀ i, width ≤ i → feedback i = false) (clear : ∀ i, width ≤ i → bits i = false)
    (bit : Bool) : ∀ i, width ≤ i → shiftIn feedback bits bit i = false := by
  intro i beyond
  rw [shiftIn, fits i beyond, clear (i + 1) (Nat.le_succ_of_le beyond), Bool.and_false,
    Bool.xor_false]

theorem messagePolynomial_concat (message : List Bool) (bit : Bool) :
    messagePolynomial (message ++ [bit]) =
      messagePolynomial message * X + C (bitValue bit) := by
  simp [messagePolynomial]

/-- The register holds the remainder of what it started with, moved up past the message, and
the message moved up by the width. -/
theorem foldl_shiftIn_eq_mod {width : Nat} {feedback bits : Nat → Bool}
    (fits : ∀ i, width ≤ i → feedback i = false) (clear : ∀ i, width ≤ i → bits i = false)
    (message : List Bool) :
    reflected width (message.foldl (shiftIn feedback) bits) =
      (reflected width bits * X ^ message.length + messagePolynomial message * X ^ width) %ₘ
        divisor width feedback := by
  -- quotient and remainder grow together along the message
  have divided : (∀ i, width ≤ i → message.foldl (shiftIn feedback) bits i = false) ∧
      ∃ quotient,
        reflected width (message.foldl (shiftIn feedback) bits) +
            divisor width feedback * quotient =
          reflected width bits * X ^ message.length + messagePolynomial message * X ^ width := by
    induction message using List.reverseRecOn with
    | nil =>
        refine ⟨clear, 0, ?_⟩
        simp [messagePolynomial]
    | append_singleton message bit ih =>
        obtain ⟨stays, quotient, before⟩ := ih
        rw [List.foldl_concat]
        refine ⟨shiftIn_clear fits stays bit,
          C (bitValue (message.foldl (shiftIn feedback) bits 0 ^^ bit)) + quotient * X, ?_⟩
        have step := reflected_shiftIn feedback (stays width (Nat.le_refl width)) bit
        rw [List.length_append, List.length_singleton, messagePolynomial_concat]
        linear_combination X * before - step
  obtain ⟨_, quotient, same⟩ := divided
  symm
  refine (div_modByMonic_unique quotient _ (monic_divisor width feedback) ⟨same, ?_⟩).2
  rw [degree_divisor]
  exact degree_reflected_lt width _

end Keystory.General
