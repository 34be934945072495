/-
Fixed-width little-endian numbers as lists of bytes.
-/

import Mathlib.Algebra.Ring.Nat
import Mathlib.Data.List.Basic

namespace Keystory.General

/-- The low `width` bytes of a number, least significant first. -/
def toLe : Nat → Nat → List UInt8
  | 0, _ => []
  | width + 1, number => UInt8.ofNat number :: toLe width (number / 256)

def ofLe : List UInt8 → Nat
  | [] => 0
  | byte :: rest => byte.toNat + 256 * ofLe rest

@[simp] theorem length_toLe (width number : Nat) : (toLe width number).length = width := by
  induction width generalizing number with
  | zero => rfl
  | succ width ih => rw [toLe, List.length_cons, ih]

theorem ofLe_toLe {width number : Nat} (bound : number < 256 ^ width) :
    ofLe (toLe width number) = number := by
  induction width generalizing number with
  | zero =>
      rw [Nat.pow_zero, Nat.lt_one_iff] at bound
      rw [bound]
      rfl
  | succ width ih =>
      have high : number / 256 < 256 ^ width := by
        rw [Nat.pow_succ] at bound
        exact Nat.div_lt_of_lt_mul (by omega)
      rw [toLe, ofLe, ih high, UInt8.toNat_ofNat']
      omega

theorem toLe_ofLe {width : Nat} {bytes : List UInt8} (length : bytes.length = width) :
    toLe width (ofLe bytes) = bytes := by
  subst length
  induction bytes with
  | nil => rfl
  | cons byte rest ih =>
      have low := byte.toNat_lt
      have high : (byte.toNat + 256 * ofLe rest) / 256 = ofLe rest := by omega
      have head : UInt8.ofNat (byte.toNat + 256 * ofLe rest) = byte := by
        apply UInt8.toNat_inj.mp
        rw [UInt8.toNat_ofNat']
        omega
      rw [List.length_cons, ofLe, toLe, high, ih, head]

theorem ofLe_toLe_u32 (number : UInt32) : ofLe (toLe 4 number.toNat) = number.toNat :=
  ofLe_toLe number.toNat_lt

theorem ofLe_lt (bytes : List UInt8) : ofLe bytes < 256 ^ bytes.length := by
  induction bytes with
  | nil => exact Nat.one_pos
  | cons byte rest ih =>
      have low := byte.toNat_lt
      rw [ofLe, List.length_cons, Nat.pow_succ]
      omega

theorem ofLe_inj {first second : List UInt8} (width : first.length = second.length)
    (same : ofLe first = ofLe second) : first = second := by
  induction first generalizing second with
  | nil => exact (List.length_eq_zero_iff.mp width.symm).symm
  | cons byte rest ih =>
      cases second with
      | nil => exact absurd width (by simp)
      | cons other later =>
          have low := byte.toNat_lt
          have otherLow := other.toNat_lt
          rw [ofLe, ofLe] at same
          have head : byte = other := UInt8.toNat_inj.mp (by omega)
          have tail : rest = later := ih (Nat.succ.inj width) (by omega)
          rw [head, tail]

end Keystory.General
