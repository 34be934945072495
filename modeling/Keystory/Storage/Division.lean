/-
The checksum is CRC-32: the table step does what eight bits of the reflected
division do, so the register always holds a remainder by the IEEE 802.3
polynomial, and it does not matter how the bytes are cut into chunks.
-/

import Keystory.General.ShiftRegister
import Keystory.Storage.Burst

namespace Keystory

open General Polynomial

/-! ### Bit by bit -/

def divideBit (crc : UInt32) (bit : Bool) : UInt32 :=
  if (crc &&& 1 != 0) ^^ bit then (crc >>> 1) ^^^ 0xEDB88320 else crc >>> 1

def bitsOf (data : Bytes) : List Bool :=
  data.flatMap (fun byte => (List.range 8).map byte.toNat.testBit)

def crc32Bitwise (data : Bytes) : UInt32 := ~~~ (bitsOf data).foldl divideBit 0xFFFFFFFF

def polynomialBits (i : Nat) : Bool := (0xEDB88320#32).getLsbD i

theorem getLsbD_divideBit (crc : UInt32) (bit : Bool) (i : Nat) :
    (divideBit crc bit).toBitVec.getLsbD i =
      shiftIn polynomialBits crc.toBitVec.getLsbD bit i := by
  have low : (crc &&& 1 != 0) = crc.toBitVec.getLsbD 0 := by
    rw [Bool.eq_iff_iff, bne_iff_ne]
    exact and_one_ne_zero_iff crc
  rw [divideBit, low, shiftIn, polynomialBits]
  cases crc.toBitVec.getLsbD 0 ^^ bit with
  | true => simp [Nat.add_comm 1 i, Bool.xor_comm]
  | false => simp [Nat.add_comm 1 i]

/-- Mixing a word into the register first, or its lowest bit now and the others later. -/
theorem tableShift_xor (crc word : UInt32) :
    tableShift (crc ^^^ word) =
      divideBit crc (word.toBitVec.getLsbD 0) ^^^ (word >>> 1) := by
  apply eq_of_bits
  intro i
  rw [getLsbD_tableShift, UInt32.toBitVec_xor, UInt32.toBitVec_xor, BitVec.getLsbD_xor,
    BitVec.getLsbD_xor, BitVec.getLsbD_xor, getLsbD_divideBit, shiftIn, polynomialBits,
    Bool.xor_assoc]
  simp [Nat.add_comm 1 i]

theorem shifts_eq_foldl {count : Nat} {word : UInt32} (crc : UInt32)
    (clear : ∀ i, count ≤ i → word.toBitVec.getLsbD i = false) :
    Nat.repeat tableShift count (crc ^^^ word) =
      ((List.range count).map word.toBitVec.getLsbD).foldl divideBit crc := by
  induction count generalizing crc word with
  | zero =>
      have none : word = 0 := eq_of_bits (fun i => by rw [clear i (Nat.zero_le i)]; simp)
      rw [none, UInt32.xor_zero]
      rfl
  | succ count ih =>
      have moved : ∀ i, (word >>> 1).toBitVec.getLsbD i = word.toBitVec.getLsbD (i + 1) :=
        fun i => by simp [Nat.add_comm 1 i]
      have later : ∀ i, count ≤ i → (word >>> 1).toBitVec.getLsbD i = false := by
        intro i beyond
        rw [moved]
        exact clear (i + 1) (Nat.succ_le_succ beyond)
      rw [shifts_add, List.range_succ_eq_map, List.map_cons, List.foldl_cons, List.map_map]
      change Nat.repeat tableShift count (tableShift (crc ^^^ word)) = _
      -- the bits that are left in the word are mixed in by the shifts that are left
      rw [tableShift_xor, ih _ later, funext moved]
      rfl

theorem crcByte_eq_foldl (crc : UInt32) (byte : UInt8) :
    crcByte crc byte = ((List.range 8).map byte.toNat.testBit).foldl divideBit crc := by
  rw [crcByte_eq, shifts_eq_foldl crc (fun i => getLsbD_byte_high byte),
    funext (getLsbD_byte byte)]

theorem foldl_crcByte_eq (data : Bytes) (crc : UInt32) :
    data.foldl crcByte crc = (bitsOf data).foldl divideBit crc := by
  induction data generalizing crc with
  | nil => rfl
  | cons byte rest ih =>
      rw [List.foldl_cons, ih, crcByte_eq_foldl, bitsOf, bitsOf, List.flatMap_cons,
        List.foldl_append]

/-! ### Polynomials -/

noncomputable def registerPolynomial (crc : UInt32) : (ZMod 2)[X] :=
  reflected 32 crc.toBitVec.getLsbD

noncomputable def crcDivisor : (ZMod 2)[X] := divisor 32 polynomialBits

theorem crcDivisor_eq : crcDivisor =
    X ^ 32 + X ^ 26 + X ^ 23 + X ^ 22 + X ^ 16 + X ^ 12 + X ^ 11 + X ^ 10 + X ^ 8 + X ^ 7 +
      X ^ 5 + X ^ 4 + X ^ 2 + X + 1 := by
  simp [crcDivisor, divisor, reflected, Finset.sum_range_succ, polynomialBits, bitValue]
  ring

theorem length_bitsOf (data : Bytes) : (bitsOf data).length = 8 * data.length := by
  induction data with
  | nil => rfl
  | cons byte rest ih =>
      rw [bitsOf, List.flatMap_cons, List.length_append, ← bitsOf, ih]
      simp only [List.length_map, List.length_range, List.length_cons]
      omega

theorem getLsbD_foldl_divideBit (message : List Bool) (crc : UInt32) :
    (message.foldl divideBit crc).toBitVec.getLsbD =
      message.foldl (shiftIn polynomialBits) crc.toBitVec.getLsbD := by
  induction message generalizing crc with
  | nil => rfl
  | cons bit rest ih =>
      rw [List.foldl_cons, List.foldl_cons, ih]
      congr 1
      exact funext (getLsbD_divideBit crc bit)

theorem registerPolynomial_foldl (message : List Bool) (crc : UInt32) :
    registerPolynomial (message.foldl divideBit crc) =
      (registerPolynomial crc * X ^ message.length + messagePolynomial message * X ^ 32) %ₘ
        crcDivisor := by
  rw [registerPolynomial, getLsbD_foldl_divideBit]
  exact foldl_shiftIn_eq_mod (fun i beyond => BitVec.getLsbD_of_ge _ i beyond)
    (fun i beyond => BitVec.getLsbD_of_ge _ i beyond) message

/-- The checksum of a byte string is the complement of what the reflected division leaves,
bit by bit from all ones; that register is the remainder by the IEEE 802.3 polynomial; and
feeding the bytes in any chunks gives the same. -/
theorem crc32_divides_and_streams :
    (∀ data, crc32 data = crc32Bitwise data) ∧
      (∀ data, registerPolynomial (~~~ crc32 data) =
        (registerPolynomial 0xFFFFFFFF * X ^ (8 * data.length) +
          messagePolynomial (bitsOf data) * X ^ 32) %ₘ crcDivisor) ∧
      ∀ chunks : List Bytes,
        (chunks.foldl Crc.update Crc.new).finish = crc32 chunks.flatten := by
  refine ⟨?_, ?_, ?_⟩
  · intro data
    rw [crc32, foldl_crcByte_eq, crc32Bitwise]
  · intro data
    rw [crc32, UInt32.not_not, foldl_crcByte_eq, registerPolynomial_foldl, length_bitsOf]
  · intro chunks
    rw [Crc.foldl_update, Crc.finish_new_update]

end Keystory
