/-
What the checksum is worth: bytes followed by their own CRC-32 leave a constant
in the register, and no change confined to four consecutive bytes does.
-/

import Keystory.General.LittleEndian
import Keystory.Storage.Crc

namespace Keystory

open General

def Burst (original damaged : Bytes) : Prop :=
  ∃ before old new after, old.length = new.length ∧ new.length ≤ 4 ∧ old ≠ new ∧
    original = before ++ old ++ after ∧ damaged = before ++ new ++ after

theorem Burst.length_eq {original damaged : Bytes} (burst : Burst original damaged) :
    damaged.length = original.length := by
  obtain ⟨before, old, new, after, width, _, _, rfl, rfl⟩ := burst
  simp [width]

theorem Burst.drop {original damaged : Bytes} {count : Nat} (burst : Burst original damaged)
    (same : original.take count = damaged.take count) :
    Burst (original.drop count) (damaged.drop count) := by
  obtain ⟨before, old, new, after, width, short, different, rfl, rfl⟩ := burst
  rw [List.append_assoc, List.append_assoc, List.take_append, List.take_append, List.take_append,
    List.take_append, List.append_cancel_left_eq, width, List.append_cancel_right_eq] at same
  refine ⟨before.drop count, old.drop (count - before.length), new.drop (count - before.length),
    after.drop (count - before.length - new.length), ?_, ?_, ?_, ?_, ?_⟩
  · rw [List.length_drop, List.length_drop, width]
  · rw [List.length_drop]
    omega
  · intro rest
    apply different
    rw [← List.take_append_drop (count - before.length) old, same, rest, List.take_append_drop]
  · rw [List.append_assoc, List.append_assoc, List.drop_append, List.drop_append, width]
  · rw [List.append_assoc, List.append_assoc, List.drop_append, List.drop_append]

/-! ### Shifts, bit by bit -/

theorem and_one_ne_zero_iff (c : UInt32) : c &&& 1 ≠ 0 ↔ c.toBitVec.getLsbD 0 = true := by
  have single := BitVec.and_one_eq_setWidth_ofBool_getLsbD (x := c.toBitVec)
  rw [ne_eq, ← UInt32.toBitVec_inj, UInt32.toBitVec_and]
  change ¬ (c.toBitVec &&& 1#32 = 0#32) ↔ _
  rw [single]
  cases c.toBitVec.getLsbD 0 <;> decide

theorem getLsbD_tableShift (c : UInt32) (i : Nat) :
    (tableShift c).toBitVec.getLsbD i =
      ((c.toBitVec.getLsbD 0 && (0xEDB88320#32).getLsbD i) ^^ c.toBitVec.getLsbD (i + 1)) := by
  unfold tableShift
  by_cases low : c.toBitVec.getLsbD 0 = true
  · rw [if_pos ((and_one_ne_zero_iff c).mpr low), low]
    simp [Nat.add_comm 1 i]
  · rw [if_neg (fun set => low ((and_one_ne_zero_iff c).mp set)), Bool.not_eq_true _ |>.mp low]
    simp [Nat.add_comm 1 i]

theorem eq_of_bits {a b : UInt32}
    (same : ∀ i, a.toBitVec.getLsbD i = b.toBitVec.getLsbD i) : a = b :=
  UInt32.toBitVec_inj.mp (BitVec.eq_of_getLsbD_eq (fun i _ => same i))

/-- The polynomial's top bit is set, so the bit fed back can be read off the result. -/
theorem tableShift_injective : Function.Injective tableShift := by
  intro a b same
  have bits : ∀ i, (tableShift a).toBitVec.getLsbD i = (tableShift b).toBitVec.getLsbD i :=
    fun i => by rw [same]
  have low : a.toBitVec.getLsbD 0 = b.toBitVec.getLsbD 0 := by
    have top := bits 31
    rw [getLsbD_tableShift, getLsbD_tableShift] at top
    simpa using top
  apply eq_of_bits
  intro i
  cases i with
  | zero => exact low
  | succ i =>
      have shifted := bits i
      rw [getLsbD_tableShift, getLsbD_tableShift, low] at shifted
      exact Bool.xor_right_inj.mp shifted

theorem shifts_injective (count : Nat) : Function.Injective (Nat.repeat tableShift count) := by
  induction count with
  | zero => exact fun a b same => same
  | succ count ih => exact fun a b same => ih (tableShift_injective same)

theorem shifts_add (first second : Nat) (c : UInt32) :
    Nat.repeat tableShift (first + second) c =
      Nat.repeat tableShift first (Nat.repeat tableShift second c) := by
  induction first with
  | zero =>
      rw [Nat.zero_add]
      rfl
  | succ first ih =>
      rw [Nat.succ_add, Nat.repeat, ih]
      rfl

theorem getLsbD_shifts_xor {count : Nat} {high : UInt32} (c : UInt32)
    (clear : ∀ i < count, high.toBitVec.getLsbD i = false) (i : Nat) :
    (Nat.repeat tableShift count (c ^^^ high)).toBitVec.getLsbD i =
      ((Nat.repeat tableShift count c).toBitVec.getLsbD i ^^
        high.toBitVec.getLsbD (i + count)) := by
  induction count generalizing i with
  | zero => simp [Nat.repeat]
  | succ count ih =>
      have moved := ih (fun i below => clear i (Nat.lt_succ_of_lt below))
      have none : high.toBitVec.getLsbD (0 + count) = false := by
        rw [Nat.zero_add]
        exact clear count (Nat.lt_succ_self count)
      have place : i + 1 + count = i + (count + 1) := by omega
      rw [Nat.repeat, Nat.repeat, getLsbD_tableShift, getLsbD_tableShift, moved, moved, none,
        place]
      simp

/-! ### The register -/

theorem getLsbD_byteMask (i : Nat) : (255#32).getLsbD i = decide (i < 8) := by
  rw [← BitVec.testBit_toNat]
  change Nat.testBit (2 ^ 8 - 1) i = _
  rw [Nat.testBit_two_pow_sub_one]

theorem getLsbD_byte (byte : UInt8) (i : Nat) :
    byte.toUInt32.toBitVec.getLsbD i = byte.toNat.testBit i := by
  rw [← BitVec.testBit_toNat]
  simp

theorem getLsbD_byte_high (byte : UInt8) {i : Nat} (high : 8 ≤ i) :
    byte.toUInt32.toBitVec.getLsbD i = false := by
  rw [getLsbD_byte]
  exact Nat.testBit_lt_two_pow
    (Nat.lt_of_lt_of_le byte.toNat_lt (Nat.pow_le_pow_right (by decide) high))

theorem crcByte_eq (crc : UInt32) (byte : UInt8) :
    crcByte crc byte = Nat.repeat tableShift 8 (crc ^^^ byte.toUInt32) := by
  let high := (crc >>> 8) <<< 8
  have highBit : ∀ i, high.toBitVec.getLsbD i = (decide (8 ≤ i) && crc.toBitVec.getLsbD i) := by
    intro i
    by_cases inside : i < 32
    · by_cases low : i < 8
      · simp [high, low]
      · have place : 8 + (i - 8) = i := by omega
        simp [high, low, inside, place, Nat.not_lt.mp low]
    · simp [BitVec.getLsbD_of_ge _ _ (Nat.not_lt.mp inside)]
  have split : crc ^^^ byte.toUInt32 = ((crc ^^^ byte.toUInt32) &&& 0xFF) ^^^ high := by
    apply eq_of_bits
    intro i
    rw [UInt32.toBitVec_xor, UInt32.toBitVec_xor, BitVec.getLsbD_xor, BitVec.getLsbD_xor,
      highBit, UInt32.toBitVec_and, BitVec.getLsbD_and]
    change _ = ((_ && (255#32).getLsbD i) ^^ _)
    rw [getLsbD_byteMask, UInt32.toBitVec_xor, BitVec.getLsbD_xor]
    by_cases low : i < 8
    · rw [decide_eq_true low, decide_eq_false (Nat.not_le.mpr low)]
      simp
    · rw [getLsbD_byte_high byte (Nat.not_lt.mp low), decide_eq_false low,
        decide_eq_true (Nat.not_lt.mp low)]
      simp
  have clear : ∀ i < 8, high.toBitVec.getLsbD i = false := by
    intro i below
    rw [highBit, decide_eq_false (Nat.not_le.mpr below), Bool.false_and]
  apply eq_of_bits
  intro i
  rw [split, getLsbD_shifts_xor _ clear, highBit, crcByte, UInt32.toBitVec_xor,
    BitVec.getLsbD_xor, Bool.xor_comm]
  congr 1
  simp [Nat.add_comm 8 i]

def wordOf (bytes : Bytes) : UInt32 := UInt32.ofNat (ofLe bytes)

theorem ofLe_lt_word {bytes : Bytes} (width : bytes.length ≤ 4) : ofLe bytes < 2 ^ 32 := by
  calc ofLe bytes < 256 ^ bytes.length := ofLe_lt bytes
    _ ≤ 256 ^ 4 := Nat.pow_le_pow_right (by decide) width
    _ = 2 ^ 32 := by decide

theorem toNat_wordOf {bytes : Bytes} (width : bytes.length ≤ 4) :
    (wordOf bytes).toNat = ofLe bytes :=
  UInt32.toNat_ofNat_of_lt' (ofLe_lt_word width)

theorem wordOf_injective {first second : Bytes} (width : first.length = second.length)
    (short : second.length ≤ 4) (same : wordOf first = wordOf second) : first = second := by
  apply ofLe_inj width
  rw [← toNat_wordOf (width ▸ short), same, toNat_wordOf short]

theorem getLsbD_wordOf {bytes : Bytes} (width : bytes.length ≤ 4) (i : Nat) :
    (wordOf bytes).toBitVec.getLsbD i = (ofLe bytes).testBit i := by
  rw [← BitVec.testBit_toNat, UInt32.toNat_toBitVec, toNat_wordOf width]

theorem testBit_ofLe_cons (byte : UInt8) (rest : Bytes) (i : Nat) :
    (ofLe (byte :: rest)).testBit i =
      if i < 8 then byte.toNat.testBit i else (ofLe rest).testBit (i - 8) := by
  rw [ofLe, Nat.add_comm]
  exact Nat.testBit_two_pow_mul_add _ byte.toNat_lt i

theorem crcByte_xor_wordOf {byte : UInt8} {rest : Bytes} (width : (byte :: rest).length ≤ 4)
    (crc : UInt32) :
    crcByte crc byte ^^^ wordOf rest =
      Nat.repeat tableShift 8 (crc ^^^ wordOf (byte :: rest)) := by
  have shorter : rest.length ≤ 4 := Nat.le_of_succ_le width
  let high := wordOf (0 :: rest)
  have highBit : ∀ i, high.toBitVec.getLsbD i =
      if i < 8 then false else (ofLe rest).testBit (i - 8) := by
    intro i
    have wide : ((0 : UInt8) :: rest).length ≤ 4 := width
    rw [getLsbD_wordOf wide, testBit_ofLe_cons]
    simp
  have split : crc ^^^ wordOf (byte :: rest) = (crc ^^^ byte.toUInt32) ^^^ high := by
    apply eq_of_bits
    intro i
    rw [UInt32.toBitVec_xor, UInt32.toBitVec_xor, UInt32.toBitVec_xor, BitVec.getLsbD_xor,
      BitVec.getLsbD_xor, BitVec.getLsbD_xor, highBit, getLsbD_wordOf width, testBit_ofLe_cons]
    by_cases low : i < 8
    · rw [if_pos low, if_pos low, getLsbD_byte, Bool.xor_false]
    · rw [if_neg low, if_neg low, getLsbD_byte_high byte (Nat.not_lt.mp low), Bool.xor_false]
  have clear : ∀ i < 8, high.toBitVec.getLsbD i = false := by
    intro i below
    rw [highBit, if_pos below]
  apply eq_of_bits
  intro i
  rw [split, getLsbD_shifts_xor _ clear, highBit, if_neg (by omega), Nat.add_sub_cancel,
    UInt32.toBitVec_xor, BitVec.getLsbD_xor, crcByte_eq, getLsbD_wordOf shorter]

/-- Up to four bytes go through the register as one word. -/
theorem foldl_crcByte_word {window : Bytes} (width : window.length ≤ 4) (crc : UInt32) :
    window.foldl crcByte crc =
      Nat.repeat tableShift (8 * window.length) (crc ^^^ wordOf window) := by
  induction window generalizing crc with
  | nil =>
      change crc = crc ^^^ 0
      rw [UInt32.xor_zero]
  | cons byte rest ih =>
      rw [List.foldl_cons, ih (Nat.le_of_succ_le width), crcByte_xor_wordOf width, ← shifts_add,
        List.length_cons, Nat.mul_succ]

theorem foldl_crcByte_injective (bytes : Bytes) :
    Function.Injective (fun crc => bytes.foldl crcByte crc) := by
  induction bytes with
  | nil => exact fun a b same => same
  | cons byte rest ih =>
      intro a b same
      have mixed : crcByte a byte = crcByte b byte := ih same
      rw [crcByte_eq, crcByte_eq] at mixed
      exact UInt32.xor_left_inj _ |>.mp (shifts_injective 8 mixed)

theorem Burst.foldl_ne {original damaged : Bytes} (burst : Burst original damaged)
    (crc : UInt32) : original.foldl crcByte crc ≠ damaged.foldl crcByte crc := by
  obtain ⟨before, old, new, after, width, short, different, rfl, rfl⟩ := burst
  intro same
  rw [List.foldl_append, List.foldl_append, List.foldl_append, List.foldl_append] at same
  have window := foldl_crcByte_injective after same
  rw [foldl_crcByte_word (width ▸ short), foldl_crcByte_word short, width] at window
  have words := (UInt32.xor_right_inj _).mp (shifts_injective _ window)
  exact different (wordOf_injective width short words)

/-! ### Checked bytes -/

def residue : UInt32 := Nat.repeat tableShift 32 0xFFFFFFFF

theorem not_eq_iff_xor_eq (a b : UInt32) : ~~~ a = b ↔ a ^^^ b = 0xFFFFFFFF := by
  have complement : a ^^^ ~~~ a = 0xFFFFFFFF := by
    rw [← UInt32.toBitVec_inj, UInt32.toBitVec_xor, UInt32.toBitVec_not, ← BitVec.xor_allOnes,
      ← BitVec.xor_assoc, BitVec.xor_self, BitVec.zero_xor]
    rfl
  rw [← complement, UInt32.xor_right_inj, eq_comm]

theorem crc32_eq_iff {data stored : Bytes} (width : stored.length = 4) :
    (crc32 data).toNat = ofLe stored ↔
      (data ++ stored).foldl crcByte 0xFFFFFFFF = residue := by
  have short : stored.length ≤ 4 := Nat.le_of_eq width
  rw [List.foldl_append, foldl_crcByte_word short, width, residue, ← toNat_wordOf short,
    UInt32.toNat_inj, (shifts_injective 32).eq_iff, crc32]
  exact not_eq_iff_xor_eq _ _

theorem Burst.crc32_ne {data stored data' stored' : Bytes}
    (burst : Burst (data ++ stored) (data' ++ stored')) (width : stored.length = 4)
    (width' : stored'.length = 4) (valid : (crc32 data).toNat = ofLe stored) :
    (crc32 data').toNat ≠ ofLe stored' := by
  intro accepted
  rw [crc32_eq_iff width] at valid
  rw [crc32_eq_iff width'] at accepted
  exact burst.foldl_ne 0xFFFFFFFF (valid.trans accepted.symm)

end Keystory
