/-
Fixed-width big-endian numbers as lists of bytes.
-/

import Keystory.General.LittleEndian

namespace Keystory.General

/-- The low `width` bytes of a number, most significant first. -/
def toBe (width number : Nat) : List UInt8 := (toLe width number).reverse

def ofBe (bytes : List UInt8) : Nat := ofLe bytes.reverse

@[simp] theorem length_toBe (width number : Nat) : (toBe width number).length = width := by
  rw [toBe, List.length_reverse, length_toLe]

theorem ofBe_toBe {width number : Nat} (bound : number < 256 ^ width) :
    ofBe (toBe width number) = number := by
  rw [ofBe, toBe, List.reverse_reverse, ofLe_toLe bound]

theorem ofBe_lt (bytes : List UInt8) : ofBe bytes < 256 ^ bytes.length := by
  rw [ofBe, ← List.length_reverse]
  exact ofLe_lt _

end Keystory.General
