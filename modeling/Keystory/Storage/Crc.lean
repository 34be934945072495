/-
The CRC-32 that guards every record on disk: the table of the reflected
polynomial, the one-shot checksum and the incremental accumulator.
-/

import Keystory.Types

namespace Keystory

/-- One of the eight shifts that make a table entry. -/
def tableShift (c : UInt32) : UInt32 :=
  if c &&& 1 ≠ 0 then (0xEDB88320 : UInt32) ^^^ (c >>> 1) else c >>> 1

/-- The table of `build_table`, as a function of its index. -/
def crcTable (index : UInt32) : UInt32 := Nat.repeat tableShift 8 index

def crcByte (crc : UInt32) (byte : UInt8) : UInt32 :=
  (crc >>> 8) ^^^ crcTable ((crc ^^^ byte.toUInt32) &&& 0xFF)

def crc32 (data : Bytes) : UInt32 := ~~~ data.foldl crcByte 0xFFFFFFFF

structure Crc where
  value : UInt32
deriving DecidableEq

namespace Crc

def new : Crc := ⟨0xFFFFFFFF⟩

def update (crc : Crc) (data : Bytes) : Crc := ⟨data.foldl crcByte crc.value⟩

def finish (crc : Crc) : UInt32 := ~~~ crc.value

theorem update_append (crc : Crc) (first second : Bytes) :
    crc.update (first ++ second) = (crc.update first).update second := by
  simp [update]

theorem foldl_update (chunks : List Bytes) (crc : Crc) :
    chunks.foldl update crc = crc.update chunks.flatten := by
  induction chunks generalizing crc with
  | nil => rfl
  | cons chunk chunks ih => rw [List.foldl_cons, ih, List.flatten_cons, update_append]

theorem finish_new_update (data : Bytes) : (new.update data).finish = crc32 data := rfl

end Crc

-- the check value of the source's known-answer test, over "123456789"
example : crc32 [49, 50, 51, 52, 53, 54, 55, 56, 57] = 0xCBF43926 := by decide +kernel

end Keystory
