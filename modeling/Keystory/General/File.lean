/-
A file as a crash sees it: the bytes that have been synced, which a crash keeps,
then the bytes appended since, of which a crash keeps some leading part.
-/

import Mathlib.Data.List.Basic

namespace Keystory.General

structure File (Byte : Type) where
  synced : List Byte
  unsynced : List Byte
deriving DecidableEq

namespace File

variable {Byte : Type} (fill : Byte) (file : File Byte)

def bytes : List Byte := file.synced ++ file.unsynced

def empty : File Byte := ⟨[], []⟩

def settled (content : List Byte) : File Byte := ⟨content, []⟩

def append (data : List Byte) : File Byte := ⟨file.synced, file.unsynced ++ data⟩

/-- A write at a position: a gap before it is filled, what follows it stays, and
nothing from the position on counts as synced any more. -/
def writeAt (position : Nat) (data : List Byte) : File Byte :=
  ⟨file.synced.take position,
    (file.bytes.take position).drop (file.synced.take position).length ++
      List.replicate (position - file.bytes.length) fill ++ data ++
      file.bytes.drop (position + data.length)⟩

/-- Cut or extended to a length; a cut is not undone by a crash. -/
def setLen (length : Nat) : File Byte :=
  ⟨file.synced.take length,
    file.unsynced.take (length - file.synced.length) ++
      List.replicate (length - file.bytes.length) fill⟩

def sync : File Byte := settled file.bytes

/-- What a sync that fails may still do: some of the bytes have become safe. -/
def harden (count : Nat) : File Byte :=
  ⟨file.synced ++ file.unsynced.take count, file.unsynced.drop count⟩

/-- What a crash leaves: `kept` of the unsynced bytes, `safe` of them synced. -/
def crash (kept safe : Nat) : File Byte :=
  (File.mk file.synced (file.unsynced.take kept)).harden safe

variable {file}

theorem bytes_empty : (empty : File Byte).bytes = [] := rfl

@[simp] theorem bytes_settled (content : List Byte) : (settled content).bytes = content :=
  List.append_nil content

@[simp] theorem bytes_append (data : List Byte) :
    (file.append data).bytes = file.bytes ++ data :=
  (List.append_assoc _ _ _).symm

@[simp] theorem bytes_sync : file.sync.bytes = file.bytes := bytes_settled _

@[simp] theorem bytes_harden (count : Nat) : (file.harden count).bytes = file.bytes := by
  simp [harden, bytes]

theorem writeAt_end (data : List Byte) :
    file.writeAt fill file.bytes.length data = file.append data := by
  have short : file.synced.length ≤ file.bytes.length := by
    simp [bytes]
  rw [writeAt, append, List.take_of_length_le short, List.take_length, Nat.sub_self,
    List.drop_eq_nil_of_le (Nat.le_add_right _ _)]
  simp [bytes]

theorem length_bytes_writeAt (position : Nat) (data : List Byte) :
    (file.writeAt fill position data).bytes.length =
      max file.bytes.length (position + data.length) := by
  have short : (file.synced.take position).length ≤ (file.bytes.take position).length := by
    simp only [bytes, List.length_take, List.length_append]
    omega
  rw [bytes, writeAt]
  simp only [List.length_append, List.length_drop, List.length_replicate]
  rw [List.length_take] at short ⊢
  rw [List.length_take] at short ⊢
  omega

theorem length_bytes_setLen (length : Nat) : (file.setLen fill length).bytes.length = length := by
  simp only [setLen, bytes, List.length_append, List.length_take, List.length_replicate]
  omega

theorem bytes_setLen {length : Nat} (within : length ≤ file.bytes.length) :
    (file.setLen fill length).bytes = file.bytes.take length := by
  rw [setLen, bytes, Nat.sub_eq_zero_of_le within, List.replicate_zero, List.append_nil,
    bytes, List.take_append]

theorem synced_setLen {length : Nat} {base : List Byte} (start : base <+: file.synced)
    (covers : base.length ≤ length) : base <+: (file.setLen fill length).synced := by
  obtain ⟨rest, same⟩ := start
  refine ⟨rest.take (length - base.length), ?_⟩
  rw [setLen, ← same, List.take_append, List.take_of_length_le covers]

theorem synced_isPrefix : file.synced <+: file.bytes := ⟨file.unsynced, rfl⟩

theorem synced_harden (count : Nat) : file.synced <+: (file.harden count).synced :=
  ⟨file.unsynced.take count, rfl⟩

theorem bytes_crash (kept safe : Nat) : (file.crash kept safe).bytes <+: file.bytes := by
  rw [crash, bytes_harden]
  exact (List.prefix_append_right_inj file.synced).mpr (List.take_prefix kept file.unsynced)

theorem synced_crash (kept safe : Nat) : file.synced <+: (file.crash kept safe).synced :=
  ⟨_, rfl⟩

theorem crash_whole {kept : Nat} (whole : file.unsynced.length ≤ kept) :
    file.crash kept 0 = file := by
  rw [crash, harden, List.take_of_length_le whole, List.take_zero, List.append_nil, List.drop_zero]

@[simp] theorem crash_settled (content : List Byte) (kept safe : Nat) :
    (settled content).crash kept safe = settled content := by
  simp [crash, harden, settled]

end File

end Keystory.General
