/-
The value types shared by the engine and the replicated log: byte strings, the
materialised map with its per-key version clock, the two write operations, and
the point-in-time snapshot.

Ordering is by commit index only. A put of the value a key already holds changes
nothing, so it leaves the key's version alone.
-/

import Keystory.General.SortedMap

namespace Keystory

open General

/-- `Bytes` and `Shared` are the same bytes; sharing is not observable. -/
abbrev Bytes := List UInt8

instance instLinearOrderByte : LinearOrder UInt8 where
  le_refl := fun byte => Nat.le_refl byte.toNat
  le_trans := fun _ _ _ first second => Nat.le_trans first second
  le_antisymm := fun _ _ below above => UInt8.toNat_inj.mp (Nat.le_antisymm below above)
  le_total := fun left right => Nat.le_total left.toNat right.toNat
  lt_iff_le_not_ge := fun left right => by
    rw [UInt8.lt_iff_toNat_lt, UInt8.le_iff_toNat_le, UInt8.le_iff_toNat_le]
    exact Nat.lt_iff_le_and_not_ge
  toDecidableLE := inferInstance
  toDecidableEq := inferInstance
  toDecidableLT := inferInstance

structure Entry where
  value : Bytes
  version : Nat
deriving DecidableEq, Repr

abbrev Map := SortedMap Bytes Entry

inductive Op where
  | put (key value : Bytes)
  | delete (key : Bytes)
deriving DecidableEq, Repr

namespace Op

def key : Op → Bytes
  | .put key _ => key
  | .delete key => key

/-- Apply one op at a commit index. The source also reports whether the visible state
changed, which all its callers ignore. -/
def apply (op : Op) (map : Map) (index : Nat) : Map :=
  match op with
  | .put key value =>
      match map.find? key with
      | some entry =>
          if entry.value = value then map
          else map.insert key { value := value, version := index }
      | none => map.insert key { value := value, version := index }
  | .delete key => map.erase key

def written : Op → Option Bytes
  | .put _ value => some value
  | .delete _ => none

theorem find?_apply_other (op : Op) (map : Map) (index : Nat) (other : Bytes)
    (different : other ≠ op.key) : (op.apply map index).find? other = map.find? other := by
  cases op with
  | put key value =>
      have apart : ¬other = key := different
      unfold apply
      dsimp only
      split
      · split
        · rfl
        · rw [SortedMap.find?_insert, if_neg apart]
      · rw [SortedMap.find?_insert, if_neg apart]
  | delete key =>
      have apart : ¬other = key := different
      unfold apply
      rw [SortedMap.find?_erase, if_neg apart]

theorem value_apply_key (op : Op) (map : Map) (index : Nat) :
    ((op.apply map index).find? op.key).map Entry.value = op.written := by
  cases op with
  | put key value =>
      change ((apply (.put key value) map index).find? key).map Entry.value = some value
      unfold apply
      dsimp only
      split
      · rename_i entry found
        split
        · rename_i same
          rw [found, ← same]
          rfl
        · rw [SortedMap.find?_insert, if_pos rfl]
          rfl
      · rw [SortedMap.find?_insert, if_pos rfl]
        rfl
  | delete key =>
      change ((map.erase key).find? key).map Entry.value = none
      rw [SortedMap.find?_erase, if_pos rfl]
      rfl

end Op

/-- Apply the ops of one commit in order, all at its index. -/
def applyOps (ops : List Op) (map : Map) (index : Nat) : Map :=
  ops.foldl (fun state op => op.apply state index) map

/-- A consistent view of the whole store as of one commit index. -/
@[ext] structure Snapshot where
  index : Nat
  data : Map
deriving DecidableEq

def Snapshot.empty : Snapshot := { index := 0, data := SortedMap.empty }

def Snapshot.get (snapshot : Snapshot) (key : Bytes) : Option Bytes :=
  (snapshot.data.find? key).map Entry.value

end Keystory
