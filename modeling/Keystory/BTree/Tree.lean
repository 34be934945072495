/-
The ordered B+ tree: splits on the way back up from an insert, point deletes with
no rebalancing, a separator-pruned range walk.

Indexing and cutting a vector out of bounds panics in the source; the recursions
return `none` there. Places are found by the standard library's binary search, which
on a vector out of order ends at some position of it.
-/

import Keystory.General.Search
import Keystory.Types

namespace Keystory.BTreeStore

open General

def order : Nat := 5

abbrev Pair := Bytes × Bytes

/-- Separators route to children; values live in leaves only. -/
inductive Node where
  | internal (keys : List Bytes) (children : List Node)
  | leaf (entries : List Pair)

/-- What an overflowing node hands its parent: a separator and the right half. -/
structure Split where
  median : Bytes
  right : Node

/-- The child that owns a key: the first whose next separator is above it. -/
def route (keys : List Bytes) (key : Bytes) : Nat :=
  partitionPoint (fun separator => decide (separator ≤ key)) keys

/-- `Vec::split_off`: what stays and what is cut off. -/
def splitOff {Item : Type} (items : List Item) (position : Nat) : Option (List Item × List Item) :=
  if position ≤ items.length then some (items.take position, items.drop position) else none

/-- `Vec::insert`. -/
def insertItem {Item : Type} (items : List Item) (position : Nat) (item : Item) :
    Option (List Item) :=
  if position ≤ items.length then some (items.insertIdx position item) else none

/-! ### Insert -/

/-- Put the entry at its place in a leaf, and whether the key is new there. -/
def insertEntries (entries : List Pair) (key value : Bytes) : Option (List Pair × Bool) :=
  let position := partitionPoint (fun entry => decide (entry.1 < key)) entries
  match entries[position]? with
  | some entry =>
      if entry.1 = key then some (entries.set position (entry.1, value), false)
      else do
        let entries ← insertItem entries position (key, value)
        return (entries, true)
  | none => do
      let entries ← insertItem entries position (key, value)
      return (entries, true)

/-- Cut an overflowing leaf in the middle; the median stays in the right half. -/
def splitLeaf (entries : List Pair) : Option (Node × Option Split) :=
  if order - 1 < entries.length then do
    let middle := entries.length / 2
    let median ← entries[middle]?
    let (left, right) ← splitOff entries middle
    return (.leaf left, some { median := median.1, right := .leaf right })
  else some (.leaf entries, none)

/-- Cut an overflowing internal node; the middle separator moves up. -/
def splitInternal (keys : List Bytes) (children : List Node) : Option (Node × Option Split) :=
  if order < children.length then do
    let middle := keys.length / 2
    let (children, rightChildren) ← splitOff children (middle + 1)
    let (keys, rightKeys) ← splitOff keys (middle + 1)
    let separator ← keys[middle]?
    return (.internal (keys.eraseIdx middle) children,
      some { median := separator, right := .internal rightKeys rightChildren })
  else some (.internal keys children, none)

mutual

/-- Insert into a subtree: the subtree after, whether the key is new, and the split
to lift into the parent. -/
def insertRec (node : Node) (key value : Bytes) : Option (Node × Bool × Option Split) :=
  match node with
  | .leaf entries => do
      let (entries, inserted) ← insertEntries entries key value
      let (left, split) ← splitLeaf entries
      return (left, inserted, split)
  | .internal keys children => do
      let position := route keys key
      let (children, inserted, split) ← insertAt children position key value
      match split with
      | none => return (.internal keys children, inserted, none)
      | some split =>
          let keys ← insertItem keys position split.median
          let children ← insertItem children (position + 1) split.right
          let (left, lifted) ← splitInternal keys children
          return (left, inserted, lifted)

def insertAt (children : List Node) (position : Nat) (key value : Bytes) :
    Option (List Node × Bool × Option Split) :=
  match children, position with
  | [], _ => none
  | child :: rest, 0 => do
      let (child, inserted, split) ← insertRec child key value
      return (child :: rest, inserted, split)
  | child :: rest, position + 1 => do
      let (rest, inserted, split) ← insertAt rest position key value
      return (child :: rest, inserted, split)

end

/-! ### Get and delete -/

mutual

def getRec (node : Node) (key : Bytes) : Option (Option Bytes) :=
  match node with
  | .leaf entries => some ((entries.find? (fun entry => entry.1 == key)).map Prod.snd)
  | .internal keys children => getAt children (route keys key) key

def getAt (children : List Node) (position : Nat) (key : Bytes) : Option (Option Bytes) :=
  match children, position with
  | [], _ => none
  | child :: _, 0 => getRec child key
  | _ :: rest, position + 1 => getAt rest position key

end

/-- Erase a key's entry from a leaf, and whether it was there. -/
def removeEntry (entries : List Pair) (key : Bytes) : List Pair × Bool :=
  let position := partitionPoint (fun entry => decide (entry.1 < key)) entries
  match entries[position]? with
  | some entry => if entry.1 = key then (entries.eraseIdx position, true) else (entries, false)
  | none => (entries, false)

mutual

def deleteRec (node : Node) (key : Bytes) : Option (Node × Bool) :=
  match node with
  | .leaf entries =>
      let (entries, removed) := removeEntry entries key
      some (.leaf entries, removed)
  | .internal keys children => do
      let (children, removed) ← deleteAt children (route keys key) key
      return (.internal keys children, removed)

def deleteAt (children : List Node) (position : Nat) (key : Bytes) : Option (List Node × Bool) :=
  match children, position with
  | [], _ => none
  | child :: rest, 0 => do
      let (child, removed) ← deleteRec child key
      return (child :: rest, removed)
  | child :: rest, position + 1 => do
      let (rest, removed) ← deleteAt rest position key
      return (child :: rest, removed)

end

/-! ### Scan and range -/

mutual

def collect (pred : Pair → Bool) (node : Node) : List Pair :=
  match node with
  | .leaf entries => entries.filter pred
  | .internal _ children => collectAll pred children

def collectAll (pred : Pair → Bool) (children : List Node) : List Pair :=
  match children with
  | [] => []
  | child :: rest => collect pred child ++ collectAll pred rest

end

mutual

def collectRange (lo hi : Bytes) (node : Node) : Option (List Pair) :=
  match node with
  | .leaf entries => do
      let (_, tail) ← splitOff entries (partitionPoint (fun entry => decide (entry.1 < lo)) entries)
      return tail.takeWhile (fun entry => decide (entry.1 < hi))
  | .internal keys children => collectFrom lo hi keys (route keys lo) 0 children

/-- The loop over the children, at position `i`: those before `first` are skipped,
and the first one that starts at or past `hi` ends it. -/
def collectFrom (lo hi : Bytes) (keys : List Bytes) (first i : Nat) (children : List Node) :
    Option (List Pair) :=
  match children with
  | [] => some []
  | child :: rest =>
      if i < first then collectFrom lo hi keys first (i + 1) rest
      else do
        let past ← if i = 0 then some false else keys[i - 1]?.map (fun key => decide (hi ≤ key))
        if past then return []
        let here ← collectRange lo hi child
        let more ← collectFrom lo hi keys first (i + 1) rest
        return here ++ more

end

/-! ### The tree -/

structure BTree where
  root : Node
  len : Nat

namespace BTree

def new : BTree := { root := .leaf [], len := 0 }

def insert (tree : BTree) (key value : Bytes) : Option BTree := do
  let (root, inserted, split) ← insertRec tree.root key value
  let len := if inserted then tree.len + 1 else tree.len
  match split with
  | none => return { root := root, len := len }
  | some split =>
      return { root := .internal [split.median] [root, split.right], len := len }

def get (tree : BTree) (key : Bytes) : Option (Option Bytes) := getRec tree.root key

def scan (tree : BTree) (pred : Pair → Bool) : List Pair := collect pred tree.root

/-- `none` also when the count of keys would go below zero. -/
def delete (tree : BTree) (key : Bytes) : Option (BTree × Bool) := do
  let (root, removed) ← deleteRec tree.root key
  if removed then
    if tree.len = 0 then none
    else return ({ root := root, len := tree.len - 1 }, true)
  else return ({ root := root, len := tree.len }, false)

def range (tree : BTree) (lo hi : Bytes) : Option (List Pair) :=
  if lo < hi then collectRange lo hi tree.root else some []

end BTree

inductive Update where
  | insert (key value : Bytes)
  | delete (key : Bytes)
deriving DecidableEq, Repr

def BTree.run (tree : BTree) : List Update → Option (BTree × List Bool)
  | [] => some (tree, [])
  | .insert key value :: rest => do
      let tree ← tree.insert key value
      tree.run rest
  | .delete key :: rest => do
      let (tree, removed) ← tree.delete key
      let (tree, replies) ← tree.run rest
      return (tree, removed :: replies)

end Keystory.BTreeStore
