/-
Trees loaded from a document that nobody vouches for.

The parser checks the shape of a tree and not the order of its keys. The shape is
enough for every later call to stay in range. It is not enough for the reads to agree:
they do when the document holds a search tree, and `open` accepts others.
-/

import Mathlib.Data.List.Dedup
import Keystory.BTree.Persist

namespace Keystory.BTreeStore

open General

theorem Loadable.shaped {levels : Nat} {node : Node} (loadable : Loadable levels node) :
    Shaped node := by
  induction levels generalizing node with
  | zero => exact absurd loadable id
  | succ levels ih =>
      cases node with
      | leaf entries => exact .leaf entries
      | internal keys children =>
          obtain ⟨separated, lengths, below⟩ := loadable
          exact .internal separated lengths (fun child member => ih (below child member).1)

theorem openDocument_sound {doc : Bytes} {tree : BTree} (opened : openDocument doc = .ok tree) :
    Sound tree := by
  obtain ⟨loadable, _, counted⟩ := openDocument_eq_ok_iff.mp opened
  exact ⟨loadable.shaped, counted⟩

/-! ### Any calls on a loaded tree -/

inductive Request where
  | insert (key value : Bytes)
  | delete (key : Bytes)
  | get (key : Bytes)
  | range (lo hi : Bytes)
  | scan (pred : Pair → Bool)

inductive Answer where
  | inserted
  | deleted (removed : Bool)
  | found (value : Option Bytes)
  | listed (entries : List Pair)

def BTree.handle (tree : BTree) : Request → Option (BTree × Answer)
  | .insert key value => do
      let tree ← tree.insert key value
      return (tree, .inserted)
  | .delete key => do
      let (tree, removed) ← tree.delete key
      return (tree, .deleted removed)
  | .get key => do
      let value ← tree.get key
      return (tree, .found value)
  | .range lo hi => do
      let entries ← tree.range lo hi
      return (tree, .listed entries)
  | .scan pred => return (tree, .listed (tree.scan pred))

def BTree.handleAll (tree : BTree) : List Request → Option (BTree × List Answer)
  | [] => some (tree, [])
  | request :: rest => do
      let (tree, answer) ← tree.handle request
      let (tree, answers) ← tree.handleAll rest
      return (tree, answer :: answers)

theorem Sound.handle {tree : BTree} (sound : Sound tree) (request : Request) :
    ∃ after answer, tree.handle request = some (after, answer) ∧ Sound after := by
  cases request with
  | insert key value =>
      obtain ⟨after, result, kept⟩ := sound.insert key value
      exact ⟨after, .inserted, by rw [BTree.handle, result]; rfl, kept⟩
  | delete key =>
      obtain ⟨after, removed, result, kept⟩ := sound.delete key
      exact ⟨after, .deleted removed, by rw [BTree.handle, result]; rfl, kept⟩
  | get key =>
      obtain ⟨value, result⟩ := getRec_isSome sound.shaped key
      exact ⟨tree, .found value, by rw [BTree.handle, BTree.get, result]; rfl, sound⟩
  | range lo hi =>
      obtain ⟨found, result⟩ := collectRange_isSome sound.shaped lo hi
      rw [BTree.handle, BTree.range]
      split_ifs
      · exact ⟨tree, .listed found, by rw [result]; rfl, sound⟩
      · exact ⟨tree, .listed [], rfl, sound⟩
  | scan pred => exact ⟨tree, .listed (tree.scan pred), rfl, sound⟩

theorem Sound.handleAll {tree : BTree} (sound : Sound tree) (requests : List Request) :
    ∃ after answers, tree.handleAll requests = some (after, answers) ∧ Sound after := by
  induction requests generalizing tree with
  | nil => exact ⟨tree, [], rfl, sound⟩
  | cons request rest ih =>
      obtain ⟨next, answer, handled, nextSound⟩ := sound.handle request
      obtain ⟨after, answers, ran, kept⟩ := ih nextSound
      refine ⟨after, answer :: answers, ?_, kept⟩
      rw [BTree.handleAll, handled]
      change (next.handleAll rest >>= _) = _
      rw [ran]
      rfl

/-- After any accepted document and any calls no index, cut or removal was out of
range, internal nodes have one child more than separators and at least two, and the
count is that of the stored entries. -/
theorem loaded_never_panics {doc : Bytes} {tree : BTree} (opened : openDocument doc = .ok tree)
    (requests : List Request) :
    ∃ after answers, tree.handleAll requests = some (after, answers) ∧ Shaped after.root ∧
      after.len = count after.root := by
  obtain ⟨after, answers, ran, sound⟩ := (openDocument_sound opened).handleAll requests
  exact ⟨after, answers, ran, sound.shaped, sound.counted⟩

def oddLeaf : Node :=
  .leaf [([5], []), ([1], []), ([5], []), ([9], []), ([2], []), ([1], []), ([3], [])]

theorem loaded_never_panics_oddLeaf :
    ∃ doc after answers, treeDocument oddLeaf = .ok doc ∧
      ({ root := oddLeaf, len := 7 } : BTree).handleAll
        [.delete [5], .delete [5], .insert [4] [], .range [1] [6]] = some (after, answers) ∧
      Shaped after.root ∧ after.len = count after.root := by
  have written : ∃ doc, treeDocument oddLeaf = .ok doc := ⟨_, rfl⟩
  obtain ⟨doc, written⟩ := written
  have opened : openDocument doc = .ok { root := oddLeaf, len := 7 } :=
    openDocument_eq_ok_iff.mpr ⟨trivial, written, rfl⟩
  obtain ⟨after, answers, ran, shaped, counted⟩ := loaded_never_panics opened
    [.delete [5], .delete [5], .insert [4] [], .range [1] [6]]
  exact ⟨doc, after, answers, written, ran, shaped, counted⟩

/-! ### Reads of a loaded tree -/

/-- The reads agree: the scan ascends strictly, lookups and ranges give what the scan
lists, and the length is its number of distinct keys. -/
structure Coherent (tree : BTree) : Prop where
  ascending : Sorted (tree.scan (fun _ => true))
  get_iff : ∀ key value, tree.get key = some (some value) ↔
    (key, value) ∈ tree.scan (fun _ => true)
  range_eq : ∀ lo hi, tree.range lo hi = some ((tree.scan (fun _ => true)).filter
    (fun entry => decide (lo ≤ entry.1) && decide (entry.1 < hi)))
  len_eq : tree.len = ((tree.scan (fun _ => true)).map Prod.fst).dedup.length

/-- Leaf keys increase strictly, and the separators are in order and bound the keys of
the children beside them. -/
def SearchTree (root : Node) : Prop := Valid (· ≤ ·) none none root

theorem SearchTree.coherent {tree : BTree} (search : SearchTree tree.root)
    (counted : tree.len = count tree.root) : Coherent tree := by
  have sorted : Sorted (contents tree.root) := (Valid.sorted tree.root search).1
  have listed : tree.scan (fun _ => true) = contents tree.root := by
    rw [BTree.scan, collect_eq, List.filter_true]
  refine ⟨?_, fun key value => ?_, fun lo hi => ?_, ?_⟩
  · rw [listed]
    exact sorted
  · have found := find?_entries ⟨contents tree.root, sorted⟩ key
    rw [listed, BTree.get, getRec_spec tree.root search, found, Option.some.injEq,
      SortedMap.find?_eq_some_iff]
  · rw [listed, range_eq_between search]
    rfl
  · have distinct : ((contents tree.root).map Prod.fst).Nodup :=
      List.Pairwise.map Prod.fst (fun _ _ below => ne_of_lt below) sorted
    rw [listed, distinct.dedup, List.length_map, counted, count_eq_length]

/-- An accepted document gives a search tree whose reads agree exactly if it is not
the document of a tree with its keys or separators out of order. -/
theorem accepted_usable_iff (doc : Bytes) :
    (∀ tree, openDocument doc = .ok tree → SearchTree tree.root ∧ Coherent tree) ↔
      ¬ ∃ root, Loadable (maxDepth + 1) root ∧ treeDocument root = .ok doc ∧
        ¬ SearchTree root := by
  constructor
  · rintro usable ⟨root, loadable, written, unordered⟩
    have opened : openDocument doc = .ok { root := root, len := count root } :=
      openDocument_eq_ok_iff.mpr ⟨loadable, written, rfl⟩
    exact unordered (usable _ opened).1
  · intro ordered tree opened
    obtain ⟨loadable, written, counted⟩ := openDocument_eq_ok_iff.mp opened
    have search : SearchTree tree.root := by
      by_contra unordered
      exact ordered ⟨tree.root, loadable, written, unordered⟩
    exact ⟨search, search.coherent counted⟩

/-- A checksummed leaf with one key twice is accepted, and its reads disagree. -/
theorem accepted_duplicate_key :
    ¬ ∀ doc tree, openDocument doc = .ok tree → Coherent tree := by
  intro usable
  have written : ∃ doc, treeDocument (.leaf [([1], [1]), ([1], [2])]) = .ok doc := ⟨_, rfl⟩
  obtain ⟨doc, written⟩ := written
  have coherent := usable doc { root := .leaf [([1], [1]), ([1], [2])], len := 2 }
    (openDocument_eq_ok_iff.mpr ⟨trivial, written, rfl⟩)
  exact absurd coherent.ascending (by decide)

end Keystory.BTreeStore
