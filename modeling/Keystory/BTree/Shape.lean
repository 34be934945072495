/-
What the operations do to the shape of a tree, whatever the order of its keys and
however full its nodes are.

Separators and children are one apart, and an internal node has a separator: from
this alone every index, cut and removal is in range. `Inserted` and `Deleted` say
what one call can do to a subtree; later invariants are read off them.
-/

import Keystory.BTree.Tree

namespace Keystory.BTreeStore

open General

inductive Shaped : Node → Prop
  | leaf (entries : List Pair) : Shaped (.leaf entries)
  | internal {keys : List Bytes} {children : List Node} (separated : keys ≠ [])
      (lengths : children.length = keys.length + 1)
      (below : ∀ child ∈ children, Shaped child) : Shaped (.internal keys children)

mutual

def total (weight : List Pair → Nat) (node : Node) : Nat :=
  match node with
  | .leaf entries => weight entries
  | .internal _ children => totalAll weight children

def totalAll (weight : List Pair → Nat) (children : List Node) : Nat :=
  match children with
  | [] => 0
  | child :: rest => total weight child + totalAll weight rest

end

def count (node : Node) : Nat := total List.length node

theorem totalAll_append (weight : List Pair → Nat) (first second : List Node) :
    totalAll weight (first ++ second) = totalAll weight first + totalAll weight second := by
  induction first with
  | nil => rw [List.nil_append, totalAll, Nat.zero_add]
  | cons child rest ih => rw [List.cons_append, totalAll, totalAll, ih, Nat.add_assoc]

/-! ### Positions -/

theorem insertItem_of_le {Item : Type} {items : List Item} {position : Nat} (item : Item)
    (inside : position ≤ items.length) :
    insertItem items position item = some (items.insertIdx position item) :=
  if_pos inside

theorem insertItem_length {Item : Type} (first second : List Item) (item : Item) :
    insertItem (first ++ second) first.length item = some (first ++ item :: second) := by
  rw [insertItem_of_le item (by rw [List.length_append]; exact Nat.le_add_right _ _)]
  congr 1
  induction first with
  | nil => rfl
  | cons head tail ih =>
      rw [List.cons_append, List.length_cons, List.insertIdx_succ_cons, ih]
      rfl

theorem splitOff_of_le {Item : Type} {items : List Item} {position : Nat}
    (inside : position ≤ items.length) :
    splitOff items position = some (items.take position, items.drop position) :=
  if_pos inside

theorem exists_routed {keys : List Bytes} {children : List Node}
    (lengths : children.length = keys.length + 1) (key : Bytes) :
    ∃ before child after, children = before ++ child :: after ∧
      before.length = route keys key := by
  have inside : route keys key < children.length := by
    have bound : route keys key ≤ keys.length := partitionPoint_le_length _ keys
    omega
  refine ⟨children.take (route keys key), children[route keys key],
    children.drop (route keys key + 1), ?_, List.length_take_of_le (Nat.le_of_lt inside)⟩
  rw [← List.drop_eq_getElem_cons inside, List.take_append_drop]

/-! ### Splits -/

theorem insertEntries_length (entries : List Pair) (key value : Bytes) :
    ∃ after inserted, insertEntries entries key value = some (after, inserted) ∧
      after.length = entries.length + inserted.toNat := by
  have inside := partitionPoint_le_length (fun entry : Pair => decide (entry.1 < key)) entries
  have put : ∃ after, insertItem entries
      (partitionPoint (fun entry => decide (entry.1 < key)) entries) (key, value) = some after ∧
        after.length = entries.length + 1 :=
    ⟨_, insertItem_of_le (key, value) inside, List.length_insertIdx_of_le_length inside _⟩
  obtain ⟨after, placed, length⟩ := put
  unfold insertEntries
  dsimp only
  rw [placed]
  split
  · split_ifs
    · exact ⟨_, false, rfl, List.length_set⟩
    · exact ⟨after, true, rfl, length⟩
  · exact ⟨after, true, rfl, length⟩

theorem splitLeaf_of_full {entries : List Pair} (full : order - 1 < entries.length) :
    ∃ median, entries[entries.length / 2]? = some median ∧
      splitLeaf entries = some (.leaf (entries.take (entries.length / 2)),
        some ⟨median.1, .leaf (entries.drop (entries.length / 2))⟩) := by
  have inside : entries.length / 2 < entries.length := by
    unfold order at full
    omega
  refine ⟨entries[entries.length / 2], List.getElem?_eq_getElem inside, ?_⟩
  rw [splitLeaf, if_pos full]
  dsimp only
  rw [List.getElem?_eq_getElem inside, splitOff_of_le (Nat.le_of_lt inside)]
  rfl

theorem splitInternal_of_full {keys : List Bytes} {children : List Node}
    (lengths : children.length = keys.length + 1) (full : order < children.length) :
    ∃ separator, keys[keys.length / 2]? = some separator ∧
      splitInternal keys children =
        some (.internal (keys.take (keys.length / 2)) (children.take (keys.length / 2 + 1)),
          some ⟨separator, .internal (keys.drop (keys.length / 2 + 1))
            (children.drop (keys.length / 2 + 1))⟩) := by
  have inside : keys.length / 2 < keys.length := by
    unfold order at full
    omega
  have found : keys[keys.length / 2]? = some keys[keys.length / 2] :=
    List.getElem?_eq_getElem inside
  have kept : (keys.take (keys.length / 2 + 1))[keys.length / 2]? =
      some keys[keys.length / 2] := by
    rw [List.getElem?_take_of_lt (Nat.lt_succ_self _)]
    exact found
  have erased : (keys.take (keys.length / 2 + 1)).eraseIdx (keys.length / 2) =
      keys.take (keys.length / 2) := by
    rw [List.eraseIdx_eq_take_drop_succ, List.take_take, Nat.min_eq_left (Nat.le_succ _),
      List.drop_of_length_le (List.length_take_le _ _), List.append_nil]
  refine ⟨_, found, ?_⟩
  rw [splitInternal, if_pos full]
  dsimp only
  rw [splitOff_of_le (by omega : keys.length / 2 + 1 ≤ children.length),
    splitOff_of_le (Nat.succ_le_of_lt inside)]
  simp only [Option.bind_eq_bind, Option.bind_some, kept, erased]
  rfl

/-! ### What one insert can do -/

/-- A subtree before and after an insert, whether the key was new, and the split. -/
inductive Inserted : Node → Bool → Node → Option Split → Prop
  | leaf {entries after : List Pair} {inserted : Bool}
      (length : after.length = entries.length + inserted.toNat)
      (fits : after.length ≤ order - 1) :
      Inserted (.leaf entries) inserted (.leaf after) none
  | leafSplit {entries left right : List Pair} {inserted : Bool} {median : Bytes}
      (length : left.length + right.length = entries.length + inserted.toNat)
      (full : order - 1 < left.length + right.length)
      (middle : left.length = (left.length + right.length) / 2) :
      Inserted (.leaf entries) inserted (.leaf left) (some ⟨median, .leaf right⟩)
  | child {keys : List Bytes} {before after : List Node} {child changed : Node} {inserted : Bool}
      (step : Inserted child inserted changed none) :
      Inserted (.internal keys (before ++ child :: after)) inserted
        (.internal keys (before ++ changed :: after)) none
  | grow {keys grown : List Bytes} {before after : List Node} {child changed : Node}
      {inserted : Bool} {split : Split} (step : Inserted child inserted changed (some split))
      (length : grown.length = keys.length + 1)
      (fits : (before ++ changed :: split.right :: after).length ≤ order) :
      Inserted (.internal keys (before ++ child :: after)) inserted
        (.internal grown (before ++ changed :: split.right :: after)) none
  | growSplit {keys leftKeys rightKeys : List Bytes} {before after left right : List Node}
      {child changed : Node} {inserted : Bool} {split : Split} {separator : Bytes}
      (step : Inserted child inserted changed (some split))
      (joined : left ++ right = before ++ changed :: split.right :: after)
      (full : order < left.length + right.length)
      (length : leftKeys.length + rightKeys.length = keys.length)
      (middle : leftKeys.length = (keys.length + 1) / 2)
      (leftLength : left.length = leftKeys.length + 1) :
      Inserted (.internal keys (before ++ child :: after)) inserted (.internal leftKeys left)
        (some ⟨separator, .internal rightKeys right⟩)

theorem insertAt_append (before after : List Node) (child : Node) (key value : Bytes) :
    insertAt (before ++ child :: after) before.length key value =
      (insertRec child key value).map
        (fun result => (before ++ result.1 :: after, result.2.1, result.2.2)) := by
  induction before with
  | nil =>
      rw [List.nil_append, List.length_nil, insertAt]
      cases insertRec child key value <;> rfl
  | cons head tail ih =>
      rw [List.cons_append, List.length_cons, insertAt, ih]
      cases insertRec child key value <;> rfl

theorem splitLeaf_inserted {entries after : List Pair} {inserted : Bool}
    (length : after.length = entries.length + inserted.toNat) :
    ∃ node split, splitLeaf after = some (node, split) ∧
      Inserted (.leaf entries) inserted node split := by
  by_cases full : order - 1 < after.length
  · obtain ⟨median, _, halved⟩ := splitLeaf_of_full full
    have whole : (after.take (after.length / 2)).length +
        (after.drop (after.length / 2)).length = after.length := by
      rw [← List.length_append, List.take_append_drop]
    refine ⟨_, _, halved, .leafSplit (whole.trans length) (by rw [whole]; exact full) ?_⟩
    rw [whole, List.length_take_of_le (Nat.div_le_self _ _)]
  · rw [splitLeaf, if_neg full]
    exact ⟨_, none, rfl, .leaf length (Nat.le_of_not_lt full)⟩

theorem splitInternal_inserted {keys grown : List Bytes} {before after : List Node}
    {child changed : Node} {inserted : Bool} {split : Split}
    (step : Inserted child inserted changed (some split))
    (length : grown.length = keys.length + 1)
    (lengths : (before ++ changed :: split.right :: after).length = grown.length + 1) :
    ∃ node lifted, splitInternal grown (before ++ changed :: split.right :: after) =
        some (node, lifted) ∧
      Inserted (.internal keys (before ++ child :: after)) inserted node lifted := by
  by_cases full : order < (before ++ changed :: split.right :: after).length
  · obtain ⟨separator, _, halved⟩ := splitInternal_of_full lengths full
    generalize joined : before ++ changed :: split.right :: after = children
      at lengths full halved ⊢
    unfold order at full
    have half : grown.length / 2 + 1 ≤ grown.length := by omega
    have rejoined := (List.take_append_drop (grown.length / 2 + 1) children).trans joined.symm
    refine ⟨_, _, halved, .growSplit step rejoined ?_ ?_ ?_ ?_⟩
    · rw [← List.length_append, List.take_append_drop]
      exact full
    · rw [List.length_take, List.length_drop]
      omega
    · rw [List.length_take, ← length]
      omega
    · rw [List.length_take, List.length_take]
      omega
  · rw [splitInternal, if_neg full]
    exact ⟨_, none, rfl, .grow step length (Nat.le_of_not_lt full)⟩

theorem insertRec_inserted {node : Node} (shaped : Shaped node) (key value : Bytes) :
    ∃ after inserted split, insertRec node key value = some (after, inserted, split) ∧
      Inserted node inserted after split := by
  induction shaped with
  | leaf entries =>
      obtain ⟨after, inserted, placed, length⟩ := insertEntries_length entries key value
      obtain ⟨node, split, halved, step⟩ := splitLeaf_inserted length
      refine ⟨node, inserted, split, ?_, step⟩
      simp only [insertRec, placed, halved, Option.bind_eq_bind, Option.bind_some]
      rfl
  | @internal keys children separated lengths below ih =>
      obtain ⟨before, child, after, rfl, position⟩ := exists_routed lengths key
      obtain ⟨changed, inserted, split, result, step⟩ := ih child (by simp)
      have descent := insertAt_append before after child key value
      rw [result, position] at descent
      cases split with
      | none =>
          refine ⟨_, inserted, none, ?_, .child step⟩
          simp only [insertRec, descent, Option.map_some, Option.bind_eq_bind, Option.bind_some]
          rfl
      | some split =>
          have inside : route keys key ≤ keys.length := partitionPoint_le_length _ keys
          have putKey := insertItem_of_le split.median inside
          have putChild := insertItem_length (before ++ [changed]) after split.right
          rw [List.length_append, List.length_singleton, position, List.append_assoc,
            List.append_assoc, List.singleton_append, List.singleton_append] at putChild
          have grown := List.length_insertIdx_of_le_length inside split.median
          have more : (before ++ changed :: split.right :: after).length =
              (keys.insertIdx (route keys key) split.median).length + 1 := by
            rw [grown, ← lengths]
            simp only [List.length_append, List.length_cons]
            omega
          obtain ⟨node, lifted, halved, outcome⟩ := splitInternal_inserted step grown more
          refine ⟨node, inserted, lifted, ?_, outcome⟩
          simp only [insertRec, descent, putKey, putChild, halved, Option.map_some,
            Option.bind_eq_bind, Option.bind_some]
          rfl

theorem shaped_internal_iff {keys : List Bytes} {children : List Node} :
    Shaped (.internal keys children) ↔
      keys ≠ [] ∧ children.length = keys.length + 1 ∧ ∀ child ∈ children, Shaped child := by
  constructor
  · intro shaped
    cases shaped with
    | internal separated lengths below => exact ⟨separated, lengths, below⟩
  · rintro ⟨separated, lengths, below⟩
    exact .internal separated lengths below

theorem Inserted.shaped {node after : Node} {inserted : Bool} {split : Option Split}
    (step : Inserted node inserted after split) (shaped : Shaped node) :
    Shaped after ∧ ∀ half ∈ split, Shaped half.right := by
  induction step with
  | leaf => exact ⟨.leaf _, fun _ impossible => absurd impossible (by simp)⟩
  | leafSplit => exact ⟨.leaf _, fun half isSplit => by cases isSplit; exact .leaf _⟩
  | child step ih =>
      rw [shaped_internal_iff, List.forall_mem_append, List.forall_mem_cons] at shaped
      obtain ⟨separated, lengths, left, below, right⟩ := shaped
      refine ⟨?_, fun _ impossible => absurd impossible (by simp)⟩
      rw [shaped_internal_iff, List.forall_mem_append, List.forall_mem_cons]
      refine ⟨separated, ?_, left, (ih below).1, right⟩
      simpa only [List.length_append, List.length_cons] using lengths
  | grow step length fits ih =>
      rw [shaped_internal_iff, List.forall_mem_append, List.forall_mem_cons] at shaped
      obtain ⟨separated, lengths, left, below, right⟩ := shaped
      obtain ⟨changed, half⟩ := ih below
      refine ⟨?_, fun _ impossible => absurd impossible (by simp)⟩
      rw [shaped_internal_iff, List.forall_mem_append, List.forall_mem_cons, List.forall_mem_cons]
      refine ⟨List.ne_nil_of_length_eq_add_one length, ?_, left, changed, half _ rfl, right⟩
      simp only [List.length_append, List.length_cons] at lengths ⊢
      omega
  | @growSplit keys leftKeys rightKeys before after left right child changed inserted split
      separator step joined full length middle leftLength ih =>
      rw [shaped_internal_iff, List.forall_mem_append, List.forall_mem_cons] at shaped
      obtain ⟨separated, lengths, first, below, last⟩ := shaped
      obtain ⟨changed, half⟩ := ih below
      have all : ∀ other ∈ left ++ right, Shaped other := by
        rw [joined, List.forall_mem_append, List.forall_mem_cons, List.forall_mem_cons]
        exact ⟨first, changed, half _ rfl, last⟩
      have whole := congrArg List.length joined
      simp only [List.length_append, List.length_cons] at lengths whole
      unfold order at full
      rw [List.forall_mem_append] at all
      refine ⟨.internal ?_ leftLength all.1, fun half isSplit => ?_⟩
      · exact List.ne_nil_of_length_pos (by omega)
      · cases isSplit
        exact .internal (List.ne_nil_of_length_pos (by omega)) (by omega) all.2

theorem Inserted.count_eq {node after : Node} {inserted : Bool} {split : Option Split}
    (step : Inserted node inserted after split) :
    count after + split.elim 0 (fun half => count half.right) = count node + inserted.toNat := by
  simp only [count]
  induction step with
  | leaf length =>
      rw [total, total]
      exact length
  | leafSplit length =>
      rw [Option.elim_some, total, total, total]
      exact length
  | child step ih =>
      simp only [total, totalAll_append, totalAll, Option.elim_none] at ih ⊢
      omega
  | grow step length fits ih =>
      simp only [total, totalAll_append, totalAll, Option.elim_none, Option.elim_some] at ih ⊢
      omega
  | growSplit step joined full length middle leftLength ih =>
      have whole := congrArg (totalAll List.length) joined
      simp only [total, totalAll_append, totalAll, Option.elim_some] at ih whole ⊢
      omega

/-! ### What one delete can do -/

inductive Deleted : Node → Bool → Node → Prop
  | leaf {entries after : List Pair} {removed : Bool}
      (length : entries.length = after.length + removed.toNat) :
      Deleted (.leaf entries) removed (.leaf after)
  | child {keys : List Bytes} {before after : List Node} {child changed : Node} {removed : Bool}
      (step : Deleted child removed changed) :
      Deleted (.internal keys (before ++ child :: after)) removed
        (.internal keys (before ++ changed :: after))

theorem removeEntry_length (entries : List Pair) (key : Bytes) :
    entries.length = (removeEntry entries key).1.length + (removeEntry entries key).2.toNat := by
  unfold removeEntry
  dsimp only
  split
  case h_1 entry found =>
      obtain ⟨inside, _⟩ := List.getElem?_eq_some_iff.mp found
      split_ifs
      · have shorter := List.length_eraseIdx_of_lt inside
        simp only [shorter, Bool.toNat_true]
        omega
      · rfl
  case h_2 => rfl

theorem deleteAt_append (before after : List Node) (child : Node) (key : Bytes) :
    deleteAt (before ++ child :: after) before.length key =
      (deleteRec child key).map (fun result => (before ++ result.1 :: after, result.2)) := by
  induction before with
  | nil =>
      rw [List.nil_append, List.length_nil, deleteAt]
      cases deleteRec child key <;> rfl
  | cons head tail ih =>
      rw [List.cons_append, List.length_cons, deleteAt, ih]
      cases deleteRec child key <;> rfl

theorem deleteRec_deleted {node : Node} (shaped : Shaped node) (key : Bytes) :
    ∃ after removed, deleteRec node key = some (after, removed) ∧ Deleted node removed after := by
  induction shaped with
  | leaf entries => exact ⟨_, _, by rw [deleteRec], .leaf (removeEntry_length entries key)⟩
  | @internal keys children separated lengths below ih =>
      obtain ⟨before, child, after, rfl, position⟩ := exists_routed lengths key
      obtain ⟨changed, removed, result, step⟩ := ih child (by simp)
      have descent := deleteAt_append before after child key
      rw [result, position] at descent
      refine ⟨_, removed, ?_, .child step⟩
      rw [deleteRec, descent]
      rfl

theorem Deleted.shaped {node after : Node} {removed : Bool} (step : Deleted node removed after)
    (shaped : Shaped node) : Shaped after := by
  induction step with
  | leaf => exact .leaf _
  | child step ih =>
      rw [shaped_internal_iff, List.forall_mem_append, List.forall_mem_cons] at shaped ⊢
      obtain ⟨separated, lengths, left, below, right⟩ := shaped
      refine ⟨separated, ?_, left, ih below, right⟩
      simpa only [List.length_append, List.length_cons] using lengths

theorem Deleted.count_eq {node after : Node} {removed : Bool}
    (step : Deleted node removed after) : count node = count after + removed.toNat := by
  simp only [count]
  induction step with
  | leaf length =>
      rw [total, total]
      exact length
  | child step ih =>
      simp only [total, totalAll_append, totalAll] at ih ⊢
      omega

/-! ### Reads -/

theorem getAt_append (before after : List Node) (child : Node) (key : Bytes) :
    getAt (before ++ child :: after) before.length key = getRec child key := by
  induction before with
  | nil => rw [List.nil_append, List.length_nil, getAt]
  | cons head tail ih => rw [List.cons_append, List.length_cons, getAt, ih]

theorem getRec_isSome {node : Node} (shaped : Shaped node) (key : Bytes) :
    ∃ answer, getRec node key = some answer := by
  induction shaped with
  | leaf entries => exact ⟨_, by rw [getRec]⟩
  | @internal keys children separated lengths below ih =>
      obtain ⟨before, child, after, rfl, position⟩ := exists_routed lengths key
      rw [getRec, ← position, getAt_append]
      exact ih child (by simp)

theorem collectFrom_isSome {lo hi : Bytes} {keys : List Bytes} {first : Nat} (children : List Node)
    (i : Nat) (inside : i + children.length ≤ keys.length + 1)
    (below : ∀ child ∈ children, ∃ found, collectRange lo hi child = some found) :
    ∃ found, collectFrom lo hi keys first i children = some found := by
  induction children generalizing i with
  | nil => exact ⟨[], by rw [collectFrom]⟩
  | cons child rest ih =>
      rw [List.length_cons] at inside
      rw [List.forall_mem_cons] at below
      obtain ⟨more, walked⟩ := ih (i + 1) (by omega) below.2
      obtain ⟨here, collected⟩ := below.1
      by_cases skipped : i < first
      · rw [collectFrom, if_pos skipped]
        exact ⟨more, walked⟩
      · rw [collectFrom, if_neg skipped]
        by_cases start : i = 0
        · rw [if_pos start, collected, walked]
          exact ⟨_, rfl⟩
        · rw [if_neg start, List.getElem?_eq_getElem (by omega : i - 1 < keys.length), collected,
            walked]
          simp only [Option.map_some, Option.bind_eq_bind, Option.bind_some]
          split_ifs
          · exact ⟨_, rfl⟩
          · exact ⟨_, rfl⟩

theorem collectRange_isSome {node : Node} (shaped : Shaped node) (lo hi : Bytes) :
    ∃ found, collectRange lo hi node = some found := by
  induction shaped with
  | leaf entries =>
      rw [collectRange, splitOff_of_le (partitionPoint_le_length _ entries)]
      exact ⟨_, rfl⟩
  | internal separated lengths below ih =>
      rw [collectRange]
      exact collectFrom_isSome _ 0 (by omega) ih

/-! ### The tree -/

def lift (root : Node) : Option Split → Node
  | none => root
  | some split => .internal [split.median] [root, split.right]

theorem BTree.insert_inserted {tree : BTree} (shaped : Shaped tree.root) (key value : Bytes) :
    ∃ root inserted split, Inserted tree.root inserted root split ∧
      tree.insert key value =
        some { root := lift root split, len := tree.len + inserted.toNat } := by
  obtain ⟨root, inserted, split, result, step⟩ := insertRec_inserted shaped key value
  refine ⟨root, inserted, split, step, ?_⟩
  have added : (if inserted then tree.len + 1 else tree.len) = tree.len + inserted.toNat := by
    cases inserted <;> rfl
  simp only [BTree.insert, result, added, Option.bind_eq_bind, Option.bind_some]
  cases split <;> rfl

theorem total_lift (weight : List Pair → Nat) (root : Node) (split : Option Split) :
    total weight (lift root split) =
      total weight root + split.elim 0 (fun half => total weight half.right) := by
  cases split with
  | none => rfl
  | some half => simp only [lift, total, totalAll, Option.elim_some, Nat.add_zero]

theorem BTree.delete_deleted {tree : BTree} (shaped : Shaped tree.root)
    (counted : tree.len = count tree.root) (key : Bytes) :
    ∃ root removed, Deleted tree.root removed root ∧
      tree.delete key = some ({ root := root, len := count root }, removed) := by
  obtain ⟨root, removed, result, step⟩ := deleteRec_deleted shaped key
  have fewer := step.count_eq
  refine ⟨root, removed, step, ?_⟩
  simp only [BTree.delete, result, Option.bind_eq_bind, Option.bind_some]
  cases removed with
  | true =>
      rw [Bool.toNat_true] at fewer
      have left : tree.len - 1 = count root := by omega
      rw [if_pos rfl, if_neg (by omega : ¬ tree.len = 0), left]
      rfl
  | false =>
      rw [if_neg Bool.false_ne_true, counted, fewer]
      rfl

/-- A tree whose operations stay in range, and which counts its entries. -/
structure Sound (tree : BTree) : Prop where
  shaped : Shaped tree.root
  counted : tree.len = count tree.root

theorem Sound.insert {tree : BTree} (sound : Sound tree) (key value : Bytes) :
    ∃ after, tree.insert key value = some after ∧ Sound after := by
  obtain ⟨root, inserted, split, step, result⟩ := BTree.insert_inserted sound.shaped key value
  obtain ⟨rootShaped, halfShaped⟩ := step.shaped sound.shaped
  refine ⟨_, result, ?_, ?_⟩
  · cases split with
    | none => exact rootShaped
    | some half =>
        refine .internal (by simp) rfl ?_
        rw [List.forall_mem_cons, List.forall_mem_singleton]
        exact ⟨rootShaped, halfShaped half rfl⟩
  · have more := step.count_eq
    simp only [count, sound.counted, total_lift] at more ⊢
    exact more.symm

theorem Sound.delete {tree : BTree} (sound : Sound tree) (key : Bytes) :
    ∃ after removed, tree.delete key = some (after, removed) ∧ Sound after := by
  obtain ⟨root, removed, step, result⟩ := BTree.delete_deleted sound.shaped sound.counted key
  exact ⟨_, removed, result, step.shaped sound.shaped, rfl⟩

end Keystory.BTreeStore
