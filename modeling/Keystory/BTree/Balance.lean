/-
The tree stays balanced and shallow, though deletes never rebalance it.

Deletes can empty every leaf, so the height is not bounded by the keys stored. It is
bounded by the leaves, which only a leaf split adds, and a leaf splits only in an
insert of a new key.
-/

import Keystory.BTree.Runs

namespace Keystory.BTreeStore

open General

def minChildren : Nat := 3

/-- The deepest page nesting a document may have. -/
def maxDepth : Nat := 64

/-- All leaves of the subtree are `height` below its root and not overfull. Internal
nodes below the root have at least `minChildren` children, the root `least`. -/
inductive Filled : Nat → Nat → Node → Prop
  | leaf {least : Nat} {entries : List Pair} (fits : entries.length ≤ order - 1) :
      Filled least 0 (.leaf entries)
  | internal {least height : Nat} {keys : List Bytes} {children : List Node}
      (lengths : children.length = keys.length + 1) (enough : least ≤ children.length)
      (fits : children.length ≤ order)
      (below : ∀ child ∈ children, Filled minChildren height child) :
      Filled least (height + 1) (.internal keys children)

/-- Keys increase strictly in every leaf, separators in every internal node. -/
inductive Ordered : Node → Prop
  | leaf {entries : List Pair} (sorted : Sorted entries) : Ordered (.leaf entries)
  | internal {keys : List Bytes} {children : List Node} (increasing : keys.Pairwise (· < ·))
      (below : ∀ child ∈ children, Ordered child) : Ordered (.internal keys children)

mutual

theorem Valid.ordered {lower upper : Option Bytes} (node : Node)
    (valid : Valid (· < ·) lower upper node) : Ordered node := by
  match node with
  | .leaf entries =>
      rw [Valid] at valid
      exact .leaf valid.1
  | .internal keys children =>
      rw [Valid] at valid
      exact .internal valid.increasing.1 (ValidAll.ordered keys children valid)

theorem ValidAll.ordered {lower upper : Option Bytes} (keys : List Bytes) (children : List Node)
    (valid : ValidAll (· < ·) lower upper keys children) : ∀ child ∈ children, Ordered child := by
  match children, keys with
  | [], _ => exact fun _ impossible => absurd impossible List.not_mem_nil
  | child :: rest, [] =>
      rw [ValidAll] at valid
      rw [valid.1, List.forall_mem_singleton]
      exact Valid.ordered child valid.2
  | child :: rest, separator :: keys =>
      rw [ValidAll] at valid
      rw [List.forall_mem_cons]
      exact ⟨Valid.ordered child valid.2.1, ValidAll.ordered keys rest valid.2.2⟩

end

/-! ### Leaves and height -/

def leafCount (node : Node) : Nat := total (fun _ => 1) node

theorem totalAll_ge {weight : List Pair → Nat} {bound : Nat} (children : List Node)
    (each : ∀ child ∈ children, bound ≤ total weight child) :
    children.length * bound ≤ totalAll weight children := by
  induction children with
  | nil => rw [List.length_nil, Nat.zero_mul]; exact Nat.zero_le _
  | cons child rest ih =>
      rw [List.forall_mem_cons] at each
      rw [List.length_cons, totalAll, Nat.succ_mul]
      have more := ih each.2
      omega

theorem Filled.leafCount_ge {height : Nat} {node : Node} (filled : Filled minChildren height node) :
    3 ^ height ≤ leafCount node := by
  unfold leafCount
  generalize same : minChildren = least at filled
  induction filled with
  | leaf fits => rw [total, Nat.pow_zero]
  | @internal least height keys children lengths enough fits below ih =>
      rw [total, Nat.pow_succ, Nat.mul_comm]
      subst same
      exact le_trans (Nat.mul_le_mul_right _ enough)
        (totalAll_ge children (fun child member => ih child member rfl))

theorem Filled.root_leafCount_ge {height : Nat} {node : Node}
    (filled : Filled 2 (height + 1) node) : 2 * 3 ^ height ≤ leafCount node := by
  unfold leafCount
  cases filled with
  | @internal _ _ keys children lengths enough fits below =>
      rw [total]
      exact le_trans (Nat.mul_le_mul_right _ enough)
        (totalAll_ge children (fun child member => (below child member).leafCount_ge))

theorem Filled.shaped {least height : Nat} {node : Node} (filled : Filled least height node)
    (atLeast : 2 ≤ least) : Shaped node := by
  induction filled with
  | leaf => exact .leaf _
  | internal lengths enough fits below ih =>
      refine .internal (List.ne_nil_of_length_pos (by omega)) lengths ?_
      exact fun child member => ih child member (by decide)

theorem filled_internal_iff {least height : Nat} {keys : List Bytes} {children : List Node} :
    Filled least (height + 1) (.internal keys children) ↔
      (children.length = keys.length + 1 ∧ least ≤ children.length ∧ children.length ≤ order) ∧
        ∀ child ∈ children, Filled minChildren height child := by
  constructor
  · intro filled
    cases filled with
    | internal lengths enough fits below => exact ⟨⟨lengths, enough, fits⟩, below⟩
  · rintro ⟨⟨lengths, enough, fits⟩, below⟩
    exact .internal lengths enough fits below

/-! ### Inserts and deletes -/

def FilledHalves (least height : Nat) (node : Node) : Option Split → Prop
  | none => Filled least height node
  | some split => Filled minChildren height node ∧ Filled minChildren height split.right

theorem Inserted.filled {node after : Node} {inserted : Bool} {split : Option Split}
    (step : Inserted node inserted after split) {least height : Nat}
    (filled : Filled least height node) (atMost : least ≤ minChildren) :
    FilledHalves least height after split := by
  induction step generalizing least height with
  | leaf length fits =>
      cases filled with
      | leaf => exact .leaf fits
  | @leafSplit entries left right inserted median length full middle =>
      cases filled with
      | leaf fits =>
          have one := Bool.toNat_le inserted
          unfold order at full fits
          exact ⟨.leaf (by unfold order; omega), .leaf (by unfold order; omega)⟩
  | child step ih =>
      cases filled with
      | @internal _ height _ _ lengths enough fits below =>
          rw [List.forall_mem_append, List.forall_mem_cons] at below
          obtain ⟨left, here, right⟩ := below
          have changed := ih here (Nat.le_refl _)
          rw [FilledHalves, filled_internal_iff, List.forall_mem_append, List.forall_mem_cons]
          refine ⟨?_, left, changed, right⟩
          simp only [List.length_append, List.length_cons] at lengths enough fits ⊢
          exact ⟨lengths, enough, fits⟩
  | grow step length grownFits ih =>
      cases filled with
      | @internal _ height _ _ lengths enough fits below =>
          rw [List.forall_mem_append, List.forall_mem_cons] at below
          obtain ⟨left, here, right⟩ := below
          obtain ⟨changed, half⟩ := ih here (Nat.le_refl _)
          rw [FilledHalves, filled_internal_iff, List.forall_mem_append, List.forall_mem_cons,
            List.forall_mem_cons]
          refine ⟨?_, left, changed, half, right⟩
          simp only [List.length_append, List.length_cons] at lengths enough grownFits ⊢
          omega
  | @growSplit keys leftKeys rightKeys before after left right child changed inserted split
      separator step joined full length middle leftLength ih =>
      cases filled with
      | @internal _ height _ _ lengths enough fits below =>
          rw [List.forall_mem_append, List.forall_mem_cons] at below
          obtain ⟨first, here, last⟩ := below
          obtain ⟨changed, half⟩ := ih here (Nat.le_refl _)
          have all : ∀ other ∈ left ++ right, Filled minChildren height other := by
            rw [joined, List.forall_mem_append, List.forall_mem_cons, List.forall_mem_cons]
            exact ⟨first, changed, half, last⟩
          have whole := congrArg List.length joined
          simp only [List.length_append, List.length_cons] at lengths whole fits
          rw [List.forall_mem_append] at all
          rw [FilledHalves, filled_internal_iff, filled_internal_iff]
          unfold order at *
          unfold minChildren
          exact ⟨⟨by omega, all.1⟩, ⟨by omega, all.2⟩⟩

theorem Inserted.leafCount_le {node after : Node} {inserted : Bool} {split : Option Split}
    (step : Inserted node inserted after split) {least height : Nat}
    (filled : Filled least height node) :
    leafCount after + split.elim 0 (fun half => leafCount half.right) ≤
      leafCount node + inserted.toNat := by
  simp only [leafCount]
  induction step generalizing least height with
  | leaf => simp only [total, Option.elim_none]; omega
  | leafSplit length full =>
      cases filled with
      | leaf fits =>
          simp only [total, Option.elim_some]
          omega
  | child step ih =>
      cases filled with
      | internal lengths enough fits below =>
          have here := ih (below _ (by simp))
          simp only [total, totalAll_append, totalAll, Option.elim_none] at here ⊢
          omega
  | grow step length grownFits ih =>
      cases filled with
      | internal lengths enough fits below =>
          have here := ih (below _ (by simp))
          simp only [total, totalAll_append, totalAll, Option.elim_none, Option.elim_some] at here ⊢
          omega
  | growSplit step joined full length middle leftLength ih =>
      cases filled with
      | internal lengths enough fits below =>
          have here := ih (below _ (by simp))
          have whole := congrArg (totalAll (fun _ => 1)) joined
          simp only [total, totalAll_append, totalAll, Option.elim_some] at here whole ⊢
          omega

theorem Deleted.filled {node after : Node} {removed : Bool} (step : Deleted node removed after)
    {least height : Nat} (filled : Filled least height node) : Filled least height after := by
  induction step generalizing least height with
  | leaf length =>
      cases filled with
      | leaf fits => exact .leaf (by omega)
  | child step ih =>
      cases filled with
      | @internal _ height _ _ lengths enough fits below =>
          rw [List.forall_mem_append, List.forall_mem_cons] at below
          rw [filled_internal_iff, List.forall_mem_append, List.forall_mem_cons]
          refine ⟨?_, below.1, ih below.2.1, below.2.2⟩
          simp only [List.length_append, List.length_cons] at lengths enough fits ⊢
          exact ⟨lengths, enough, fits⟩

theorem Deleted.leafCount_eq {node after : Node} {removed : Bool}
    (step : Deleted node removed after) : leafCount after = leafCount node := by
  simp only [leafCount]
  induction step with
  | leaf => rw [total, total]
  | child step ih => simp only [total, totalAll_append, totalAll, ih]

/-! ### Whole runs -/

def addedKeys (map : SortedMap Bytes Bytes) : List Update → Nat
  | [] => 0
  | .insert key value :: rest =>
      (if (map.find? key).isSome then 0 else 1) + addedKeys (map.insert key value) rest
  | .delete key :: rest => addedKeys (map.erase key) rest

/-- A tree of the given height, after `added` inserts of new keys. -/
structure Spread (added height : Nat) (tree : BTree) : Prop where
  filled : Filled 2 height tree.root
  leaves : 0 < height → leafCount tree.root ≤ added
  stored : count tree.root ≤ added

theorem Represents.inserted_le {map : SortedMap Bytes Bytes} {tree after : BTree}
    (represents : Represents map tree) {key value : Bytes} {inserted : Bool}
    (counted : after.len = tree.len + inserted.toNat)
    (next : Represents (map.insert key value) after) :
    inserted.toNat ≤ if (map.find? key).isSome then 0 else 1 := by
  cases found : map.find? key with
  | none => exact Bool.toNat_le inserted
  | some old =>
      obtain ⟨front, back, listing⟩ :=
        List.append_of_mem ((map.find?_eq_some_iff key old).mp found)
      have same := SortedMap.size_insert_of_entries listing value
      rw [next.len, same, represents.len] at counted
      rw [Option.isSome_some, if_pos rfl]
      omega

namespace Spread

variable {added height : Nat} {tree : BTree}

theorem insert (spread : Spread added height tree) {root : Node} {inserted : Bool}
    {split : Option Split} (step : Inserted tree.root inserted root split) (len : Nat) :
    ∃ taller, Spread (added + inserted.toNat) taller { root := lift root split, len := len } := by
  obtain ⟨node, _⟩ := tree
  dsimp only at step
  have halves := step.filled spread.filled (by decide)
  have leaves := step.leafCount_le spread.filled
  have stored := step.count_eq
  have before := spread.stored
  have lifted := total_lift (fun _ => 1) root split
  have liftedCount := total_lift List.length root split
  simp only [leafCount, count] at leaves stored before
  cases split with
  | none =>
      refine ⟨height, halves, fun positive => ?_, ?_⟩
      · have bound := spread.leaves positive
        simp only [leafCount, Option.elim_none] at bound leaves lifted ⊢
        omega
      · simp only [count, Option.elim_none] at stored liftedCount ⊢
        omega
  | some half =>
      refine ⟨height + 1, ?_, fun _ => ?_, ?_⟩
      · rw [lift, filled_internal_iff, List.forall_mem_cons, List.forall_mem_singleton]
        exact ⟨⟨rfl, Nat.le_refl 2, (by decide : 2 ≤ order)⟩, halves⟩
      · simp only [leafCount, Option.elim_some] at leaves lifted ⊢
        rw [lifted]
        cases height with
        | zero =>
            -- the first split: the root was a leaf, and now there are two of them
            cases step with
            | leafSplit length full middle =>
                simp only [total] at before ⊢
                unfold order at full
                omega
            | growSplit => cases spread.filled
        | succ height =>
            have bound := spread.leaves (Nat.succ_pos height)
            simp only [leafCount] at bound
            omega
      · simp only [count, Option.elim_some] at stored liftedCount ⊢
        omega

theorem delete (spread : Spread added height tree) {root : Node} {removed : Bool}
    (step : Deleted tree.root removed root) (len : Nat) :
    Spread added height { root := root, len := len } where
  filled := step.filled spread.filled
  leaves := fun positive => by
    rw [step.leafCount_eq]
    exact spread.leaves positive
  stored := by
    have before := spread.stored
    rw [step.count_eq] at before
    exact le_trans (Nat.le_add_right _ _) before

theorem mono {more : Nat} (spread : Spread added height tree) (atMost : added ≤ more) :
    Spread more height tree where
  filled := spread.filled
  leaves := fun positive => le_trans (spread.leaves positive) atMost
  stored := le_trans spread.stored atMost

theorem run {map : SortedMap Bytes Bytes} (spread : Spread added height tree)
    (represents : Represents map tree) (updates : List Update) :
    ∃ after replies taller, tree.run updates = some (after, replies) ∧
      Represents (mapRun map updates).1 after ∧
      Spread (added + addedKeys map updates) taller after := by
  induction updates generalizing added height map tree with
  | nil => exact ⟨tree, [], height, rfl, represents, spread⟩
  | cons update rest ih =>
      have shaped := spread.filled.shaped (Nat.le_refl 2)
      cases update with
      | insert key value =>
          obtain ⟨next, inserted, nextRepresents⟩ := represents.insert key value
          obtain ⟨root, isNew, split, step, result⟩ := BTree.insert_inserted shaped key value
          rw [inserted] at result
          cases result
          have bound := represents.inserted_le rfl nextRepresents
          obtain ⟨taller, grown⟩ := spread.insert step (tree.len + isNew.toNat)
          obtain ⟨after, replies, final, ran, kept, spread⟩ :=
            ih (grown.mono (Nat.add_le_add_left bound added)) nextRepresents
          refine ⟨after, replies, final, ?_, kept, ?_⟩
          · rw [BTree.run, inserted]
            exact ran
          · rw [addedKeys, ← Nat.add_assoc]
            exact spread
      | delete key =>
          obtain ⟨next, deleted, nextRepresents⟩ := represents.delete key
          have counted : tree.len = count tree.root := by
            rw [count_eq_length, represents.entries, represents.len]
            rfl
          obtain ⟨root, removed, step, result⟩ := BTree.delete_deleted shaped counted key
          rw [deleted] at result
          cases result
          obtain ⟨after, replies, final, ran, kept, spread⟩ :=
            ih (spread.delete step (count root)) nextRepresents
          refine ⟨after, (map.find? key).isSome :: replies, final, ?_, kept, spread⟩
          rw [BTree.run, deleted]
          simp only [Option.bind_eq_bind, Option.bind_some, ran]
          rfl

end Spread

theorem Spread.new : Spread 0 0 BTree.new where
  filled := .leaf (Nat.zero_le _)
  leaves := fun positive => absurd positive (Nat.lt_irrefl 0)
  stored := Nat.le_refl 0

/-- After any updates of a new tree all leaves are equally deep, nodes are ordered and
filled, and the height is bounded by the inserts that added a key: fewer than
`2 * 3 ^ 64` of them leave a tree that nests no deeper than a document may. -/
theorem run_balanced (updates : List Update) :
    ∃ tree replies height, BTree.new.run updates = some (tree, replies) ∧
      Filled 2 height tree.root ∧ Ordered tree.root ∧
      (1 ≤ height → 2 * 3 ^ (height - 1) ≤ addedKeys SortedMap.empty updates) ∧
      (addedKeys SortedMap.empty updates < 2 * 3 ^ 64 → height ≤ maxDepth) := by
  obtain ⟨tree, replies, height, ran, represents, spread⟩ :=
    Spread.new.run Represents.new updates
  rw [Nat.zero_add] at spread
  have tall : 1 ≤ height → 2 * 3 ^ (height - 1) ≤ addedKeys SortedMap.empty updates := by
    intro positive
    obtain ⟨below, rfl⟩ := Nat.exists_eq_add_of_le' positive
    exact le_trans spread.filled.root_leafCount_ge (spread.leaves (Nat.succ_pos below))
  refine ⟨tree, replies, height, ran, spread.filled, Valid.ordered _ represents.valid, tall, ?_⟩
  intro few
  by_contra deep
  unfold maxDepth at deep
  have power : 3 ^ 64 ≤ 3 ^ (height - 1) := Nat.pow_le_pow_right (by decide) (by omega)
  have many := tall (by omega)
  omega

end Keystory.BTreeStore
