/-
The B+ tree refines a sorted map.

Every subtree lives in a half-open interval of keys. An internal node's separators
cut its interval strictly, and each child is valid in its own piece; a separator
need not be in any leaf. Splits, and leaves emptied by deletes, keep this, and it
is all that routing and the pruned walk rely on.
-/

import Keystory.BTree.Shape

namespace Keystory.BTreeStore

open General

/-! ### Contents and intervals -/

mutual

def contents (node : Node) : List Pair :=
  match node with
  | .leaf entries => entries
  | .internal _ children => contentsAll children

def contentsAll (children : List Node) : List Pair :=
  match children with
  | [] => []
  | child :: rest => contents child ++ contentsAll rest

end

abbrev Sorted (entries : List Pair) : Prop :=
  entries.Pairwise (fun left right => left.1 < right.1)

/-- The key is in `[lower, upper)`; a missing bound is no bound. -/
def Inside (lower upper : Option Bytes) (key : Bytes) : Prop :=
  (∀ bound ∈ lower, bound ≤ key) ∧ ∀ bound ∈ upper, key < bound

/-- How far separators are apart: strictly in the trees that inserts build, while a
document may repeat one. -/
class Gap (gap : Bytes → Bytes → Prop) : Prop where
  of_lt : ∀ {low high}, low < high → gap low high
  le : ∀ {low high}, gap low high → low ≤ high
  trans : ∀ {low middle high}, gap low middle → gap middle high → gap low high

instance : Gap (· < ·) := ⟨id, le_of_lt, lt_trans⟩

instance : Gap (· ≤ ·) := ⟨le_of_lt, id, le_trans⟩

def Cuts (gap : Bytes → Bytes → Prop) (lower upper : Option Bytes) (separator : Bytes) : Prop :=
  (∀ bound ∈ lower, gap bound separator) ∧ ∀ bound ∈ upper, gap separator bound

mutual

def Valid (gap : Bytes → Bytes → Prop) (lower upper : Option Bytes) (node : Node) : Prop :=
  match node with
  | .leaf entries => Sorted entries ∧ ∀ entry ∈ entries, Inside lower upper entry.1
  | .internal keys children => ValidAll gap lower upper keys children

def ValidAll (gap : Bytes → Bytes → Prop) (lower upper : Option Bytes) (keys : List Bytes)
    (children : List Node) : Prop :=
  match children with
  | [] => False
  | child :: rest =>
      match keys with
      | [] => rest = [] ∧ Valid gap lower upper child
      | separator :: keys =>
          Cuts gap lower upper separator ∧ Valid gap lower (some separator) child ∧
            ValidAll gap (some separator) upper keys rest

end

section Trees

variable {gap : Bytes → Bytes → Prop}

theorem Inside.of_left [Gap gap] {lower upper : Option Bytes} {separator key : Bytes}
    (cuts : Cuts gap lower upper separator) (inside : Inside lower (some separator) key) :
    Inside lower upper key :=
  ⟨inside.1, fun bound isUpper =>
    lt_of_lt_of_le (inside.2 separator rfl) (Gap.le (cuts.2 bound isUpper))⟩

theorem Inside.of_right [Gap gap] {lower upper : Option Bytes} {separator key : Bytes}
    (cuts : Cuts gap lower upper separator) (inside : Inside (some separator) upper key) :
    Inside lower upper key :=
  ⟨fun bound isLower => le_trans (Gap.le (cuts.1 bound isLower)) (inside.1 separator rfl),
    inside.2⟩

mutual

theorem Valid.sorted [Gap gap] {lower upper : Option Bytes} (node : Node)
    (valid : Valid gap lower upper node) :
    Sorted (contents node) ∧ ∀ entry ∈ contents node, Inside lower upper entry.1 := by
  match node with
  | .leaf entries =>
      rw [Valid] at valid
      rw [contents]
      exact valid
  | .internal keys children =>
      rw [Valid] at valid
      rw [contents]
      exact ValidAll.sorted keys children valid

theorem ValidAll.sorted [Gap gap] {lower upper : Option Bytes} (keys : List Bytes)
    (children : List Node) (valid : ValidAll gap lower upper keys children) :
    Sorted (contentsAll children) ∧ ∀ entry ∈ contentsAll children, Inside lower upper entry.1 := by
  match children, keys with
  | [], _ =>
      rw [ValidAll] at valid
      exact absurd valid id
  | child :: rest, [] =>
      rw [ValidAll] at valid
      obtain ⟨last, childValid⟩ := valid
      rw [last, contentsAll, contentsAll, List.append_nil]
      exact Valid.sorted child childValid
  | child :: rest, separator :: keys =>
      rw [ValidAll] at valid
      obtain ⟨cuts, childValid, restValid⟩ := valid
      obtain ⟨childSorted, childInside⟩ := Valid.sorted child childValid
      obtain ⟨restSorted, restInside⟩ := ValidAll.sorted keys rest restValid
      rw [contentsAll]
      constructor
      · rw [Sorted, List.pairwise_append]
        refine ⟨childSorted, restSorted, fun left leftMember right rightMember => ?_⟩
        exact lt_of_lt_of_le ((childInside left leftMember).2 separator rfl)
          ((restInside right rightMember).1 separator rfl)
      · intro entry member
        rcases List.mem_append.mp member with inChild | inRest
        · exact (childInside entry inChild).of_left cuts
        · exact (restInside entry inRest).of_right cuts

end

mutual

theorem count_eq_length (node : Node) : count node = (contents node).length := by
  match node with
  | .leaf entries => rw [count, total, contents]
  | .internal keys children =>
      rw [count, total, contents]
      exact countAll_eq_length children

theorem countAll_eq_length (children : List Node) :
    totalAll List.length children = (contentsAll children).length := by
  match children with
  | [] => rw [totalAll, contentsAll, List.length_nil]
  | child :: rest =>
      have here := count_eq_length child
      rw [count] at here
      rw [totalAll, contentsAll, List.length_append, here, countAll_eq_length rest]

end

theorem ValidAll.length {lower upper : Option Bytes} {keys : List Bytes} {children : List Node}
    (valid : ValidAll gap lower upper keys children) : children.length = keys.length + 1 := by
  induction children generalizing lower keys with
  | nil =>
      rw [ValidAll] at valid
      exact absurd valid id
  | cons child rest ih =>
      cases keys with
      | nil =>
          rw [ValidAll] at valid
          rw [valid.1]
          rfl
      | cons separator keys =>
          rw [ValidAll] at valid
          rw [List.length_cons, List.length_cons, ih valid.2.2]

/-! ### Leaves -/

theorem Sorted.partitioned {entries : List Pair} (sorted : Sorted entries) (key : Bytes) :
    Partitioned (fun entry : Pair => decide (entry.1 < key)) entries :=
  partitioned_lt Prod.fst sorted key

theorem insertEntries_cons_lt {head : Pair} {key : Bytes} {tail : List Pair} (value : Bytes)
    (sorted : Sorted (head :: tail)) (below : head.1 < key) :
    insertEntries (head :: tail) key value =
      (insertEntries tail key value).map (fun result => (head :: result.1, result.2)) := by
  have inside := partitionPoint_le_length (fun entry : Pair => decide (entry.1 < key)) tail
  unfold insertEntries
  rw [(sorted.partitioned key).partitionPoint_cons_pos (decide_eq_true below)]
  dsimp only
  rw [List.getElem?_cons_succ, insertItem_of_le _ inside,
    insertItem_of_le _ (Nat.succ_le_succ inside)]
  split
  · split <;> simp
  · simp

theorem insertEntries_eq {entries : List Pair} (sorted : Sorted entries) (key value : Bytes) :
    ∃ inserted : Bool,
      insertEntries entries key value =
        some (SortedMap.insertEntry key value entries, inserted) ∧
      (SortedMap.insertEntry key value entries).length = entries.length + inserted.toNat := by
  induction entries with
  | nil => exact ⟨true, rfl, rfl⟩
  | cons head tail ih =>
      obtain ⟨inserted, placed, length⟩ := ih (List.pairwise_cons.mp sorted).2
      by_cases below : head.1 < key
      · refine ⟨inserted, ?_, ?_⟩
        · rw [insertEntries_cons_lt value sorted below, placed, SortedMap.insertEntry,
            if_neg (not_lt_of_gt below), if_neg (ne_of_gt below)]
          rfl
        · rw [SortedMap.insertEntry, if_neg (not_lt_of_gt below), if_neg (ne_of_gt below),
            List.length_cons, List.length_cons, length]
          omega
      · unfold insertEntries
        rw [(sorted.partitioned key).partitionPoint_cons_neg (by simpa using below)]
        dsimp only
        rw [List.getElem?_cons_zero]
        dsimp only
        by_cases same : head.1 = key
        · rw [if_pos same, SortedMap.insertEntry, if_neg (by rw [same]; exact lt_irrefl key),
            if_pos same.symm, same]
          exact ⟨false, rfl, rfl⟩
        · have above : key < head.1 := lt_of_le_of_ne (not_lt.mp below) (Ne.symm same)
          rw [if_neg same, SortedMap.insertEntry, if_pos above]
          exact ⟨true, rfl, rfl⟩

def Grown (gap : Bytes → Bytes → Prop) (lower upper : Option Bytes) (result : List Pair)
    (node : Node) : Option Split → Prop
  | none => Valid gap lower upper node ∧ contents node = result
  | some split =>
      Cuts gap lower upper split.median ∧ Valid gap lower (some split.median) node ∧
        Valid gap (some split.median) upper split.right ∧
        contents node ++ contents split.right = result

theorem splitLeaf_spec (gap : Bytes → Bytes → Prop) [Gap gap] {lower upper : Option Bytes}
    {entries : List Pair} (sorted : Sorted entries)
    (inside : ∀ entry ∈ entries, Inside lower upper entry.1) :
    ∃ node split, splitLeaf entries = some (node, split) ∧
      Grown gap lower upper entries node split := by
  by_cases full : order - 1 < entries.length
  · obtain ⟨median, found, halved⟩ := splitLeaf_of_full full
    have bounds : 0 < entries.length / 2 ∧ entries.length / 2 < entries.length := by
      unfold order at full
      omega
    have cut : entries.take (entries.length / 2) ++ entries.drop (entries.length / 2) = entries :=
      List.take_append_drop _ _
    have halves := sorted
    rw [← cut, Sorted, List.pairwise_append] at halves
    obtain ⟨leftSorted, rightSorted, across⟩ := halves
    have rightHead : entries.drop (entries.length / 2) =
        median :: entries.drop (entries.length / 2 + 1) := by
      rw [List.getElem?_eq_getElem bounds.2] at found
      cases found
      exact List.drop_eq_getElem_cons bounds.2
    have medianRight : median ∈ entries.drop (entries.length / 2) := by
      rw [rightHead]
      exact List.mem_cons_self
    have firstMember : entries[0] ∈ entries.take (entries.length / 2) := by
      refine List.mem_take_iff_getElem.mpr ⟨0, by omega, rfl⟩
    refine ⟨_, _, halved, ⟨?_, ?_⟩, ?_, ?_, cut⟩
    · intro bound isLower
      exact Gap.of_lt (lt_of_le_of_lt ((inside entries[0] (List.mem_of_mem_take firstMember)).1
        bound isLower) (across entries[0] firstMember median medianRight))
    · intro bound isUpper
      exact Gap.of_lt ((inside median (List.mem_of_mem_drop medianRight)).2 bound isUpper)
    · rw [Valid]
      refine ⟨leftSorted, fun entry member =>
        ⟨(inside entry (List.mem_of_mem_take member)).1, fun bound isMedian => ?_⟩⟩
      cases isMedian
      exact across entry member median medianRight
    · rw [Valid]
      refine ⟨rightSorted, fun entry member => ⟨fun bound isMedian => ?_,
        (inside entry (List.mem_of_mem_drop member)).2⟩⟩
      cases isMedian
      rw [rightHead] at member rightSorted
      rcases List.mem_cons.mp member with isHead | inTail
      · rw [isHead]
      · exact le_of_lt ((List.pairwise_cons.mp rightSorted).1 entry inTail)
  · rw [splitLeaf, if_neg full]
    exact ⟨_, none, rfl, by rw [Valid]; exact ⟨sorted, inside⟩, by rw [contents]⟩

/-! ### Internal nodes -/

theorem ValidAll.cut [Gap gap] {lower upper : Option Bytes} {keys : List Bytes}
    {children : List Node} (valid : ValidAll gap lower upper keys children) {middle : Nat}
    {separator : Bytes}
    (found : keys[middle]? = some separator) :
    Cuts gap lower upper separator ∧
      ValidAll gap lower (some separator) (keys.take middle) (children.take (middle + 1)) ∧
      ValidAll gap (some separator) upper (keys.drop (middle + 1))
        (children.drop (middle + 1)) := by
  induction middle generalizing lower keys children with
  | zero =>
      match children, keys with
      | [], _ =>
          rw [ValidAll] at valid
          exact absurd valid id
      | child :: rest, [] => cases found
      | child :: rest, first :: keys =>
          cases found
          rw [ValidAll] at valid
          obtain ⟨cuts, childValid, restValid⟩ := valid
          refine ⟨cuts, ?_, restValid⟩
          rw [List.take_zero, List.take_succ_cons, List.take_zero, ValidAll]
          exact ⟨rfl, childValid⟩
  | succ middle ih =>
      match children, keys with
      | [], _ =>
          rw [ValidAll] at valid
          exact absurd valid id
      | child :: rest, [] => cases found
      | child :: rest, first :: keys =>
          rw [ValidAll] at valid
          obtain ⟨cuts, childValid, restValid⟩ := valid
          obtain ⟨restCuts, left, right⟩ := ih restValid found
          refine ⟨⟨?_, restCuts.2⟩, ?_, right⟩
          · intro bound isLower
            exact Gap.trans (cuts.1 bound isLower) (restCuts.1 first rfl)
          · rw [List.take_succ_cons, List.take_succ_cons, ValidAll]
            refine ⟨⟨cuts.1, ?_⟩, childValid, left⟩
            intro bound isSeparator
            cases isSeparator
            exact restCuts.1 first rfl

theorem contentsAll_append (first second : List Node) :
    contentsAll (first ++ second) = contentsAll first ++ contentsAll second := by
  induction first with
  | nil => rw [List.nil_append, contentsAll, List.nil_append]
  | cons child rest ih => rw [List.cons_append, contentsAll, contentsAll, ih, List.append_assoc]

theorem splitInternal_spec [Gap gap] {lower upper : Option Bytes} {keys : List Bytes}
    {children : List Node} (valid : ValidAll gap lower upper keys children) :
    ∃ node split, splitInternal keys children = some (node, split) ∧
      Grown gap lower upper (contentsAll children) node split := by
  by_cases full : order < children.length
  · obtain ⟨separator, found, halved⟩ := splitInternal_of_full valid.length full
    obtain ⟨cuts, left, right⟩ := valid.cut found
    refine ⟨_, _, halved, cuts, ?_, ?_, ?_⟩
    · rw [Valid]
      exact left
    · rw [Valid]
      exact right
    · rw [contents, contents, ← contentsAll_append, List.take_append_drop]
  · rw [splitInternal, if_neg full]
    exact ⟨_, none, rfl, by rw [Valid]; exact valid, by rw [contents]⟩

/-! ### Routing -/

theorem ValidAll.increasing [Gap gap] {lower upper : Option Bytes} {keys : List Bytes}
    {children : List Node} (valid : ValidAll gap lower upper keys children) :
    keys.Pairwise gap ∧ ∀ separator ∈ keys, ∀ bound ∈ lower, gap bound separator := by
  induction children generalizing lower keys with
  | nil =>
      rw [ValidAll] at valid
      exact absurd valid id
  | cons child rest ih =>
      cases keys with
      | nil => exact ⟨List.Pairwise.nil, fun _ member => absurd member List.not_mem_nil⟩
      | cons first keys =>
          rw [ValidAll] at valid
          obtain ⟨cuts, _, restValid⟩ := valid
          obtain ⟨increasing, above⟩ := ih restValid
          refine ⟨List.pairwise_cons.mpr ⟨fun separator member => above separator member first rfl,
            increasing⟩, ?_⟩
          intro separator member bound isLower
          rcases List.mem_cons.mp member with isFirst | later
          · rw [isFirst]
            exact cuts.1 bound isLower
          · exact Gap.trans (cuts.1 bound isLower) (above separator later first rfl)

theorem partitioned_separators [Gap gap] {keys : List Bytes} (increasing : keys.Pairwise gap)
    (key : Bytes) : Partitioned (fun separator => decide (separator ≤ key)) keys :=
  partitioned_le id (increasing.imp Gap.le) key

theorem ValidAll.route_cons_le [Gap gap] {lower upper : Option Bytes} {separator key : Bytes}
    {keys : List Bytes} {children : List Node}
    (valid : ValidAll gap lower upper (separator :: keys) children) (reached : separator ≤ key) :
    route (separator :: keys) key = route keys key + 1 :=
  (partitioned_separators valid.increasing.1 key).partitionPoint_cons_pos
    (decide_eq_true reached)

theorem ValidAll.route_cons_gt [Gap gap] {lower upper : Option Bytes} {separator key : Bytes}
    {keys : List Bytes} {children : List Node}
    (valid : ValidAll gap lower upper (separator :: keys) children) (before : key < separator) :
    route (separator :: keys) key = 0 :=
  (partitioned_separators valid.increasing.1 key).partitionPoint_cons_neg
    (by simpa using before)

theorem Valid.lt_of_le [Gap gap] {lower : Option Bytes} {separator key : Bytes} {child : Node}
    (valid : Valid gap lower (some separator) child) (reached : separator ≤ key) :
    ∀ entry ∈ contents child, entry.1 < key := by
  intro entry member
  exact lt_of_lt_of_le (((Valid.sorted child valid).2 entry member).2 separator rfl) reached

theorem ValidAll.gt_of_lt [Gap gap] {upper : Option Bytes} {separator key : Bytes}
    {keys : List Bytes} {rest : List Node} (valid : ValidAll gap (some separator) upper keys rest)
    (before : key < separator) : ∀ entry ∈ contentsAll rest, key < entry.1 := by
  intro entry member
  exact lt_of_lt_of_le before (((ValidAll.sorted keys rest valid).2 entry member).1 separator rfl)

/-! ### Insert -/

def GrownAll (gap : Bytes → Bytes → Prop) (lower upper : Option Bytes) (keys : List Bytes)
    (position : Nat) (result : List Pair) (children : List Node) : Option Split → Prop
  | none => ValidAll gap lower upper keys children ∧ contentsAll children = result
  | some split =>
      ValidAll gap lower upper (keys.insertIdx position split.median)
          (children.insertIdx (position + 1) split.right) ∧
        contentsAll (children.insertIdx (position + 1) split.right) = result

mutual

theorem insertRec_spec [Gap gap] {lower upper : Option Bytes} {key : Bytes} (value : Bytes)
    (node : Node) (valid : Valid gap lower upper node) (inside : Inside lower upper key) :
    ∃ after inserted split, insertRec node key value = some (after, inserted, split) ∧
      Grown gap lower upper (SortedMap.insertEntry key value (contents node)) after split ∧
      (SortedMap.insertEntry key value (contents node)).length =
        (contents node).length + inserted.toNat := by
  match node with
  | .leaf entries =>
      rw [Valid] at valid
      obtain ⟨inserted, result, length⟩ := insertEntries_eq valid.1 key value
      have allInside : ∀ entry ∈ SortedMap.insertEntry key value entries,
          Inside lower upper entry.1 := by
        intro entry member
        rcases SortedMap.mem_of_mem_insertEntry key value entries entry member with isNew | old
        · rw [isNew]
          exact inside
        · exact valid.2 entry old
      obtain ⟨after, split, halved, grown⟩ := splitLeaf_spec gap
        (SortedMap.insertEntry_sorted key value entries valid.1) allInside
      rw [contents]
      refine ⟨after, inserted, split, ?_, grown, length⟩
      rw [insertRec]
      simp only [result, halved, Option.bind_eq_bind, Option.bind_some]
      rfl
  | .internal keys children =>
      rw [Valid] at valid
      obtain ⟨after, inserted, split, result, grown, length⟩ :=
        insertAt_spec value keys children valid inside
      rw [contents]
      cases split with
      | none =>
          refine ⟨.internal keys after, inserted, none, ?_, ⟨by rw [Valid]; exact grown.1,
            by rw [contents]; exact grown.2⟩, length⟩
          rw [insertRec]
          simp only [result, Option.bind_eq_bind, Option.bind_some]
          rfl
      | some split =>
          obtain ⟨left, lifted, halved, halves⟩ := splitInternal_spec grown.1
          rw [grown.2] at halves
          refine ⟨left, inserted, lifted, ?_, halves, length⟩
          have inside : route keys key ≤ keys.length := partitionPoint_le_length _ keys
          have among : route keys key + 1 ≤ after.length := by
            have lengths := grown.1.length
            rw [List.length_insertIdx, List.length_insertIdx_of_le_length inside] at lengths
            split_ifs at lengths with among
            · exact among
            · omega
          rw [insertRec]
          simp only [result, insertItem_of_le _ inside, insertItem_of_le _ among, halved,
            Option.bind_eq_bind, Option.bind_some]
          rfl

theorem insertAt_spec [Gap gap] {lower upper : Option Bytes} {key : Bytes} (value : Bytes)
    (keys : List Bytes) (children : List Node) (valid : ValidAll gap lower upper keys children)
    (inside : Inside lower upper key) :
    ∃ after inserted split,
      insertAt children (route keys key) key value = some (after, inserted, split) ∧
      GrownAll gap lower upper keys (route keys key)
        (SortedMap.insertEntry key value (contentsAll children)) after split ∧
      (SortedMap.insertEntry key value (contentsAll children)).length =
        (contentsAll children).length + inserted.toNat := by
  match children, keys with
  | [], _ =>
      rw [ValidAll] at valid
      exact absurd valid id
  | child :: rest, [] =>
      rw [ValidAll] at valid
      obtain ⟨last, childValid⟩ := valid
      subst last
      obtain ⟨after, inserted, split, result, grown, length⟩ :=
        insertRec_spec value child childValid inside
      have atFirst : route [] key = 0 := rfl
      rw [atFirst, contentsAll, contentsAll, List.append_nil]
      refine ⟨[after], inserted, split, ?_, ?_, length⟩
      · simp only [insertAt, result, Option.bind_eq_bind, Option.bind_some]
        rfl
      · cases split with
        | none =>
            refine ⟨by rw [ValidAll]; exact ⟨rfl, grown.1⟩, ?_⟩
            rw [contentsAll, contentsAll, List.append_nil]
            exact grown.2
        | some split =>
            obtain ⟨cuts, left, right, joined⟩ := grown
            refine ⟨?_, ?_⟩
            · change ValidAll gap lower upper [split.median] [after, split.right]
              rw [ValidAll, ValidAll]
              exact ⟨cuts, left, rfl, right⟩
            · change contentsAll [after, split.right] = _
              rw [contentsAll, contentsAll, contentsAll, List.append_nil]
              exact joined
  | child :: rest, separator :: keys =>
      have whole := valid
      rw [ValidAll] at valid
      obtain ⟨cuts, childValid, restValid⟩ := valid
      rw [contentsAll]
      rcases lt_or_ge key separator with before | reached
      · have below : Inside lower (some separator) key := by
          refine ⟨inside.1, fun bound isSeparator => ?_⟩
          cases isSeparator
          exact before
        obtain ⟨after, inserted, split, result, grown, length⟩ :=
          insertRec_spec value child childValid below
        rw [whole.route_cons_gt before,
          SortedMap.insertEntry_append_of_gt value _ (restValid.gt_of_lt before)]
        refine ⟨after :: rest, inserted, split, ?_, ?_, ?_⟩
        · simp only [insertAt, result, Option.bind_eq_bind, Option.bind_some]
          rfl
        · cases split with
          | none =>
              refine ⟨by rw [ValidAll]; exact ⟨cuts, grown.1, restValid⟩, ?_⟩
              rw [contentsAll, grown.2]
          | some split =>
              obtain ⟨inner, left, right, joined⟩ := grown
              refine ⟨?_, ?_⟩
              · change ValidAll gap lower upper (split.median :: separator :: keys)
                  (after :: split.right :: rest)
                rw [ValidAll, ValidAll]
                have inOrder : gap split.median separator := inner.2 separator rfl
                refine ⟨⟨inner.1, fun bound isUpper => Gap.trans inOrder (cuts.2 bound isUpper)⟩,
                  left, ⟨fun bound isMedian => ?_, cuts.2⟩, right, restValid⟩
                cases isMedian
                exact inOrder
              · change contentsAll (after :: split.right :: rest) = _
                rw [contentsAll, contentsAll, ← List.append_assoc, joined]
        · rw [List.length_append, List.length_append, length]
          omega
      · have above : Inside (some separator) upper key := by
          refine ⟨fun bound isSeparator => ?_, inside.2⟩
          cases isSeparator
          exact reached
        obtain ⟨after, inserted, split, result, grown, length⟩ :=
          insertAt_spec value keys rest restValid above
        rw [whole.route_cons_le reached,
          SortedMap.insertEntry_append_of_lt value (childValid.lt_of_le reached)]
        refine ⟨child :: after, inserted, split, ?_, ?_, ?_⟩
        · simp only [insertAt, result, Option.bind_eq_bind, Option.bind_some]
          rfl
        · cases split with
          | none =>
              refine ⟨by rw [ValidAll]; exact ⟨cuts, childValid, grown.1⟩, ?_⟩
              rw [contentsAll, grown.2]
          | some split =>
              refine ⟨?_, ?_⟩
              · rw [List.insertIdx_succ_cons, List.insertIdx_succ_cons, ValidAll]
                exact ⟨cuts, childValid, grown.1⟩
              · rw [List.insertIdx_succ_cons, contentsAll, grown.2]
        · rw [List.length_append, List.length_append, length]
          omega

end

/-! ### Get and scan -/

theorem find?_eq_none_of_ne {entries : List Pair} {key : Bytes}
    (different : ∀ entry ∈ entries, entry.1 ≠ key) :
    entries.find? (fun entry => entry.1 == key) = none := by
  rw [List.find?_eq_none]
  intro entry member
  simp [different entry member]

mutual

theorem getRec_spec [Gap gap] {lower upper : Option Bytes} {key : Bytes} (node : Node)
    (valid : Valid gap lower upper node) :
    getRec node key =
      some (((contents node).find? (fun entry => entry.1 == key)).map Prod.snd) := by
  match node with
  | .leaf entries => rw [getRec, contents]
  | .internal keys children =>
      rw [Valid] at valid
      rw [getRec, contents]
      exact getAt_spec keys children valid

theorem getAt_spec [Gap gap] {lower upper : Option Bytes} {key : Bytes} (keys : List Bytes)
    (children : List Node) (valid : ValidAll gap lower upper keys children) :
    getAt children (route keys key) key =
      some (((contentsAll children).find? (fun entry => entry.1 == key)).map Prod.snd) := by
  match children, keys with
  | [], _ =>
      rw [ValidAll] at valid
      exact absurd valid id
  | child :: rest, [] =>
      rw [ValidAll] at valid
      obtain ⟨last, childValid⟩ := valid
      subst last
      change getAt [child] 0 key = _
      rw [getAt, contentsAll, contentsAll, List.append_nil]
      exact getRec_spec child childValid
  | child :: rest, separator :: keys =>
      have whole := valid
      rw [ValidAll] at valid
      obtain ⟨_, childValid, restValid⟩ := valid
      rw [contentsAll, List.find?_append]
      rcases lt_or_ge key separator with before | reached
      · rw [whole.route_cons_gt before, getAt, getRec_spec child childValid,
          find?_eq_none_of_ne
            (fun entry member => ne_of_gt (restValid.gt_of_lt before entry member)),
          Option.or_none]
      · rw [whole.route_cons_le reached, getAt, getAt_spec keys rest restValid,
          find?_eq_none_of_ne
            (fun entry member => ne_of_lt (childValid.lt_of_le reached entry member)),
          Option.none_or]

end

mutual

theorem collect_eq (pred : Pair → Bool) (node : Node) :
    collect pred node = (contents node).filter pred := by
  match node with
  | .leaf entries => rw [collect, contents]
  | .internal keys children =>
      rw [collect, contents]
      exact collectAll_eq pred children

theorem collectAll_eq (pred : Pair → Bool) (children : List Node) :
    collectAll pred children = (contentsAll children).filter pred := by
  match children with
  | [] => rw [collectAll, contentsAll, List.filter_nil]
  | child :: rest =>
      rw [collectAll, contentsAll, List.filter_append, collect_eq pred child,
        collectAll_eq pred rest]

end

/-! ### Delete -/

def without (key : Bytes) (entries : List Pair) : List Pair :=
  entries.filter (fun entry => entry.1 ≠ key)

theorem without_eq_self {key : Bytes} {entries : List Pair}
    (different : ∀ entry ∈ entries, entry.1 ≠ key) : without key entries = entries :=
  List.filter_eq_self.mpr (fun entry member => decide_eq_true (different entry member))

theorem without_append (key : Bytes) (first second : List Pair) :
    without key (first ++ second) = without key first ++ without key second :=
  List.filter_append first second

theorem exists_key_append (key : Bytes) (first second : List Pair) :
    (∃ entry ∈ first ++ second, entry.1 = key) ↔
      (∃ entry ∈ first, entry.1 = key) ∨ ∃ entry ∈ second, entry.1 = key := by
  simp only [List.mem_append, or_and_right, exists_or]

theorem removeEntry_eq {entries : List Pair} (sorted : Sorted entries) (key : Bytes) :
    (removeEntry entries key).1 = without key entries ∧
      entries.length = (without key entries).length + (removeEntry entries key).2.toNat ∧
      ((removeEntry entries key).2 = true ↔ ∃ entry ∈ entries, entry.1 = key) := by
  induction entries with
  | nil => exact ⟨rfl, rfl, by simp [removeEntry, partitionPoint]⟩
  | cons head tail ih =>
      obtain ⟨below, tailSorted⟩ := List.pairwise_cons.mp sorted
      obtain ⟨result, length, present⟩ := ih tailSorted
      by_cases before : head.1 < key
      · have step : removeEntry (head :: tail) key =
            (head :: (removeEntry tail key).1, (removeEntry tail key).2) := by
          unfold removeEntry
          rw [(sorted.partitioned key).partitionPoint_cons_pos (decide_eq_true before)]
          dsimp only
          rw [List.getElem?_cons_succ]
          split
          · split <;> simp
          · rfl
        have kept : without key (head :: tail) = head :: without key tail :=
          List.filter_cons_of_pos (decide_eq_true (ne_of_lt before))
        rw [step, kept]
        refine ⟨by rw [result], ?_, ?_⟩
        · dsimp only
          rw [List.length_cons, List.length_cons]
          omega
        · dsimp only
          rw [present]
          constructor
          · rintro ⟨entry, member, same⟩
            exact ⟨entry, List.mem_cons_of_mem head member, same⟩
          · rintro ⟨entry, member, same⟩
            rcases List.mem_cons.mp member with isHead | inTail
            · exact absurd (isHead ▸ same) (ne_of_lt before)
            · exact ⟨entry, inTail, same⟩
      · have position : partitionPoint (fun entry : Pair => decide (entry.1 < key))
            (head :: tail) = 0 :=
          (sorted.partitioned key).partitionPoint_cons_neg (by simpa using before)
        unfold removeEntry
        rw [position]
        dsimp only
        rw [List.getElem?_cons_zero]
        dsimp only
        by_cases same : head.1 = key
        · have rest : without key (head :: tail) = tail := by
            unfold without
            rw [List.filter_cons_of_neg (by simp [same])]
            exact without_eq_self (fun entry member => ne_of_gt (same ▸ below entry member))
          rw [if_pos same, rest]
          exact ⟨rfl, rfl, fun _ => ⟨head, List.mem_cons_self, same⟩, fun _ => rfl⟩
        · have above : key < head.1 := lt_of_le_of_ne (not_lt.mp before) (Ne.symm same)
          have absent : ∀ entry ∈ head :: tail, entry.1 ≠ key := by
            intro entry member
            rcases List.mem_cons.mp member with isHead | inTail
            · exact isHead ▸ same
            · exact ne_of_gt (lt_trans above (below entry inTail))
          rw [if_neg same, without_eq_self absent]
          refine ⟨rfl, rfl, fun impossible => (by cases impossible), ?_⟩
          rintro ⟨entry, member, sameKey⟩
          exact absurd sameKey (absent entry member)

mutual

theorem deleteRec_spec [Gap gap] {lower upper : Option Bytes} (key : Bytes) (node : Node)
    (valid : Valid gap lower upper node) :
    ∃ after removed, deleteRec node key = some (after, removed) ∧ Valid gap lower upper after ∧
      contents after = without key (contents node) ∧
      (contents node).length = (without key (contents node)).length + removed.toNat ∧
      (removed = true ↔ ∃ entry ∈ contents node, entry.1 = key) := by
  match node with
  | .leaf entries =>
      rw [Valid] at valid
      obtain ⟨result, length, present⟩ := removeEntry_eq valid.1 key
      rw [contents]
      refine ⟨.leaf (removeEntry entries key).1, (removeEntry entries key).2, rfl, ?_, ?_, length,
        present⟩
      · rw [Valid, result]
        exact ⟨valid.1.filter _, fun entry member => valid.2 entry (List.mem_of_mem_filter member)⟩
      · rw [contents, result]
  | .internal keys children =>
      rw [Valid] at valid
      obtain ⟨after, removed, result, afterValid, same, length, present⟩ :=
        deleteAt_spec key keys children valid
      rw [contents]
      refine ⟨.internal keys after, removed, ?_, by rw [Valid]; exact afterValid,
        by rw [contents]; exact same, length, present⟩
      rw [deleteRec, result]
      rfl

theorem deleteAt_spec [Gap gap] {lower upper : Option Bytes} (key : Bytes) (keys : List Bytes)
    (children : List Node) (valid : ValidAll gap lower upper keys children) :
    ∃ after removed, deleteAt children (route keys key) key = some (after, removed) ∧
      ValidAll gap lower upper keys after ∧
      contentsAll after = without key (contentsAll children) ∧
      (contentsAll children).length =
        (without key (contentsAll children)).length + removed.toNat ∧
      (removed = true ↔ ∃ entry ∈ contentsAll children, entry.1 = key) := by
  match children, keys with
  | [], _ =>
      rw [ValidAll] at valid
      exact absurd valid id
  | child :: rest, [] =>
      rw [ValidAll] at valid
      obtain ⟨last, childValid⟩ := valid
      subst last
      obtain ⟨after, removed, result, afterValid, same, length, present⟩ :=
        deleteRec_spec key child childValid
      rw [contentsAll, contentsAll, List.append_nil]
      refine ⟨[after], removed, ?_, by rw [ValidAll]; exact ⟨rfl, afterValid⟩, ?_, length,
        present⟩
      · change deleteAt [child] 0 key = _
        rw [deleteAt, result]
        rfl
      · rw [contentsAll, contentsAll, List.append_nil, same]
  | child :: rest, separator :: keys =>
      have whole := valid
      rw [ValidAll] at valid
      obtain ⟨cuts, childValid, restValid⟩ := valid
      rw [contentsAll, without_append]
      rcases lt_or_ge key separator with before | reached
      · obtain ⟨after, removed, result, afterValid, same, length, present⟩ :=
          deleteRec_spec key child childValid
        have absent : ∀ entry ∈ contentsAll rest, entry.1 ≠ key :=
          fun entry member => ne_of_gt (restValid.gt_of_lt before entry member)
        rw [whole.route_cons_gt before, without_eq_self absent]
        refine ⟨after :: rest, removed, ?_, ?_, ?_, ?_, ?_⟩
        · rw [deleteAt, result]
          rfl
        · rw [ValidAll]
          exact ⟨cuts, afterValid, restValid⟩
        · rw [contentsAll, same]
        · rw [List.length_append, List.length_append]
          omega
        · rw [present, exists_key_append, or_iff_left]
          rintro ⟨entry, member, sameKey⟩
          exact absent entry member sameKey
      · obtain ⟨after, removed, result, afterValid, same, length, present⟩ :=
          deleteAt_spec key keys rest restValid
        have absent : ∀ entry ∈ contents child, entry.1 ≠ key :=
          fun entry member => ne_of_lt (childValid.lt_of_le reached entry member)
        rw [whole.route_cons_le reached, without_eq_self absent]
        refine ⟨child :: after, removed, ?_, ?_, ?_, ?_, ?_⟩
        · rw [deleteAt, result]
          rfl
        · rw [ValidAll]
          exact ⟨cuts, childValid, afterValid⟩
        · rw [contentsAll, same]
        · rw [List.length_append, List.length_append]
          omega
        · rw [present, exists_key_append, or_iff_right]
          rintro ⟨entry, member, sameKey⟩
          exact absent entry member sameKey

end

end Trees

end Keystory.BTreeStore
