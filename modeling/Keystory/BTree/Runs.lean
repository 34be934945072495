/-
The pruned range walk, and whole sequences of updates: the tree answers as the
sorted map with the same updates does.
-/

import Keystory.BTree.Refinement

namespace Keystory.BTreeStore

open General

/-! ### Range -/

def between (lo hi : Bytes) (entries : List Pair) : List Pair :=
  entries.filter (fun entry => decide (lo ≤ entry.1) && decide (entry.1 < hi))

theorem between_append (lo hi : Bytes) (first second : List Pair) :
    between lo hi (first ++ second) = between lo hi first ++ between lo hi second :=
  List.filter_append first second

theorem between_eq_nil_of_lt {lo : Bytes} (hi : Bytes) {entries : List Pair}
    (below : ∀ entry ∈ entries, entry.1 < lo) : between lo hi entries = [] := by
  apply List.filter_eq_nil_iff.mpr
  intro entry member
  simp [below entry member]

theorem between_eq_nil_of_ge (lo : Bytes) {hi : Bytes} {entries : List Pair}
    (above : ∀ entry ∈ entries, hi ≤ entry.1) : between lo hi entries = [] := by
  apply List.filter_eq_nil_iff.mpr
  intro entry member
  simp [above entry member]

theorem takeWhile_eq_between {lo hi : Bytes} {entries : List Pair} (sorted : Sorted entries)
    (above : ∀ entry ∈ entries, lo ≤ entry.1) :
    entries.takeWhile (fun entry => decide (entry.1 < hi)) = between lo hi entries := by
  induction entries with
  | nil => rfl
  | cons head tail ih =>
      obtain ⟨below, tailSorted⟩ := List.pairwise_cons.mp sorted
      by_cases inside : head.1 < hi
      · have first : lo ≤ head.1 := above head List.mem_cons_self
        have rest := ih tailSorted (fun entry member => above entry (List.mem_cons_of_mem _ member))
        unfold between at rest ⊢
        rw [List.takeWhile_cons_of_pos (by simp [inside]), rest,
          List.filter_cons_of_pos (by simp [inside, first])]
      · rw [List.takeWhile_cons_of_neg (by simp [inside]), between_eq_nil_of_ge]
        intro entry member
        rcases List.mem_cons.mp member with isHead | inTail
        · rw [isHead]
          exact not_lt.mp inside
        · exact le_of_lt (lt_of_le_of_lt (not_lt.mp inside) (below entry inTail))

theorem leafRange_eq {lo hi : Bytes} {entries : List Pair} (sorted : Sorted entries) :
    (entries.drop (partitionPoint (fun entry => decide (entry.1 < lo)) entries)).takeWhile
      (fun entry => decide (entry.1 < hi)) = between lo hi entries := by
  induction entries with
  | nil => rfl
  | cons head tail ih =>
      obtain ⟨below, tailSorted⟩ := List.pairwise_cons.mp sorted
      by_cases before : head.1 < lo
      · rw [(sorted.partitioned lo).partitionPoint_cons_pos (decide_eq_true before),
          List.drop_succ_cons, ih tailSorted]
        unfold between
        rw [List.filter_cons_of_neg (by simp [before])]
      · rw [(sorted.partitioned lo).partitionPoint_cons_neg (by simpa using before), List.drop_zero]
        apply takeWhile_eq_between sorted
        intro entry member
        rcases List.mem_cons.mp member with isHead | inTail
        · rw [isHead]
          exact not_lt.mp before
        · exact le_trans (not_lt.mp before) (le_of_lt (below entry inTail))

section Walk

variable {gap : Bytes → Bytes → Prop}

theorem separator_of_lt_route [Gap gap] {keys : List Bytes} {key : Bytes} {position : Nat}
    (increasing : keys.Pairwise gap) (passed : position < route keys key) :
    ∃ separator, keys[position]? = some separator ∧ separator ≤ key := by
  have inside : position < keys.length :=
    Nat.lt_of_lt_of_le passed (partitionPoint_le_length _ keys)
  have member : keys[position] ∈ keys.take (route keys key) :=
    List.mem_take_iff_getElem.mpr ⟨position, by omega, rfl⟩
  rw [route, (partitioned_separators increasing key).take_partitionPoint] at member
  exact ⟨keys[position], List.getElem?_eq_getElem inside,
    of_decide_eq_true (List.mem_filter.mp member).2⟩

mutual

theorem collectRange_spec [Gap gap] {lower upper : Option Bytes} (lo hi : Bytes) (node : Node)
    (valid : Valid gap lower upper node) :
    collectRange lo hi node = some (between lo hi (contents node)) := by
  match node with
  | .leaf entries =>
      rw [Valid] at valid
      rw [collectRange, contents, splitOff_of_le (partitionPoint_le_length _ entries)]
      exact congrArg some (leafRange_eq valid.1)
  | .internal keys children =>
      rw [Valid] at valid
      rw [collectRange, contents]
      exact collectFrom_spec lo hi keys keys 0 children valid valid.increasing.1 rfl
        (fun started => absurd started (Nat.lt_irrefl 0))

/-- From position `i` on, `later` being the separators still to come: the children
skipped end before `lo`, and those after a break start at or past `hi`. -/
theorem collectFrom_spec [Gap gap] {lower upper : Option Bytes} (lo hi : Bytes)
    (keys later : List Bytes) (i : Nat) (children : List Node)
    (valid : ValidAll gap lower upper later children) (increasing : keys.Pairwise gap)
    (here : keys.drop i = later)
    (bound : 0 < i → ∃ separator, keys[i - 1]? = some separator ∧ lower = some separator) :
    collectFrom lo hi keys (route keys lo) i children =
      some (between lo hi (contentsAll children)) := by
  match children with
  | [] =>
      rw [ValidAll] at valid
      exact absurd valid id
  | child :: rest =>
      have atNext : later[0]? = keys[i]? := by
        rw [← here, List.getElem?_drop, Nat.add_zero]
      -- the walk over the remaining children, when there are any
      have walk : rest = [] ∨ collectFrom lo hi keys (route keys lo) (i + 1) rest =
          some (between lo hi (contentsAll rest)) := by
        cases later with
        | nil =>
            rw [ValidAll] at valid
            exact Or.inl valid.1
        | cons separator later =>
            rw [ValidAll] at valid
            right
            apply collectFrom_spec lo hi keys later (i + 1) rest valid.2.2 increasing
            · rw [← List.drop_drop, here]
              rfl
            · intro _
              exact ⟨separator, atNext.symm, rfl⟩
      rw [contentsAll, between_append]
      by_cases skipped : i < route keys lo
      · obtain ⟨separator, found, reached⟩ := separator_of_lt_route increasing skipped
        rw [← atNext] at found
        obtain ⟨later, rfl⟩ : ∃ tail, later = separator :: tail := by
          cases later with
          | nil => cases found
          | cons head tail =>
              cases found
              exact ⟨tail, rfl⟩
        rw [ValidAll] at valid
        have nonempty : rest ≠ [] := by
          intro empty
          rw [empty, ValidAll] at valid
          exact valid.2.2
        rw [collectFrom, if_pos skipped, walk.resolve_left nonempty,
          between_eq_nil_of_lt hi (valid.2.1.lt_of_le reached), List.nil_append]
      · rw [collectFrom, if_neg skipped]
        have childRange : collectRange lo hi child = some (between lo hi (contents child)) := by
          cases later with
          | nil =>
              rw [ValidAll] at valid
              exact collectRange_spec lo hi child valid.2
          | cons separator later =>
              rw [ValidAll] at valid
              exact collectRange_spec lo hi child valid.2.1
        have more : collectFrom lo hi keys (route keys lo) (i + 1) rest =
            some (between lo hi (contentsAll rest)) := by
          rcases walk with last | walked
          · rw [last, collectFrom, contentsAll]
            rfl
          · exact walked
        by_cases start : i = 0
        · simp only [start, if_true] at more ⊢
          simp only [childRange, more, Option.bind_eq_bind, Option.bind_some, Bool.false_eq_true,
            if_false]
          rfl
        · obtain ⟨separator, found, isLower⟩ := bound (Nat.pos_of_ne_zero start)
          rw [if_neg start, found]
          simp only [Option.map_some, Option.bind_eq_bind, Option.bind_some, decide_eq_true_eq]
          by_cases past : hi ≤ separator
          · rw [if_pos past]
            have beyond : ∀ entry ∈ contents child ++ contentsAll rest, hi ≤ entry.1 := by
              intro entry member
              have inside := (ValidAll.sorted later (child :: rest) valid).2 entry
                (by rw [contentsAll]; exact member)
              exact le_trans past (inside.1 separator isLower)
            rw [← between_append, between_eq_nil_of_ge lo beyond]
            rfl
          · rw [if_neg past, childRange, more]
            rfl

end

theorem range_eq_between [Gap gap] {tree : BTree} (valid : Valid gap none none tree.root)
    (lo hi : Bytes) : tree.range lo hi = some (between lo hi (contents tree.root)) := by
  unfold BTree.range
  split
  case isTrue => rw [collectRange_spec lo hi tree.root valid]
  case isFalse inverted =>
      symm
      apply congrArg some
      apply List.filter_eq_nil_iff.mpr
      intro entry _ inside
      rw [Bool.and_eq_true, decide_eq_true_eq, decide_eq_true_eq] at inside
      exact inverted (lt_of_le_of_lt inside.1 inside.2)

end Walk

theorem find?_entries (map : SortedMap Bytes Bytes) (key : Bytes) :
    (map.entries.find? (fun entry => entry.1 == key)).map Prod.snd = map.find? key := by
  cases found : map.entries.find? (fun entry => entry.1 == key) with
  | none =>
      symm
      rw [Option.map_none, SortedMap.find?_eq_none_iff]
      intro value member
      exact List.find?_eq_none.mp found (key, value) member (by simp)
  | some entry =>
      have same : entry.1 = key := by simpa using List.find?_some found
      symm
      rw [Option.map_some, SortedMap.find?_eq_some_iff, ← same]
      exact List.mem_of_find?_eq_some found

/-! ### Whole runs -/

/-- The same updates on a sorted map, with whether each deleted key was there. -/
def mapRun (map : SortedMap Bytes Bytes) : List Update → SortedMap Bytes Bytes × List Bool
  | [] => (map, [])
  | .insert key value :: rest => mapRun (map.insert key value) rest
  | .delete key :: rest =>
      let (final, replies) := mapRun (map.erase key) rest
      (final, (map.find? key).isSome :: replies)

/-- A valid tree that holds exactly the entries of a map, and counts them. -/
structure Represents (map : SortedMap Bytes Bytes) (tree : BTree) : Prop where
  valid : Valid (· < ·) none none tree.root
  entries : contents tree.root = map.entries
  len : tree.len = map.size

namespace Represents

variable {map : SortedMap Bytes Bytes} {tree : BTree}

theorem new : Represents SortedMap.empty BTree.new where
  valid := by
    rw [BTree.new, Valid]
    exact ⟨List.Pairwise.nil, fun _ member => absurd member List.not_mem_nil⟩
  entries := by
    rw [BTree.new, contents]
    rfl
  len := rfl

theorem insert (represents : Represents map tree) (key value : Bytes) :
    ∃ after, tree.insert key value = some after ∧
      Represents (map.insert key value) after := by
  have everywhere : Inside none none key :=
    ⟨fun _ impossible => absurd impossible (by simp),
      fun _ impossible => absurd impossible (by simp)⟩
  obtain ⟨root, inserted, split, result, grown, length⟩ :=
    insertRec_spec value tree.root represents.valid everywhere
  rw [represents.entries] at grown length
  have counted : (if inserted then tree.len + 1 else tree.len) = (map.insert key value).size := by
    change _ = (SortedMap.insertEntry key value map.entries).length
    rw [length, represents.len]
    cases inserted <;> rfl
  cases split with
  | none =>
      refine ⟨{ root := root, len := if inserted then tree.len + 1 else tree.len }, ?_, grown.1,
        grown.2, counted⟩
      simp only [BTree.insert, result, Option.bind_eq_bind, Option.bind_some]
      rfl
  | some split =>
      obtain ⟨cuts, left, right, joined⟩ := grown
      refine ⟨{ root := .internal [split.median] [root, split.right],
                len := if inserted then tree.len + 1 else tree.len }, ?_, ?_, ?_, counted⟩
      · simp only [BTree.insert, result, Option.bind_eq_bind, Option.bind_some]
        rfl
      · rw [Valid, ValidAll, ValidAll]
        exact ⟨cuts, left, rfl, right⟩
      · rw [contents, contentsAll, contentsAll, contentsAll, List.append_nil]
        exact joined

theorem delete (represents : Represents map tree) (key : Bytes) :
    ∃ after, tree.delete key = some (after, (map.find? key).isSome) ∧
      Represents (map.erase key) after := by
  obtain ⟨root, removed, result, valid, remaining, length, present⟩ :=
    deleteRec_spec key tree.root represents.valid
  have erased : without key map.entries = (map.erase key).entries :=
    List.filter_congr (fun entry _ => by simp)
  rw [represents.entries, erased] at remaining length
  rw [represents.entries] at present
  have answer : removed = (map.find? key).isSome := by
    rw [Bool.eq_iff_iff, present, Option.isSome_iff_exists]
    simp only [SortedMap.find?_eq_some_iff]
    constructor
    · rintro ⟨⟨_, value⟩, member, rfl⟩
      exact ⟨value, member⟩
    · rintro ⟨value, member⟩
      exact ⟨(key, value), member, rfl⟩
  have counted : tree.len = (map.erase key).size + removed.toNat :=
    represents.len.trans length
  rw [← answer]
  simp only [BTree.delete, result, Option.bind_eq_bind, Option.bind_some]
  cases removed with
  | true =>
      have positive : tree.len ≠ 0 := by
        rw [counted]
        exact Nat.succ_ne_zero _
      exact ⟨{ root := root, len := tree.len - 1 }, by simp [positive], valid, remaining,
        Nat.sub_eq_of_eq_add counted⟩
  | false => exact ⟨{ root := root, len := tree.len }, rfl, valid, remaining, counted⟩

theorem get_eq (represents : Represents map tree) (key : Bytes) :
    tree.get key = some (map.find? key) := by
  rw [BTree.get, getRec_spec tree.root represents.valid, represents.entries, find?_entries]

theorem scan_eq (represents : Represents map tree) (pred : Pair → Bool) :
    tree.scan pred = map.entries.filter pred := by
  rw [BTree.scan, collect_eq, represents.entries]

theorem range_eq (represents : Represents map tree) (lo hi : Bytes) :
    tree.range lo hi = some (between lo hi map.entries) := by
  rw [range_eq_between represents.valid, represents.entries]

theorem run (represents : Represents map tree) (updates : List Update) :
    ∃ after, tree.run updates = some (after, (mapRun map updates).2) ∧
      Represents (mapRun map updates).1 after := by
  induction updates generalizing map tree with
  | nil => exact ⟨tree, rfl, represents⟩
  | cons update rest ih =>
      cases update with
      | insert key value =>
          obtain ⟨next, inserted, nextRepresents⟩ := represents.insert key value
          obtain ⟨after, ran, kept⟩ := ih nextRepresents
          refine ⟨after, ?_, kept⟩
          rw [BTree.run, inserted]
          exact ran
      | delete key =>
          obtain ⟨next, deleted, nextRepresents⟩ := represents.delete key
          obtain ⟨after, ran, kept⟩ := ih nextRepresents
          refine ⟨after, ?_, kept⟩
          rw [BTree.run, deleted]
          simp only [Option.bind_eq_bind, Option.bind_some, ran]
          rfl

end Represents

/-- Every sequence of updates on a new tree succeeds and leaves a tree that
answers every lookup, scan and range as the sorted map with the same updates,
and counts its keys; each delete reported whether its key was there. -/
theorem run_refines_map (updates : List Update) :
    ∃ tree, BTree.new.run updates = some (tree, (mapRun SortedMap.empty updates).2) ∧
      tree.len = (mapRun SortedMap.empty updates).1.size ∧
      (∀ key, tree.get key = some ((mapRun SortedMap.empty updates).1.find? key)) ∧
      (∀ pred, tree.scan pred = (mapRun SortedMap.empty updates).1.entries.filter pred) ∧
      ∀ lo hi, tree.range lo hi =
        some (between lo hi (mapRun SortedMap.empty updates).1.entries) := by
  obtain ⟨tree, ran, represents⟩ := Represents.new.run updates
  exact ⟨tree, ran, represents.len, represents.get_eq, represents.scan_eq, represents.range_eq⟩

end Keystory.BTreeStore
