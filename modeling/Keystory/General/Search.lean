/-
Lists sorted by a key: the stable sort, and the binary search for where the
elements that satisfy a predicate end.
-/

import Mathlib.Data.List.Sort

namespace Keystory.General

variable {Item : Type}

/-! ### Sorting by a key -/

def sortByKey (key : Item → Nat) (items : List Item) : List Item :=
  items.insertionSort (fun left right => key left ≤ key right)

section ByKey

variable (key : Item → Nat)

instance total_byKey : Std.Total (fun left right : Item => key left ≤ key right) :=
  ⟨fun left right => Nat.le_total (key left) (key right)⟩

instance isTrans_byKey : IsTrans Item (fun left right => key left ≤ key right) :=
  ⟨fun _ _ _ => Nat.le_trans⟩

theorem pairwise_sortByKey (items : List Item) :
    (sortByKey key items).Pairwise (fun left right => key left ≤ key right) :=
  List.pairwise_insertionSort _ items

theorem filter_sortByKey (items : List Item) (value : Nat) :
    (sortByKey key items).filter (fun item => key item = value) =
      items.filter (fun item => key item = value) := by
  have ordered : (items.filter (fun item => key item = value)).Pairwise
      (fun left right => key left ≤ key right) := by
    rw [List.pairwise_iff_forall_sublist]
    intro left right among
    have leftKey := List.of_mem_filter (among.subset List.mem_cons_self)
    have rightKey := List.of_mem_filter
      (among.subset (List.mem_cons_of_mem left List.mem_cons_self))
    simp only [decide_eq_true_eq] at leftKey rightKey
    omega
  have kept := List.sublist_insertionSort ordered List.filter_sublist
  have inside := kept.filter (fun item => key item = value)
  rw [List.filter_filter] at inside
  simp only [Bool.and_self] at inside
  have same := ((List.perm_insertionSort (fun left right => key left ≤ key right) items).filter
    (fun item => key item = value)).length_eq
  exact (inside.eq_of_length same.symm).symm

theorem filter_le_succ {items : List Item}
    (sorted : items.Pairwise (fun left right => key left ≤ key right)) (bound : Nat) :
    items.filter (fun item => key item ≤ bound + 1) =
      items.filter (fun item => key item ≤ bound) ++
        items.filter (fun item => key item = bound + 1) := by
  induction items with
  | nil => rfl
  | cons item items ih =>
      obtain ⟨least, later⟩ := List.pairwise_cons.mp sorted
      rcases Nat.lt_trichotomy (key item) (bound + 1) with below | here | above
      · rw [List.filter_cons_of_pos (by simp; omega), List.filter_cons_of_pos (by simp; omega),
          List.filter_cons_of_neg (by simp; omega), ih later, List.cons_append]
      · have none : items.filter (fun item => key item ≤ bound) = [] := by
          rw [List.filter_eq_nil_iff]
          intro other member
          have order := least other member
          simp only [decide_eq_true_eq]
          omega
        rw [List.filter_cons_of_pos (by simp; omega), List.filter_cons_of_neg (by simp; omega),
          List.filter_cons_of_pos (by simp; omega), ih later, none]
        rfl
      · rw [List.filter_cons_of_neg (by simp; omega), List.filter_cons_of_neg (by simp; omega),
          List.filter_cons_of_neg (by simp; omega), ih later]

end ByKey

/-! ### Binary search -/

/-- The halving loop: the answer stays within `size` positions of `base`. -/
def narrow (test : Nat → Bool) : Nat → Nat → Nat → Nat
  | 0, base, _ => base
  | fuel + 1, base, size =>
      if size ≤ 1 then base
      else
        let half := size / 2
        let mid := base + half
        narrow test fuel (if test mid then mid else base) (size - half)

/-- How many elements satisfy a predicate that holds up to some point and not after. -/
def partitionPoint (pred : Item → Bool) (items : List Item) : Nat :=
  if items.isEmpty then 0
  else
    let test := fun position => (items[position]?).elim false pred
    let base := narrow test items.length 0 items.length
    if test base then base + 1 else base

theorem narrow_bounds {test : Nat → Bool} {cut : Nat} (fuel base size : Nat)
    (spec : ∀ position < base + size, (test position = true ↔ position < cut))
    (enough : size ≤ fuel) (positive : 0 < size) (low : base ≤ cut) (high : cut ≤ base + size) :
    narrow test fuel base size ≤ cut ∧ cut ≤ narrow test fuel base size + 1 ∧
      narrow test fuel base size < base + size := by
  induction fuel generalizing base size with
  | zero => omega
  | succ fuel ih =>
      rw [narrow]
      by_cases single : size ≤ 1
      · rw [if_pos single]
        omega
      · rw [if_neg single]
        dsimp only
        have middle := spec (base + size / 2) (by omega)
        by_cases passed : test (base + size / 2) = true
        · rw [if_pos passed]
          have beyond := middle.mp passed
          have result := ih (base + size / 2) (size - size / 2)
            (fun position within => spec position (by omega)) (by omega) (by omega) (by omega)
            (by omega)
          omega
        · rw [if_neg passed]
          have within : ¬ base + size / 2 < cut := fun inside => passed (middle.mpr inside)
          have result := ih base (size - size / 2)
            (fun position within => spec position (by omega)) (by omega) (by omega) (by omega)
            (by omega)
          omega

section Partition

variable {pred : Item → Bool} {items : List Item}

def Partitioned (pred : Item → Bool) (items : List Item) : Prop :=
  items.Pairwise (fun left right => pred right = true → pred left = true)

theorem partitioned_lt {Key : Type} [Preorder Key] [DecidableLT Key] (key : Item → Key)
    (sorted : items.Pairwise (fun left right => key left < key right)) (bound : Key) :
    Partitioned (fun item => decide (key item < bound)) items :=
  sorted.imp (fun below passes => decide_eq_true (lt_trans below (of_decide_eq_true passes)))

theorem partitioned_le {Key : Type} [Preorder Key] [DecidableLE Key] (key : Item → Key)
    (sorted : items.Pairwise (fun left right => key left ≤ key right)) (bound : Key) :
    Partitioned (fun item => decide (key item ≤ bound)) items :=
  sorted.imp (fun below passes => decide_eq_true (le_trans below (of_decide_eq_true passes)))

theorem Partitioned.filter_cons_neg {item : Item} (partitioned : Partitioned pred (item :: items))
    (fails : ¬ pred item = true) : (item :: items).filter pred = [] := by
  rw [List.filter_cons_of_neg fails, List.filter_eq_nil_iff]
  exact fun other member passes =>
    fails ((List.pairwise_cons.mp partitioned).1 other member passes)

theorem Partitioned.test_iff (partitioned : Partitioned pred items) {position : Nat}
    (within : position < items.length) :
    (items[position]?).elim false pred = true ↔ position < (items.filter pred).length := by
  induction items generalizing position with
  | nil => exact absurd within (Nat.not_lt_zero position)
  | cons item items ih =>
      have later : Partitioned pred items := (List.pairwise_cons.mp partitioned).2
      by_cases passes : pred item = true
      · rw [List.filter_cons_of_pos passes]
        cases position with
        | zero => simp [passes]
        | succ position =>
            rw [List.getElem?_cons_succ, ih later (Nat.lt_of_succ_lt_succ within),
              List.length_cons, Nat.succ_lt_succ_iff]
      · rw [partitioned.filter_cons_neg passes]
        cases position with
        | zero => simp [passes]
        | succ position =>
            have none := partitioned.filter_cons_neg passes
            rw [List.filter_cons_of_neg passes] at none
            rw [List.getElem?_cons_succ, ih later (Nat.lt_of_succ_lt_succ within), none]
            simp

theorem Partitioned.take_length_filter (partitioned : Partitioned pred items) :
    items.take (items.filter pred).length = items.filter pred := by
  induction items with
  | nil => rfl
  | cons item items ih =>
      by_cases passes : pred item = true
      · rw [List.filter_cons_of_pos passes, List.length_cons, List.take_succ_cons,
          ih (List.pairwise_cons.mp partitioned).2]
      · rw [partitioned.filter_cons_neg passes]
        rfl

theorem Partitioned.takeWhile_eq (partitioned : Partitioned pred items) :
    items.takeWhile pred = items.filter pred := by
  induction items with
  | nil => rfl
  | cons item items ih =>
      by_cases passes : pred item = true
      · rw [List.takeWhile_cons_of_pos passes, List.filter_cons_of_pos passes,
          ih (List.pairwise_cons.mp partitioned).2]
      · rw [List.takeWhile_cons_of_neg passes, partitioned.filter_cons_neg passes]

theorem Partitioned.dropWhile_eq (partitioned : Partitioned pred items) :
    items.dropWhile pred = items.filter (fun item => !pred item) := by
  induction items with
  | nil => rfl
  | cons item items ih =>
      obtain ⟨first, later⟩ := List.pairwise_cons.mp partitioned
      by_cases passes : pred item = true
      · rw [List.dropWhile_cons_of_pos passes, List.filter_cons_of_neg (by simp [passes]), ih later]
      · rw [List.dropWhile_cons_of_neg passes, List.filter_eq_self.mpr]
        intro other member
        rcases List.mem_cons.mp member with rfl | inside
        · simp [passes]
        · have fails : ¬ pred other = true := fun other => passes (first _ inside other)
          simp [fails]

theorem Partitioned.partitionPoint_eq (partitioned : Partitioned pred items) :
    partitionPoint pred items = (items.filter pred).length := by
  cases items with
  | nil => rfl
  | cons item items =>
      have spec : ∀ position < 0 + (item :: items).length,
          (((item :: items)[position]?).elim false pred = true ↔
            position < ((item :: items).filter pred).length) :=
        fun position within => partitioned.test_iff (by omega)
      have bounded := List.length_filter_le pred (item :: items)
      obtain ⟨low, high, inside⟩ := narrow_bounds (item :: items).length 0
        (item :: items).length spec (Nat.le_refl _) (Nat.succ_pos _) (Nat.zero_le _) (by omega)
      rw [partitionPoint, if_neg (by simp)]
      dsimp only
      have decided := spec _ inside
      split
      case isTrue passed =>
          have below := decided.mp passed
          omega
      case isFalse failed =>
          have above : ¬ _ < ((item :: items).filter pred).length :=
            fun below => failed (decided.mpr below)
          omega

theorem Partitioned.take_partitionPoint (partitioned : Partitioned pred items) :
    items.take (partitionPoint pred items) = items.filter pred := by
  rw [partitioned.partitionPoint_eq, partitioned.take_length_filter]

theorem Partitioned.partitionPoint_cons_pos {item : Item}
    (partitioned : Partitioned pred (item :: items)) (passes : pred item = true) :
    partitionPoint pred (item :: items) = partitionPoint pred items + 1 := by
  have later : Partitioned pred items := (List.pairwise_cons.mp partitioned).2
  rw [partitioned.partitionPoint_eq, later.partitionPoint_eq, List.filter_cons_of_pos passes,
    List.length_cons]

theorem Partitioned.partitionPoint_cons_neg {item : Item}
    (partitioned : Partitioned pred (item :: items)) (fails : ¬ pred item = true) :
    partitionPoint pred (item :: items) = 0 := by
  rw [partitioned.partitionPoint_eq, partitioned.filter_cons_neg fails, List.length_nil]

/-- On any list at all, the search stays within it. -/
theorem narrow_lt {test : Nat → Bool} (fuel base size : Nat) (positive : 0 < size) :
    narrow test fuel base size < base + size := by
  induction fuel generalizing base size with
  | zero => exact Nat.lt_add_of_pos_right positive
  | succ fuel ih =>
      rw [narrow]
      split_ifs with single
      · exact Nat.lt_add_of_pos_right positive
      · dsimp only
        split_ifs
        · have inside := ih (base + size / 2) (size - size / 2) (by omega)
          omega
        · have inside := ih base (size - size / 2) (by omega)
          omega

theorem partitionPoint_le_length (pred : Item → Bool) (items : List Item) :
    partitionPoint pred items ≤ items.length := by
  cases items with
  | nil => exact Nat.le_refl 0
  | cons item items =>
      rw [partitionPoint, if_neg (by simp)]
      dsimp only
      have inside : narrow (fun position => ((item :: items)[position]?).elim false pred)
          (item :: items).length 0 (item :: items).length < 0 + (item :: items).length :=
        narrow_lt _ _ _ (Nat.succ_pos _)
      split_ifs
      · omega
      · omega

end Partition

end Keystory.General
