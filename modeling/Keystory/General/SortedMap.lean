/-
Finite maps kept as key-sorted association lists.

The entry list carries the proof that its keys strictly increase, so a value of
the type is a map: a key has at most one entry, the listing is the ascending
iteration order, and two maps with the same lookups are the same map.
-/

import Mathlib.Algebra.Ring.Nat
import Mathlib.Data.List.Sort
import Mathlib.Data.List.Lex
import Mathlib.Data.Finset.Card

namespace Keystory.General

/-- A finite map, listed in ascending key order. -/
@[ext] structure SortedMap (Key Value : Type) [LinearOrder Key] where
  entries : List (Key × Value)
  sorted : entries.Pairwise (fun left right => left.1 < right.1)

namespace SortedMap

variable {Key Value : Type} [LinearOrder Key]

instance [DecidableEq Value] : DecidableEq (SortedMap Key Value) := fun left right =>
  decidable_of_iff (left.entries = right.entries) SortedMap.ext_iff.symm

def empty : SortedMap Key Value := ⟨[], List.Pairwise.nil⟩

def find? (map : SortedMap Key Value) (key : Key) : Option Value :=
  map.entries.lookup key

def size (map : SortedMap Key Value) : Nat := map.entries.length

def keys (map : SortedMap Key Value) : List Key := map.entries.map Prod.fst

def values (map : SortedMap Key Value) : List Value := map.entries.map Prod.snd

/-! ### Lookups and entries -/

private theorem lookup_eq_some_iff_mem (entries : List (Key × Value))
    (sorted : entries.Pairwise (fun left right => left.1 < right.1))
    (key : Key) (value : Value) :
    entries.lookup key = some value ↔ (key, value) ∈ entries := by
  induction entries with
  | nil => simp
  | cons head tail ih =>
      obtain ⟨below, tailSorted⟩ := List.pairwise_cons.mp sorted
      rw [List.lookup_cons, List.mem_cons]
      by_cases same : key = head.1
      · subst same
        simp only [beq_self_eq_true, Option.some.injEq]
        constructor
        · intro found
          exact Or.inl (by rw [← found])
        · rintro (atHead | inTail)
          · rw [← atHead]
          · exact absurd (below _ inTail) (lt_irrefl _)
      · have different : (key == head.1) = false := beq_eq_false_iff_ne.mpr same
        rw [different]
        simp only [ih tailSorted]
        constructor
        · exact Or.inr
        · rintro (atHead | inTail)
          · exact absurd (congrArg Prod.fst atHead) same
          · exact inTail

theorem find?_eq_some_iff (map : SortedMap Key Value) (key : Key) (value : Value) :
    map.find? key = some value ↔ (key, value) ∈ map.entries :=
  lookup_eq_some_iff_mem map.entries map.sorted key value

theorem find?_eq_none_iff (map : SortedMap Key Value) (key : Key) :
    map.find? key = none ↔ ∀ value, (key, value) ∉ map.entries := by
  rw [Option.eq_none_iff_forall_ne_some]
  simp only [ne_eq, find?_eq_some_iff]

@[simp] theorem find?_empty (key : Key) :
    (empty : SortedMap Key Value).find? key = none := rfl

/-- Equal lookups give equal listings: the ascending order leaves no choice. -/
theorem ext_find? {left right : SortedMap Key Value}
    (same : ∀ key, left.find? key = right.find? key) : left = right := by
  have strict : ∀ map : SortedMap Key Value, map.entries.Nodup := fun map =>
    map.sorted.imp (fun below equal => absurd below (by rw [equal]; exact lt_irrefl _))
  have members : ∀ entry, entry ∈ left.entries ↔ entry ∈ right.entries := by
    rintro ⟨key, value⟩
    rw [← find?_eq_some_iff, ← find?_eq_some_iff, same]
  apply SortedMap.ext
  refine List.Perm.eq_of_pairwise ?_ left.sorted right.sorted
    ((List.perm_ext_iff_of_nodup (strict left) (strict right)).mpr members)
  intro first second _ _ below above
  exact absurd (lt_trans below above) (lt_irrefl _)

/-! ### Insertion -/

def insertEntry (key : Key) (value : Value) : List (Key × Value) → List (Key × Value)
  | [] => [(key, value)]
  | head :: tail =>
      if key < head.1 then (key, value) :: head :: tail
      else if key = head.1 then (key, value) :: tail
      else head :: insertEntry key value tail

theorem mem_of_mem_insertEntry (key : Key) (value : Value) (entries : List (Key × Value))
    (entry : Key × Value) (member : entry ∈ insertEntry key value entries) :
    entry = (key, value) ∨ entry ∈ entries := by
  induction entries with
  | nil => exact Or.inl (List.mem_singleton.mp member)
  | cons head tail ih =>
      unfold insertEntry at member
      split at member
      · exact List.mem_cons.mp member
      · split at member
        · rcases List.mem_cons.mp member with atHead | inTail
          · exact Or.inl atHead
          · exact Or.inr (List.mem_cons_of_mem head inTail)
        · rcases List.mem_cons.mp member with atHead | inTail
          · exact Or.inr (atHead ▸ List.mem_cons_self)
          · exact (ih inTail).imp_right (List.mem_cons_of_mem head)

theorem insertEntry_sorted (key : Key) (value : Value) (entries : List (Key × Value))
    (sorted : entries.Pairwise (fun left right => left.1 < right.1)) :
    (insertEntry key value entries).Pairwise (fun left right => left.1 < right.1) := by
  induction entries with
  | nil => exact List.pairwise_singleton _ _
  | cons head tail ih =>
      obtain ⟨below, tailSorted⟩ := List.pairwise_cons.mp sorted
      unfold insertEntry
      split
      · rename_i before
        refine List.pairwise_cons.mpr ⟨fun entry member => ?_, sorted⟩
        rcases List.mem_cons.mp member with atHead | inTail
        · rw [atHead]; exact before
        · exact lt_trans before (below entry inTail)
      · rename_i notBefore
        split
        · rename_i same
          exact List.pairwise_cons.mpr
            ⟨fun entry member => same ▸ below entry member, tailSorted⟩
        · rename_i different
          refine List.pairwise_cons.mpr ⟨fun entry member => ?_, ih tailSorted⟩
          rcases mem_of_mem_insertEntry key value tail entry member with atKey | inTail
          · rw [atKey]
            exact lt_of_le_of_ne (not_lt.mp notBefore) (Ne.symm different)
          · exact below entry inTail

theorem insertEntry_append_of_lt {key : Key} (value : Value) {first : List (Key × Value)}
    (below : ∀ entry ∈ first, entry.1 < key) (second : List (Key × Value)) :
    insertEntry key value (first ++ second) = first ++ insertEntry key value second := by
  induction first with
  | nil => rfl
  | cons head tail ih =>
      have headBelow := below head List.mem_cons_self
      rw [List.cons_append, insertEntry, if_neg (not_lt_of_gt headBelow),
        if_neg (ne_of_gt headBelow), List.cons_append,
        ih (fun entry member => below entry (List.mem_cons_of_mem head member))]

theorem insertEntry_append_of_gt {key : Key} (value : Value) (first : List (Key × Value))
    {second : List (Key × Value)} (above : ∀ entry ∈ second, key < entry.1) :
    insertEntry key value (first ++ second) = insertEntry key value first ++ second := by
  induction first with
  | nil =>
      cases second with
      | nil => rfl
      | cons head tail =>
          simp only [List.nil_append, insertEntry, if_pos (above head List.mem_cons_self),
            List.singleton_append]
  | cons head tail ih =>
      rw [List.cons_append]
      unfold insertEntry
      split
      · rfl
      · split
        · rfl
        · rw [ih, List.cons_append]

def insert (map : SortedMap Key Value) (key : Key) (value : Value) : SortedMap Key Value :=
  ⟨insertEntry key value map.entries, insertEntry_sorted key value map.entries map.sorted⟩

private theorem lookup_insertEntry (key other : Key) (value : Value)
    (entries : List (Key × Value)) :
    (insertEntry key value entries).lookup other =
      if other = key then some value else entries.lookup other := by
  induction entries with
  | nil =>
      by_cases same : other = key
      · simp [insertEntry, same]
      · simp [insertEntry, List.lookup_cons, beq_eq_false_iff_ne.mpr same, same]
  | cons head tail ih =>
      unfold insertEntry
      by_cases same : other = key
      · subst same
        split
        · simp
        · rename_i notBefore
          split
          · simp
          · rename_i different
            rw [List.lookup_cons, beq_eq_false_iff_ne.mpr different]
            simpa using ih
      · have different : (other == key) = false := beq_eq_false_iff_ne.mpr same
        rw [if_neg same] at ih ⊢
        split
        · rw [List.lookup_cons, different]
        · split
          · rename_i atHead
            rw [List.lookup_cons, List.lookup_cons, different, ← atHead, different]
          · rw [List.lookup_cons, List.lookup_cons, ih]

@[simp] theorem find?_insert (map : SortedMap Key Value) (key other : Key) (value : Value) :
    (map.insert key value).find? other = if other = key then some value else map.find? other :=
  lookup_insertEntry key other value map.entries

private theorem insertEntry_perm {key : Key} (value : Value) {entries : List (Key × Value)}
    (absent : ∀ other, (key, other) ∉ entries) :
    (insertEntry key value entries).Perm ((key, value) :: entries) := by
  induction entries with
  | nil => exact List.Perm.refl _
  | cons head tail ih =>
      unfold insertEntry
      split_ifs with before same
      · exact List.Perm.refl _
      · exact absurd (by rw [same]; exact List.mem_cons_self) (absent head.2)
      · have rest := ih (fun other member => absent other (List.mem_cons_of_mem head member))
        exact (rest.cons head).trans (List.Perm.swap _ _ _)

theorem entries_insert_perm {map : SortedMap Key Value} {key : Key} (absent : map.find? key = none)
    (value : Value) : (map.insert key value).entries.Perm ((key, value) :: map.entries) :=
  insertEntry_perm value ((find?_eq_none_iff map key).mp absent)

private theorem length_insertEntry_le (key : Key) (value : Value) (entries : List (Key × Value)) :
    (insertEntry key value entries).length ≤ entries.length + 1 := by
  induction entries with
  | nil => exact Nat.le_refl 1
  | cons head tail ih =>
      unfold insertEntry
      split
      · exact Nat.le_refl _
      · split
        · exact Nat.le_succ _
        · exact Nat.succ_le_succ ih

theorem size_insert_le (map : SortedMap Key Value) (key : Key) (value : Value) :
    (map.insert key value).size ≤ map.size + 1 :=
  length_insertEntry_le key value map.entries

/-! ### Removal -/

def erase (map : SortedMap Key Value) (key : Key) : SortedMap Key Value :=
  ⟨map.entries.filter (fun entry => entry.1 ≠ key), map.sorted.filter _⟩

@[simp] theorem find?_erase (map : SortedMap Key Value) (key other : Key) :
    (map.erase key).find? other = if other = key then none else map.find? other := by
  ext value
  rw [find?_eq_some_iff]
  simp only [erase, List.mem_filter, decide_eq_true_eq]
  by_cases same : other = key
  · simp [same]
  · simp only [ne_eq, same, not_false_eq_true, and_true, if_false, find?_eq_some_iff]

theorem size_erase_le (map : SortedMap Key Value) (key : Key) : (map.erase key).size ≤ map.size :=
  List.length_filter_le _ _

/-! ### Changing every value -/

def mapValues {Image : Type} (change : Value → Image) (map : SortedMap Key Value) :
    SortedMap Key Image :=
  ⟨map.entries.map (fun entry => (entry.1, change entry.2)), List.pairwise_map.mpr map.sorted⟩

@[simp] theorem find?_mapValues {Image : Type} (change : Value → Image)
    (map : SortedMap Key Value) (key : Key) :
    (map.mapValues change).find? key = (map.find? key).map change := by
  change (map.entries.map (fun entry => (entry.1, change entry.2))).lookup key =
    (map.entries.lookup key).map change
  induction map.entries with
  | nil => rfl
  | cons entry entries ih =>
      rw [List.map_cons, List.lookup_cons, List.lookup_cons, ih]
      cases key == entry.1 <;> rfl

/-! ### Known listings -/

section Listing

variable {map : SortedMap Key Value} {front back : List (Key × Value)} {key other : Key}
  {value : Value}

theorem find?_of_entries (listing : map.entries = front ++ (key, value) :: back) :
    map.find? key = some value := by
  rw [find?_eq_some_iff, listing]
  simp

theorem lt_of_entries (listing : map.entries = front ++ (key, value) :: back) :
    (∀ entry ∈ front, entry.1 < key) ∧ ∀ entry ∈ back, key < entry.1 := by
  have sorted := map.sorted
  rw [listing, List.pairwise_append, List.pairwise_cons] at sorted
  exact ⟨fun entry member => sorted.2.2 entry member _ List.mem_cons_self, sorted.2.1.1⟩

theorem entries_erase (listing : map.entries = front ++ (key, value) :: back) :
    (map.erase key).entries = front ++ back := by
  obtain ⟨below, above⟩ := lt_of_entries listing
  change map.entries.filter (fun entry => entry.1 ≠ key) = _
  rw [listing, List.filter_append, List.filter_cons_of_neg (by simp),
    List.filter_eq_self.mpr (fun entry member => by simp [ne_of_lt (below entry member)]),
    List.filter_eq_self.mpr (fun entry member => by simp [ne_of_gt (above entry member)])]

theorem size_insert_of_entries (listing : map.entries = front ++ (key, value) :: back)
    (new : Value) : (map.insert key new).size = map.size := by
  change (insertEntry key new map.entries).length = map.entries.length
  rw [listing, insertEntry_append_of_lt new (lt_of_entries listing).1]
  simp [insertEntry]

theorem entries_insert_last (listing : map.entries = front ++ [(key, value)]) (new : Value) :
    (map.insert key new).entries = front ++ [(key, new)] := by
  change insertEntry key new map.entries = _
  rw [listing, insertEntry_append_of_lt new (lt_of_entries listing).1]
  simp [insertEntry]

theorem lt_of_last (listing : map.entries = front ++ [(key, value)]) (beyond : key < other)
    (entry : Key × Value) (member : entry ∈ map.entries) : entry.1 < other := by
  rw [listing, List.mem_append, List.mem_singleton] at member
  rcases member with inFront | isLast
  · exact lt_trans ((lt_of_entries listing).1 entry inFront) beyond
  · rw [isLast]
    exact beyond

theorem find?_beyond (listing : map.entries = front ++ [(key, value)]) (beyond : key < other) :
    map.find? other = none := by
  rw [find?_eq_none_iff]
  intro found member
  exact lt_irrefl _ (lt_of_last listing beyond (other, found) member)

theorem entries_insert_above (above : ∀ entry ∈ map.entries, entry.1 < other) (new : Value) :
    (map.insert other new).entries = map.entries ++ [(other, new)] := by
  change insertEntry other new map.entries = _
  have placed := insertEntry_append_of_lt new above []
  rw [List.append_nil] at placed
  rw [placed]
  rfl

theorem entries_insert_beyond (listing : map.entries = front ++ [(key, value)])
    (beyond : key < other) (new : Value) :
    (map.insert other new).entries = front ++ [(key, value)] ++ [(other, new)] := by
  rw [entries_insert_above (lt_of_last listing beyond), listing]

theorem keys_sorted (map : SortedMap Key Value) : map.keys.Pairwise (· < ·) :=
  List.Pairwise.map Prod.fst (fun _ _ below => below) map.sorted

end Listing

/-! ### Counting values -/

def keysWhere (map : SortedMap Key Value) (test : Value → Bool) : Finset Key :=
  ((map.entries.filter (fun entry => test entry.2)).map Prod.fst).toFinset

theorem mem_keysWhere (map : SortedMap Key Value) (test : Value → Bool) (key : Key) :
    key ∈ map.keysWhere test ↔ ∃ value, map.find? key = some value ∧ test value = true := by
  simp only [keysWhere, List.mem_toFinset, List.mem_map, List.mem_filter, find?_eq_some_iff]
  constructor
  · rintro ⟨⟨_, value⟩, ⟨member, passes⟩, rfl⟩
    exact ⟨value, member, passes⟩
  · rintro ⟨value, member, passes⟩
    exact ⟨(key, value), ⟨member, passes⟩, rfl⟩

theorem card_keysWhere (map : SortedMap Key Value) (test : Value → Bool) :
    (map.keysWhere test).card = (map.values.filter test).length := by
  have distinct : ((map.entries.filter (fun entry => test entry.2)).map Prod.fst).Nodup :=
    List.Pairwise.map Prod.fst (fun _ _ below => ne_of_lt below) (map.sorted.filter _)
  unfold keysWhere
  rw [List.toFinset_card_of_nodup distinct, List.length_map]
  unfold values
  rw [List.filter_map, List.length_map]
  rfl

end SortedMap

end Keystory.General
