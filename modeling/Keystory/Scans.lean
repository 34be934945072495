/-
Prefix and range scans of a snapshot, and the prefix scan of the replicated
cluster. The snapshot computes where the keys with a prefix end; the cluster
walks on while the keys still have it. Both list the same entries.
-/

import Keystory.General.LexPrefix
import Keystory.General.Search
import Keystory.Raft.Cluster

namespace Keystory

open General

/-! ### Ranges of a map -/

inductive Bound (Key : Type) where
  | included (key : Key)
  | excluded (key : Key)
  | unbounded

section Range

variable {Key Value : Type} [LinearOrder Key]

def Bound.startsBefore : Bound Key → Key → Bool
  | .included low, key => decide (low ≤ key)
  | .excluded low, key => decide (low < key)
  | .unbounded, _ => true

def Bound.endsAfter : Bound Key → Key → Bool
  | .included high, key => decide (key ≤ high)
  | .excluded high, key => decide (key < high)
  | .unbounded, _ => true

/-- The bounds that `BTreeMap::range` panics on. -/
def Bound.inverted : Bound Key → Bound Key → Bool
  | .excluded low, .excluded high => decide (high ≤ low)
  | .included low, .included high => decide (high < low)
  | .included low, .excluded high => decide (high < low)
  | .excluded low, .included high => decide (high < low)
  | _, _ => false

/-- `BTreeMap::range`: the entries within the bounds in order; none is the panic. -/
def mapRange (map : SortedMap Key Value) (low high : Bound Key) : Option (List (Key × Value)) :=
  if low.inverted high then none
  else some (map.entries.filter
    (fun entry => low.startsBefore entry.1 && high.endsAfter entry.1))

end Range

/-! ### Iterators -/

/-- What an `Entries` iterator has yet to yield. -/
structure Entries where
  inner : List (Bytes × Entry)

namespace Entries

def item (entry : Bytes × Entry) : Bytes × Bytes := (entry.1, entry.2.value)

def next (entries : Entries) : Option ((Bytes × Bytes) × Entries) :=
  match entries.inner with
  | [] => none
  | entry :: rest => some (item entry, ⟨rest⟩)

def nextBack (entries : Entries) : Option ((Bytes × Bytes) × Entries) :=
  match entries.inner.getLast? with
  | none => none
  | some entry => some (item entry, ⟨entries.inner.dropLast⟩)

end Entries

/-- The end of an iterator that a call takes from. -/
inductive Side where
  | front
  | back
deriving DecidableEq, Repr

/-- What calls of `next` and `next_back` have yielded, and what they left. -/
structure Drained where
  front : List (Bytes × Bytes)
  back : List (Bytes × Bytes)
  left : Entries

def Drained.call (drained : Drained) : Side → Drained
  | .front =>
      match drained.left.next with
      | none => drained
      | some (item, left) => { drained with front := drained.front ++ [item], left }
  | .back =>
      match drained.left.nextBack with
      | none => drained
      | some (item, left) => { drained with back := drained.back ++ [item], left }

def Drained.parts (drained : Drained) : List (Bytes × Bytes) :=
  drained.front ++ drained.left.inner.map Entries.item ++ drained.back.reverse

def Entries.drain (entries : Entries) (sides : List Side) : Drained :=
  sides.foldl Drained.call ⟨[], [], entries⟩

/-! ### Scans -/

/-- The loop of `prefix_end`, with the bytes from the last to the first. -/
def bumpLast : Bytes → Option Bytes
  | [] => none
  | last :: rest => if last < 255 then some ((last + 1) :: rest) else bumpLast rest

def prefixEnd (pref : Bytes) : Option Bytes := (bumpLast pref.reverse).map List.reverse

namespace Snapshot

def scan (snapshot : Snapshot) (pref : Bytes) : Option Entries :=
  (match prefixEnd pref with
    | some ending => mapRange snapshot.data (.included pref) (.excluded ending)
    | none => mapRange snapshot.data (.included pref) .unbounded).map Entries.mk

def rangeScan (snapshot : Snapshot) (low high : Bytes) : Option Entries :=
  let high := if low < high then high else low
  (mapRange snapshot.data (.included low) (.excluded high)).map Entries.mk

/-- The live entries whose key passes a test, each once and in ascending order. -/
structure Selects (snapshot : Snapshot) (test : Bytes → Prop)
    (found : List (Bytes × Bytes)) : Prop where
  mem_iff : ∀ key value, (key, value) ∈ found ↔ snapshot.get key = some value ∧ test key
  ascending : found.Pairwise (fun left right => left.1 < right.1)

end Snapshot

/-- However its two ends are called, an iterator yields a list from both ends inwards, and has
nothing left after as many calls as the list is long. -/
structure Entries.Yields (entries : Entries) (found : List (Bytes × Bytes)) : Prop where
  parts : ∀ sides, (entries.drain sides).parts = found
  done : ∀ sides, found.length ≤ sides.length → (entries.drain sides).left.inner = []

/-! ### The end of a prefix -/

theorem isTop_of_not_lt {byte : UInt8} (high : ¬ byte < 255) : IsTop byte := by
  intro other
  have bound := other.toNat_lt
  rw [UInt8.lt_iff_toNat_lt] at high
  change ¬ byte.toNat < 255 at high
  rw [UInt8.le_iff_toNat_le]
  omega

theorem covBy_succ {byte : UInt8} (low : byte < 255) : byte ⋖ byte + 1 := by
  have small : byte.toNat < 255 := low
  have next : (byte + 1).toNat = byte.toNat + 1 := by
    rw [UInt8.toNat_add]
    exact Nat.mod_eq_of_lt (Nat.succ_lt_succ small)
  constructor
  · rw [UInt8.lt_iff_toNat_lt]
    omega
  · intro other above below
    rw [UInt8.lt_iff_toNat_lt] at above below
    omega

theorem prefixEnd_concat (front : Bytes) (last : UInt8) :
    prefixEnd (front ++ [last]) =
      if last < 255 then some (front ++ [last + 1]) else prefixEnd front := by
  rw [prefixEnd, List.reverse_append, List.reverse_singleton, List.singleton_append, bumpLast]
  split
  · rw [Option.map_some, List.reverse_cons, List.reverse_reverse]
  · rfl

/-- There is no end if every byte is `0xFF`; else the last other byte is incremented. -/
theorem prefixEnd_cases (pref : Bytes) :
    (prefixEnd pref = none ∧ ∀ byte ∈ pref, IsTop byte) ∨
      ∃ body last tail, pref = body ++ last :: tail ∧ last ⋖ last + 1 ∧
        (∀ byte ∈ tail, IsTop byte) ∧ prefixEnd pref = some (body ++ [last + 1]) := by
  -- from the last byte on, in the order in which the loop pops them
  induction pref using List.reverseRecOn with
  | nil => exact Or.inl ⟨rfl, by simp⟩
  | append_singleton front last ih =>
      rw [prefixEnd_concat]
      by_cases low : last < 255
      · rw [if_pos low]
        exact Or.inr ⟨front, last, [], rfl, covBy_succ low, by simp, rfl⟩
      · rw [if_neg low]
        have top := isTop_of_not_lt low
        rcases ih with ⟨endless, all⟩ | ⟨body, other, tail, rfl, cover, rest, ending⟩
        · refine Or.inl ⟨endless, ?_⟩
          intro byte member
          rcases List.mem_append.mp member with before | here
          · exact all byte before
          · exact List.mem_singleton.mp here ▸ top
        · refine Or.inr ⟨body, other, tail ++ [last], by simp, cover, ?_, ending⟩
          intro byte member
          rcases List.mem_append.mp member with before | here
          · exact rest byte before
          · exact List.mem_singleton.mp here ▸ top

/-! ### What the scans list -/

section Listing

variable (snapshot : Snapshot)

theorem Snapshot.scan_eq (pref : Bytes) :
    snapshot.scan pref =
      some ⟨snapshot.data.entries.filter (fun entry => pref.isPrefixOf entry.1)⟩ := by
  unfold scan
  rcases prefixEnd_cases pref with ⟨endless, all⟩ | ⟨body, last, tail, same, cover, rest, ending⟩
  · rw [endless]
    dsimp only
    rw [mapRange, if_neg (by simp [Bound.inverted]), Option.map_some]
    congr 3
    funext entry
    rw [Bool.eq_iff_iff, List.isPrefixOf_iff_prefix, isPrefix_iff_le_of_isTop all]
    simp [Bound.startsBefore, Bound.endsAfter]
  · have between : ∀ key, pref <+: key ↔ pref ≤ key ∧ key < body ++ [last + 1] := by
      rw [same]
      exact isPrefix_iff_between cover rest
    have ordered : pref < body ++ [last + 1] := ((between pref).mp (List.prefix_refl pref)).2
    rw [ending]
    dsimp only
    rw [mapRange, if_neg (by simpa [Bound.inverted] using le_of_lt ordered), Option.map_some]
    congr 3
    funext entry
    rw [Bool.eq_iff_iff, List.isPrefixOf_iff_prefix, between]
    simp [Bound.startsBefore, Bound.endsAfter]

theorem Snapshot.rangeScan_eq (low high : Bytes) :
    snapshot.rangeScan low high = some ⟨snapshot.data.entries.filter
      (fun entry => decide (low ≤ entry.1) && decide (entry.1 < high))⟩ := by
  unfold rangeScan
  dsimp only
  by_cases order : low < high
  · rw [if_pos order, mapRange, if_neg (by simpa [Bound.inverted] using le_of_lt order),
      Option.map_some]
    congr 3
    funext entry
    rw [Bool.eq_iff_iff]
    simp [Bound.startsBefore, Bound.endsAfter]
  · rw [if_neg order, mapRange, if_neg (by simp [Bound.inverted]), Option.map_some]
    congr 3
    funext entry
    have inside : ¬ (low ≤ entry.1 ∧ entry.1 < high) :=
      fun both => order (lt_of_le_of_lt both.1 both.2)
    have empty : ¬ (low ≤ entry.1 ∧ entry.1 < low) :=
      fun both => absurd both.2 (not_lt_of_ge both.1)
    rw [Bool.eq_iff_iff]
    simpa [Bound.startsBefore, Bound.endsAfter] using iff_of_false empty inside

theorem scanFrom_eq (state : Map) (pref : Bytes) :
    Raft.Inner.scanFrom state pref =
      (state.entries.filter (fun entry => pref.isPrefixOf entry.1)).map Entries.item := by
  have lower : Partitioned (fun entry : Bytes × Entry => decide (entry.1 < pref)) state.entries :=
    partitioned_lt Prod.fst state.sorted pref
  -- from the first key that is not below the prefix on, those that have it come first
  have started : Partitioned (fun entry : Bytes × Entry => pref.isPrefixOf entry.1)
      (state.entries.filter (fun entry => !decide (entry.1 < pref))) := by
    refine List.Pairwise.imp_of_mem ?_ (state.sorted.filter _)
    intro left right member _ below starts
    have above : pref ≤ left.1 := by simpa using (List.mem_filter.mp member).2
    rw [List.isPrefixOf_iff_prefix] at starts ⊢
    exact isPrefix_of_le_of_le starts above (le_of_lt below)
  rw [Raft.Inner.scanFrom, lower.dropWhile_eq, started.takeWhile_eq, List.filter_filter]
  change (state.entries.filter _).map Entries.item = _
  congr 2
  funext entry
  rw [Bool.and_eq_left_iff_imp, List.isPrefixOf_iff_prefix]
  intro starts
  simpa using le_of_isPrefix starts

end Listing

/-! ### Both ends of an iterator -/

theorem Drained.call_parts (drained : Drained) (side : Side) :
    (drained.call side).parts = drained.parts ∧
      (drained.call side).left.inner.length = drained.left.inner.length - 1 := by
  obtain ⟨front, back, ⟨inner⟩⟩ := drained
  cases side with
  | front =>
      cases inner with
      | nil => exact ⟨rfl, rfl⟩
      | cons entry rest => simp [call, Entries.next, parts]
  | back =>
      rcases List.eq_nil_or_concat' inner with rfl | ⟨rest, entry, rfl⟩
      · exact ⟨rfl, rfl⟩
      · simp [call, Entries.nextBack, parts]

theorem Drained.foldl_call (sides : List Side) (drained : Drained) :
    (sides.foldl Drained.call drained).parts = drained.parts ∧
      (sides.foldl Drained.call drained).left.inner.length =
        drained.left.inner.length - sides.length := by
  induction sides generalizing drained with
  | nil => exact ⟨rfl, rfl⟩
  | cons side sides ih =>
      obtain ⟨parts, length⟩ := drained.call_parts side
      obtain ⟨allParts, allLength⟩ := ih (drained.call side)
      rw [List.foldl_cons, List.length_cons]
      exact ⟨allParts.trans parts, by omega⟩

theorem Entries.yields (inner : List (Bytes × Entry)) :
    Entries.Yields ⟨inner⟩ (inner.map Entries.item) where
  parts := by
    intro sides
    rw [drain, (Drained.foldl_call sides _).1]
    simp [Drained.parts]
  done := by
    intro sides enough
    rw [List.length_map] at enough
    apply List.eq_nil_of_length_eq_zero
    rw [drain, (Drained.foldl_call sides _).2]
    exact Nat.sub_eq_zero_of_le enough

/-! ### The scans -/

theorem Snapshot.selects_filter (snapshot : Snapshot) (test : Bytes → Bool) :
    snapshot.Selects (fun key => test key = true)
      ((snapshot.data.entries.filter (fun entry => test entry.1)).map Entries.item) where
  mem_iff := by
    intro key value
    simp only [List.mem_map, List.mem_filter, Snapshot.get, Option.map_eq_some_iff,
      SortedMap.find?_eq_some_iff]
    constructor
    · rintro ⟨⟨found, entry⟩, ⟨member, passes⟩, same⟩
      cases same
      exact ⟨⟨entry, member, rfl⟩, passes⟩
    · rintro ⟨⟨entry, member, rfl⟩, passes⟩
      exact ⟨(key, entry), ⟨member, passes⟩, rfl⟩
  ascending := List.pairwise_map.mpr (snapshot.data.sorted.filter _)

theorem Snapshot.Selects.congr {snapshot : Snapshot} {test other : Bytes → Prop}
    {found : List (Bytes × Bytes)} (selects : snapshot.Selects test found)
    (same : ∀ key, test key ↔ other key) : snapshot.Selects other found where
  mem_iff := fun key value => by rw [selects.mem_iff, same]
  ascending := selects.ascending

theorem scan_of_leader {g ready after : Raft.Inner} {leader : Raft.NodeId}
    (led : g.ensureLeader = some (ready, .ok leader))
    (synced : ready.syncLiveFollowers leader = some after) (pref : Bytes) :
    g.scan pref = some (after, .ok (Raft.Inner.scanFrom (after.nodes leader).state pref)) := by
  unfold Raft.Inner.scan
  simp [led, synced]

/-- A prefix scan never panics and lists exactly the live entries whose key has the prefix, and
a cluster whose leader ends up with the same map lists the same; a range scan never panics and
lists exactly the live entries between its bounds. -/
theorem scans_select (snapshot : Snapshot) :
    (∀ pref, ∃ entries found, snapshot.scan pref = some entries ∧ entries.Yields found ∧
      snapshot.Selects (fun key => pref <+: key) found ∧
      ∀ (g ready after : Raft.Inner) (leader : Raft.NodeId),
        g.ensureLeader = some (ready, .ok leader) →
        ready.syncLiveFollowers leader = some after →
        (after.nodes leader).state = snapshot.data →
        g.scan pref = some (after, .ok found)) ∧
      ∀ low high, ∃ entries found, snapshot.rangeScan low high = some entries ∧
        entries.Yields found ∧
        snapshot.Selects (fun key => low ≤ key ∧ key < high) found := by
  constructor
  · intro pref
    refine ⟨_, _, snapshot.scan_eq pref, Entries.yields _, ?_, ?_⟩
    · refine (snapshot.selects_filter (fun key => pref.isPrefixOf key)).congr ?_
      exact fun key => List.isPrefixOf_iff_prefix
    · intro g ready after leader led synced same
      rw [scan_of_leader led synced, scanFrom_eq, same]
  · intro low high
    refine ⟨_, _, snapshot.rangeScan_eq low high, Entries.yields _, ?_⟩
    refine (snapshot.selects_filter (fun key => decide (low ≤ key) && decide (key < high))).congr ?_
    intro key
    rw [Bool.and_eq_true, decide_eq_true_eq, decide_eq_true_eq]

/-- One node, two keys of `0xFF` bytes and one below them: both scans find the former. -/
theorem scans_select_on_one_node :
    ∃ (g after : Raft.Inner) (trace : List (Raft.Call × Raft.Reply))
      (found : List (Bytes × Bytes)),
      (Raft.Inner.new 1).run [.put [255, 255] [3], .put [254] [1], .put [255] [2]] =
        some (g, trace) ∧
      g.scan [255] = some (after, .ok found) ∧ ([255], [2]) ∈ found ∧ ([255, 255], [3]) ∈ found ∧
      ([254], [1]) ∉ found := by
  let calls : List Raft.Call := [.put [255, 255] [3], .put [254] [1], .put [255] [2]]
  have observed : ((Raft.Inner.new 1).run calls).bind (fun ran =>
      ran.1.ensureLeader.bind (fun led => led.2.toOption.bind (fun leader =>
        (led.1.syncLiveFollowers leader).map (fun after =>
          (after.nodes leader).state.entries.map Entries.item)))) =
      some [([254], [1]), ([255], [2]), ([255, 255], [3])] := by
    decide +kernel
  obtain ⟨⟨g, trace⟩, ran, observed⟩ := Option.bind_eq_some_iff.mp observed
  obtain ⟨⟨ready, result⟩, led, observed⟩ := Option.bind_eq_some_iff.mp observed
  obtain ⟨leader, elected, observed⟩ := Option.bind_eq_some_iff.mp observed
  obtain ⟨after, synced, listed⟩ := Option.map_eq_some_iff.mp observed
  cases result with
  | error failure => cases elected
  | ok chosen =>
      cases elected
      obtain ⟨scans, _⟩ := scans_select ⟨3, (after.nodes leader).state⟩
      obtain ⟨_, found, _, _, selects, listedBy⟩ := scans [255]
      have live : ∀ key value, (⟨3, (after.nodes leader).state⟩ : Snapshot).get key = some value ↔
          (key, value) ∈ [([254], [1]), ([255], [2]), ([255, 255], [3])] := by
        intro key value
        rw [← listed, Snapshot.get, Option.map_eq_some_iff]
        simp [SortedMap.find?_eq_some_iff, Entries.item]
      refine ⟨g, after, trace, found, ran, listedBy g ready after leader led synced rfl, ?_⟩
      rw [selects.mem_iff, selects.mem_iff, selects.mem_iff, live, live, live]
      decide

end Keystory
