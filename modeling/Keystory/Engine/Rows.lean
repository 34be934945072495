/-
The records of an undisturbed log by the segments they are in. A checkpoint names
the place where the log after it begins; appends, rotations and the removal of
older segments keep that place, and an open finds it again.
-/

import Keystory.Engine.History
import Keystory.Wal.Intact

namespace Keystory

open General Wal

/-! ### Segments in a row -/

def Consecutive (numbers : List Nat) : Prop :=
  ∃ first, numbers = List.range' first numbers.length

section Consecutive

variable {front back : List Nat} {last seq : Nat}

theorem Consecutive.exists_first (consecutive : Consecutive (front ++ [last])) :
    ∃ first, last = first + front.length ∧
      front ++ [last] = List.range' first (front.length + 1) := by
  obtain ⟨first, listing⟩ := consecutive
  rw [List.length_append, List.length_singleton] at listing
  refine ⟨first, ?_, listing⟩
  rw [List.range'_concat] at listing
  simpa using (List.append_inj' listing rfl).2

theorem Consecutive.le_last (consecutive : Consecutive (front ++ [last]))
    (member : seq ∈ front ++ [last]) : seq ≤ last := by
  obtain ⟨first, place, listing⟩ := consecutive.exists_first
  rw [listing, List.mem_range'_1] at member
  omega

theorem Consecutive.mem_of_between {low : Nat} (consecutive : Consecutive (front ++ [last]))
    (member : low ∈ front ++ [last]) (above : low ≤ seq) (below : seq ≤ last) :
    seq ∈ front ++ [last] := by
  obtain ⟨first, place, listing⟩ := consecutive.exists_first
  rw [listing, List.mem_range'_1] at member ⊢
  omega

theorem Consecutive.concat (consecutive : Consecutive (front ++ [last])) :
    Consecutive (front ++ [last] ++ [last + 1]) := by
  obtain ⟨first, place, listing⟩ := consecutive.exists_first
  refine ⟨first, ?_⟩
  have longer : List.range' first (front.length + 1 + 1) =
      List.range' first (front.length + 1) ++ [last + 1] := by
    rw [List.range'_concat, Nat.one_mul, place, Nat.add_assoc]
  rw [listing, List.length_append, List.length_range', List.length_singleton, longer]

theorem Consecutive.drop (consecutive : Consecutive (front ++ back)) : Consecutive back := by
  obtain ⟨first, listing⟩ := consecutive
  refine ⟨first + front.length, ?_⟩
  have rest := congrArg (List.drop front.length) listing
  rw [List.drop_left, List.drop_range', List.length_append] at rest
  simpa using rest

end Consecutive

/-! ### The ledger -/

abbrev Rows := List (Nat × List Record)

def numbers (rows : Rows) : List Nat := rows.map Prod.fst

/-- Segments in a row with the records of the commits from `lo` to `hi`. -/
structure Ledger (rows : Rows) (lo hi : Nat) : Prop where
  consecutive : Consecutive (numbers rows)
  logged : ∃ commits, untag (tagged rows) = stamp lo commits ∧ lo + commits.length = hi
  bound : hi < 2 ^ 64

section Ledger

variable {rows after rest : Rows} {lo hi index seq bound : Nat} {entry other : Nat × Record}
  {group : List (List Op)}

theorem tag_mem_numbers (member : entry ∈ tagged rows) : entry.1 ∈ numbers rows := by
  obtain ⟨row, inRows, inRow⟩ := List.mem_flatMap.mp member
  rw [mem_tag inRow]
  exact List.mem_map_of_mem inRows

theorem Ledger.low (ledger : Ledger rows lo hi) : lo ≤ hi := by
  obtain ⟨commits, _, rfl⟩ := ledger.logged
  exact Nat.le_add_right lo _

theorem Ledger.length_tagged (ledger : Ledger rows lo hi) :
    lo + (tagged rows).length = hi := by
  obtain ⟨commits, logged, rfl⟩ := ledger.logged
  have counted := congrArg List.length logged
  rw [untag, List.length_map, length_stamp] at counted
  rw [counted]

theorem Ledger.index_of_getElem? {position : Nat} (ledger : Ledger rows lo hi)
    (found : (tagged rows)[position]? = some entry) :
    entry.2.index.toNat = lo + position + 1 := by
  have bound := ledger.bound
  have length := ledger.length_tagged
  obtain ⟨within, _⟩ := List.getElem?_eq_some_iff.mp found
  obtain ⟨commits, logged, _⟩ := ledger.logged
  have stamped : (stamp lo commits)[position]? = some entry.2 := by
    rw [← logged, untag, List.getElem?_map, found]
    rfl
  rw [index_of_getElem?_stamp stamped, toNat_index (by omega)]

theorem Ledger.index_le (ledger : Ledger rows lo hi) (member : entry ∈ tagged rows) :
    entry.2.index.toNat ≤ hi := by
  obtain ⟨position, found⟩ := List.mem_iff_getElem?.mp member
  obtain ⟨within, _⟩ := List.getElem?_eq_some_iff.mp found
  have place := ledger.index_of_getElem? found
  have length := ledger.length_tagged
  omega

theorem Ledger.eq_of_index (ledger : Ledger rows lo hi) (member : entry ∈ tagged rows)
    (another : other ∈ tagged rows) (same : entry.2.index.toNat = other.2.index.toNat) :
    entry = other := by
  obtain ⟨position, found⟩ := List.mem_iff_getElem?.mp member
  obtain ⟨place, there⟩ := List.mem_iff_getElem?.mp another
  have first := ledger.index_of_getElem? found
  have second := ledger.index_of_getElem? there
  have equal : position = place := by omega
  rw [equal, there] at found
  exact (Option.some.inj found).symm

theorem Ledger.mem_numbers_iff {front : Rows} {last low : Nat} {kept : List Record}
    (ledger : Ledger (front ++ [(last, kept)]) lo hi)
    (present : low ∈ numbers (front ++ [(last, kept)]))
    (least : ∀ seq ∈ numbers (front ++ [(last, kept)]), low ≤ seq) :
    seq ∈ numbers (front ++ [(last, kept)]) ↔ low ≤ seq ∧ seq ≤ last := by
  have consecutive := ledger.consecutive
  rw [numbers, List.map_append] at consecutive present least ⊢
  constructor
  · intro member
    exact ⟨least seq member, consecutive.le_last member⟩
  · rintro ⟨above, below⟩
    exact consecutive.mem_of_between present above below

/-! ### Growth -/

/-- New records are in the last segment there was, or after it. -/
structure Grown (rows after : Rows) (new : List (Nat × Record)) : Prop where
  kept : numbers rows ⊆ numbers after
  entries : tagged after = tagged rows ++ new
  later : ∀ entry ∈ new, ∀ seq ∈ numbers rows, seq ≤ entry.1
  consecutive : Consecutive (numbers after)

theorem Wal.Extended.grown {records : List Record} (extended : Extended records rows after)
    (consecutive : Consecutive (numbers rows)) :
    ∃ new, Grown rows after new ∧ untag new = records := by
  cases extended with
  | here closed last kept =>
      rw [numbers, List.map_append] at consecutive
      refine ⟨tag last records, ⟨?_, by simp, ?_, ?_⟩, untag_tag last records⟩
      · simp [numbers]
      · intro entry member seq present
        rw [mem_tag member]
        rw [numbers, List.map_append] at present
        exact consecutive.le_last present
      · rw [numbers, List.map_append]
        exact consecutive
  | rolled closed last kept used =>
      rw [numbers, List.map_append] at consecutive
      refine ⟨tag (last + 1) records, ⟨?_, by rw [tagged_append, tagged_singleton], ?_, ?_⟩,
        untag_tag _ records⟩
      · simp [numbers]
      · intro entry member seq present
        rw [mem_tag member]
        rw [numbers, List.map_append] at present
        exact Nat.le_succ_of_le (consecutive.le_last present)
      · rw [numbers, List.map_append, List.map_append]
        exact consecutive.concat

theorem Grown.rotated {front : Rows} {last : Nat} {kept : List Record}
    (consecutive : Consecutive (numbers (front ++ [(last, kept)]))) :
    Grown (front ++ [(last, kept)]) (front ++ [(last, kept)] ++ [(last + 1, [])]) [] := by
  refine ⟨?_, by rw [tagged_append, tagged_singleton, tag_nil],
    fun _ member => absurd member List.not_mem_nil, ?_⟩
  · simp [numbers]
  · rw [numbers, List.map_append] at consecutive ⊢
    rw [List.map_append]
    exact consecutive.concat

theorem Ledger.grow {new : List (Nat × Record)} (ledger : Ledger rows lo hi)
    (grown : Grown rows after new) (added : untag new = stamp hi group)
    (bound : hi + group.length < 2 ^ 64) : Ledger after lo (hi + group.length) := by
  obtain ⟨commits, logged, rfl⟩ := ledger.logged
  refine ⟨grown.consecutive, ⟨commits ++ group, ?_, ?_⟩, bound⟩
  · rw [grown.entries, untag_append, logged, added, stamp_append]
  · rw [List.length_append, Nat.add_assoc]

/-! ### Where the log after a checkpoint begins -/

def Starts (rows : Rows) (index seq : Nat) : Prop :=
  ∃ record, (seq, record) ∈ tagged rows ∧ record.index.toNat = index + 1

/-- All that is newer than `index` is from this segment on: it holds the next record,
or there is none yet and it is the last segment, still empty. -/
structure Opens (rows : Rows) (hi index seq : Nat) : Prop where
  present : seq ∈ numbers rows
  beyond : Beyond (tagged rows) index seq
  first : hi = index ∧ rows.getLast? = some (seq, []) ∨ Starts rows index seq

theorem Starts.grow {new : List (Nat × Record)} (starts : Starts rows index seq)
    (grown : Grown rows after new) : Starts after index seq := by
  obtain ⟨record, member, next⟩ := starts
  refine ⟨record, ?_, next⟩
  rw [grown.entries]
  exact List.mem_append_left new member

theorem Grown.beyond {new : List (Nat × Record)} (grown : Grown rows after new)
    (present : seq ∈ numbers rows) (beyond : Beyond (tagged rows) index seq) :
    Beyond (tagged after) index seq := by
  rw [grown.entries]
  exact beyond.append (Nat.le_refl seq) (fun entry member => grown.later entry member seq present)

theorem Opens.high (opens : Opens rows hi index seq) (ledger : Ledger rows lo hi) :
    index ≤ hi := by
  rcases opens.first with ⟨rfl, _⟩ | ⟨record, member, next⟩
  · exact Nat.le_refl _
  · have last : record.index.toNat ≤ hi := ledger.index_le member
    omega

/-- The first group after a checkpoint lands in the segment it rotated to, which is not
left while it is empty. -/
theorem Opens.extend (opens : Opens rows hi index seq) (ledger : Ledger rows lo hi)
    (extended : Extended (stamp hi group) rows after) (some : group ≠ [])
    (bound : hi + group.length < 2 ^ 64) : Opens after (hi + group.length) index seq := by
  obtain ⟨new, grown, _⟩ := extended.grown ledger.consecutive
  refine ⟨grown.kept opens.present, grown.beyond opens.present opens.beyond, Or.inr ?_⟩
  rcases opens.first with ⟨rfl, last⟩ | starts
  · cases group with
    | nil => exact absurd rfl some
    | cons ops group =>
        cases extended with
        | here closed current kept =>
            rw [List.getLast?_concat] at last
            cases last
            refine ⟨⟨singleNodeTerm, UInt64.ofNat (hi + 1), ops⟩, ?_, toNat_index ?_⟩
            · simp [stamp, tag]
            · rw [List.length_cons] at bound
              omega
        | rolled closed current kept used =>
            rw [List.getLast?_concat] at last
            cases last
            exact absurd rfl used
  · exact starts.grow grown

theorem Opens.rotated {front : Rows} {last : Nat} {kept : List Record}
    (ledger : Ledger (front ++ [(last, kept)]) lo hi) :
    Opens (front ++ [(last, kept)] ++ [(last + 1, [])]) hi hi (last + 1) := by
  refine ⟨by simp [numbers], ?_, Or.inl ⟨rfl, List.getLast?_concat⟩⟩
  intro entry member newer
  rw [(Grown.rotated ledger.consecutive).entries, List.append_nil] at member
  have old := ledger.index_le member
  omega

/-- An open finds the place again, from the first record the checkpoint does not cover,
or from the current segment. -/
theorem Opens.firstUncovered {front : Rows} {last : Nat} {kept : List Record}
    (opens : Opens (front ++ [(last, kept)]) hi index seq)
    (ledger : Ledger (front ++ [(last, kept)]) lo hi) (low : lo ≤ index) :
    (((tagged (front ++ [(last, kept)])).drop (index - lo)).head?.map Prod.fst).getD last =
      seq := by
  rw [List.head?_drop]
  rcases opens.first with ⟨rfl, ending⟩ | ⟨record, member, next⟩
  · rw [List.getLast?_concat] at ending
    cases ending
    have length := ledger.length_tagged
    rw [List.getElem?_eq_none (by omega)]
    rfl
  · obtain ⟨position, found⟩ := List.mem_iff_getElem?.mp member
    have place := ledger.index_of_getElem? found
    have here : index - lo = position := by
      have next : record.index.toNat = index + 1 := next
      have place : record.index.toNat = lo + position + 1 := place
      omega
    rw [here, found]
    rfl

/-! ### Removal of the oldest segments -/

theorem Wal.Shed.mem_numbers (shed : Shed bound rows rest) :
    seq ∈ numbers rest ↔ seq ∈ numbers rows ∧ bound ≤ seq := by
  obtain ⟨gone, rfl, below, above⟩ := shed
  rw [numbers, numbers, List.map_append, List.mem_append]
  constructor
  · intro member
    obtain ⟨row, inRest, rfl⟩ := List.mem_map.mp member
    exact ⟨Or.inr member, above row inRest⟩
  · rintro ⟨old | kept, order⟩
    · obtain ⟨row, inGone, rfl⟩ := List.mem_map.mp old
      exact absurd order (Nat.not_le.mpr (below row inGone))
    · exact kept

theorem Wal.Shed.mem_tagged (shed : Shed bound rows rest) :
    entry ∈ tagged rest ↔ entry ∈ tagged rows ∧ bound ≤ entry.1 := by
  have kept : entry.1 ∈ numbers rest → bound ≤ entry.1 :=
    fun present => (shed.mem_numbers.mp present).2
  obtain ⟨gone, rfl, below, above⟩ := shed
  rw [tagged_append, List.mem_append]
  constructor
  · intro member
    exact ⟨Or.inr member, kept (tag_mem_numbers member)⟩
  · rintro ⟨old | inRest, order⟩
    · obtain ⟨row, inGone, inRow⟩ := List.mem_flatMap.mp old
      rw [mem_tag inRow] at order
      exact absurd order (Nat.not_le.mpr (below row inGone))
    · exact inRest

theorem Ledger.shed (ledger : Ledger rows lo hi) (shed : Shed bound rows rest) :
    ∃ low, Ledger rest low hi ∧
      ∀ index, lo ≤ index → Beyond (tagged rows) index bound → low ≤ index := by
  obtain ⟨gone, rfl, below, above⟩ := shed
  have consecutive := ledger.consecutive
  rw [numbers, List.map_append] at consecutive
  obtain ⟨commits, logged, rfl⟩ := ledger.logged
  have within := ledger.length_tagged
  rw [tagged_append, untag_append] at logged
  rw [tagged_append, List.length_append] at within
  refine ⟨lo + (tagged gone).length, ⟨consecutive.drop,
    ⟨commits.drop (tagged gone).length, ?_, ?_⟩, ledger.bound⟩, ?_⟩
  · have later := congrArg (List.drop (tagged gone).length) logged
    rw [List.drop_left' (show (untag (tagged gone)).length = _ from List.length_map _),
      stamp_drop] at later
    exact later
  · rw [List.length_drop]
    omega
  · intro index low beyond
    -- the newest record that is gone is at the index just before
    rcases List.eq_nil_or_concat (tagged gone) with none | ⟨older, entry, ending⟩
    · rw [none]
      exact low
    · by_contra newer
      have found : (tagged (gone ++ rest))[older.length]? = some entry := by
        rw [tagged_append, ending]
        simp
      have place := ledger.index_of_getElem? found
      rw [ending, List.length_concat] at newer
      have member : entry ∈ tagged gone := by
        rw [ending]
        simp
      have order := beyond entry (List.mem_of_getElem? found) (by omega)
      obtain ⟨row, inGone, inRow⟩ := List.mem_flatMap.mp member
      rw [mem_tag inRow] at order
      exact absurd order (Nat.not_le.mpr (below row inGone))

theorem Starts.shed (starts : Starts rows index seq) (shed : Shed bound rows rest)
    (order : bound ≤ seq) : Starts rest index seq := by
  obtain ⟨record, member, next⟩ := starts
  exact ⟨record, shed.mem_tagged.mpr ⟨member, order⟩, next⟩

theorem Opens.shed (opens : Opens rows hi index seq) (shed : Shed bound rows rest)
    (order : bound ≤ seq) : Opens rest hi index seq := by
  have present := shed.mem_numbers.mpr ⟨opens.present, order⟩
  refine ⟨present, ?_, ?_⟩
  · exact opens.beyond.subset (fun entry member => (shed.mem_tagged.mp member).1)
  · rcases opens.first with ⟨same, ending⟩ | starts
    · refine Or.inl ⟨same, ?_⟩
      obtain ⟨gone, rfl, _, _⟩ := shed
      have some : rest ≠ [] := by
        rintro rfl
        cases present
      rw [List.getLast?_append_of_ne_nil gone some] at ending
      exact ending
    · exact Or.inr (starts.shed shed order)

end Ledger

end Keystory
