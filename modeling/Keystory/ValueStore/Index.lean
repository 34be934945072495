/-
Ids along a log, and the index that opening and compacting build: every blob is
found where it was written, and the id counter stays above every id that the log
has or ever had.
-/

import Keystory.ValueStore.Store

namespace Keystory.ValueStore

open General

/-! ### The id counter -/

def advance (next : Nat) (record : LogRecord) : Nat :=
  if record.id = fenceId then
    if record.payload.length = 8 then max next (ofBe record.payload) else next
  else max next (record.id + 1)

def nextIdOf (records : List LogRecord) : Nat := records.foldl advance 0

@[simp] theorem nextIdOf_concat (records : List LogRecord) (record : LogRecord) :
    nextIdOf (records ++ [record]) = advance (nextIdOf records) record := by
  simp [nextIdOf]

theorem le_advance (next : Nat) (record : LogRecord) : next ≤ advance next record := by
  unfold advance
  split
  · split <;> omega
  · omega

theorem advance_mono {first second : Nat} (below : first ≤ second) (record : LogRecord) :
    advance first record ≤ advance second record := by
  unfold advance
  split
  · split <;> omega
  · omega

theorem nextIdOf_mono {records more : List LogRecord} (start : records <+: more) :
    nextIdOf records ≤ nextIdOf more := by
  obtain ⟨rest, rfl⟩ := start
  induction rest using List.reverseRecOn with
  | nil => simp
  | append_singleton rest record ih =>
      rw [← List.append_assoc, nextIdOf_concat]
      exact ih.trans (le_advance _ record)

theorem lt_nextIdOf {records : List LogRecord} {record : LogRecord} (member : record ∈ records)
    (blob : record.id ≠ fenceId) : record.id < nextIdOf records := by
  obtain ⟨before, after, rfl⟩ := List.append_of_mem member
  have grown : before ++ [record] <+: before ++ record :: after := ⟨after, by simp⟩
  have least := nextIdOf_mono grown
  rw [nextIdOf_concat, advance, if_neg blob] at least
  omega

theorem nextIdOf_le {records : List LogRecord} (fits : ∀ record ∈ records, record.Fits) :
    nextIdOf records ≤ fenceId := by
  induction records using List.reverseRecOn with
  | nil => exact Nat.zero_le _
  | append_singleton records record ih =>
      have before := ih (fun other member => fits other (List.mem_append_left _ member))
      have bound := (fits record (by simp)).id
      rw [nextIdOf_concat, advance]
      split
      · split
        · have mark := ofBe_lt record.payload
          rw [‹record.payload.length = 8›] at mark
          unfold fenceId at before ⊢
          omega
        · exact before
      · unfold fenceId at *
        omega

def Ascending (records : List LogRecord) : Prop :=
  Chronicle (fun earlier record => record.id ≠ fenceId → nextIdOf earlier ≤ record.id) records

theorem fresh_of_nextIdOf_le {records : List LogRecord} {id : Nat} (above : nextIdOf records ≤ id)
    (blob : id ≠ fenceId) (payload : Bytes) : ⟨id, payload⟩ ∉ records := by
  intro member
  have below := lt_nextIdOf member blob
  exact absurd above (Nat.not_le.mpr below)

theorem Ascending.front {records kept : List LogRecord} (ascending : Ascending records)
    (start : kept <+: records) : Ascending kept := by
  obtain ⟨rest, rfl⟩ := start
  intro earlier record later same
  exact ascending earlier record (later ++ rest) (by simp [same])

/-! ### The index -/

def Indexes (index : Index) (records : List LogRecord) : Prop :=
  ∀ id offset len, index.find? id = some (offset, len) ↔
    id ≠ fenceId ∧ ∃ before payload after, records = before ++ ⟨id, payload⟩ :: after ∧
      offset = (image before).length ∧ len = payload.length

theorem Indexes.empty : Indexes SortedMap.empty [] := by
  intro id offset len
  simp

theorem Indexes.insert {index : Index} {records : List LogRecord} (indexes : Indexes index records)
    {id : Nat} (blob : id ≠ fenceId) (fresh : ∀ payload, ⟨id, payload⟩ ∉ records)
    (payload : Bytes) :
    Indexes (index.insert id ((image records).length, payload.length))
      (records ++ [⟨id, payload⟩]) := by
  intro other offset len
  rw [SortedMap.find?_insert]
  by_cases same : other = id
  · subst same
    simp only [if_true, Option.some.injEq, Prod.mk.injEq]
    constructor
    · rintro ⟨rfl, rfl⟩
      exact ⟨blob, records, payload, [], rfl, rfl, rfl⟩
    · rintro ⟨_, before, found, after, listing, rfl, rfl⟩
      rcases concat_eq_append_cons_iff.mp listing with ⟨rfl, new, _⟩ | ⟨rest, _, old⟩
      · cases new
        exact ⟨rfl, rfl⟩
      · exact absurd (by simp [old]) (fresh found)
  · rw [if_neg same, indexes other offset len]
    refine and_congr_right (fun _ => ?_)
    constructor
    · rintro ⟨before, found, after, rfl, rfl, rfl⟩
      exact ⟨before, found, after ++ [⟨id, payload⟩], by simp, rfl, rfl⟩
    · rintro ⟨before, found, after, listing, rfl, rfl⟩
      rcases concat_eq_append_cons_iff.mp listing with ⟨_, new, _⟩ | ⟨rest, _, old⟩
      · cases new
        exact absurd rfl same
      · exact ⟨before, found, rest, old, rfl, rfl⟩

theorem Indexes.fence {index : Index} {records : List LogRecord} (indexes : Indexes index records)
    (payload : Bytes) : Indexes index (records ++ [⟨fenceId, payload⟩]) := by
  intro other offset len
  rw [indexes other offset len]
  refine and_congr_right (fun blob => ?_)
  constructor
  · rintro ⟨before, found, after, rfl, rfl, rfl⟩
    exact ⟨before, found, after ++ [⟨fenceId, payload⟩], by simp, rfl, rfl⟩
  · rintro ⟨before, found, after, listing, rfl, rfl⟩
    rcases concat_eq_append_cons_iff.mp listing with ⟨_, new, _⟩ | ⟨rest, _, old⟩
    · cases new
      exact absurd rfl blob
    · exact ⟨before, found, rest, old, rfl, rfl⟩

section Get

variable {inner : Inner} {records : List LogRecord} {ref : BlobRef} {value rest : Bytes}

theorem Indexes.get_of_mem (indexes : Indexes inner.index records)
    (fits : ∀ record ∈ records, record.Fits) (member : ⟨ref.id, value⟩ ∈ records)
    (blob : ref.id ≠ fenceId) (length : ref.len = value.length) :
    inner.get (image records ++ rest) ref = some value := by
  obtain ⟨before, after, rfl⟩ := List.append_of_mem member
  have place := (indexes ref.id (image before).length value.length).mpr
    ⟨blob, before, value, after, rfl, rfl, rfl⟩
  have there : (LogRecord.mk ref.id value).bytes <+:
      (image (before ++ ⟨ref.id, value⟩ :: after) ++ rest).drop (image before).length := by
    rw [image_append, image_cons, List.append_assoc, List.drop_left, List.append_assoc]
    exact List.prefix_append _ _
  have read := readBlob_of_isPrefix (fits _ member) there
  simp only [Inner.get, place, Option.bind_eq_bind, Option.bind_some, length, ne_eq,
    not_true_eq_false, if_false]
  exact read

theorem Indexes.get_of_absent (indexes : Indexes inner.index records) (bytes : Bytes)
    (absent : ∀ payload, ⟨ref.id, payload⟩ ∉ records) : inner.get bytes ref = none := by
  have unknown : inner.index.find? ref.id = none := by
    by_contra known
    obtain ⟨⟨offset, len⟩, found⟩ := Option.ne_none_iff_exists'.mp known
    obtain ⟨_, before, payload, after, listing, _⟩ := (indexes _ _ _).mp found
    exact absent payload (by simp [listing])
  simp [Inner.get, unknown]

end Get

theorem nextAfter_insert {index : Index} {id fence : Nat} (place : Nat × Nat)
    (above : nextAfter index fence ≤ id) (keys : ∀ key ∈ index.keys, key < id) :
    nextAfter (index.insert id place) fence = id + 1 := by
  have below : ∀ entry ∈ index.entries, entry.1 < id :=
    fun entry member => keys entry.1 (List.mem_map_of_mem member)
  have last : (index.insert id place).keys = index.keys ++ [id] := by
    rw [SortedMap.keys, SortedMap.entries_insert_above below, List.map_append]
    rfl
  unfold nextAfter at above ⊢
  rw [last, List.getLast?_concat, Option.elim_some]
  omega

theorem foldl_noteFound {records : List LogRecord} (ascending : Ascending records) :
    Indexes ((located 0 records).foldl noteFound (SortedMap.empty, 0)).1 records ∧
      nextAfter ((located 0 records).foldl noteFound (SortedMap.empty, 0)).1
        ((located 0 records).foldl noteFound (SortedMap.empty, 0)).2 = nextIdOf records := by
  induction records using List.reverseRecOn with
  | nil => exact ⟨Indexes.empty, rfl⟩
  | append_singleton records record ih =>
      obtain ⟨indexes, counter⟩ := ih (ascending.front (List.prefix_append _ _))
      rw [located_append, List.foldl_append, located, located, List.foldl_cons, List.foldl_nil,
        nextIdOf_concat, Nat.zero_add]
      generalize (located 0 records).foldl noteFound (SortedMap.empty, 0) = seen at indexes counter
      obtain ⟨index, fence⟩ := seen
      obtain ⟨id, payload⟩ := record
      by_cases fenced : id = fenceId
      · subst fenced
        simp only [noteFound, if_true]
        refine ⟨indexes.fence payload, ?_⟩
        simp only [← counter, advance, if_true, nextAfter]
        split <;> omega
      · have above : nextIdOf records ≤ id := ascending records ⟨id, payload⟩ [] rfl fenced
        simp only [noteFound, if_neg fenced]
        refine ⟨indexes.insert fenced (fresh_of_nextIdOf_le above fenced) payload, ?_⟩
        rw [advance, if_neg fenced, Nat.max_eq_right (Nat.le_succ_of_le above)]
        refine nextAfter_insert _ (counter.trans_le above) ?_
        intro key member
        obtain ⟨⟨found, offset, len⟩, entry, rfl⟩ := List.mem_map.mp member
        obtain ⟨blob, before, held, after, listing, _⟩ :=
          (indexes found offset len).mp ((SortedMap.find?_eq_some_iff ..).mpr entry)
        have inside : (⟨found, held⟩ : LogRecord) ∈ records := by simp [listing]
        exact (lt_nextIdOf inside blob).trans_le above

/-! ### Compaction -/

def keptOf (live : List Nat) (records : List LogRecord) : List LogRecord :=
  records.filter (fun record => record.id ≠ fenceId ∧ record.id ∈ live)

theorem keptOf_concat_of_kept {live : List Nat} {record : LogRecord} (records : List LogRecord)
    (blob : record.id ≠ fenceId) (kept : record.id ∈ live) :
    keptOf live (records ++ [record]) = keptOf live records ++ [record] := by
  simp [keptOf, blob, kept]

theorem keptOf_concat_of_dropped {live : List Nat} {record : LogRecord} (records : List LogRecord)
    (dropped : record.id = fenceId ∨ ¬ record.id ∈ live) :
    keptOf live (records ++ [record]) = keptOf live records := by
  rcases dropped with fenced | dead
  · simp [keptOf, fenced]
  · simp [keptOf, dead]

theorem mem_keptOf {live : List Nat} {records : List LogRecord} {record : LogRecord} :
    record ∈ keptOf live records ↔
      record ∈ records ∧ record.id ≠ fenceId ∧ record.id ∈ live := by
  simp [keptOf]

theorem nextIdOf_keptOf_le (live : List Nat) (records : List LogRecord) :
    nextIdOf (keptOf live records) ≤ nextIdOf records := by
  induction records using List.reverseRecOn with
  | nil => exact Nat.le_refl _
  | append_singleton records record ih =>
      by_cases dropped : record.id = fenceId ∨ ¬ record.id ∈ live
      · rw [keptOf_concat_of_dropped records dropped, nextIdOf_concat]
        exact ih.trans (le_advance _ record)
      · rw [not_or, not_not] at dropped
        rw [keptOf_concat_of_kept records dropped.1 dropped.2, nextIdOf_concat, nextIdOf_concat]
        exact advance_mono ih record

theorem Ascending.keptOf {records : List LogRecord} (ascending : Ascending records)
    (live : List Nat) : Ascending (keptOf live records) := by
  induction records using List.reverseRecOn with
  | nil => exact ascending
  | append_singleton records record ih =>
      have before := ih (ascending.front (List.prefix_append _ _))
      by_cases dropped : record.id = fenceId ∨ ¬ record.id ∈ live
      · rw [keptOf_concat_of_dropped records dropped]
        exact before
      · rw [not_or, not_not] at dropped
        rw [keptOf_concat_of_kept records dropped.1 dropped.2]
        refine Chronicle.concat before ?_
        intro blob
        exact (nextIdOf_keptOf_le live records).trans (ascending records record [] rfl blob)

def compacted (live : List Nat) (records : List LogRecord) : List LogRecord :=
  keptOf live records ++ [⟨fenceId, toBe 8 (nextIdOf records)⟩]

theorem Ascending.compacted {records : List LogRecord} (ascending : Ascending records)
    (live : List Nat) : Ascending (compacted live records) :=
  Chronicle.concat (ascending.keptOf live) (fun blob => absurd rfl blob)

theorem nextIdOf_compacted {records : List LogRecord} (fits : ∀ record ∈ records, record.Fits)
    (live : List Nat) : nextIdOf (compacted live records) = nextIdOf records := by
  have bound : nextIdOf records < 256 ^ 8 := Nat.lt_of_le_of_lt (nextIdOf_le fits) (by decide)
  rw [compacted, nextIdOf_concat, advance, if_pos rfl, if_pos (length_toBe _ _), ofBe_toBe bound]
  exact Nat.max_eq_right (nextIdOf_keptOf_le live records)

theorem fits_compacted {records : List LogRecord} (fits : ∀ record ∈ records, record.Fits)
    (live : List Nat) : ∀ record ∈ compacted live records, record.Fits := by
  intro record member
  rcases List.mem_append.mp member with kept | fence
  · exact fits record (mem_keptOf.mp kept).1
  · rw [List.mem_singleton.mp fence]
    refine ⟨show fenceId < 256 ^ 8 by decide, ?_⟩
    rw [length_toBe]
    decide

end Keystory.ValueStore
