/-
Histories of commits: the state after them, and the records they are logged as.
Recovery turns a checkpoint of part of a history and the records of the rest
back into the state after all of it.
-/

import Keystory.Engine.Store
import Keystory.Wal.Recovery

namespace Keystory

open General

/-! ### The state after a history -/

def Snapshot.commit (snapshot : Snapshot) (ops : List Op) : Snapshot :=
  ⟨snapshot.index + 1, applyOps ops snapshot.data (snapshot.index + 1)⟩

def stateAfter (commits : List (List Op)) : Snapshot :=
  commits.foldl Snapshot.commit Snapshot.empty

theorem index_foldl_commit (commits : List (List Op)) (snapshot : Snapshot) :
    (commits.foldl Snapshot.commit snapshot).index = snapshot.index + commits.length := by
  induction commits generalizing snapshot with
  | nil => rfl
  | cons ops commits ih =>
      rw [List.foldl_cons, ih, List.length_cons]
      change snapshot.index + 1 + commits.length = _
      omega

@[simp] theorem index_stateAfter (commits : List (List Op)) :
    (stateAfter commits).index = commits.length := by
  rw [stateAfter, index_foldl_commit]
  exact Nat.zero_add _

theorem stateAfter_append (first second : List (List Op)) :
    stateAfter (first ++ second) = second.foldl Snapshot.commit (stateAfter first) :=
  List.foldl_append

/-! ### The records of a history -/

def stamp (first : Nat) : List (List Op) → List Wal.Record
  | [] => []
  | ops :: commits => ⟨singleNodeTerm, UInt64.ofNat (first + 1), ops⟩ :: stamp (first + 1) commits

@[simp] theorem stamp_nil (first : Nat) : stamp first [] = [] := rfl

@[simp] theorem length_stamp (first : Nat) (commits : List (List Op)) :
    (stamp first commits).length = commits.length := by
  induction commits generalizing first with
  | nil => rfl
  | cons ops commits ih => rw [stamp, List.length_cons, ih, List.length_cons]

theorem stamp_append (first : Nat) (left right : List (List Op)) :
    stamp first (left ++ right) = stamp first left ++ stamp (first + left.length) right := by
  induction left generalizing first with
  | nil => rfl
  | cons ops left ih =>
      rw [List.cons_append, stamp, ih, stamp, List.cons_append, List.length_cons,
        Nat.add_right_comm, Nat.add_assoc]

theorem stamp_take (first count : Nat) (commits : List (List Op)) :
    (stamp first commits).take count = stamp first (commits.take count) := by
  induction commits generalizing first count with
  | nil => simp
  | cons ops commits ih =>
      cases count with
      | zero => rfl
      | succ count => rw [stamp, List.take_succ_cons, List.take_succ_cons, ih, stamp]

theorem stamp_drop (first count : Nat) (commits : List (List Op)) :
    (stamp first commits).drop count = stamp (first + count) (commits.drop count) := by
  induction commits generalizing first count with
  | nil => simp
  | cons ops commits ih =>
      cases count with
      | zero => rfl
      | succ count =>
          rw [stamp, List.drop_succ_cons, List.drop_succ_cons, ih, Nat.add_right_comm,
            Nat.add_assoc]

theorem toNat_index {index : Nat} (bound : index < 2 ^ 64) :
    (UInt64.ofNat index).toNat = index :=
  UInt64.toNat_ofNat_of_lt' bound

theorem index_of_mem_stamp {first : Nat} {commits : List (List Op)} {record : Wal.Record}
    (bound : first + commits.length < 2 ^ 64) (member : record ∈ stamp first commits) :
    first < record.index.toNat ∧ record.index.toNat ≤ first + commits.length := by
  induction commits generalizing first with
  | nil => cases member
  | cons ops commits ih =>
      rw [List.length_cons] at bound ⊢
      rcases List.mem_cons.mp member with rfl | later
      · rw [toNat_index (by omega)]
        omega
      · have inside := ih (by omega) later
        omega

theorem index_of_getElem?_stamp {first count : Nat} {commits : List (List Op)}
    {record : Wal.Record} (found : (stamp first commits)[count]? = some record) :
    record.index = UInt64.ofNat (first + count + 1) := by
  induction commits generalizing first count with
  | nil => cases found
  | cons ops commits ih =>
      cases count with
      | zero =>
          cases found
          rfl
      | succ count =>
          rw [stamp, List.getElem?_cons_succ] at found
          rw [ih found, Nat.add_right_comm first 1 count, Nat.add_assoc first count 1]

theorem foldl_push (group : List (List Op)) (staged : Store.Staged) :
    group.foldl Store.Staged.push staged =
      ⟨group.foldl Snapshot.commit staged.next,
        staged.records ++ stamp staged.next.index group,
        staged.indices ++ List.range' (staged.next.index + 1) group.length⟩ := by
  induction group generalizing staged with
  | nil => simp
  | cons ops group ih =>
      rw [List.foldl_cons, ih]
      simp [Store.Staged.push, Snapshot.commit, stamp, List.range'_succ]

theorem stageGroup_eq (cur : Snapshot) (group : List (List Op)) :
    Store.stageGroup cur group =
      ⟨group.foldl Snapshot.commit cur, stamp cur.index group,
        List.range' (cur.index + 1) group.length⟩ := by
  rw [Store.stageGroup, foldl_push]
  simp

/-! ### Replay -/

section Replay

open Wal

variable {base lo : Nat} {entries : List (Nat × Record)} {commits : List (List Op)}

theorem foldlM_covered (data : Map) (covered : ∀ entry ∈ entries, entry.2.index.toNat ≤ base) :
    entries.foldlM (fun state entry => Store.replayRecord base state entry.1 entry.2)
        ⟨data, base, none⟩ = .ok ⟨data, base, none⟩ := by
  induction entries with
  | nil => rfl
  | cons entry entries ih =>
      have old := covered entry List.mem_cons_self
      have here : Store.replayRecord base ⟨data, base, none⟩ entry.1 entry.2 =
          .ok ⟨data, base, none⟩ := by
        simp only [Store.replayRecord, if_pos old, if_true]
      rw [List.foldlM_cons, here, ok_bind]
      exact ih (fun other member => covered other (List.mem_cons_of_mem _ member))

theorem foldlM_uncovered (base : Nat) (snapshot : Snapshot) (uncovered : Option Nat)
    (logged : untag entries = stamp snapshot.index commits)
    (bound : snapshot.index + commits.length < 2 ^ 64) :
    entries.foldlM (fun state entry => Store.replayRecord base state entry.1 entry.2)
        ⟨snapshot.data, snapshot.index, uncovered⟩ =
      .ok ⟨(commits.foldl Snapshot.commit snapshot).data, snapshot.index + commits.length,
        uncovered.or (entries.head?.map Prod.fst)⟩ := by
  induction commits generalizing entries snapshot uncovered with
  | nil =>
      have none : entries = [] := List.map_eq_nil_iff.mp logged
      rw [none]
      simp
      rfl
  | cons ops commits ih =>
      cases entries with
      | nil => cases logged
      | cons entry entries =>
          obtain ⟨segment, record⟩ := entry
          obtain ⟨rfl, rest⟩ := List.cons.inj logged
          rw [List.length_cons] at bound
          have index := toNat_index (show snapshot.index + 1 < 2 ^ 64 by omega)
          have here : Store.replayRecord base ⟨snapshot.data, snapshot.index, uncovered⟩ segment
              ⟨singleNodeTerm, UInt64.ofNat (snapshot.index + 1), ops⟩ =
              .ok ⟨(snapshot.commit ops).data, (snapshot.commit ops).index,
                some (uncovered.getD segment)⟩ := by
            simp only [Store.replayRecord, index, if_neg (Nat.not_succ_le_self snapshot.index),
              ne_eq, not_true_eq_false, if_false]
            rfl
          have later := ih (snapshot.commit ops) (some (uncovered.getD segment)) rest
            (by change snapshot.index + 1 + commits.length < _; omega)
          rw [List.foldlM_cons, here, ok_bind, later, List.foldl_cons, List.length_cons]
          congr 2
          · change snapshot.index + 1 + commits.length = _
            omega
          · cases uncovered <;> rfl

theorem foldlM_logged (snapshot : Snapshot) (logged : untag entries = stamp lo commits)
    (low : lo ≤ snapshot.index) (high : snapshot.index ≤ lo + commits.length)
    (bound : lo + commits.length < 2 ^ 64) :
    entries.foldlM (fun state entry => Store.replayRecord snapshot.index state entry.1 entry.2)
        ⟨snapshot.data, snapshot.index, none⟩ =
      .ok ⟨((commits.drop (snapshot.index - lo)).foldl Snapshot.commit snapshot).data,
        lo + commits.length, (entries.drop (snapshot.index - lo)).head?.map Prod.fst⟩ := by
  have old : untag (entries.take (snapshot.index - lo)) =
      stamp lo (commits.take (snapshot.index - lo)) := by
    rw [untag, List.map_take, ← stamp_take]
    exact congrArg (List.take (snapshot.index - lo)) logged
  have new : untag (entries.drop (snapshot.index - lo)) =
      stamp snapshot.index (commits.drop (snapshot.index - lo)) := by
    rw [untag, List.map_drop, show entries.map Prod.snd = untag entries from rfl, logged,
      stamp_drop, Nat.add_sub_cancel' low]
  have covered : ∀ entry ∈ entries.take (snapshot.index - lo),
      entry.2.index.toNat ≤ snapshot.index := by
    intro entry member
    have inStamp : entry.2 ∈ stamp lo (commits.take (snapshot.index - lo)) := by
      rw [← old]
      exact List.mem_map_of_mem member
    have length : (commits.take (snapshot.index - lo)).length = snapshot.index - lo := by
      rw [List.length_take]
      omega
    have inside := index_of_mem_stamp (by omega) inStamp
    omega
  have fresh := foldlM_uncovered snapshot.index snapshot none new
    (by rw [List.length_drop]; omega)
  have counted : snapshot.index + (commits.length - (snapshot.index - lo)) =
      lo + commits.length := by
    omega
  rw [List.length_drop, counted, Option.none_or] at fresh
  conv_lhs => rw [← List.take_append_drop (snapshot.index - lo) entries]
  rw [List.foldlM_append, foldlM_covered _ covered, ok_bind, fresh]

/-- Recovery from a checkpoint of the first `base` commits and a log of all but the
first `lo` gives the state after all of them. -/
theorem foldlM_history (logged : untag entries = stamp lo (commits.drop lo)) (low : lo ≤ base)
    (high : base ≤ commits.length) (bound : commits.length < 2 ^ 64) :
    entries.foldlM (fun state entry => Store.replayRecord base state entry.1 entry.2)
        ⟨(stateAfter (commits.take base)).data, base, none⟩ =
      .ok ⟨(stateAfter commits).data, commits.length,
        (entries.drop (base - lo)).head?.map Prod.fst⟩ := by
  have start : (stateAfter (commits.take base)).index = base := by
    rw [index_stateAfter, List.length_take, Nat.min_eq_left high]
  have counted : lo + (commits.drop lo).length = commits.length := by
    rw [List.length_drop]
    omega
  have replayed := foldlM_logged (stateAfter (commits.take base)) logged (by omega) (by omega)
    (by omega)
  rw [start, counted, List.drop_drop, Nat.add_sub_cancel' low, ← stateAfter_append,
    List.take_append_drop] at replayed
  exact replayed

def Beyond (entries : List (Nat × Record)) (index bound : Nat) : Prop :=
  ∀ entry ∈ entries, index < entry.2.index.toNat → bound ≤ entry.1

theorem Beyond.mono {index later bound : Nat} (beyond : Beyond entries index bound)
    (order : index ≤ later) : Beyond entries later bound :=
  fun entry member newer => beyond entry member (Nat.lt_of_le_of_lt order newer)

theorem Beyond.subset {index bound : Nat} {fewer : List (Nat × Record)}
    (beyond : Beyond entries index bound) (inside : fewer ⊆ entries) : Beyond fewer index bound :=
  fun entry member => beyond entry (inside member)

theorem Beyond.append {index bound current : Nat} {new : List (Nat × Record)}
    (beyond : Beyond entries index bound) (within : bound ≤ current)
    (later : ∀ entry ∈ new, current ≤ entry.1) : Beyond (entries ++ new) index bound := by
  intro entry member newer
  rcases List.mem_append.mp member with old | added
  · exact beyond entry old newer
  · exact within.trans (later entry added)

theorem beyond_firstUncovered (logged : untag entries = stamp lo (commits.drop lo))
    (sorted : entries.Pairwise (fun left right => left.1 ≤ right.1)) (low : lo ≤ base)
    (high : base ≤ commits.length) (bound : commits.length < 2 ^ 64) (current : Nat) :
    Beyond entries base (((entries.drop (base - lo)).head?.map Prod.fst).getD current) := by
  intro entry member newer
  rw [← List.take_append_drop (base - lo) entries] at member sorted
  rcases List.mem_append.mp member with old | new
  · exfalso
    have inStamp : entry.2 ∈ stamp lo ((commits.drop lo).take (base - lo)) := by
      rw [← stamp_take, ← logged, untag, ← List.map_take]
      exact List.mem_map_of_mem old
    have length : ((commits.drop lo).take (base - lo)).length = base - lo := by
      rw [List.length_take, List.length_drop]
      omega
    have inside := index_of_mem_stamp (by omega) inStamp
    omega
  · cases rest : entries.drop (base - lo) with
    | nil =>
        rw [rest] at new
        cases new
    | cons first rest' =>
        rw [rest] at new sorted
        change first.1 ≤ entry.1
        rcases List.mem_cons.mp new with rfl | later
        · exact Nat.le_refl _
        · exact List.rel_of_pairwise_cons (List.pairwise_append.mp sorted).2.1 later

theorem firstUncovered_le {count current : Nat} (inside : ∀ entry ∈ entries, entry.1 ≤ current) :
    ((entries.drop count).head?.map Prod.fst).getD current ≤ current := by
  cases rest : entries.drop count with
  | nil => exact Nat.le_refl _
  | cons first rest' =>
      apply inside first
      apply List.mem_of_mem_drop
      rw [rest]
      exact List.mem_cons_self

end Replay

/-! ### Checkpoints of a history -/

section Fits

variable {map : Map} {index : Nat}

theorem apply_entryFits {op : Op} (fits : ∀ entry ∈ map.entries, Checkpoint.EntryFits entry)
    (short : Wal.bodyLen op ≤ Wal.maxPayload) (bound : index < 2 ^ 64) :
    ∀ entry ∈ (op.apply map index).entries, Checkpoint.EntryFits entry := by
  have inserted : ∀ key value, Wal.bodyLen (.put key value) ≤ Wal.maxPayload →
      ∀ entry ∈ (map.insert key ⟨value, index⟩).entries, Checkpoint.EntryFits entry := by
    intro key value short entry member
    have placed : entry ∈ SortedMap.insertEntry key (Entry.mk value index) map.entries := member
    rcases SortedMap.mem_of_mem_insertEntry _ _ _ entry placed with rfl | old
    · simp only [Wal.bodyLen, Wal.maxPayload] at short
      refine ⟨?_, ?_, bound⟩ <;> dsimp only <;> omega
    · exact fits entry old
  cases op with
  | put key value =>
      intro entry member
      unfold Op.apply at member
      dsimp only at member
      split at member
      · split at member
        · exact fits entry member
        · exact inserted key value short entry member
      · exact inserted key value short entry member
  | delete key =>
      intro entry member
      exact fits entry (List.mem_of_mem_filter member)

theorem applyOps_entryFits {ops : List Op}
    (fits : ∀ entry ∈ map.entries, Checkpoint.EntryFits entry)
    (short : ∀ op ∈ ops, Wal.bodyLen op ≤ Wal.maxPayload) (bound : index < 2 ^ 64) :
    ∀ entry ∈ (applyOps ops map index).entries, Checkpoint.EntryFits entry := by
  induction ops generalizing map with
  | nil => exact fits
  | cons op ops ih =>
      exact ih (apply_entryFits fits (short op List.mem_cons_self) bound)
        (fun other member => short other (List.mem_cons_of_mem _ member))

theorem stateAfter_entryFits {commits : List (List Op)} (fits : ∀ ops ∈ commits, Wal.Fits ops)
    (bound : commits.length < 2 ^ 64) :
    ∀ entry ∈ (stateAfter commits).data.entries, Checkpoint.EntryFits entry := by
  induction commits using List.reverseRecOn with
  | nil =>
      intro entry member
      cases member
  | append_singleton commits ops ih =>
      rw [List.length_append, List.length_singleton] at bound
      rw [stateAfter_append, List.foldl_cons, List.foldl_nil]
      apply applyOps_entryFits
      · exact ih (fun other member => fits other (List.mem_append_left _ member)) (by omega)
      · intro op member
        have whole := fits ops (List.mem_append_right _ List.mem_cons_self)
        exact (Wal.bodyLen_le_payloadLen member).trans whole.bound
      · rw [index_stateAfter]
        exact bound

theorem stateAfter_fits {commits : List (List Op)} (fits : ∀ ops ∈ commits, Wal.Fits ops)
    (bound : commits.length < 2 ^ 64) (count : (stateAfter commits).data.size < 2 ^ 64) :
    Checkpoint.Fits (stateAfter commits) where
  index := by
    rw [index_stateAfter]
    exact bound
  count := count
  entries := stateAfter_entryFits fits bound

end Fits

end Keystory
