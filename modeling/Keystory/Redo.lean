/-
Replaying commits over a state that already holds some of them. What one key
sees of a list of commits is a run of overwrites of its entry, version included,
so a prefix that was applied before changes nothing: neither in recovery, where a
record may be replayed over a checkpoint that covers it, nor in a state machine
that applies its log again.
-/

import Keystory.Engine.Reopen
import Keystory.General.Overwrite
import Keystory.Raft.Handlers

namespace Keystory

open General

def applyCommits (commits : List (Nat × List Op)) (map : Map) : Map :=
  commits.foldl (fun state commit => applyOps commit.2 state commit.1) map

/-! ### One key -/

def overwrite (entry : Option Entry) (write : Nat × Option Bytes) : Option Entry :=
  if entry.map Entry.value = write.2 then entry
  else write.2.map (fun value => { value := value, version := write.1 })

theorem overwrites_entry :
    Overwrites (Option.map Entry.value) (fun write : Nat × Option Bytes => write.2) overwrite where
  shown := by
    rintro entry ⟨index, written⟩
    unfold overwrite
    split
    · assumption
    · cases written <;> rfl
  same := fun entry write shown => if_pos shown
  forgets := by
    intro entry other write differs otherDiffers
    unfold overwrite
    rw [if_neg differs, if_neg otherDiffers]

theorem Op.find?_apply_key (op : Op) (map : Map) (index : Nat) :
    (op.apply map index).find? op.key = overwrite (map.find? op.key) (index, op.written) := by
  cases op with
  | put key value =>
      change (Op.apply (.put key value) map index).find? key =
        overwrite (map.find? key) (index, some value)
      unfold Op.apply overwrite
      cases found : map.find? key with
      | none => simp [found]
      | some entry =>
          by_cases same : entry.value = value
          · simp [same, found]
          · simp [same, found]
  | delete key =>
      change (map.erase key).find? key = overwrite (map.find? key) (index, none)
      rw [SortedMap.find?_erase, if_pos rfl]
      unfold overwrite
      cases map.find? key <;> rfl

def writesAt (key : Bytes) (index : Nat) (ops : List Op) : List (Nat × Option Bytes) :=
  (ops.filter (fun op => op.key = key)).map (fun op => (index, op.written))

def writesTo (key : Bytes) (commits : List (Nat × List Op)) : List (Nat × Option Bytes) :=
  commits.flatMap (fun commit => writesAt key commit.1 commit.2)

theorem find?_applyOps (key : Bytes) (ops : List Op) (map : Map) (index : Nat) :
    (applyOps ops map index).find? key =
      (writesAt key index ops).foldl overwrite (map.find? key) := by
  induction ops generalizing map with
  | nil => rfl
  | cons op ops ih =>
      change (applyOps ops (op.apply map index) index).find? key = _
      rw [ih, writesAt, writesAt]
      by_cases same : op.key = key
      · subst same
        rw [List.filter_cons_of_pos (by simp), List.map_cons, List.foldl_cons,
          Op.find?_apply_key]
      · rw [List.filter_cons_of_neg (by simpa using same),
          Op.find?_apply_other op map index key (fun equal => same equal.symm)]

theorem find?_applyCommits (key : Bytes) (commits : List (Nat × List Op)) (map : Map) :
    (applyCommits commits map).find? key =
      (writesTo key commits).foldl overwrite (map.find? key) := by
  induction commits generalizing map with
  | nil => rfl
  | cons commit commits ih =>
      change (applyCommits commits (applyOps commit.2 map commit.1)).find? key = _
      rw [ih, find?_applyOps, writesTo, writesTo, List.flatMap_cons, List.foldl_append]

/-! ### Whole maps -/

theorem applyCommits_append (first second : List (Nat × List Op)) (map : Map) :
    applyCommits (first ++ second) map = applyCommits second (applyCommits first map) :=
  List.foldl_append

theorem applyCommits_twice (commits : List (Nat × List Op)) (map : Map) :
    applyCommits commits (applyCommits commits map) = applyCommits commits map := by
  apply SortedMap.ext_find?
  intro key
  rw [find?_applyCommits, find?_applyCommits, overwrites_entry.foldl_foldl]

/-- Commits applied over a state that some first part of them was already applied
to give the map they give when applied once, versions included. -/
theorem applyCommits_idempotent (map : Map) (commits applied : List (Nat × List Op))
    (before : applied <+: commits) :
    applyCommits commits (applyCommits applied map) = applyCommits commits map := by
  obtain ⟨rest, rfl⟩ := before
  rw [applyCommits_append, applyCommits_twice, applyCommits_append]

/-- A key written twice by one commit, then put back to its first value. -/
theorem applyCommits_idempotent_rewritten :
    let commits : List (Nat × List Op) :=
      [(1, [.put [1] [7], .put [1] [8]]), (2, [.put [1] [7]]), (3, [.delete [2]])]
    (applyCommits (commits.take 1) SortedMap.empty).find? [1] = some ⟨[8], 1⟩ ∧
      applyCommits commits (applyCommits (commits.take 1) SortedMap.empty) =
        applyCommits commits SortedMap.empty :=
  ⟨by decide, applyCommits_idempotent _ _ _ (List.take_prefix 1 _)⟩

/-! ### The two replays -/

theorem applyRecords_eq_applyCommits (records : List Wal.Record) (data : Map) :
    applyRecords records data =
      applyCommits (records.map (fun record => (record.index.toNat, record.ops))) data := by
  unfold applyRecords applyCommits
  rw [List.foldl_map]

theorem replay_eq_applyCommits (start : Nat) (state : Map) (log : List Raft.LogEntry) :
    Raft.Node.replay start state log =
      applyCommits ((log.map (fun entry => [entry.cmd])).zipIdx (start + 1) |>.map Prod.swap)
        state := by
  induction log generalizing start state with
  | nil => rfl
  | cons entry rest ih =>
      rw [Raft.Node.replay, ih]
      rfl

end Keystory
