/-
Recovery on arbitrary directory contents, when no call fails: which logs an open
accepts and what it publishes, that a refusal writes nothing, and that a second
open finds what the first one left and changes nothing.
-/

import Keystory.Engine.History
import Keystory.Wal.Reopen

namespace Keystory

open General

open Wal (Record Segments tag untag)

/-! ### Gap-free logs -/

def indices (records : List Record) : List Nat := records.map (fun record => record.index.toNat)

/-- Records a checkpoint covers, in any order, and then the ones that continue it. -/
structure GapFree (base : Nat) (records covered later : List Record) : Prop where
  split : records = covered ++ later
  old : ∀ index ∈ indices covered, index ≤ base
  consecutive : indices later = List.range' (base + 1) later.length

def applyRecords (records : List Record) (data : Map) : Map :=
  records.foldl (fun data record => applyOps record.ops data record.index.toNat) data

section Replay

variable {base last : Nat} {entries : List (Nat × Record)} {data : Map} {uncovered : Option Nat}

theorem replayRecord_next {segment : Nat} {record : Record}
    (next : record.index.toNat = last + 1) :
    Store.replayRecord base ⟨data, last, uncovered⟩ segment record =
      .ok ⟨applyOps record.ops data (last + 1), last + 1, some (uncovered.getD segment)⟩ := by
  have newer : ¬ last + 1 ≤ last := by omega
  simp only [Store.replayRecord, next, if_neg newer, ne_eq, not_true_eq_false, if_false]

theorem replayRecord_beyond {segment : Nat} {record : Record} {result : Store.Replayed}
    (beyond : last ≠ base)
    (replayed : Store.replayRecord base ⟨data, last, uncovered⟩ segment record = .ok result) :
    record.index.toNat = last + 1 := by
  simp only [Store.replayRecord, if_neg beyond] at replayed
  split_ifs at replayed with older gap
  exact not_not.mp gap

theorem replay_consecutive (base : Nat) (data : Map) (uncovered : Option Nat)
    (consecutive : indices (untag entries) = List.range' (last + 1) entries.length) :
    ∃ first, entries.foldlM (fun state entry => Store.replayRecord base state entry.1 entry.2)
        ⟨data, last, uncovered⟩ =
      .ok ⟨applyRecords (untag entries) data, last + entries.length, first⟩ := by
  induction entries generalizing data last uncovered with
  | nil => exact ⟨uncovered, rfl⟩
  | cons entry entries ih =>
      rw [List.length_cons, List.range'_succ] at consecutive
      obtain ⟨next, rest⟩ := List.cons.inj consecutive
      have next : entry.2.index.toNat = last + 1 := next
      obtain ⟨first, replayed⟩ := ih (applyOps entry.2.ops data (last + 1))
        (some (uncovered.getD entry.1)) rest
      refine ⟨first, ?_⟩
      rw [List.foldlM_cons, replayRecord_next next, ok_bind, replayed, List.length_cons,
        Nat.add_assoc, Nat.add_comm 1, ← next]
      rfl

theorem consecutive_of_replay {result : Store.Replayed} (beyond : base < last)
    (replayed : entries.foldlM (fun state entry =>
      Store.replayRecord base state entry.1 entry.2) ⟨data, last, uncovered⟩ = .ok result) :
    indices (untag entries) = List.range' (last + 1) entries.length := by
  induction entries generalizing data last uncovered with
  | nil => rfl
  | cons entry entries ih =>
      cases here : Store.replayRecord base ⟨data, last, uncovered⟩ entry.1 entry.2 with
      | error failure =>
          rw [List.foldlM_cons, here] at replayed
          cases replayed
      | ok state =>
          have next := replayRecord_beyond (Nat.ne_of_gt beyond) here
          rw [List.foldlM_cons, replayRecord_next next, ok_bind] at replayed
          have rest := ih (Nat.lt_succ_of_lt beyond) replayed
          rw [List.length_cons, List.range'_succ, ← rest, ← next]
          rfl

/-- From the checkpoint on, exactly the gap-free logs are accepted. -/
theorem gapFree_of_replay {result : Store.Replayed}
    (replayed : entries.foldlM (fun state entry =>
      Store.replayRecord base state entry.1 entry.2) ⟨data, base, none⟩ = .ok result) :
    ∃ covered later, GapFree base (untag entries) covered later := by
  induction entries with
  | nil => exact ⟨[], [], rfl, fun index member => absurd member List.not_mem_nil, rfl⟩
  | cons entry entries ih =>
      rw [List.foldlM_cons] at replayed
      by_cases old : entry.2.index.toNat ≤ base
      · have here : Store.replayRecord base ⟨data, base, none⟩ entry.1 entry.2 =
            .ok ⟨data, base, none⟩ := by
          simp only [Store.replayRecord, if_pos old, if_true]
        rw [here, ok_bind] at replayed
        obtain ⟨covered, later, gapFree⟩ := ih replayed
        refine ⟨entry.2 :: covered, later, congrArg _ gapFree.split, ?_, gapFree.consecutive⟩
        intro index member
        rcases List.mem_cons.mp member with rfl | among
        · exact old
        · exact gapFree.old index among
      · by_cases next : entry.2.index.toNat = base + 1
        · rw [replayRecord_next next, ok_bind] at replayed
          have rest := consecutive_of_replay (Nat.lt_succ_self base) replayed
          refine ⟨[], untag (entry :: entries), rfl,
            fun index member => absurd member List.not_mem_nil, ?_⟩
          have length : (untag (entry :: entries)).length = entries.length + 1 := by
            simp [untag]
          rw [length, List.range'_succ, ← rest, ← next]
          rfl
        · simp only [Store.replayRecord, if_neg old, if_pos next] at replayed
          cases replayed

theorem replay_gapFree (data : Map) {covered later : List Record}
    (gapFree : GapFree base (untag entries) covered later) :
    ∃ first, entries.foldlM (fun state entry => Store.replayRecord base state entry.1 entry.2)
        ⟨data, base, none⟩ =
      .ok ⟨applyRecords later data, base + later.length, first⟩ := by
  obtain ⟨front, back, rfl, rfl, rfl⟩ := List.map_eq_append_iff.mp gapFree.split
  have covered : ∀ entry ∈ front, entry.2.index.toNat ≤ base :=
    fun entry member => gapFree.old _ (List.mem_map_of_mem (List.mem_map_of_mem member))
  have consecutive := gapFree.consecutive
  rw [List.length_map] at consecutive
  obtain ⟨first, replayed⟩ := replay_consecutive base data none consecutive
  refine ⟨first, ?_⟩
  rw [List.foldlM_append, foldlM_covered data covered, ok_bind, replayed, List.length_map]
  rfl

end Replay

/-! ### Opening -/

def Checkpoint.Loaded.base (loaded : Checkpoint.Loaded) : Snapshot :=
  loaded.snapshot.getD Snapshot.empty

def Store.recovered (replayed : Store.Replayed) (wal : Wal) (latestDamaged : Bool) : Store where
  snap := ⟨replayed.lastIndex, replayed.data⟩
  index := replayed.lastIndex
  wal := wal
  prevBoundary := replayed.firstUncovered.getD wal.segSeq
  latestDamaged := latestDamaged
  stats := ⟨0, 0, 0⟩

/-- What an open makes of a directory when no call fails. -/
def Store.opened (options : Options) (files : Checkpoint.SnapFiles) (segments : Segments) :
    Except Failure Store × Segments :=
  (Store.openWith options files).exec (Wal.directory .none) .ok segments

section Opened

variable {options : Options} {files : Checkpoint.SnapFiles} {segments : Segments}
  {loaded : Checkpoint.Loaded}

def replayFrom (base : Snapshot) (segments : Segments) :
    Except Failure (Store.Replayed × Option Nat) :=
  Wal.replay (Store.replayRecord base.index) (Wal.files segments) ⟨base.data, base.index, none⟩

theorem opened_eq (loads : Checkpoint.load files = .ok loaded) :
    Store.opened options files segments =
      match replayFrom loaded.base segments with
      | .error failure => (.error failure, segments)
      | .ok (replayed, _) =>
          match (Wal.openLog options.walSegmentSize).exec (Wal.directory .none) .ok segments with
          | (.error failure, after) => (.error failure, after)
          | (.ok wal, after) => (.ok (.recovered replayed wal loaded.latestDamaged), after) := by
  have read : Wal.readDir.exec (Wal.directory .none) .ok segments =
      (Wal.files segments, segments) := rfl
  rw [Store.opened, Store.openWith, loads]
  dsimp only
  rw [Program.exec_bind, read]
  change (match replayFrom loaded.base segments with
    | .error failure => _
    | .ok (replayed, _) => _ : Wal.SegmentProgram (Except Failure Store)).exec _ _ segments = _
  rcases replayFrom loaded.base segments with failure | ⟨replayed, ending⟩
  · rfl
  · dsimp only
    rw [Program.exec_bind]
    rcases (Wal.openLog options.walSegmentSize).exec (Wal.directory .none) .ok segments with
      ⟨failure | wal, after⟩ <;> rfl

theorem replayFrom_eq_ok_iff {base : Snapshot} {replayed : Store.Replayed}
    {ending : Option Nat} :
    replayFrom base segments = .ok (replayed, ending) ↔
      ∃ found, Wal.Scans (Wal.files segments) found ending ∧
        found.foldlM (fun state entry => Store.replayRecord base.index state entry.1 entry.2)
          ⟨base.data, base.index, none⟩ = .ok replayed := by
  rw [replayFrom, Wal.replay_eq, Wal.deliver]
  constructor
  · intro delivered
    rcases folded : (Wal.readLog (Wal.files segments)).1.foldlM
        (fun state entry => Store.replayRecord base.index state entry.1 entry.2)
        ⟨base.data, base.index, none⟩ with failure | state
    · rw [folded] at delivered
      cases delivered
    · rcases outcome : (Wal.readLog (Wal.files segments)).2 with failure | ended
      · rw [folded, outcome] at delivered
        cases delivered
      · rw [folded, outcome] at delivered
        cases delivered
        exact ⟨_, Wal.readLog_eq_ok_iff.mp (Prod.ext rfl outcome), folded⟩
  · rintro ⟨found, scans, folded⟩
    rw [Wal.readLog_eq_ok_iff.mpr scans, folded]
    rfl

theorem opened_replayed (options : Options) (loads : Checkpoint.load files = .ok loaded)
    {replayed : Store.Replayed} {found : List (Nat × Record)} {ending : Option Nat}
    (scans : Wal.Scans (Wal.files segments) found ending)
    (folded : found.foldlM (fun state entry =>
      Store.replayRecord loaded.base.index state entry.1 entry.2)
        ⟨loaded.base.data, loaded.base.index, none⟩ = .ok replayed) :
    ∃ wal after, Store.opened options files segments =
        (.ok (.recovered replayed wal loaded.latestDamaged), after) ∧
      Wal.LastMended (Wal.files segments) (Wal.files after) ∧
      Wal.Scans (Wal.files after) found none ∧
      Store.opened options files after =
        (.ok (.recovered replayed wal loaded.latestDamaged), after) := by
  obtain ⟨wal, after, first, mended, rescans, second⟩ :=
    Wal.openLog_scans scans options.walSegmentSize
  have replays := replayFrom_eq_ok_iff.mpr ⟨found, scans, folded⟩
  have replaysAgain := replayFrom_eq_ok_iff.mpr ⟨found, rescans, folded⟩
  refine ⟨wal, after, ?_, mended, rescans, ?_⟩
  · rw [opened_eq loads, replays]
    dsimp only
    rw [first]
  · rw [opened_eq loads, replaysAgain]
    dsimp only
    rw [second]

theorem replayed_of_opened {store : Store} {after : Segments}
    (opened : Store.opened options files segments = (.ok store, after)) :
    ∃ loaded replayed found ending, Checkpoint.load files = .ok loaded ∧
      Wal.Scans (Wal.files segments) found ending ∧
      found.foldlM (fun state entry =>
        Store.replayRecord loaded.base.index state entry.1 entry.2)
          ⟨loaded.base.data, loaded.base.index, none⟩ = .ok replayed := by
  rcases loads : Checkpoint.load files with failure | loaded
  · rw [Store.opened, Store.openWith, loads] at opened
    cases opened
  · rw [opened_eq loads] at opened
    rcases replays : replayFrom loaded.base segments with failure | ⟨replayed, ending⟩
    · rw [replays] at opened
      cases opened
    · obtain ⟨found, scans, folded⟩ := replayFrom_eq_ok_iff.mp replays
      exact ⟨loaded, replayed, found, ending, rfl, scans, folded⟩

theorem opened_refused {failure : Failure} {after : Segments}
    (opened : Store.opened options files segments = (.error failure, after)) :
    after = segments := by
  rcases loads : Checkpoint.load files with refused | loaded
  · rw [Store.opened, Store.openWith, loads] at opened
    exact (congrArg Prod.snd opened).symm
  · rcases replays : replayFrom loaded.base segments with refused | ⟨replayed, ending⟩
    · rw [opened_eq loads, replays] at opened
      exact (congrArg Prod.snd opened).symm
    · obtain ⟨found, scans, folded⟩ := replayFrom_eq_ok_iff.mp replays
      obtain ⟨wal, final, succeeded, _⟩ := opened_replayed options loads scans folded
      rw [succeeded] at opened
      cases opened

/-- Whatever the directory holds, an open that refuses it leaves it alone; one that
accepts it changes the last segment at most, keeps the records and no torn tail, and
opening what it left gives the same store and changes nothing. -/
theorem open_conservative (options : Options) (files : Checkpoint.SnapFiles)
    (segments : Segments) :
    (∀ failure after, Store.opened options files segments = (.error failure, after) →
      after = segments) ∧
      ∀ store after, Store.opened options files segments = (.ok store, after) →
        Wal.LastMended (Wal.files segments) (Wal.files after) ∧
        (∃ entries ending, Wal.Replays segments entries ending ∧
          Wal.Replays after entries none) ∧
        Store.opened options files after = (.ok store, after) := by
  refine ⟨fun failure after => opened_refused, ?_⟩
  intro store after opened
  obtain ⟨loaded, replayed, found, ending, loads, scans, folded⟩ := replayed_of_opened opened
  obtain ⟨wal, final, first, mended, rescans, second⟩ :=
    opened_replayed options loads scans folded
  rw [first] at opened
  cases opened
  exact ⟨mended, ⟨found, ending, scans.replays, rescans.replays⟩, second⟩

end Opened

def tornDirectory : Segments where
  entries := [(1, File.settled (Wal.segmentBytes [⟨1, 1, [.put [107] [118]]⟩] ++ [26, 0]))]
  sorted := List.pairwise_singleton _ _

theorem tornDirectory_accepted :
    (Store.opened {} Checkpoint.SnapFiles.empty tornDirectory).1.isOk = true := by
  decide +kernel

theorem open_conservative_torn :
    ∃ store after, Store.opened {} Checkpoint.SnapFiles.empty tornDirectory = (.ok store, after) ∧
      Wal.LastMended (Wal.files tornDirectory) (Wal.files after) ∧
      Store.opened {} Checkpoint.SnapFiles.empty after = (.ok store, after) := by
  have accepted := tornDirectory_accepted
  rcases opened : Store.opened {} Checkpoint.SnapFiles.empty tornDirectory with
    ⟨failure | store, after⟩
  · rw [opened] at accepted
    cases accepted
  · obtain ⟨mended, _, again⟩ :=
      (open_conservative {} Checkpoint.SnapFiles.empty tornDirectory).2 store after opened
    exact ⟨store, after, rfl, mended, again⟩

/-- An open accepts exactly the logs that scan and are gap-free from the checkpoint on,
and publishes the checkpoint with precisely the records after it applied. -/
theorem open_iff_gapFree (options : Options) (segments : Segments)
    {files : Checkpoint.SnapFiles} {loaded : Checkpoint.Loaded}
    (loads : Checkpoint.load files = .ok loaded) :
    ((∃ store, (Store.opened options files segments).1 = .ok store) ↔
      ∃ found ending covered later, Wal.Scans (Wal.files segments) found ending ∧
        GapFree loaded.base.index (untag found) covered later) ∧
      ∀ store found ending covered later,
        (Store.opened options files segments).1 = .ok store →
        Wal.Scans (Wal.files segments) found ending →
        GapFree loaded.base.index (untag found) covered later →
          store.snap = ⟨loaded.base.index + later.length, applyRecords later loaded.base.data⟩ ∧
          store.index = loaded.base.index + later.length := by
  constructor
  · constructor
    · rintro ⟨store, accepted⟩
      obtain ⟨_, _, found, ending, reloads, scans, folded⟩ :=
        replayed_of_opened (Prod.ext accepted rfl)
      rw [loads] at reloads
      cases reloads
      obtain ⟨covered, later, gapFree⟩ := gapFree_of_replay folded
      exact ⟨found, ending, covered, later, scans, gapFree⟩
    · rintro ⟨found, ending, covered, later, scans, gapFree⟩
      obtain ⟨first, folded⟩ := replay_gapFree loaded.base.data gapFree
      obtain ⟨wal, after, opened, _⟩ := opened_replayed options loads scans folded
      exact ⟨_, congrArg Prod.fst opened⟩
  · intro store found ending covered later accepted scans gapFree
    obtain ⟨first, folded⟩ := replay_gapFree loaded.base.data gapFree
    obtain ⟨wal, after, opened, _⟩ := opened_replayed options loads scans folded
    rw [opened] at accepted
    cases accepted
    exact ⟨rfl, rfl⟩

theorem open_iff_gapFree_torn :
    Checkpoint.load Checkpoint.SnapFiles.empty = .ok ⟨none, false⟩ ∧
      ∃ found ending covered later, Wal.Scans (Wal.files tornDirectory) found ending ∧
        GapFree 0 (untag found) covered later := by
  have loads : Checkpoint.load Checkpoint.SnapFiles.empty = .ok ⟨none, false⟩ := rfl
  have accepted := tornDirectory_accepted
  rcases opened : (Store.opened {} Checkpoint.SnapFiles.empty tornDirectory).1 with failure | store
  · rw [opened] at accepted
    cases accepted
  · exact ⟨loads, (open_iff_gapFree {} tornDirectory loads).1.mp ⟨store, opened⟩⟩

end Keystory
