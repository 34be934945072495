/-
The history checker beside the concurrent store. The callers of all stores that one
directory sees record each acknowledged commit at the index they were given, and reads
of keys at the index of the snapshot they come from. The checker then tells right reads
from wrong ones wherever every commit up to that index was acknowledged: it knows nothing
of a commit whose caller was cut off before the answer.
-/

import Keystory.Engine.Linearizable
import Keystory.Checker

namespace Keystory

open General Checker

def World.Acknowledged (world : World) (index : Nat) : Prop :=
  ∃ life ∈ world.lives, ∃ call, .returned call (.ok index) ∈ life

def recordedAt (recordings : List Recording) (index : Nat) : List Op :=
  ((writesOf recordings).filter (fun write => write.1 = index)).map Prod.snd

/-- The acknowledged commits are recorded, each with its ops in their order, and no others. -/
structure World.Audit (world : World) (recordings : List Recording) : Prop where
  complete : ∀ life ∈ world.lives, ∀ call index ops, .returned call (.ok index) ∈ life →
    .enqueued call ops ∈ life → recordedAt recordings index = ops
  only : ∀ index, ¬world.Acknowledged index → recordedAt recordings index = []

def recordedCommits (recordings : List Recording) (count : Nat) : List (List Op) :=
  (List.range count).map fun position => recordedAt recordings (position + 1)

section Audit

variable {world : World} {recordings : List Recording}
  (agrees : ∀ life ∈ world.lives, Agrees world.sys.published life)
  (audit : world.Audit recordings)

include agrees in
theorem World.Acknowledged.bounds {index : Nat} (acknowledged : world.Acknowledged index) :
    0 < index ∧ index ≤ world.sys.published.length := by
  obtain ⟨life, member, call, returned⟩ := acknowledged
  exact ⟨((agrees life member).acknowledged call index returned).1,
    (agrees life member).index_le returned⟩

include agrees audit

theorem World.Audit.recordsHistory :
    RecordsHistory (recordedCommits recordings world.sys.published.length)
      (writesOf recordings) := by
  intro index
  change recordedAt recordings index = _
  cases index with
  | zero =>
      exact audit.only 0 fun acknowledged => Nat.lt_irrefl 0 (acknowledged.bounds agrees).1
  | succ position =>
      rw [opsAt, recordedCommits, List.getElem?_map]
      by_cases inside : position < world.sys.published.length
      · rw [List.getElem?_range inside]
        rfl
      · rw [List.getElem?_eq_none (by rw [List.length_range]; omega)]
        exact audit.only _ fun acknowledged => inside (acknowledged.bounds agrees).2

theorem World.Audit.recordedAt_eq {position : Nat}
    (acknowledged : world.Acknowledged (position + 1)) :
    world.sys.published[position]? = some (recordedAt recordings (position + 1)) := by
  obtain ⟨life, member, call, returned⟩ := acknowledged
  obtain ⟨_, ops, found, enqueued, _⟩ := (agrees life member).acknowledged call _ returned
  rw [audit.complete life member call _ ops returned enqueued]
  exact found

theorem World.Audit.take_recordedCommits {count : Nat} (inside : count ≤ world.sys.published.length)
    (known : ∀ index, 0 < index → index ≤ count → world.Acknowledged index) :
    (recordedCommits recordings world.sys.published.length).take count =
      world.sys.published.take count := by
  apply List.ext_getElem?
  intro position
  by_cases below : position < count
  · rw [List.getElem?_take_of_lt below, List.getElem?_take_of_lt below, recordedCommits,
      List.getElem?_map, List.getElem?_range (by omega),
      audit.recordedAt_eq agrees (known (position + 1) (Nat.succ_pos _) below)]
    rfl
  · rw [List.getElem?_eq_none, List.getElem?_eq_none]
    · rw [List.length_take]
      omega
    · rw [List.length_take]
      omega

end Audit

/-- Whatever the order of the steps of all threads, and whatever failed or was cut off, as long
as no open publishes a record that is not all synced: a read recorded at the index of a
snapshot that was loaded, with every commit up to it acknowledged, is reported exactly if its
value is not the snapshot's, and then with the snapshot's value as the one expected. -/
theorem audit_finds_wrong_reads {faults : Faults} {events : List World.Event} {world : World}
    (honest : faults ≠ .any)
    (ran : runSteps (World.step faults) World.initial events = some world)
    (unexposed : world.sys.exposed = false) {recordings : List Recording}
    (audit : world.Audit recordings) :
    (Model.recordAll recordings).check.1.checked = (readsOf recordings).length ∧
      ∀ read ∈ readsOf recordings, ∀ life ∈ world.lives, ∀ snapshot, .loaded snapshot ∈ life →
        read.readIndex = snapshot.index →
        (∀ index, 0 < index → index ≤ snapshot.index → world.Acknowledged index) →
        ∀ expected, (read, expected) ∈ (Model.recordAll recordings).check.1.violations ↔
          read.value ≠ snapshot.get read.key ∧ expected = snapshot.get read.key := by
  have agrees := (Whole.run honest ran).agrees unexposed
  rw [check_recordAll (audit.recordsHistory agrees)]
  refine ⟨rfl, fun read member life isLife snapshot loaded index known expected => ?_⟩
  obtain ⟨inside, state⟩ := (agrees life isLife).loaded snapshot loaded
  have right : (stateAfter ((recordedCommits recordings world.sys.published.length).take
      read.readIndex)).get read.key = snapshot.get read.key := by
    rw [index, audit.take_recordedCommits agrees inside known, ← state]
  have verdict : violation (recordedCommits recordings world.sys.published.length) read =
      if read.value ≠ snapshot.get read.key then some (read, snapshot.get read.key) else none := by
    rw [violation, right]
  rw [List.mem_filterMap]
  constructor
  · rintro ⟨other, _, reported⟩
    have same : other = read :=
      (Prod.mk.inj (Option.some.inj (Option.ite_none_right_eq_some.mp reported).2)).1
    rw [same, verdict] at reported
    obtain ⟨wrong, pair⟩ := Option.ite_none_right_eq_some.mp reported
    exact ⟨wrong, (Prod.mk.inj (Option.some.inj pair)).2.symm⟩
  · rintro ⟨wrong, rfl⟩
    exact ⟨read, member, verdict.trans (if_pos wrong)⟩

deriving instance DecidableEq for CommitQueue.Note

def interruptedLives : List (List CommitQueue.Note) :=
  let first := stateAfter [[.put [97] [1]]]
  let second := stateAfter [[.put [97] [1]], [.put [97] [2]]]
  let third := stateAfter [[.put [97] [1]], [.put [97] [2]], [.put [98] [3]]]
  [[],
    [.enqueued 0 [.put [97] [1]], .enqueued 1 [.put [97] [2]], .loaded Snapshot.empty,
      .handed [⟨[.put [97] [1]], 0⟩], .published first, .loaded first, .returned 0 (.ok 1),
      .loaded first, .handed [⟨[.put [97] [2]], 1⟩], .published second, .loaded second,
      .returned 1 (.ok 2), .enqueued 2 [.delete [97]], .loaded second],
    [.enqueued 0 [.put [98] [3]], .loaded second, .handed [⟨[.put [98] [3]], 0⟩],
      .published third, .loaded third, .returned 0 (.ok 3)]]

def interruptedRecordings : List Recording :=
  [.write 3 (.put [98] [3]), .read ⟨2, [97], some [1]⟩, .write 1 (.put [97] [1]),
    .read ⟨2, [97], some [2]⟩, .write 2 (.put [97] [2])]

theorem audit_finds_wrong_reads_interrupted :
    ∃ world, runSteps (World.step .none) World.initial interrupted = some world ∧
      (∀ expected, (⟨2, [97], some [1]⟩, expected) ∈
        (Model.recordAll interruptedRecordings).check.1.violations ↔ expected = some [2]) ∧
      ∀ expected, (⟨2, [97], some [2]⟩, expected) ∉
        (Model.recordAll interruptedRecordings).check.1.violations := by
  have facts : (runSteps (World.step .none) World.initial interrupted).map (fun world =>
      (world.sys.exposed, world.lives)) = some (false, interruptedLives) := by
    decide +kernel
  obtain ⟨world, ran, seen⟩ := Option.map_eq_some_iff.mp facts
  obtain ⟨unexposed, lives⟩ := Prod.mk.inj seen
  have acknowledged (index : Nat) :
      world.Acknowledged index ↔ index = 1 ∨ index = 2 ∨ index = 3 := by
    simp [World.Acknowledged, lives, interruptedLives, exists_or, or_assoc]
  have audit : world.Audit interruptedRecordings := by
    constructor
    · intro life member call index ops returned enqueued
      rw [lives] at member
      simp only [interruptedLives, List.mem_cons, List.not_mem_nil, or_false] at member
      rcases member with rfl | rfl | rfl
      · cases returned
      · have answers : call = 0 ∧ index = 1 ∨ call = 1 ∧ index = 2 := by simpa using returned
        rcases answers with ⟨rfl, rfl⟩ | ⟨rfl, rfl⟩
        · obtain rfl : ops = [.put [97] [1]] := by simpa using enqueued
          decide
        · obtain rfl : ops = [.put [97] [2]] := by simpa using enqueued
          decide
      · obtain ⟨rfl, rfl⟩ : call = 0 ∧ index = 3 := by simpa using returned
        obtain rfl : ops = [.put [98] [3]] := by simpa using enqueued
        decide
    · intro index unknown
      rw [acknowledged, not_or, not_or] at unknown
      obtain ⟨notFirst, notSecond, notThird⟩ := unknown
      simp [recordedAt, interruptedRecordings, writesOf, Ne.symm notFirst, Ne.symm notSecond,
        Ne.symm notThird]
  obtain ⟨life, isLife, loaded⟩ : ∃ life ∈ world.lives,
      .loaded (stateAfter [[.put [97] [1]], [.put [97] [2]]]) ∈ life := by
    simp [lives, interruptedLives]
  have known (index : Nat) (positive : 0 < index)
      (bound : index ≤ (stateAfter [[.put [97] [1]], [.put [97] [2]]]).index) :
      world.Acknowledged index := by
    rw [index_stateAfter] at bound
    rw [acknowledged]
    simp only [List.length_cons, List.length_nil] at bound
    omega
  have checked := (audit_finds_wrong_reads (by decide) ran unexposed audit).2
  refine ⟨world, ran, ?_, ?_⟩
  · intro expected
    rw [checked ⟨2, [97], some [1]⟩ (by simp [readsOf, interruptedRecordings]) life isLife _ loaded
      rfl known]
    exact and_iff_right (by decide)
  · intro expected reported
    rw [checked ⟨2, [97], some [2]⟩ (by simp [readsOf, interruptedRecordings]) life isLife _ loaded
      rfl known] at reported
    exact reported.1 (by decide)

end Keystory
