/-
The two checkpoint generations of a directory: each file is absent or holds the
state after part of the history, except that `snap.dat` may be damaged as long
as `snap.prev` is there. Loading, a checkpoint stopped anywhere, a crash and the
loss of `snap.dat` all keep to that.
-/

import Keystory.Engine.History
import Keystory.Engine.System

namespace Keystory

open General Checkpoint

/-! ### Good checkpoints -/

/-- The state after some of the commits, at least `lo` and at most `hi` of them. -/
structure Covers (commits : List (List Op)) (lo hi : Nat) (snapshot : Snapshot) : Prop where
  low : lo ≤ snapshot.index
  high : snapshot.index ≤ hi
  state : snapshot = stateAfter (commits.take snapshot.index)

def Good (commits : List (List Op)) (lo hi : Nat) (file : Option (File UInt8)) : Prop :=
  ∃ bytes snapshot, file = some (.settled bytes) ∧ decode bytes = .ok snapshot ∧
    Covers commits lo hi snapshot

def Slot (commits : List (List Op)) (lo hi : Nat) (file : Option (File UInt8)) : Prop :=
  file = none ∨ Good commits lo hi file

def Damaged (file : Option (File UInt8)) : Prop :=
  ∃ bytes, file = some (.settled bytes) ∧ System.garbled bytes = true

/-- A directory that can be loaded; without any checkpoint the log starts at the first
commit. -/
structure Generations (commits : List (List Op)) (lo hi : Nat) (files : SnapFiles) : Prop where
  prev : Slot commits lo hi files.prev
  latest : Slot commits lo hi files.latest ∨ Damaged files.latest ∧ files.prev ≠ none
  origin : files.latest = none → files.prev = none → lo = 0

section Generations

variable {commits more : List (List Op)} {lo hi low high : Nat} {files old : SnapFiles}
  {file : Option (File UInt8)} {snapshot cur : Snapshot} {damaged : Bool}

theorem Covers.mono (covers : Covers commits lo hi snapshot) (below : low ≤ lo) (above : hi ≤ high)
    (agree : more.take hi = commits.take hi) : Covers more low high snapshot where
  low := below.trans covers.low
  high := covers.high.trans above
  state := by
    have same : more.take snapshot.index = commits.take snapshot.index := by
      rw [← Nat.min_eq_left covers.high, ← List.take_take, agree, List.take_take]
    rw [same]
    exact covers.state

theorem Slot.mono (slot : Slot commits lo hi file) (below : low ≤ lo) (above : hi ≤ high)
    (agree : more.take hi = commits.take hi) : Slot more low high file := by
  refine slot.imp_right ?_
  rintro ⟨bytes, snapshot, same, decoded, covers⟩
  exact ⟨bytes, snapshot, same, decoded, covers.mono below above agree⟩

theorem Generations.mono (generations : Generations commits lo hi files) (below : low ≤ lo)
    (above : hi ≤ high) (agree : more.take hi = commits.take hi) :
    Generations more low high files where
  prev := generations.prev.mono below above agree
  latest := generations.latest.imp_left (fun slot => slot.mono below above agree)
  origin := by
    intro noLatest noPrev
    have zero := generations.origin noLatest noPrev
    omega

/-! ### Loading -/

def held (file : Option (File UInt8)) : Snapshot :=
  match file with
  | none => Snapshot.empty
  | some file =>
      match decode file.bytes with
      | .ok snapshot => snapshot
      | .error _ => Snapshot.empty

theorem Slot.held_covers (slot : Slot commits lo hi file) (origin : file = none → lo = 0) :
    Covers commits lo hi (held file) := by
  rcases slot with none | ⟨bytes, snapshot, rfl, decoded, covers⟩
  · rw [none, origin none]
    exact ⟨Nat.le_refl 0, Nat.zero_le hi, rfl⟩
  · have same : held (some (.settled bytes)) = snapshot := by
      simp only [held, File.bytes_settled, decoded]
    rw [same]
    exact covers

/-- What a store knows of the files: whether `snap.dat` is damaged. -/
structure Ready (commits : List (List Op)) (lo hi : Nat) (files : SnapFiles)
    (damaged : Bool) : Prop where
  generations : Generations commits lo hi files
  sound : damaged = false → Slot commits lo hi files.latest
  fallback : damaged = true → files.prev ≠ none

def replacement (damaged : Bool) : Replaced := if damaged then .discard else .retain

theorem Ready.mono (ready : Ready commits lo hi files damaged) (below : low ≤ lo)
    (above : hi ≤ high) (agree : more.take hi = commits.take hi) :
    Ready more low high files damaged where
  generations := ready.generations.mono below above agree
  sound := fun intact => (ready.sound intact).mono below above agree
  fallback := ready.fallback

theorem Ready.retained (ready : Ready commits lo hi files damaged) :
    Slot commits lo hi (files.retained (replacement damaged)) ∧
      (files.retained (replacement damaged) = none → lo = 0) := by
  cases damaged with
  | true => exact ⟨ready.generations.prev, fun none => absurd none (ready.fallback rfl)⟩
  | false =>
      rcases ready.sound rfl with none | good
      · have kept : files.retained (replacement false) = files.prev := by
          change files.latest.or files.prev = _
          rw [none, Option.none_or]
        rw [kept]
        exact ⟨ready.generations.prev, ready.generations.origin none⟩
      · obtain ⟨bytes, snapshot, same, rest⟩ := good
        have kept : files.retained (replacement false) = some (.settled bytes) := by
          change files.latest.or files.prev = _
          rw [same, Option.some_or]
        rw [kept]
        exact ⟨Or.inr ⟨bytes, snapshot, rfl, rest⟩, fun none => by cases none⟩

theorem Ready.held_covers (ready : Ready commits lo hi files damaged) :
    Covers commits lo hi (held (files.retained (replacement damaged))) :=
  ready.retained.1.held_covers ready.retained.2

theorem loadFile_good {path : String} {bytes : Bytes} (decoded : decode bytes = .ok snapshot) :
    loadFile path (some (.settled bytes)) = .ok (some snapshot) := by
  simp only [loadFile, File.bytes_settled, decoded]

theorem Slot.loadFile (slot : Slot commits lo hi file) (path : String) :
    ∃ found, loadFile path file = .ok found ∧ found.getD Snapshot.empty = held file ∧
      (found = none → file = none) := by
  rcases slot with rfl | ⟨bytes, snapshot, rfl, decoded, _⟩
  · exact ⟨none, rfl, rfl, fun _ => rfl⟩
  · refine ⟨some snapshot, loadFile_good decoded, ?_, fun none => by cases none⟩
    simp only [held, File.bytes_settled, decoded, Option.getD_some]

theorem Generations.load (generations : Generations commits lo hi files) :
    ∃ loaded, load files = .ok loaded ∧ Ready commits lo hi files loaded.latestDamaged ∧
      loaded.snapshot.getD Snapshot.empty =
        held (files.retained (replacement loaded.latestDamaged)) := by
  obtain ⟨found, read, same, absent⟩ := generations.prev.loadFile snapshotPrev
  rcases generations.latest with (none | ⟨bytes, snapshot, here, decoded, covers⟩) |
    ⟨⟨bytes, here, garbage⟩, fallback⟩
  · refine ⟨⟨found, false⟩, ?_, ⟨generations, fun _ => Or.inl none, by simp⟩, ?_⟩
    · have first : loadFile snapshotName files.latest = .ok .none := by rw [none]; rfl
      rw [Checkpoint.load, first, read]
      rfl
    · change _ = held (files.latest.or files.prev)
      rw [none, Option.none_or]
      exact same
  · refine ⟨⟨some snapshot, false⟩, ?_,
      ⟨generations, fun _ => Or.inr ⟨bytes, snapshot, here, decoded, covers⟩, by simp⟩, ?_⟩
    · simp only [Checkpoint.load, here, loadFile_good decoded]
    · change _ = held (files.latest.or files.prev)
      rw [here, Option.some_or]
      simp only [held, File.bytes_settled, decoded, Option.getD_some]
  · cases found with
    | none => exact absurd (absent rfl) fallback
    | some older =>
        refine ⟨⟨some older, true⟩, ?_, ⟨generations, by simp, fun _ => fallback⟩, same⟩
        unfold System.garbled at garbage
        cases outcome : decode bytes with
        | ok snapshot =>
            rw [outcome] at garbage
            cases garbage
        | error failure =>
            rw [outcome] at garbage
            have kind : (failure.within snapshotName).kind = .invalidData :=
              of_decide_eq_true garbage
            have first : loadFile snapshotName files.latest =
                .error (failure.within snapshotName) := by
              simp only [here, Checkpoint.loadFile, File.bytes_settled, outcome]
            simp only [Checkpoint.load, first, if_pos kind, read]
            rfl

/-! ### Checkpoints -/

theorem Ready.congr (ready : Ready commits lo hi old damaged) (latest : files.latest = old.latest)
    (prev : files.prev = old.prev) : Ready commits lo hi files damaged where
  generations :=
    { prev := prev ▸ ready.generations.prev
      latest := by
        rw [latest, prev]
        exact ready.generations.latest
      origin := by
        rw [latest, prev]
        exact ready.generations.origin }
  sound := fun intact => latest ▸ ready.sound intact
  fallback := fun fell => prev ▸ ready.fallback fell

theorem held_written (decoded : decode (fileBytes cur) = .ok cur) :
    held (some (.settled (fileBytes cur))) = cur := by
  simp only [held, File.bytes_settled, decoded]

theorem Ready.published (ready : Ready commits lo cur.index old damaged)
    (covers : Covers commits lo hi cur) (decoded : decode (fileBytes cur) = .ok cur)
    (latest : files.latest = some (.settled (fileBytes cur)))
    (prev : files.prev = old.retained (replacement damaged)) :
    Generations commits (held (old.retained (replacement damaged))).index hi files where
  prev := by
    rw [prev]
    rcases ready.retained.1 with none | ⟨bytes, snapshot, same, held, inside⟩
    · exact Or.inl none
    · rw [same]
      refine Or.inr ⟨bytes, snapshot, rfl, held, ?_, inside.high.trans covers.high, inside.state⟩
      simp only [Keystory.held, File.bytes_settled, held]
      exact Nat.le_refl _
  latest := by
    rw [latest]
    exact Or.inl (Or.inr ⟨_, cur, rfl, decoded, ready.held_covers.high, covers.high, covers.state⟩)
  origin := by
    intro none
    rw [latest] at none
    cases none

/-- Wherever a checkpoint stops the files are ready, and the one to retain next is no
older than before. -/
theorem Ready.progress (ready : Ready commits lo cur.index old damaged)
    (covers : Covers commits lo hi cur) (decoded : decode (fileBytes cur) = .ok cur)
    (progress : Progress old (replacement damaged) (fileBytes cur) files) :
    Ready commits lo hi files damaged ∧
      (held (old.retained (replacement damaged))).index ≤
        (held (files.retained (replacement damaged))).index := by
  have widened := ready.mono (Nat.le_refl lo) covers.high rfl
  cases progress with
  | before latest prev =>
      refine ⟨widened.congr latest prev, ?_⟩
      have same : files.retained = old.retained := by
        funext replaced
        cases replaced with
        | retain => rw [SnapFiles.retained, SnapFiles.retained, latest, prev]
        | discard => exact prev
      rw [same]
  | between retain latest prev =>
      have intact : damaged = false := by
        cases damaged with
        | false => rfl
        | true => cases retain
      subst intact
      have same : files.retained (replacement false) = old.retained (replacement false) := by
        change files.latest.or files.prev = _
        rw [latest, Option.none_or, prev]
      obtain ⟨slot, origin⟩ := widened.retained
      refine ⟨⟨⟨prev ▸ slot, Or.inl (Or.inl latest), ?_⟩, fun _ => Or.inl latest, by simp⟩, ?_⟩
      · intro _ none
        exact origin (prev ▸ none)
      · rw [same]
  | after latest prev =>
      have published := ready.published covers decoded latest prev
      have older := ready.held_covers
      refine ⟨⟨published.mono older.low (Nat.le_refl hi) rfl, fun _ => ?_, ?_⟩, ?_⟩
      · exact Or.inr ⟨_, cur, latest, decoded, covers⟩
      · intro fell
        subst fell
        rw [prev]
        exact ready.fallback rfl
      · cases damaged with
        | false =>
            have next : files.retained (replacement false) = some (.settled (fileBytes cur)) := by
              change files.latest.or files.prev = _
              rw [latest, Option.some_or]
            rw [next, held_written decoded]
            exact older.high
        | true =>
            have next : files.retained (replacement true) = old.retained (replacement true) := prev
            rw [next]

/-! ### Crashes and loss -/

theorem Slot.crash (slot : Slot commits lo hi file) (kept safe : Nat) :
    Slot commits lo hi (file.map (·.crash kept safe)) := by
  rcases slot with rfl | ⟨bytes, snapshot, rfl, rest⟩
  · exact Or.inl rfl
  · exact Or.inr ⟨bytes, snapshot, by simp, rest⟩

theorem Generations.crash (generations : Generations commits lo hi files)
    (kept safe : Name → Nat) : Generations commits lo hi (files.crash kept safe) where
  prev := generations.prev.crash _ _
  latest := by
    rcases generations.latest with slot | ⟨⟨bytes, same, garbage⟩, fallback⟩
    · exact Or.inl (slot.crash _ _)
    · refine Or.inr ⟨⟨bytes, ?_, garbage⟩, ?_⟩
      · simp [SnapFiles.crash, same]
      · simpa [SnapFiles.crash] using fallback
  origin := by
    intro noLatest noPrev
    exact generations.origin (Option.map_eq_none_iff.mp noLatest) (Option.map_eq_none_iff.mp noPrev)

theorem Generations.spoil {garbage : Option Bytes} (generations : Generations commits lo hi files)
    (fallback : files.prev ≠ none) (spoilt : System.spoilt garbage = true) :
    Generations commits lo hi (System.spoil files garbage) where
  prev := generations.prev
  latest := by
    cases garbage with
    | none => exact Or.inl (Or.inl rfl)
    | some bytes => exact Or.inr ⟨⟨bytes, rfl, spoilt⟩, fallback⟩
  origin := fun _ none => absurd none fallback

end Generations

end Keystory
