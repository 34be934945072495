/-
Undisturbed runs of a store: opens, commits, checkpoints and closes in any order,
with no crash and no failing call. A checkpoint leaves exactly the segments from
the one on in which the records after its predecessor begin.
-/

import Keystory.Engine.Durability
import Keystory.Engine.Rows

namespace Keystory

open General Wal Checkpoint

namespace System

/-! ### Undisturbed runs -/

def Event.calm : Event → Bool
  | .crash _ => false
  | .damage _ => false
  | _ => true

/-- The checkpoint a step completes on disk: its index, and the segment it rotated to. -/
def wrote (sys : System) : Event → Option (Nat × Nat)
  | .endSave =>
      match sys.phase with
      | .running ⟨_, _, _, .saving cur boundary (.done (.ok ()))⟩ => some (cur.index, boundary)
      | _ => none
  | _ => none

def checkpoints : List Event → System → List (Nat × Nat) → List (Nat × Nat)
  | [], _, marks => marks
  | event :: events, sys, marks =>
      match sys.step .none event with
      | none => marks
      | some next => checkpoints events next ((sys.wrote event).toList ++ marks)

end System

/-! ### What an undisturbed store keeps to -/

/-- Checkpoints by their index and the segment they rotated to, newest first. -/
abbrev Marks := List (Nat × Nat)

def Marks.base (marks : Marks) : Nat := (marks.head?.map Prod.fst).getD 0

def Holds (file : Option (File UInt8)) (index : Nat) : Prop :=
  ∃ bytes snapshot, file = some (.settled bytes) ∧ decode bytes = .ok snapshot ∧
    snapshot.index = index

def Retains : Marks → SnapFiles → Prop
  | [], files => files.latest = none ∧ files.prev = none
  | [newest], files => Holds files.latest newest.1 ∧ files.prev = none
  | newest :: older :: _, files => Holds files.latest newest.1 ∧ Holds files.prev older.1

/-- The boundary that the next checkpoint reclaims up to is where the log after the
newest one begins. -/
structure Due (rows : Rows) (hi : Nat) (marks : Marks) (boundary : Nat) : Prop where
  present : boundary ∈ numbers rows
  newest : ∀ newest ∈ marks.head?, boundary = newest.2 ∧ Opens rows hi newest.1 newest.2

/-- The boundary that a checkpoint reclaims up to, taken at `index` with a rotation to
`seq`, is where the log after the one before it begins. -/
structure Owed (rows : Rows) (index seq : Nat) (marks : Marks) (boundary : Nat) : Prop where
  present : boundary ∈ numbers rows
  order : boundary ≤ seq
  older : ∀ older ∈ marks.head?, boundary = older.2 ∧ Beyond (tagged rows) older.1 boundary ∧
    (older.1 < index → Starts rows older.1 boundary)

def Advanced (marks : Marks) (files : SnapFiles) (prevBoundary : Nat) (rows : Rows)
    (lo hi : Nat) : Stage → Prop
  | .idle => lo ≤ marks.base ∧ Retains marks files ∧ Due rows hi marks prevBoundary
  | .saving cur boundary program => lo ≤ cur.index ∧ Opens rows hi cur.index boundary ∧
      Owed rows cur.index boundary marks prevBoundary ∧
      program.Spec (Checkpoint.directory .none) (fun _ => True)
        (fun result files => result = .ok () ∧ Retains ((cur.index, boundary) :: marks) files)
        files
  | .saved covered => lo ≤ marks.base ∧ Retains marks files ∧ Due rows hi marks prevBoundary ∧
      ∃ newest older, marks = newest :: older ∧ Owed rows newest.1 newest.2 older covered

def Busy (marks : Marks) (segments : Segments) (live : Live) (rows : Rows) : Prop :=
  let wal := live.store.wal
  match live.task with
  | .free => wal.Lists segments rows
  | .append group staged program => live.landed = none ∧ group ≠ [] ∧
      staged = Store.stageGroup live.store.snap group ∧
      live.store.snap.index + group.length < 2 ^ 64 ∧
      Leads program (AppendedTo wal rows staged.records) segments
  | .rotate cur program => live.landed = none ∧ live.stage = .idle ∧ cur = live.store.snap ∧
      Checkpoint.Fits cur ∧ Leads program (RotatedTo wal rows) segments
  | .remove program => live.stage = .idle ∧ ∃ newest older covered, marks = newest :: older ∧
      Owed rows newest.1 newest.2 older covered ∧
      Leads program (fun _ segments => ∃ rest, Shed covered rows rest ∧ wal.Lists segments rest)
        segments

def Live.top (live : Live) : Nat :=
  match live.landed with
  | none => live.store.snap.index
  | some staged => staged.next.index

structure Tended (marks : Marks) (files : SnapFiles) (segments : Segments) (live : Live)
    (rows : Rows) (lo : Nat) : Prop where
  ledger : Ledger rows lo live.top
  intact : live.store.latestDamaged = false
  stage : Advanced marks files live.store.prevBoundary rows lo live.top live.stage
  busy : Busy marks segments live rows

def Shut (marks : Marks) (files : SnapFiles) (segments : Segments) : Prop :=
  ∃ rows lo hi, Reopens segments rows ∧ Ledger rows lo hi ∧ lo ≤ marks.base ∧
    Retains marks files ∧ ∀ newest ∈ marks.head?, Opens rows hi newest.1 newest.2

def Calm (marks : Marks) (sys : System) : Prop :=
  match sys.phase with
  | .closed => Shut marks sys.files sys.segments
  | .opening program =>
      Leads program (fun result segments => ∃ store rows lo, result = .ok store ∧
        Tended marks sys.files segments ⟨store, .free, none, .idle⟩ rows lo) sys.segments
  | .running live => ∃ rows lo, Tended marks sys.files sys.segments live rows lo

section Calm

variable {marks : Marks} {files : SnapFiles} {segments : Segments} {rows after : Rows}
  {lo hi : Nat} {store : Store} {stage : Stage} {sys : System}

/-! ### Opening -/

theorem Retains.newest {newest : Nat × Nat} (retains : Retains (newest :: marks) files) :
    Holds files.latest newest.1 := by
  cases marks with
  | nil => exact retains.1
  | cons older marks => exact retains.1

theorem Retains.load (retains : Retains marks files) :
    ∃ found, Checkpoint.load files = .ok ⟨found, false⟩ ∧
      (found.getD Snapshot.empty).index = marks.base := by
  have good : ∀ newest : Nat × Nat, Holds files.latest newest.1 →
      ∃ found, Checkpoint.load files = .ok ⟨found, false⟩ ∧
        (found.getD Snapshot.empty).index = newest.1 := by
    rintro newest ⟨bytes, snapshot, here, decoded, index⟩
    refine ⟨some snapshot, ?_, index⟩
    simp only [Checkpoint.load, here, loadFile_good decoded]
  cases marks with
  | nil =>
      obtain ⟨latest, prev⟩ := retains
      refine ⟨none, ?_, rfl⟩
      simp only [Checkpoint.load, latest, prev, loadFile]
      rfl
  | cons newest older => exact good newest retains.newest

/-- The boundary an open reconstructs is the one the last store had. -/
theorem Shut.openWith (shut : Shut marks files segments) (options : Options) :
    Leads (Store.openWith options files) (fun result segments => ∃ store rows lo,
      result = .ok store ∧ Tended marks files segments ⟨store, .free, none, .idle⟩ rows lo)
      segments := by
  obtain ⟨rows, lo, hi, ⟨replays, opens⟩, ledger, low, retains, begins⟩ := shut
  obtain ⟨found, loaded, index⟩ := retains.load
  obtain ⟨commits, logged, rfl⟩ := ledger.logged
  have high : marks.base ≤ lo + commits.length := by
    cases marks with
    | nil => exact Nat.zero_le _
    | cons newest older => exact (begins newest rfl).high ledger
  have replayed := foldlM_logged (found.getD Snapshot.empty) logged (by omega) (by omega)
    ledger.bound
  unfold Store.openWith
  rw [loaded]
  apply spec_readDir trivial
  rw [replays, replayed, ok_bind]
  apply Program.Spec.bind
  refine (opens options.walSegmentSize).mono (fun _ _ => trivial) ?_
  rintro result segments _ ⟨wal, rfl, lists⟩
  refine ⟨trivial, _, rows, lo, rfl, ledger, rfl, ⟨low, retains, ?_⟩, lists⟩
  obtain ⟨_, closed, file, kept, rfl, _⟩ := lists
  rw [index]
  cases marks with
  | nil =>
      refine ⟨?_, fun newest impossible => by cases impossible⟩
      cases first : ((tagged (closed ++ [(wal.segSeq, kept)])).drop
          (Marks.base [] - lo)).head? with
      | none => simp [numbers]
      | some entry =>
          exact tag_mem_numbers (List.mem_of_mem_drop (List.mem_of_head? first))
  | cons newest older =>
      have opened := begins newest rfl
      have same := opened.firstUncovered ledger low
      refine ⟨?_, ?_⟩
      · change Option.getD _ _ ∈ _
        rw [show Marks.base (newest :: older) = newest.1 from rfl, same]
        exact opened.present
      · intro other head
        cases head
        exact ⟨same, opened⟩

/-! ### Commits -/

theorem Due.extend {group : List (List Op)} {boundary : Nat} (due : Due rows hi marks boundary)
    (ledger : Ledger rows lo hi) (extended : Extended (stamp hi group) rows after)
    (some : group ≠ []) (bound : hi + group.length < 2 ^ 64) :
    Due after (hi + group.length) marks boundary := by
  obtain ⟨new, grown, _⟩ := extended.grown ledger.consecutive
  refine ⟨grown.kept due.present, ?_⟩
  intro newest head
  obtain ⟨same, opens⟩ := due.newest newest head
  exact ⟨same, opens.extend ledger extended some bound⟩

theorem Owed.grow {index seq boundary : Nat} {new : List (Nat × Record)}
    (owed : Owed rows index seq marks boundary) (grown : Grown rows after new) :
    Owed after index seq marks boundary := by
  refine ⟨grown.kept owed.present, owed.order, ?_⟩
  intro older head
  obtain ⟨same, beyond, starts⟩ := owed.older older head
  exact ⟨same, grown.beyond owed.present beyond, fun before => (starts before).grow grown⟩

theorem Advanced.extend {group : List (List Op)} {boundary : Nat}
    (advanced : Advanced marks files boundary rows lo hi stage) (ledger : Ledger rows lo hi)
    (extended : Extended (stamp hi group) rows after) (some : group ≠ [])
    (bound : hi + group.length < 2 ^ 64) :
    Advanced marks files boundary after lo (hi + group.length) stage := by
  obtain ⟨new, grown, _⟩ := extended.grown ledger.consecutive
  cases stage with
  | idle =>
      obtain ⟨low, retains, due⟩ := advanced
      exact ⟨low, retains, due.extend ledger extended some bound⟩
  | saving cur boundary program =>
      obtain ⟨low, opens, owed, spec⟩ := advanced
      exact ⟨low, opens.extend ledger extended some bound, owed.grow grown, spec⟩
  | saved covered =>
      obtain ⟨low, retains, due, newest, older, same, owed⟩ := advanced
      exact ⟨low, retains, due.extend ledger extended some bound, newest, older, same,
        owed.grow grown⟩

theorem Tended.beginFlush {group : List (List Op)}
    (tended : Tended marks files segments ⟨store, .free, none, stage⟩ rows lo)
    (some : group ≠ []) (bound : store.snap.index + group.length < 2 ^ 64) :
    Tended marks files segments ⟨store, .append group (Store.stageGroup store.snap group)
      (store.wal.appendMany (Store.stageGroup store.snap group).records), none, stage⟩ rows lo := by
  refine ⟨tended.ledger, tended.intact, tended.stage, rfl, some, rfl, bound, ?_⟩
  apply appendMany_leads tended.busy
  intro empty
  rw [records_stageGroup] at empty
  have counted := congrArg List.length empty
  rw [length_stamp] at counted
  exact some (List.length_eq_zero_iff.mp counted)

theorem Tended.endFlush_ok {group : List (List Op)} {staged : Store.Staged} {wal : Wal}
    (tended : Tended marks files segments
      ⟨store, .append group staged (.done (.ok (), wal)), none, stage⟩ rows lo) :
    ∃ after, Tended marks files segments
      ⟨store.landed wal group.length, .free, some staged, stage⟩ after lo := by
  obtain ⟨_, some, same, bound, _, after, extended, lists⟩ := tended.busy
  have same : staged = Store.stageGroup store.snap group := same
  subst same
  have ledger : Ledger rows lo store.snap.index := tended.ledger
  have top : (Store.stageGroup store.snap group).next.index =
      store.snap.index + group.length := by
    rw [stageGroup_eq, index_foldl_commit]
  have extended : Extended (stamp store.snap.index group) rows after := by
    rw [← records_stageGroup]
    exact extended
  obtain ⟨new, grown, added⟩ := extended.grown ledger.consecutive
  refine ⟨after, ?_, tended.intact, ?_, lists⟩
  · change Ledger after lo (Store.stageGroup store.snap group).next.index
    rw [top]
    exact ledger.grow grown added bound
  · change Advanced marks files store.prevBoundary after lo
      (Store.stageGroup store.snap group).next.index stage
    rw [top]
    exact Advanced.extend tended.stage ledger extended some bound

theorem Tended.release {task : Task} {landed : Option Store.Staged} {wal : Wal}
    (tended : Tended marks files segments ⟨store, task, landed, stage⟩ rows lo)
    (unchanged : wal = store.wal) (lists : store.wal.Lists segments rows) :
    Tended marks files segments ⟨{ store with wal := wal }, .free, landed, stage⟩ rows lo := by
  subst unchanged
  exact ⟨tended.ledger, tended.intact, tended.stage, lists⟩

theorem Tended.endFlush_error {group : List (List Op)} {staged : Store.Staged} {wal : Wal}
    {failure : Failure} {landed : Option Store.Staged}
    (tended : Tended marks files segments
      ⟨store, .append group staged (.done (.error failure, wal)), landed, stage⟩ rows lo) :
    Tended marks files segments ⟨{ store with wal := wal }, .free, landed, stage⟩ rows lo := by
  obtain ⟨_, _, _, _, _, unchanged, lists⟩ := tended.busy
  exact tended.release unchanged lists

theorem Tended.publish {task : Task} {staged : Store.Staged}
    (tended : Tended marks files segments ⟨store, task, some staged, stage⟩ rows lo) :
    Tended marks files segments ⟨store.publish staged, task, none, stage⟩ rows lo := by
  refine ⟨tended.ledger, tended.intact, tended.stage, ?_⟩
  have busy := tended.busy
  cases task with
  | free => exact busy
  | append group staged program => cases busy.1
  | rotate cur program => cases busy.1
  | remove program => exact busy

/-! ### Checkpoints -/

theorem Tended.beginCheckpoint
    (tended : Tended marks files segments ⟨store, .free, none, .idle⟩ rows lo)
    (fits : Checkpoint.Fits store.snap) :
    Tended marks files segments
      ⟨store, .rotate store.snap store.wal.rotateSegment, none, .idle⟩ rows lo :=
  ⟨tended.ledger, tended.intact, tended.stage, rfl, rfl, rfl, fits,
    rotateSegment_leads tended.busy⟩

theorem Tended.endRotate_error {cur : Snapshot} {wal : Wal} {failure : Failure}
    {landed : Option Store.Staged}
    (tended : Tended marks files segments
      ⟨store, .rotate cur (.done (.error failure, wal)), landed, stage⟩ rows lo) :
    Tended marks files segments ⟨{ store with wal := wal }, .free, landed, stage⟩ rows lo := by
  obtain ⟨_, _, _, _, _, unchanged, lists⟩ := tended.busy
  exact tended.release unchanged lists

theorem Retains.written {cur : Snapshot} {boundary : Nat} {old : SnapFiles}
    (retains : Retains marks old) (fits : Checkpoint.Fits cur)
    (latest : files.latest = some (.settled (fileBytes cur)))
    (prev : files.prev = old.retained .retain) :
    Retains ((cur.index, boundary) :: marks) files := by
  have written : Holds files.latest cur.index :=
    ⟨_, cur, latest, decode_fileBytes fits, rfl⟩
  have demoted : ∀ index, Holds old.latest index → Holds files.prev index := by
    rintro index ⟨bytes, snapshot, here, rest⟩
    refine ⟨bytes, snapshot, ?_, rest⟩
    rw [prev, SnapFiles.retained, here, Option.some_or]
  cases marks with
  | nil =>
      obtain ⟨nothing, absent⟩ := retains
      refine ⟨written, ?_⟩
      rw [prev, SnapFiles.retained, nothing, absent, Option.none_or]
  | cons newest older => exact ⟨written, demoted _ retains.newest⟩

theorem Due.rotate {front : Rows} {last boundary : Nat} {kept : List Record}
    (due : Due (front ++ [(last, kept)]) hi marks boundary)
    (ledger : Ledger (front ++ [(last, kept)]) lo hi) :
    Owed (front ++ [(last, kept)] ++ [(last + 1, [])]) hi (last + 1) marks boundary := by
  have grown := Grown.rotated ledger.consecutive
  have consecutive := ledger.consecutive
  have present := due.present
  rw [numbers, List.map_append] at consecutive present
  refine ⟨grown.kept due.present, Nat.le_succ_of_le (consecutive.le_last present), ?_⟩
  intro older head
  obtain ⟨same, opens⟩ := due.newest older head
  rw [same]
  refine ⟨rfl, grown.beyond opens.present opens.beyond, ?_⟩
  intro before
  rcases opens.first with ⟨equal, _⟩ | starts
  · exact absurd equal (Nat.ne_of_gt before)
  · exact starts.grow grown

/-- The rotation opens the segment in which the log after this checkpoint begins, and
what the checkpoint before needs begins where it did. -/
theorem Tended.endRotate_ok {cur : Snapshot} {wal : Wal} {boundary : Nat}
    {landed : Option Store.Staged}
    (tended : Tended marks files segments
      ⟨store, .rotate cur (.done (.ok boundary, wal)), landed, stage⟩ rows lo) :
    ∃ after, Tended marks files segments ⟨{ store with wal := wal }, .free, landed,
      .saving cur boundary (Checkpoint.write cur store.replaced)⟩ after lo := by
  obtain ⟨rfl, rfl, pinned, fits, _, next, lists, front, kept, rfl⟩ := tended.busy
  have pinned : cur = store.snap := pinned
  have placed : boundary = store.wal.segSeq + 1 := next
  clear next
  subst pinned placed
  have ledger : Ledger (front ++ [(store.wal.segSeq, kept)]) lo store.snap.index := tended.ledger
  have grown := Grown.rotated ledger.consecutive
  have retain : store.replaced = .retain := by
    have intact : store.latestDamaged = false := tended.intact
    rw [Store.replaced, intact]
    rfl
  obtain ⟨low, retains, due⟩ := tended.stage
  have longer : Ledger (front ++ [(store.wal.segSeq, kept)] ++ [(store.wal.segSeq + 1, [])]) lo
      store.snap.index := by
    have none : untag [] = stamp store.snap.index [] := rfl
    exact ledger.grow grown none ledger.bound
  refine ⟨_, longer, tended.intact, ⟨ledger.low, Opens.rotated ledger, due.rotate ledger, ?_⟩,
    lists⟩
  rw [retain]
  refine (write_leads fits .retain files).mono (fun _ _ => trivial) ?_
  rintro result after _ ⟨rfl, latest, prev⟩
  exact ⟨rfl, retains.written fits latest prev⟩

theorem Busy.restage {task : Task} {landed : Option Store.Staged} {next : Stage}
    {after : Store} {others : Marks}
    (busy : Busy marks segments ⟨store, task, landed, stage⟩ rows) (under : stage ≠ .idle)
    (wal : after.wal = store.wal) (snap : after.snap = store.snap) :
    Busy others segments ⟨after, task, landed, next⟩ rows := by
  unfold Busy at busy ⊢
  dsimp only at busy ⊢
  rw [wal, snap]
  cases task with
  | free => exact busy
  | append group staged program => exact busy
  | rotate cur program => exact absurd busy.2.1 under
  | remove program => exact absurd busy.1 under

theorem Tended.endSave_ok {task : Task} {landed : Option Store.Staged} {cur : Snapshot}
    {boundary : Nat}
    (tended : Tended marks files segments
      ⟨store, task, landed, .saving cur boundary (.done (.ok ()))⟩ rows lo) :
    Tended ((cur.index, boundary) :: marks) files segments
      ⟨store.saved boundary, task, landed, .saved store.prevBoundary⟩ rows lo := by
  obtain ⟨low, opens, owed, _, _, retains⟩ := tended.stage
  refine ⟨?_, rfl, ⟨low, retains, ⟨opens.present, ?_⟩, _, marks, rfl, owed⟩,
    tended.busy.restage (by simp) rfl rfl⟩
  · cases landed <;> exact tended.ledger
  · intro newest head
    cases head
    cases landed <;> exact ⟨rfl, opens⟩

theorem Tended.endSave_error {task : Task} {landed : Option Store.Staged} {cur : Snapshot}
    {boundary : Nat} {failure : Failure}
    (tended : Tended marks files segments
      ⟨store, task, landed, .saving cur boundary (.done (.error failure))⟩ rows lo) : False := by
  obtain ⟨_, _, _, _, impossible, _⟩ := tended.stage
  cases impossible

theorem Tended.fileCall {task : Task} {landed : Option Store.Staged} {cur : Snapshot}
    {boundary : Nat} {program : FileProgram (Except Failure Unit)} {fate : Fate}
    {outcome : FileProgram (Except Failure Unit) × SnapFiles}
    (tended : Tended marks files segments
      ⟨store, task, landed, .saving cur boundary program⟩ rows lo)
    (stepped : program.step (Checkpoint.directory .none) fate files = some outcome) :
    Tended marks outcome.2 segments
      ⟨store, task, landed, .saving cur boundary outcome.1⟩ rows lo := by
  obtain ⟨low, opens, owed, spec⟩ := tended.stage
  exact ⟨tended.ledger, tended.intact, ⟨low, opens, owed, spec.step stepped⟩,
    tended.busy.restage (by simp) rfl rfl⟩

/-! ### Reclaiming segments -/

theorem Tended.beginRemove {landed : Option Store.Staged} {covered : Nat}
    (tended : Tended marks files segments ⟨store, .free, landed, .saved covered⟩ rows lo) :
    Tended marks files segments
      ⟨store, .remove (store.wal.removeSegmentsBefore covered), landed, .idle⟩ rows lo := by
  obtain ⟨low, retains, due, newest, older, same, owed⟩ := tended.stage
  have lists : store.wal.Lists segments rows := tended.busy
  have within : covered ≤ store.wal.segSeq := by
    obtain ⟨_, closed, file, kept, rfl, _⟩ := lists
    have consecutive := tended.ledger.consecutive
    have present := owed.present
    rw [numbers, List.map_append] at consecutive present
    exact consecutive.le_last present
  exact ⟨tended.ledger, tended.intact, ⟨low, retains, due⟩, rfl, newest, older, covered, same,
    owed, removeSegmentsBefore_leads lists within⟩

theorem Tended.endRemove {landed : Option Store.Staged} {result : Except Failure Nat}
    (tended : Tended marks files segments ⟨store, .remove (.done result), landed, stage⟩
      rows lo) :
    ∃ rest low, Tended marks files segments ⟨store, .free, landed, stage⟩ rest low := by
  obtain ⟨rfl, newest, older, covered, rfl, owed, _, rest, shed, lists⟩ := tended.busy
  obtain ⟨low, retains, due⟩ := tended.stage
  obtain ⟨same, opens⟩ := due.newest newest rfl
  obtain ⟨least, ledger, reaches⟩ := tended.ledger.shed shed
  refine ⟨rest, least, ledger, tended.intact, ⟨?_, retains, ?_, ?_⟩, lists⟩
  · apply reaches newest.1 low
    intro entry member newer
    exact owed.order.trans (opens.beyond entry member newer)
  · rw [same]
    exact (opens.shed shed owed.order).present
  · intro other head
    cases head
    exact ⟨same, opens.shed shed owed.order⟩

theorem Tended.shut (tended : Tended marks files segments ⟨store, .free, none, .idle⟩ rows lo) :
    Shut marks files segments := by
  obtain ⟨low, retains, due⟩ := tended.stage
  have lists : store.wal.Lists segments rows := tended.busy
  exact ⟨rows, lo, _, lists.rests.reopens, tended.ledger, low, retains,
    fun newest head => (due.newest newest head).2⟩

/-! ### Every step -/

theorem Calm.running {live : Live} (calm : Calm marks sys) (phase : sys.phase = .running live) :
    ∃ rows lo, Tended marks sys.files sys.segments live rows lo := by
  rw [Calm, phase] at calm
  exact calm

theorem Calm.step {event : System.Event} {next : System} (inv : Inv .none sys)
    (calm : Calm marks sys) (undisturbed : event.calm = true)
    (stepped : sys.step .none event = some next) :
    Calm ((sys.wrote event).toList ++ marks) next := by
  cases System.step_moves stepped with
  | beginOpen options phase =>
      rw [Calm, phase] at calm
      exact calm.openWith options
  | opened store phase =>
      rw [Calm, phase] at calm
      obtain ⟨_, _, rows, lo, same, tended⟩ := calm
      cases same
      exact ⟨rows, lo, tended⟩
  | refused failure phase =>
      rw [Calm, phase] at calm
      obtain ⟨_, _, _, _, impossible, _⟩ := calm
      cases impossible
  | beginFlush group store stage phase nonempty checked bound =>
      obtain ⟨rows, lo, tended⟩ := calm.running phase
      exact ⟨rows, lo, tended.beginFlush nonempty bound⟩
  | flushed store group staged wal stage phase =>
      obtain ⟨rows, lo, tended⟩ := calm.running phase
      obtain ⟨after, tended⟩ := tended.endFlush_ok
      exact ⟨after, lo, tended⟩
  | flushFailed store group staged failure wal landed stage phase =>
      obtain ⟨rows, lo, tended⟩ := calm.running phase
      exact ⟨rows, lo, tended.endFlush_error⟩
  | publish store task staged stage phase =>
      obtain ⟨rows, lo, tended⟩ := calm.running phase
      exact ⟨rows, lo, tended.publish⟩
  | beginCheckpoint store phase small =>
      obtain ⟨_, _, _, _, consistent⟩ := inv.running phase
      obtain ⟨rows, lo, tended⟩ := calm.running phase
      exact ⟨rows, lo, tended.beginCheckpoint (consistent.fits small)⟩
  | rotated store cur boundary wal landed stage phase =>
      obtain ⟨rows, lo, tended⟩ := calm.running phase
      obtain ⟨after, tended⟩ := tended.endRotate_ok
      exact ⟨after, lo, tended⟩
  | rotateFailed store cur failure wal landed stage phase =>
      obtain ⟨rows, lo, tended⟩ := calm.running phase
      exact ⟨rows, lo, tended.endRotate_error⟩
  | saved store task landed cur boundary phase =>
      obtain ⟨rows, lo, tended⟩ := calm.running phase
      rw [System.wrote, phase]
      exact ⟨rows, lo, tended.endSave_ok⟩
  | saveFailed store task landed cur boundary failure phase =>
      obtain ⟨rows, lo, tended⟩ := calm.running phase
      exact tended.endSave_error.elim
  | beginRemove store landed covered phase =>
      obtain ⟨rows, lo, tended⟩ := calm.running phase
      exact ⟨rows, lo, tended.beginRemove⟩
  | removed store result landed stage phase =>
      obtain ⟨rows, lo, tended⟩ := calm.running phase
      exact tended.endRemove
  | openCall fate program outcome phase served =>
      rw [Calm, phase] at calm
      exact calm.step served
  | appendCall fate store group staged landed stage program outcome phase served =>
      obtain ⟨rows, lo, tended⟩ := calm.running phase
      obtain ⟨nothing, some, same, bound, spec⟩ := tended.busy
      exact ⟨rows, lo, tended.ledger, tended.intact, tended.stage, nothing, some, same, bound,
        spec.step served⟩
  | rotateCall fate store cur landed stage program outcome phase served =>
      obtain ⟨rows, lo, tended⟩ := calm.running phase
      obtain ⟨nothing, idle, pinned, fits, spec⟩ := tended.busy
      exact ⟨rows, lo, tended.ledger, tended.intact, tended.stage, nothing, idle, pinned, fits,
        spec.step served⟩
  | removeCall fate store landed stage program outcome phase served =>
      obtain ⟨rows, lo, tended⟩ := calm.running phase
      obtain ⟨idle, newest, older, covered, same, owed, spec⟩ := tended.busy
      exact ⟨rows, lo, tended.ledger, tended.intact, tended.stage, idle, newest, older, covered,
        same, owed, spec.step served⟩
  | fileCall fate store task landed cur boundary program outcome phase served =>
      obtain ⟨rows, lo, tended⟩ := calm.running phase
      exact ⟨rows, lo, tended.fileCall served⟩
  | close store phase =>
      obtain ⟨rows, lo, tended⟩ := calm.running phase
      exact tended.shut
  | crash cut => cases undisturbed
  | damage garbage phase fallback spoilt => cases undisturbed

theorem Calm.initial : Calm [] System.initial := by
  refine ⟨[(1, [])], 0, 0, reopens_empty rfl, ⟨⟨1, rfl⟩, ⟨[], rfl, rfl⟩, by decide⟩,
    Nat.le_refl 0, ⟨rfl, rfl⟩, ?_⟩
  intro newest impossible
  cases impossible

theorem Calm.run {events : List System.Event} {next : System} (inv : Inv .none sys)
    (calm : Calm marks sys) (undisturbed : ∀ event ∈ events, event.calm = true)
    (ran : System.run .none events sys = some next) :
    Calm (System.checkpoints events sys marks) next := by
  induction events generalizing sys marks with
  | nil =>
      cases ran
      exact calm
  | cons event events ih =>
      rw [System.run, List.foldlM_cons] at ran
      obtain ⟨middle, stepped, rest⟩ := Option.bind_eq_some_iff.mp ran
      rw [System.checkpoints, stepped]
      have first := undisturbed event List.mem_cons_self
      exact ih (inv.step (by decide) stepped) (calm.step inv first stepped)
        (fun other member => undisturbed other (List.mem_cons_of_mem event member)) rest

end Calm

/-! ### One generation behind -/

def seen (index : Nat) (entries : List (Nat × Record)) : List (Nat × Record) :=
  entries.filter (fun entry => decide (entry.2.index.toNat ≤ index))

/-- The first segment that can hold a record newer than the checkpoint at `index`: the one
that holds the next record or, while there is none, the one it rotated to. -/
def firstNewer (entries : List (Nat × Record)) (index rotated : Nat) : Nat :=
  ((entries.find? (fun entry => decide (entry.2.index.toNat = index + 1))).map Prod.fst).getD
    rotated

theorem Ledger.firstNewer_eq {rows : Rows} {lo hi index latest rotated : Nat}
    (ledger : Ledger rows lo hi) (starts : index < latest → Starts rows index rotated) :
    firstNewer (seen latest (tagged rows)) index rotated = rotated := by
  unfold firstNewer
  cases found : (seen latest (tagged rows)).find?
      (fun entry => decide (entry.2.index.toNat = index + 1)) with
  | none => rfl
  | some entry =>
      obtain ⟨member, old⟩ := List.mem_filter.mp (List.mem_of_find?_eq_some found)
      have next : entry.2.index.toNat = index + 1 := by simpa using List.find?_some found
      have old := of_decide_eq_true old
      obtain ⟨record, there, same⟩ := starts (by omega)
      have equal : entry = (rotated, record) :=
        ledger.eq_of_index member there (next.trans same.symm)
      rw [equal]
      rfl

/-- In every undisturbed run, whatever the segment sizes: after each checkpoint that leaves
a `snap.prev`, the segments are exactly those from the first one on that can hold a record
newer than it, up to the current one. Only records that were committed while the checkpoint
was being written are not among those it had seen. -/
theorem checkpoint_reclaims_one_generation_behind {events : List System.Event}
    {middle sys : System} {file : File UInt8} {older : Snapshot}
    (undisturbed : ∀ event ∈ events, event.calm = true)
    (ran : System.run .none events System.initial = some middle)
    (completed : middle.endRemove = some sys) (retained : sys.files.prev = some file)
    (decoded : decode file.bytes = .ok older) :
    ∃ live latest next rotated earlier entries, sys.phase = .running live ∧
      System.checkpoints events System.initial [] =
        (latest, next) :: (older.index, rotated) :: earlier ∧
      Replays sys.segments entries none ∧ (live.top = latest → seen latest entries = entries) ∧
      Beyond entries older.index (firstNewer (seen latest entries) older.index rotated) ∧
      ∀ seq, seq ∈ sys.segments.keys ↔
        firstNewer (seen latest entries) older.index rotated ≤ seq ∧
          seq ≤ live.store.wal.segSeq := by
  have calm := Calm.run Inv.initial Calm.initial undisturbed ran
  unfold System.endRemove at completed
  split at completed
  · rename_i store result landed stage phase
    cases completed
    obtain ⟨rows, lo, tended⟩ := calm.running phase
    obtain ⟨rfl, newest, before, covered, written, owed, _, rest, shed, lists⟩ := tended.busy
    obtain ⟨_, retains, _⟩ := tended.stage
    rw [written] at retains
    cases before with
    | nil =>
        rw [retains.2] at retained
        cases retained
    | cons previous earlier =>
        obtain ⟨bytes, snapshot, held, read, index⟩ := retains.2
        rw [held] at retained
        cases retained
        rw [File.bytes_settled, read] at decoded
        cases decoded
        obtain ⟨rfl, beyond, starts⟩ := owed.older previous rfl
        obtain ⟨least, ledger, _⟩ := tended.ledger.shed shed
        have first : firstNewer (seen newest.1 (tagged rest)) older.index previous.2 =
            previous.2 := by
          apply ledger.firstNewer_eq
          intro before
          rw [index] at before ⊢
          exact (starts before).shed shed (Nat.le_refl _)
        have present := shed.mem_numbers.mpr ⟨owed.present, Nat.le_refl _⟩
        have above : ∀ seq ∈ numbers rest, previous.2 ≤ seq :=
          fun seq member => (shed.mem_numbers.mp member).2
        refine ⟨⟨store, .free, landed, .idle⟩, newest.1, newest.2, previous.2, earlier,
          tagged rest, rfl, ?_, lists.rests.replays, ?_, ?_, ?_⟩
        · rw [written, index]
        · intro alone
          apply List.filter_eq_self.mpr
          intro entry member
          exact decide_eq_true (alone ▸ ledger.index_le member)
        · rw [first, index]
          exact beyond.subset (fun entry member => (shed.mem_tagged.mp member).1)
        · intro seq
          rw [first, lists.rests.keys_eq]
          obtain ⟨_, closed, file, kept, rfl, _⟩ := lists
          exact ledger.mem_numbers_iff present above
  · cases completed

/-- Two checkpoints with a commit before each: the segment that the first one rotated to,
with the second commit, and the one that the second one rotated to are left. -/
theorem checkpoint_reclaims_one_generation_behind_twice :
    ∃ events middle sys file older, (∀ event ∈ events, event.calm = true) ∧
      System.run .none events System.initial = some middle ∧ middle.endRemove = some sys ∧
      sys.files.prev = some file ∧ decode file.bytes = .ok older ∧
      sys.segments.keys = [2, 3] ∧ older.index = 1 ∧
      ∃ live latest next rotated earlier entries, sys.phase = .running live ∧
        System.checkpoints events System.initial [] =
          (latest, next) :: (older.index, rotated) :: earlier ∧
        Replays sys.segments entries none ∧ (live.top = latest → seen latest entries = entries) ∧
        Beyond entries older.index (firstNewer (seen latest entries) older.index rotated) ∧
        ∀ seq, seq ∈ sys.segments.keys ↔
          firstNewer (seen latest entries) older.index rotated ≤ seq ∧
            seq ≤ live.store.wal.segSeq := by
  have facts : ((System.run .none twoGenerations.dropLast System.initial).bind (fun middle =>
      middle.endRemove.bind (fun sys => sys.files.prev.bind (fun file =>
        (decode file.bytes).toOption.map (fun older => (sys.segments.keys, older.index)))))) =
      some ([2, 3], 1) := by
    decide +kernel
  obtain ⟨middle, ran, facts⟩ := Option.bind_eq_some_iff.mp facts
  obtain ⟨sys, completed, facts⟩ := Option.bind_eq_some_iff.mp facts
  obtain ⟨file, retained, facts⟩ := Option.bind_eq_some_iff.mp facts
  obtain ⟨older, decoded, facts⟩ := Option.map_eq_some_iff.mp facts
  obtain ⟨keys, index⟩ := Prod.mk.inj facts
  have decoded : decode file.bytes = .ok older := by
    cases outcome : decode file.bytes with
    | error failure =>
        rw [outcome] at decoded
        cases decoded
    | ok snapshot =>
        rw [outcome] at decoded
        cases decoded
        rfl
  have undisturbed : ∀ event ∈ twoGenerations.dropLast, event.calm = true := by
    apply List.all_eq_true.mp
    decide +kernel
  exact ⟨twoGenerations.dropLast, middle, sys, file, older, undisturbed, ran, completed, retained,
    decoded, keys, index,
    checkpoint_reclaims_one_generation_behind undisturbed ran completed retained decoded⟩

end Keystory
