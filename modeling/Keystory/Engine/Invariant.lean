/-
What every state of a store directory keeps to. The log holds the history from
some point on, certainly up to another; the checkpoint files hold states in
between; and the segments a checkpoint may reclaim hold nothing that the older
generation still needs.
-/

import Keystory.Engine.Generations

namespace Keystory

open General Wal Checkpoint

/-! ### Opening -/

section Opening

variable {faults : Faults} {options : Options} {segments : Segments} {files : SnapFiles}
  {sure maybe : List Record} {entries : List (Nat × Record)} {ending : Option Nat}
  {commits : List (List Op)} {lo hi : Nat} {store : Store}

/-- The store that an open returns: the state after `commits`, a log that holds them
from `lo` on, and the place in it from which the loaded checkpoint needs it. -/
structure Recovers (faults : Faults) (files : SnapFiles) (commits : List (List Op)) (lo hi : Nat)
    (sure : List Record) (entries : List (Nat × Record)) (store : Store)
    (segments : Segments) : Prop where
  snap : store.snap = stateAfter commits
  index : store.index = store.snap.index
  log : Opened faults sure entries (.ok store.wal) segments
  ready : Ready commits lo hi files store.latestDamaged
  beyond : Beyond entries (held (files.retained (replacement store.latestDamaged))).index
    store.prevBoundary
  within : store.prevBoundary ≤ store.wal.segSeq

theorem openWith_spec (recoverable : Recoverable segments sure maybe entries ending)
    (logged : untag entries = stamp lo (commits.drop lo)) (bound : commits.length < 2 ^ 64)
    (generations : Generations commits lo hi files) (within : hi ≤ commits.length) :
    (Store.openWith options files).Spec (Wal.directory faults)
      (fun segments => Readable segments sure maybe)
      (fun result segments =>
        match result with
        | .ok store => Recovers faults files commits lo hi sure entries store segments
        | .error _ => faults ≠ .none) segments := by
  obtain ⟨loaded, read, ready, base⟩ := generations.load
  have covers := ready.held_covers
  rw [← base] at covers
  have replayed := foldlM_history logged covers.low (covers.high.trans within) bound
  rw [← covers.state] at replayed
  have now := (recoverable.opens faults 0).now
  unfold Store.openWith
  rw [read]
  apply spec_readDir now
  rw [recoverable.replays, replayed, ok_bind]
  apply Program.Spec.bind
  refine (recoverable.opens faults options.walSegmentSize).mono (fun _ stays => stays) ?_
  intro result segments readable opened
  cases result with
  | error failure => exact ⟨readable, opened⟩
  | ok wal =>
      refine ⟨readable, Snapshot.ext ?_ rfl, rfl, opened, ready, ?_, ?_⟩
      · rw [index_stateAfter]
      · rw [← base]
        exact beyond_firstUncovered logged recoverable.sorted covers.low
          (covers.high.trans within) bound wal.segSeq
      · exact firstUncovered_le opened.2.1

end Opening

/-! ### The log and the history -/

theorem take_agree {commits more : List (List Op)} {count : Nat} (inside : commits <+: more)
    (within : count ≤ commits.length) : more.take count = commits.take count := by
  obtain ⟨rest, rfl⟩ := inside
  exact List.take_append_of_le_length within

def System.history (sys : System) : List (List Op) := sys.published ++ sys.pending

/-- The log holds the commits `base` from `lo` on, the records `sure` for certain. -/
structure Sound (sys : System) (lo : Nat) (base : List (List Op))
    (sure maybe : List Record) : Prop where
  total : sure ++ maybe = stamp lo (base.drop lo)
  low : lo ≤ base.length
  inside : base <+: sys.history
  bound : sys.history.length < 2 ^ 64
  fits : ∀ ops ∈ sys.history, Wal.Fits ops
  certain : sys.exposed = false → sys.published.length ≤ lo + sure.length

section Sound

variable {sys : System} {lo : Nat} {base : List (List Op)} {sure maybe : List Record}
  {segments : Segments} {entries : List (Nat × Record)} {ending : Option Nat}

theorem Sound.high (sound : Sound sys lo base sure maybe) : lo + sure.length ≤ base.length := by
  have counted := congrArg List.length sound.total
  have low := sound.low
  rw [List.length_append, length_stamp, List.length_drop] at counted
  omega

theorem Sound.recovered (sound : Sound sys lo base sure maybe)
    (recoverable : Recoverable segments sure maybe entries ending) :
    ∃ commits, commits <+: base ∧ untag entries = stamp lo (commits.drop lo) ∧
      lo + sure.length ≤ commits.length := by
  have read := recoverable.possible
  rw [sound.total] at read
  have atLeast := recoverable.certain.length_le
  have atMost := read.length_le
  have low := sound.low
  rw [length_stamp, List.length_drop] at atMost
  refine ⟨base.take (lo + (untag entries).length), List.take_prefix _ _, ?_, ?_⟩
  · rw [List.drop_take, Nat.add_sub_cancel_left, ← stamp_take]
    exact List.prefix_iff_eq_take.mp read
  · rw [List.length_take]
    omega

end Sound

/-! ### Reclamation -/

/-- The files, the log and the boundary from which the next `snap.prev` needs it. -/
structure Reclaim (commits : List (List Op)) (lo hi : Nat) (entries : List (Nat × Record))
    (current : Nat) (files : SnapFiles) (damaged : Bool) (boundary : Nat) : Prop where
  ready : Ready commits lo hi files damaged
  beyond : Beyond entries (held (files.retained (replacement damaged))).index boundary
  within : boundary ≤ current

def Spare (commits : List (List Op)) (lo hi : Nat) (entries : List (Nat × Record))
    (current : Nat) (files : SnapFiles) (damaged : Bool) (covered : Nat) : Prop :=
  ∃ oldest, lo ≤ oldest ∧ Ready commits oldest hi files damaged ∧ Beyond entries oldest covered ∧
    covered ≤ current

/-- A checkpoint of `cur` being written over `old`, after a rotation to `boundary`. -/
structure Saving (faults : Faults) (commits : List (List Op)) (lo hi : Nat)
    (entries : List (Nat × Record)) (current : Nat) (files : SnapFiles) (damaged : Bool)
    (prevBoundary : Nat) (cur : Snapshot) (boundary : Nat)
    (program : FileProgram (Except Failure Unit)) (old : SnapFiles) : Prop where
  reclaim : Reclaim commits lo cur.index entries current old damaged prevBoundary
  covers : Covers commits lo hi cur
  decoded : decode (fileBytes cur) = .ok cur
  beyond : Beyond entries cur.index boundary
  within : boundary ≤ current
  spec : program.Spec (Checkpoint.directory faults)
    (Progress old (replacement damaged) (fileBytes cur))
    (Published old (replacement damaged) (fileBytes cur)) files

def Staging (faults : Faults) (commits : List (List Op)) (lo hi : Nat)
    (entries : List (Nat × Record)) (files : SnapFiles) (store : Store) : Stage → Prop
  | .idle =>
      Reclaim commits lo hi entries store.wal.segSeq files store.latestDamaged store.prevBoundary
  | .saving cur boundary program =>
      ∃ old, Saving faults commits lo hi entries store.wal.segSeq files store.latestDamaged
        store.prevBoundary cur boundary program old
  | .saved covered =>
      Reclaim commits lo hi entries store.wal.segSeq files store.latestDamaged store.prevBoundary ∧
        Spare commits lo hi entries store.wal.segSeq files store.latestDamaged covered

/-- How the log may move on under a checkpoint: more of it certain, more records in
the current segment or later ones. -/
structure Grows (commits more : List (List Op)) (hi high : Nat)
    (entries later : List (Nat × Record)) (current next : Nat) : Prop where
  agree : more.take hi = commits.take hi
  above : hi ≤ high
  beyond : ∀ {index bound}, Beyond entries index bound → bound ≤ current → Beyond later index bound
  order : current ≤ next

section Reclaim

variable {faults : Faults} {commits more : List (List Op)} {lo hi high current next : Nat}
  {entries later : List (Nat × Record)} {files old : SnapFiles} {damaged : Bool}
  {boundary prevBoundary covered : Nat} {cur : Snapshot}
  {program : FileProgram (Except Failure Unit)}

theorem Reclaim.grow (reclaim : Reclaim commits lo hi entries current files damaged boundary)
    (grows : Grows commits more hi high entries later current next) :
    Reclaim more lo high later next files damaged boundary where
  ready := reclaim.ready.mono (Nat.le_refl lo) grows.above grows.agree
  beyond := grows.beyond reclaim.beyond reclaim.within
  within := reclaim.within.trans grows.order

theorem Spare.grow (spare : Spare commits lo hi entries current files damaged covered)
    (grows : Grows commits more hi high entries later current next) :
    Spare more lo high later next files damaged covered := by
  obtain ⟨oldest, low, ready, beyond, within⟩ := spare
  exact ⟨oldest, low, ready.mono (Nat.le_refl _) grows.above grows.agree,
    grows.beyond beyond within, within.trans grows.order⟩

theorem Saving.grow
    (saving : Saving faults commits lo hi entries current files damaged prevBoundary cur boundary
      program old)
    (grows : Grows commits more hi high entries later current next) :
    Saving faults more lo high later next files damaged prevBoundary cur boundary program old where
  reclaim := by
    refine saving.reclaim.grow ⟨?_, Nat.le_refl _, grows.beyond, grows.order⟩
    rw [← Nat.min_eq_left saving.covers.high, ← List.take_take, grows.agree, List.take_take]
  covers := saving.covers.mono (Nat.le_refl lo) grows.above grows.agree
  decoded := saving.decoded
  beyond := grows.beyond saving.beyond saving.within
  within := saving.within.trans grows.order
  spec := saving.spec

theorem Staging.grow {store after : Store} {stage : Stage}
    (staging : Staging faults commits lo hi entries files store stage)
    (grows : Grows commits more hi high entries later store.wal.segSeq after.wal.segSeq)
    (damaged : after.latestDamaged = store.latestDamaged)
    (boundary : after.prevBoundary = store.prevBoundary) :
    Staging faults more lo high later files after stage := by
  cases stage with
  | idle =>
      rw [Staging, damaged, boundary]
      exact Reclaim.grow staging grows
  | saving cur boundary' program =>
      obtain ⟨old, saving⟩ := staging
      rw [Staging, damaged, boundary]
      exact ⟨old, saving.grow grows⟩
  | saved covered =>
      rw [Staging, damaged, boundary]
      exact ⟨staging.1.grow grows, staging.2.grow grows⟩

theorem Staging.generations {store : Store} {stage : Stage}
    (staging : Staging faults commits lo hi entries files store stage) :
    Generations commits lo hi files := by
  cases stage with
  | idle => exact staging.ready.generations
  | saving cur boundary program =>
      obtain ⟨old, saving⟩ := staging
      exact (saving.reclaim.ready.progress saving.covers saving.decoded
        saving.spec.now).1.generations
  | saved covered => exact staging.1.ready.generations

theorem Saving.failed {failure : Failure}
    (saving : Saving faults commits lo hi entries current files damaged prevBoundary cur boundary
      (.done (.error failure)) old) :
    Reclaim commits lo hi entries current files damaged prevBoundary := by
  obtain ⟨ready, order⟩ :=
    saving.reclaim.ready.progress saving.covers saving.decoded saving.spec.now
  exact ⟨ready, saving.reclaim.beyond.mono order, saving.reclaim.within⟩

/-- A checkpoint that was written moves the boundary to its rotation, and what was
below the old one is spare. -/
theorem Saving.succeeded
    (saving : Saving faults commits lo hi entries current files damaged prevBoundary cur boundary
      (.done (.ok ())) old) :
    Reclaim commits lo hi entries current files false boundary ∧
      Spare commits lo hi entries current files false prevBoundary := by
  obtain ⟨latest, prev⟩ := saving.spec.2 rfl
  have older := saving.reclaim.ready.held_covers
  have published := saving.reclaim.ready.published saving.covers saving.decoded latest prev
  have next : files.retained (replacement false) = some (.settled (fileBytes cur)) := by
    change files.latest.or files.prev = _
    rw [latest, Option.some_or]
  have ready : Ready commits (held (old.retained (replacement damaged))).index hi files false := by
    refine ⟨published, fun _ => ?_, by simp⟩
    exact Or.inr ⟨_, cur, latest, saving.decoded, older.high, saving.covers.high,
      saving.covers.state⟩
  constructor
  · refine ⟨ready.mono older.low (Nat.le_refl hi) rfl, ?_, saving.within⟩
    rw [next, held_written saving.decoded]
    exact saving.beyond
  · exact ⟨_, older.low, ready, saving.reclaim.beyond, saving.reclaim.within⟩

end Reclaim

theorem Sound.trimmed {sys : System} {lo oldest covered : Nat} {base : List (List Op)}
    {gone sure maybe : List (Nat × Record)}
    (sound : Sound sys lo base (untag (gone ++ sure)) (untag maybe)) (low : lo ≤ oldest)
    (beyond : Beyond (gone ++ sure ++ maybe) oldest covered)
    (below : ∀ entry ∈ gone, entry.1 < covered) :
    lo + gone.length ≤ oldest ∧
      Sound sys (lo + gone.length) base (untag sure) (untag maybe) := by
  have high := sound.high
  have bound := sound.bound
  have inside := sound.inside.length_le
  have total := sound.total
  have lengths : (untag gone).length = gone.length := List.length_map _
  rw [untag_append, List.length_append, lengths] at high
  rw [untag_append, List.append_assoc] at total
  constructor
  · -- the last of them is at index `lo + gone.length`
    rcases List.eq_nil_or_concat gone with rfl | ⟨front, entry, rfl⟩
    · exact low
    · by_contra newer
      have found : (stamp lo (base.drop lo))[front.length]? = some entry.2 := by
        rw [← total]
        simp [untag]
      rw [List.length_concat] at newer high
      have index : entry.2.index.toNat = lo + front.length + 1 := by
        rw [index_of_getElem?_stamp found, toNat_index (by omega)]
      have last : entry ∈ front.concat entry := by simp
      have kept : covered ≤ entry.1 :=
        beyond entry (List.mem_append_left _ (List.mem_append_left _ last)) (by omega)
      exact absurd (below entry last) (Nat.not_lt.mpr kept)
  · refine ⟨?_, by omega, sound.inside, bound, sound.fits, ?_⟩
    · have rest := congrArg (List.drop gone.length) total
      rw [List.drop_left' lengths, stamp_drop, List.drop_drop] at rest
      exact rest
    · intro settled
      have counted := sound.certain settled
      rw [untag_append, List.length_append, lengths] at counted
      omega

/-! ### The invariant -/

def AtRest (sys : System) : Prop :=
  ∃ lo base sure maybe, Sound sys lo base sure maybe ∧
    Generations sys.history lo (lo + sure.length) sys.files ∧ Readable sys.segments sure maybe

def Reopening (faults : Faults) (sys : System) (program : SegmentProgram (Except Failure Store)) :
    Prop :=
  ∃ lo base sure maybe, Sound sys lo base sure maybe ∧
    Generations sys.history lo (lo + sure.length) sys.files ∧
    program.Spec (Wal.directory faults) (fun segments => Readable segments sure maybe)
      (fun result segments => ∀ store, result = .ok store → ∃ entries commits, commits <+: base ∧
        untag entries = stamp lo (commits.drop lo) ∧ lo + sure.length ≤ commits.length ∧
        Recovers faults sys.files commits lo (lo + sure.length) sure entries store segments)
      sys.segments

def Holding (faults : Faults) (sys : System) (live : Live) (lo : Nat) (base : List (List Op))
    (sure maybe : List (Nat × Record)) : Prop :=
  let wal := live.store.wal
  match live.task with
  | .free => wal.Keeps sys.segments sure maybe ∧
      (wal.poisoned = none → live.landed = none → sys.pending = [])
  | .append group staged program => live.landed = none ∧
      ((base = sys.published ∧ sys.pending = group ∧ group ≠ [] ∧
          staged = Store.stageGroup live.store.snap group ∧
          program.Spec (Wal.directory faults)
            (fun segments => Readable segments (untag sure) (untag maybe ++ staged.records))
            (Appended wal sure maybe staged.records) sys.segments) ∨
        -- a poisoned log refuses the group at once
        (wal.poisoned ≠ none ∧ wal.Keeps sys.segments sure maybe ∧
          ∃ failure, program = .done (.error failure, wal)))
  | .rotate cur program => live.landed = none ∧ live.stage = .idle ∧ cur = live.store.snap ∧
      cur.data.size < 2 ^ 64 ∧ (wal.poisoned = none → sys.pending = []) ∧
      program.Spec (Wal.directory faults)
        (fun segments => Readable segments (untag sure) (untag maybe))
        (fun outcome segments => Rotated wal sure maybe outcome segments ∧
          (wal.poisoned ≠ none → ∃ failure, outcome = (.error failure, wal))) sys.segments
  | .remove program => live.stage = .idle ∧
      (wal.poisoned = none → live.landed = none → sys.pending = []) ∧
      ∃ covered oldest, lo ≤ oldest ∧
        Ready sys.history oldest (lo + sure.length) sys.files live.store.latestDamaged ∧
        Beyond (sure ++ maybe) oldest covered ∧
        program.Spec (Wal.directory faults) (Trimmed wal covered sure maybe)
          (fun _ => Trimmed wal covered sure maybe) sys.segments

/-- An open store, whoever holds its log. -/
structure Consistent (faults : Faults) (sys : System) (live : Live) (lo : Nat)
    (base : List (List Op)) (sure maybe : List (Nat × Record)) : Prop where
  sound : Sound sys lo base (untag sure) (untag maybe)
  seen : sys.published <+: base
  snap : live.store.snap = stateAfter sys.published
  index : live.store.index = live.store.snap.index
  landed : ∀ staged, live.landed = some staged →
    staged = Store.stageGroup live.store.snap sys.pending ∧ base = sys.history ∧ maybe = []
  staging : Staging faults sys.history lo (lo + sure.length) (sure ++ maybe) sys.files live.store
    live.stage

structure Running (faults : Faults) (sys : System) (live : Live) (lo : Nat)
    (base : List (List Op)) (sure maybe : List (Nat × Record)) : Prop
    extends Consistent faults sys live lo base sure maybe where
  holding : Holding faults sys live lo base sure maybe

def Inv (faults : Faults) (sys : System) : Prop :=
  match sys.phase with
  | .closed => AtRest sys
  | .opening program => Reopening faults sys program
  | .running live => ∃ lo base sure maybe, Running faults sys live lo base sure maybe

theorem length_untag (entries : List (Nat × Record)) : (untag entries).length = entries.length :=
  List.length_map _

section AtRest

variable {faults : Faults} {sys : System} {live : Live} {lo : Nat} {base : List (List Op)}
  {sure maybe : List (Nat × Record)}

theorem Running.generations (running : Running faults sys live lo base sure maybe) :
    Generations sys.history lo (lo + (untag sure).length) sys.files := by
  rw [length_untag]
  exact running.staging.generations

theorem Sound.appending {group : List (List Op)}
    (sound : Sound sys lo base (untag sure) (untag maybe)) (start : base = sys.published)
    (pending : sys.pending = group) :
    Sound sys lo sys.history (untag sure) (untag maybe ++ stamp base.length group) := by
  have low := sound.low
  refine ⟨?_, low.trans sound.inside.length_le, List.prefix_rfl, sound.bound, sound.fits,
    sound.certain⟩
  rw [← List.append_assoc, sound.total, System.history, pending, ← start,
    List.drop_append_of_le_length low, stamp_append, List.length_drop, Nat.add_sub_cancel' low]

theorem records_stageGroup (snap : Snapshot) (group : List (List Op)) :
    (Store.stageGroup snap group).records = stamp snap.index group := by
  rw [stageGroup_eq]

/-- Whatever the store is doing, the directory it would leave can be opened. -/
theorem Running.atRest (running : Running faults sys live lo base sure maybe) : AtRest sys := by
  have generations := running.generations
  have sound := running.sound
  have holding := running.holding
  unfold Holding at holding
  cases task : live.task with
  | free =>
      rw [task] at holding
      exact ⟨lo, base, _, _, sound, generations, holding.1.readable⟩
  | append group staged program =>
      rw [task] at holding
      obtain ⟨_, ⟨start, pending, _, same, spec⟩ | ⟨_, keeps, _⟩⟩ := holding
      · have readable := spec.now
        have records : staged.records = stamp base.length group := by
          rw [same, records_stageGroup, running.snap, index_stateAfter, start]
        rw [records] at readable
        exact ⟨lo, _, _, _, sound.appending start pending, generations, readable⟩
      · exact ⟨lo, base, _, _, sound, generations, keeps.readable⟩
  | rotate cur program =>
      rw [task] at holding
      exact ⟨lo, base, _, _, sound, generations, holding.2.2.2.2.2.now⟩
  | remove program =>
      rw [task] at holding
      obtain ⟨_, _, covered, oldest, low, older, beyond, spec⟩ := holding
      obtain ⟨gone, left, rfl, below, keeps⟩ := spec.now
      obtain ⟨still, trimmed⟩ := sound.trimmed low beyond below
      refine ⟨_, base, _, _, trimmed, ?_, keeps.readable⟩
      have same : lo + gone.length + (untag left).length = lo + (gone ++ left).length := by
        rw [length_untag, List.length_append, Nat.add_assoc]
      rw [same]
      exact older.generations.mono still (Nat.le_refl _) rfl

theorem Inv.atRest (inv : Inv faults sys) : AtRest sys := by
  unfold Inv at inv
  cases phase : sys.phase with
  | closed =>
      rw [phase] at inv
      exact inv
  | opening program =>
      rw [phase] at inv
      obtain ⟨lo, base, sure, maybe, sound, generations, spec⟩ := inv
      exact ⟨lo, base, sure, maybe, sound, generations, spec.now⟩
  | running live =>
      rw [phase] at inv
      obtain ⟨lo, base, sure, maybe, running⟩ := inv
      exact running.atRest

end AtRest

end Keystory
