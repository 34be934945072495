/-
Every step of a store directory keeps the invariant: opening, flushing,
checkpointing, closing, crashing at any call, and losing `snap.dat`.
-/

import Keystory.Engine.Invariant

namespace Keystory

open General Wal Checkpoint

section Steps

variable {faults : Faults} {sys : System} {lo : Nat} {base : List (List Op)}

/-! ### Opening and closing -/

theorem Sound.congr {next : System} {sure maybe : List Record}
    (sound : Sound sys lo base sure maybe) (published : next.published = sys.published)
    (pending : next.pending = sys.pending) (exposed : next.exposed = sys.exposed) :
    Sound next lo base sure maybe := by
  have same : next.history = sys.history := by
    rw [System.history, published, pending, System.history]
  refine ⟨sound.total, sound.low, ?_, ?_, ?_, ?_⟩
  · rw [same]
    exact sound.inside
  · rw [same]
    exact sound.bound
  · rw [same]
    exact sound.fits
  · rw [exposed, published]
    exact sound.certain

theorem AtRest.crash (rest : AtRest sys) (cut : System.Cut) : AtRest (sys.crash cut) := by
  obtain ⟨lo, base, sure, maybe, sound, generations, readable⟩ := rest
  exact ⟨lo, base, sure, maybe, sound.congr rfl rfl rfl, generations.crash _ _,
    readable.crash _ _⟩

theorem AtRest.closed (rest : AtRest sys) : AtRest { sys with phase := .closed } := by
  obtain ⟨lo, base, sure, maybe, sound, generations, readable⟩ := rest
  exact ⟨lo, base, sure, maybe, sound.congr rfl rfl rfl, generations, readable⟩

theorem AtRest.damage {garbage : Option Bytes} (rest : AtRest sys)
    (fallback : sys.files.prev ≠ none) (spoilt : System.spoilt garbage = true) :
    AtRest { sys with files := System.spoil sys.files garbage } := by
  obtain ⟨lo, base, sure, maybe, sound, generations, readable⟩ := rest
  exact ⟨lo, base, sure, maybe, sound.congr rfl rfl rfl, generations.spoil fallback spoilt,
    readable⟩

theorem Sound.openWith_spec {options : Options} {files : SnapFiles} {segments : Segments}
    {sure maybe : List Record} {entries : List (Nat × Record)} {ending : Option Nat}
    {commits : List (List Op)} (sound : Sound sys lo base sure maybe)
    (recoverable : Recoverable segments sure maybe entries ending) (inside : commits <+: base)
    (logged : untag entries = stamp lo (commits.drop lo))
    (atLeast : lo + sure.length ≤ commits.length)
    (generations : Generations sys.history lo (lo + sure.length) files) :
    (Store.openWith options files).Spec (Wal.directory faults)
      (fun segments => Readable segments sure maybe)
      (fun result segments =>
        match result with
        | .ok store =>
            Recovers faults files commits lo (lo + sure.length) sure entries store segments
        | .error _ => faults ≠ .none) segments := by
  have within := inside.trans sound.inside
  have agree := (take_agree within atLeast).symm
  have bound := Nat.lt_of_le_of_lt within.length_le sound.bound
  exact Keystory.openWith_spec recoverable logged bound
    (generations.mono (Nat.le_refl lo) (Nat.le_refl _) agree) atLeast

theorem AtRest.reopening (rest : AtRest sys) (options : Options) :
    Reopening faults { sys with phase := .opening (Store.openWith options sys.files) }
      (Store.openWith options sys.files) := by
  obtain ⟨lo, base, sure, maybe, sound, generations, readable⟩ := rest
  obtain ⟨entries, ending, recoverable⟩ := readable.recoverable
  obtain ⟨commits, inside, logged, atLeast⟩ := sound.recovered recoverable
  refine ⟨lo, base, sure, maybe, sound.congr rfl rfl rfl, generations, ?_⟩
  refine (sound.openWith_spec recoverable inside logged atLeast generations).mono
    (fun _ stays => stays) ?_
  intro result segments _ post store succeeded
  rw [succeeded] at post
  exact ⟨entries, commits, inside, logged, atLeast, post⟩

theorem Opened.keeps {wal : Wal} {segments : Segments} {sure : List Record}
    {entries : List (Nat × Record)} (opened : Opened faults sure entries (.ok wal) segments)
    (exposed : Bool) :
    ∃ sure' maybe', wal.Keeps segments sure' maybe' ∧ sure' ++ maybe' = entries ∧
      sure.length ≤ sure'.length ∧
      ((exposed || !settledTail segments) = false → maybe' = []) := by
  obtain ⟨_, _, ⟨sure', maybe', keeps, same, more⟩, settled⟩ := opened
  have atLeast : sure.length ≤ sure'.length := by
    rw [← length_untag sure']
    exact more.length_le
  by_cases tail : settledTail segments = true
  · refine ⟨entries, [], settled tail, List.append_nil entries, ?_, fun _ => rfl⟩
    rw [← same, List.length_append]
    omega
  · refine ⟨sure', maybe', keeps, same, atLeast, ?_⟩
    intro unexposed
    simp [tail] at unexposed

theorem Reopening.endOpen {store : Store}
    (reopening : Reopening faults sys (.done (.ok store))) :
    ∃ lo base sure maybe, Running faults
      { sys with
        phase := .running ⟨store, .free, none, .idle⟩
        published := (sys.published ++ sys.pending).take store.snap.index
        pending := []
        exposed := sys.exposed || !settledTail sys.segments }
      ⟨store, .free, none, .idle⟩ lo base sure maybe := by
  obtain ⟨lo, base, sure, maybe, sound, generations, spec⟩ := reopening
  obtain ⟨entries, commits, inside, logged, atLeast, recovers⟩ := spec.2 store rfl
  obtain ⟨sure', maybe', keeps, rfl, more, all⟩ := Opened.keeps recovers.log sys.exposed
  have within : commits <+: sys.history := inside.trans sound.inside
  have published : (sys.published ++ sys.pending).take store.snap.index = commits := by
    rw [recovers.snap, index_stateAfter]
    exact (List.prefix_iff_eq_take.mp within).symm
  have counted : (sure' ++ maybe').length = commits.length - lo := by
    rw [← length_untag, logged, length_stamp, List.length_drop]
  rw [published]
  refine ⟨lo, commits, sure', maybe', ⟨?_, List.prefix_rfl, recovers.snap, recovers.index, ?_, ?_⟩,
    keeps, fun _ _ => rfl⟩
  · refine ⟨?_, by omega, ?_, ?_, ?_, ?_⟩
    · rw [← untag_append]
      exact logged
    · rw [System.history, List.append_nil]
    · rw [System.history, List.append_nil]
      exact Nat.lt_of_le_of_lt within.length_le sound.bound
    · intro ops member
      rw [System.history, List.append_nil] at member
      exact sound.fits ops (within.subset member)
    · intro unexposed
      rw [all unexposed, List.append_nil] at counted
      rw [length_untag]
      change commits.length ≤ _
      omega
  · intro staged impossible
    cases impossible
  · rw [System.history, List.append_nil]
    exact ⟨recovers.ready.mono (Nat.le_refl lo) (Nat.add_le_add_left more lo) rfl,
      recovers.beyond, recovers.within⟩

/-! ### Flushing -/

variable {sure maybe : List (Nat × Record)} {store : Store} {stage : Stage}

theorem Sound.settle {sure maybe sure' maybe' : List Record}
    (sound : Sound sys lo base sure maybe) (same : sure' ++ maybe' = sure ++ maybe)
    (more : sure.length ≤ sure'.length) : Sound sys lo base sure' maybe' where
  total := same.trans sound.total
  low := sound.low
  inside := sound.inside
  bound := sound.bound
  fits := sound.fits
  certain := fun unexposed => (sound.certain unexposed).trans (Nat.add_le_add_left more lo)

theorem Grows.ofLog {commits more : List (List Op)} {current next : Nat}
    {sure' maybe' new : List (Nat × Record)} (same : sure' ++ maybe' = sure ++ maybe ++ new)
    (certain : sure <+: sure') (later : ∀ entry ∈ new, current ≤ entry.1)
    (order : current ≤ next)
    (agree : more.take (lo + sure.length) = commits.take (lo + sure.length)) :
    Grows commits more (lo + sure.length) (lo + sure'.length) (sure ++ maybe) (sure' ++ maybe')
      current next where
  agree := agree
  above := Nat.add_le_add_left certain.length_le lo
  beyond := by
    intro index bound beyond within
    rw [same]
    exact beyond.append within later
  order := order

theorem Consistent.relog {task : Task} {landed : Option Store.Staged} {wal : Wal}
    {sure' maybe' : List (Nat × Record)}
    (consistent : Consistent faults sys ⟨store, task, landed, stage⟩ lo base sure maybe)
    (total : sure' ++ maybe' = sure ++ maybe) (more : sure <+: sure')
    (order : store.wal.segSeq ≤ wal.segSeq) :
    Consistent faults
      { sys with phase := .running ⟨{ store with wal := wal }, .free, landed, stage⟩ }
      ⟨{ store with wal := wal }, .free, landed, stage⟩ lo base sure' maybe' := by
  refine ⟨?_, consistent.seen, consistent.snap, consistent.index, ?_, ?_⟩
  · refine (consistent.sound.settle ?_ ?_).congr rfl rfl rfl
    · rw [← untag_append, total, untag_append]
    · rw [length_untag, length_untag]
      exact more.length_le
  · intro staged here
    obtain ⟨same, whole, rfl⟩ := consistent.landed staged here
    rw [List.append_nil] at total
    exact ⟨same, whole, (certain_only total more).2⟩
  · have grows : sure' ++ maybe' = sure ++ maybe ++ [] := by
      rw [total, List.append_nil]
    exact consistent.staging.grow (Grows.ofLog grows more (by simp) order rfl) rfl rfl

theorem Consistent.repend {live : Live} {group : List (List Op)}
    (consistent : Consistent faults sys live lo base sure maybe) (start : base = sys.published)
    (nothing : live.landed = none) (bound : (sys.published ++ group).length < 2 ^ 64)
    (fits : ∀ ops ∈ group, Wal.Fits ops) :
    Consistent faults { sys with pending := group } live lo base sure maybe := by
  have sound := consistent.sound
  have high := sound.high
  rw [length_untag, start] at high
  refine ⟨⟨sound.total, sound.low, ?_, bound, ?_, sound.certain⟩, consistent.seen,
    consistent.snap, consistent.index, ?_, ?_⟩
  · rw [start]
    exact List.prefix_append _ _
  · intro ops member
    rcases List.mem_append.mp member with old | new
    · exact sound.fits ops (List.mem_append_left _ old)
    · exact fits ops new
  · intro staged here
    rw [nothing] at here
    cases here
  · refine consistent.staging.grow ⟨?_, Nat.le_refl _, fun beyond _ => beyond, Nat.le_refl _⟩
      rfl rfl
    change (sys.published ++ group).take _ = (sys.published ++ sys.pending).take _
    rw [List.take_append_of_le_length high, List.take_append_of_le_length high]

theorem Consistent.hold {task : Task} {landed : Option Store.Staged} (next : Task)
    (consistent : Consistent faults sys ⟨store, task, landed, stage⟩ lo base sure maybe) :
    Consistent faults { sys with phase := .running ⟨store, next, landed, stage⟩ }
      ⟨store, next, landed, stage⟩ lo base sure maybe :=
  ⟨consistent.sound.congr rfl rfl rfl, consistent.seen, consistent.snap, consistent.index,
    consistent.landed, consistent.staging⟩

theorem fits_of_isOk {ops : List Op} (accepted : (checkOps ops).isOk = true) : Wal.Fits ops := by
  rw [← checkOps_eq_ok_iff]
  cases outcome : checkOps ops with
  | ok value => rfl
  | error failure =>
      rw [outcome] at accepted
      cases accepted

theorem Running.beginFlush {group : List (List Op)} (honest : faults ≠ .any)
    (running : Running faults sys ⟨store, .free, none, stage⟩ lo base sure maybe)
    (nonempty : group ≠ []) (checked : ∀ ops ∈ group, (checkOps ops).isOk = true)
    (bound : store.snap.index + group.length < 2 ^ 64) :
    Running faults
      { sys with
        phase := .running ⟨store, .append group (Store.stageGroup store.snap group)
          (store.wal.appendMany (Store.stageGroup store.snap group).records), none, stage⟩
        pending := if store.wal.poisoned = none then group else sys.pending }
      ⟨store, .append group (Store.stageGroup store.snap group)
        (store.wal.appendMany (Store.stageGroup store.snap group).records), none, stage⟩
      lo base sure maybe := by
  obtain ⟨keeps, quiet⟩ := running.holding
  by_cases usable : store.wal.poisoned = none
  · rw [if_pos usable]
    have start : base = sys.published := by
      have inside := running.sound.inside
      rw [System.history, quiet usable rfl, List.append_nil] at inside
      exact inside.eq_of_length (Nat.le_antisymm inside.length_le running.seen.length_le)
    rw [running.snap, index_stateAfter, ← List.length_append] at bound
    have fits : ∀ ops ∈ group, Wal.Fits ops := fun ops member => fits_of_isOk (checked ops member)
    refine ⟨(running.repend start rfl bound fits).hold _, rfl,
      Or.inl ⟨start, rfl, nonempty, rfl, ?_⟩⟩
    exact appendMany_spec honest keeps (Store.stageGroup store.snap group).records
  · rw [if_neg usable]
    exact ⟨running.hold _, rfl, Or.inr ⟨usable, keeps, appendMany_poisoned usable _⟩⟩

theorem Sound.appended {group : List (List Op)} {staged : Store.Staged}
    {sure' maybe' new : List (Nat × Record)}
    (sound : Sound sys lo base (untag sure) (untag maybe)) (start : base = sys.published)
    (pending : sys.pending = group)
    (same : staged = Store.stageGroup (stateAfter sys.published) group)
    (total : sure' ++ maybe' = sure ++ maybe ++ new) (added : untag new = staged.records)
    (more : sure <+: sure') : Sound sys lo sys.history (untag sure') (untag maybe') := by
  have records : staged.records = stamp base.length group := by
    rw [same, records_stageGroup, index_stateAfter, start]
  refine (sound.appending start pending).settle ?_ ?_
  · rw [← untag_append, total, ← records, ← added]
    simp
  · rw [length_untag, length_untag]
    exact more.length_le

theorem Running.endFlush_ok {group : List (List Op)} {staged : Store.Staged} {wal : Wal}
    (running : Running faults sys
      ⟨store, .append group staged (.done (.ok (), wal)), none, stage⟩ lo base sure maybe) :
    ∃ base sure maybe, Running faults
      { sys with
        phase := .running ⟨store.landed wal group.length, .free, some staged, stage⟩ }
      ⟨store.landed wal group.length, .free, some staged, stage⟩ lo base sure maybe := by
  obtain ⟨_, ⟨start, pending, nonempty, same, spec⟩ | ⟨_, _, _, refused⟩⟩ := running.holding
  · obtain ⟨order, sure', maybe', new, keeps, total, more, later, _, added, settled⟩ := spec.2
    have none : maybe' = [] := by
      apply settled
      intro empty
      rw [same, records_stageGroup] at empty
      have counted := congrArg List.length empty
      rw [length_stamp] at counted
      exact nonempty (List.length_eq_zero_iff.mp counted)
    have sound := running.sound.appended start pending (by rw [same, ← running.snap]) total added
      more
    refine ⟨sys.history, sure', maybe', ⟨sound.congr rfl rfl rfl, List.prefix_append _ _,
      running.snap, running.index, ?_, ?_⟩, keeps, fun _ impossible => by cases impossible⟩
    · intro other here
      cases here
      exact ⟨by rw [same, pending]; rfl, rfl, none⟩
    · exact running.staging.grow (Grows.ofLog total more later order rfl) rfl rfl
  · cases refused

/-- A group that failed is not in the log, unless the log is poisoned. -/
theorem Running.endFlush_error {group : List (List Op)} {staged : Store.Staged} {wal : Wal}
    {failure : Failure} {landed : Option Store.Staged}
    (running : Running faults sys
      ⟨store, .append group staged (.done (.error failure, wal)), landed, stage⟩
      lo base sure maybe) :
    ∃ base sure maybe, Running faults
      { sys with
        phase := .running ⟨{ store with wal := wal }, .free, landed, stage⟩
        pending := if wal.poisoned = none then [] else sys.pending }
      ⟨{ store with wal := wal }, .free, landed, stage⟩ lo base sure maybe := by
  obtain ⟨rfl, ⟨start, pending, _, same, spec⟩ | ⟨poisoned, keeps, _, refused⟩⟩ := running.holding
  · obtain ⟨order, sure', maybe', new, keeps, total, more, later, which⟩ := spec.2
    rcases which with rfl | ⟨poisoned, added⟩
    · rw [List.append_nil] at total
      have consistent := running.relog total more order
      by_cases usable : wal.poisoned = none
      · have bound : (sys.published ++ []).length < 2 ^ 64 := by
          rw [List.append_nil]
          exact Nat.lt_of_le_of_lt (List.prefix_append _ _).length_le running.sound.bound
        rw [if_pos usable]
        exact ⟨base, sure', maybe', consistent.repend start rfl bound (by simp), keeps,
          fun _ _ => rfl⟩
      · rw [if_neg usable]
        exact ⟨base, sure', maybe', consistent, keeps, fun healthy => absurd healthy usable⟩
    · rw [if_neg poisoned]
      have sound := running.sound.appended start pending (by rw [same, ← running.snap]) total added
        more
      refine ⟨sys.history, sure', maybe', ⟨sound.congr rfl rfl rfl, List.prefix_append _ _,
        running.snap, running.index, ?_, ?_⟩, keeps, fun healthy => absurd healthy poisoned⟩
      · intro staged impossible
        cases impossible
      · exact running.staging.grow (Grows.ofLog total more later order rfl) rfl rfl
  · have unchanged : wal = store.wal := congrArg Prod.snd (Program.done.inj refused)
    subst unchanged
    rw [if_neg poisoned]
    exact ⟨base, sure, maybe, running.hold _, keeps, fun healthy => absurd healthy poisoned⟩

theorem Running.publish {task : Task} {staged : Store.Staged}
    (running : Running faults sys ⟨store, task, some staged, stage⟩ lo base sure maybe) :
    Running faults
      { sys with
        phase := .running ⟨store.publish staged, task, none, stage⟩
        published := sys.published ++ sys.pending
        pending := [] }
      ⟨store.publish staged, task, none, stage⟩ lo base sure maybe := by
  obtain ⟨same, whole, none⟩ := running.landed staged rfl
  have next : staged.next = stateAfter (sys.published ++ sys.pending) := by
    rw [same, stageGroup_eq, running.snap, stateAfter_append]
  have history : sys.published ++ sys.pending ++ [] = sys.history := List.append_nil _
  have sound := running.sound
  have counted := congrArg List.length sound.total
  rw [none, untag_nil, List.append_nil, length_stamp, List.length_drop, whole] at counted
  have low := sound.low
  rw [whole] at low
  refine ⟨⟨⟨sound.total, sound.low, ?_, ?_, ?_, ?_⟩, ?_, next, rfl, ?_, ?_⟩, ?_⟩
  · rw [System.history, history]
    exact sound.inside
  · rw [System.history, history]
    exact sound.bound
  · rw [System.history, history]
    exact sound.fits
  · intro _
    change sys.history.length ≤ _
    omega
  · rw [whole]
    exact List.prefix_rfl
  · intro staged impossible
    cases impossible
  · refine running.staging.grow ⟨?_, Nat.le_refl _, fun beyond _ => beyond, Nat.le_refl _⟩ rfl rfl
    rw [System.history, history]
  · have holding := running.holding
    cases task with
    | free => exact ⟨holding.1, fun _ _ => rfl⟩
    | append group staged program => cases holding.1
    | rotate cur program => cases holding.1
    | remove program =>
        obtain ⟨idle, _, rest⟩ := holding
        refine ⟨idle, fun _ _ => rfl, ?_⟩
        rw [System.history, history]
        exact rest

/-! ### Checkpoints -/

theorem Running.beginCheckpoint (honest : faults ≠ .any)
    (running : Running faults sys ⟨store, .free, none, .idle⟩ lo base sure maybe)
    (small : store.snap.data.size < 2 ^ 64) :
    Running faults
      { sys with
        phase := .running ⟨store, .rotate store.snap store.wal.rotateSegment, none, .idle⟩ }
      ⟨store, .rotate store.snap store.wal.rotateSegment, none, .idle⟩ lo base sure maybe := by
  obtain ⟨keeps, quiet⟩ := running.holding
  have spec := rotateSegment_spec honest keeps
  refine ⟨running.hold _, rfl, rfl, rfl, small, fun usable => quiet usable rfl, ?_⟩
  by_cases usable : store.wal.poisoned = none
  · exact spec.mono (fun _ stays => stays)
      (fun _ _ _ rotated => ⟨rotated, fun poisoned => absurd usable poisoned⟩)
  · obtain ⟨failure, refused⟩ := rotateSegment_poisoned usable
    rw [refused] at spec ⊢
    exact ⟨spec.1, spec.2, fun _ => ⟨failure, rfl⟩⟩

theorem Running.endRotate_error {cur : Snapshot} {wal : Wal} {failure : Failure}
    {landed : Option Store.Staged}
    (running : Running faults sys ⟨store, .rotate cur (.done (.error failure, wal)), landed, stage⟩
      lo base sure maybe) :
    ∃ sure maybe, Running faults
      { sys with phase := .running ⟨{ store with wal := wal }, .free, landed, stage⟩ }
      ⟨{ store with wal := wal }, .free, landed, stage⟩ lo base sure maybe := by
  obtain ⟨_, _, _, _, quiet, spec⟩ := running.holding
  obtain ⟨⟨order, sure', maybe', keeps, total, more, _⟩, refused⟩ := spec.2
  refine ⟨sure', maybe', running.relog total more order, keeps, ?_⟩
  intro usable _
  by_cases before : store.wal.poisoned = none
  · exact quiet before
  · obtain ⟨_, outcome⟩ := refused before
    have unchanged : wal = store.wal := congrArg Prod.snd outcome
    have healthy : wal.poisoned = none := usable
    rw [unchanged] at healthy
    exact absurd healthy before

theorem Consistent.fits {live : Live}
    (consistent : Consistent faults sys live lo base sure maybe)
    (small : live.store.snap.data.size < 2 ^ 64) : Checkpoint.Fits live.store.snap := by
  have inside : sys.published <+: sys.history := List.prefix_append _ _
  rw [consistent.snap] at small ⊢
  exact stateAfter_fits
    (fun ops member => consistent.sound.fits ops (inside.subset member))
    (Nat.lt_of_le_of_lt inside.length_le consistent.sound.bound) small

theorem Sound.rotated {sure : List (Nat × Record)} (sound : Sound sys lo base (untag sure) [])
    (whole : base = sys.history) (boundary : Nat) :
    lo + sure.length = sys.history.length ∧ Beyond sure sys.history.length boundary := by
  have total := sound.total
  have low := sound.low
  have bound := sound.bound
  rw [List.append_nil] at total
  have counted := congrArg List.length total
  rw [length_untag, length_stamp, List.length_drop] at counted
  rw [whole] at counted low total
  refine ⟨by omega, ?_⟩
  intro entry member newer
  have inStamp : entry.2 ∈ stamp lo (sys.history.drop lo) := by
    rw [← total]
    exact List.mem_map_of_mem member
  have length : (sys.history.drop lo).length = sys.history.length - lo := List.length_drop
  have inside := index_of_mem_stamp (by omega) inStamp
  omega

theorem Running.endRotate_ok {cur : Snapshot} {wal : Wal} {boundary : Nat}
    {landed : Option Store.Staged} (honest : faults ≠ .any)
    (running : Running faults sys ⟨store, .rotate cur (.done (.ok boundary, wal)), landed, stage⟩
      lo base sure maybe) :
    ∃ sure maybe, Running faults
      { sys with
        phase := .running ⟨{ store with wal := wal }, .free, landed,
          .saving cur boundary (Checkpoint.write cur store.replaced)⟩ }
      ⟨{ store with wal := wal }, .free, landed,
        .saving cur boundary (Checkpoint.write cur store.replaced)⟩ lo base sure maybe := by
  obtain ⟨rfl, rfl, pinned, small, quiet, spec⟩ := running.holding
  have pinned : cur = store.snap := pinned
  subst pinned
  obtain ⟨⟨order, sure', maybe', keeps, total, more, rotated⟩, refused⟩ := spec.2
  obtain ⟨usable, current, rfl⟩ := rotated boundary rfl
  have pending : sys.pending = [] := by
    apply quiet
    by_contra before
    obtain ⟨_, impossible⟩ := refused before
    cases congrArg Prod.fst impossible
  have history : sys.history = sys.published := by
    rw [System.history, pending, List.append_nil]
  have consistent := running.relog total more order
  have whole : base = sys.history := by
    have inside := running.sound.inside
    have seen := running.seen.length_le
    rw [← history] at seen
    exact inside.eq_of_length (Nat.le_antisymm inside.length_le seen)
  obtain ⟨certain, beyond⟩ := Sound.rotated consistent.sound whole boundary
  have index : store.snap.index = sys.history.length := by
    rw [running.snap, index_stateAfter, history]
  have fits : Checkpoint.Fits store.snap := running.fits small
  refine ⟨sure', [], ⟨consistent.sound.congr rfl rfl rfl, consistent.seen, consistent.snap,
    consistent.index, consistent.landed, ?_⟩, keeps, fun _ _ => pending⟩
  have reclaim : Reclaim sys.history lo (lo + sure'.length) (sure' ++ []) wal.segSeq sys.files
    store.latestDamaged store.prevBoundary := consistent.staging
  have same : lo + sure'.length = store.snap.index := certain.trans index.symm
  refine ⟨sys.files, ?_, ⟨?_, ?_, ?_⟩, decode_fileBytes fits, ?_, ?_, write_spec fits honest⟩
  · rw [same] at reclaim
    exact reclaim
  · omega
  · omega
  · change store.snap = stateAfter (sys.history.take store.snap.index)
    rw [index, List.take_length, history, running.snap]
  · rw [List.append_nil, index]
    exact beyond
  · exact Nat.le_of_eq current.symm

theorem Consistent.restage {task : Task} {landed : Option Store.Staged} {after : Store}
    {next : Stage}
    (consistent : Consistent faults sys ⟨store, task, landed, stage⟩ lo base sure maybe)
    (snap : after.snap = store.snap) (index : after.index = store.index)
    (staging : Staging faults sys.history lo (lo + sure.length) (sure ++ maybe) sys.files after
      next) :
    Consistent faults { sys with phase := .running ⟨after, task, landed, next⟩ }
      ⟨after, task, landed, next⟩ lo base sure maybe := by
  refine ⟨consistent.sound.congr rfl rfl rfl, consistent.seen, ?_, ?_, ?_, staging⟩
  · exact snap.trans consistent.snap
  · change after.index = after.snap.index
    rw [index, snap]
    exact consistent.index
  · change ∀ staged, landed = some staged → staged = Store.stageGroup after.snap _ ∧ _
    rw [snap]
    exact consistent.landed

theorem Running.holds {task : Task} {landed : Option Store.Staged} {after : Store} {next : Stage}
    (running : Running faults sys ⟨store, task, landed, stage⟩ lo base sure maybe)
    (busy : stage ≠ .idle) (wal : after.wal = store.wal) (snap : after.snap = store.snap) :
    Holding faults { sys with phase := .running ⟨after, task, landed, next⟩ }
      ⟨after, task, landed, next⟩ lo base sure maybe := by
  have holding := running.holding
  unfold Holding at holding ⊢
  dsimp only at holding ⊢
  rw [wal, snap]
  cases task with
  | free => exact holding
  | append group staged program => exact holding
  | rotate cur program => exact absurd holding.2.1 busy
  | remove program => exact absurd holding.1 busy

theorem Running.endSave_error {task : Task} {landed : Option Store.Staged} {cur : Snapshot}
    {boundary : Nat} {failure : Failure}
    (running : Running faults sys
      ⟨store, task, landed, .saving cur boundary (.done (.error failure))⟩ lo base sure maybe) :
    Running faults { sys with phase := .running ⟨store, task, landed, .idle⟩ }
      ⟨store, task, landed, .idle⟩ lo base sure maybe := by
  obtain ⟨old, saving⟩ := running.staging
  exact ⟨running.restage rfl rfl saving.failed,
    running.holds (by simp) rfl rfl⟩

theorem Running.endSave_ok {task : Task} {landed : Option Store.Staged} {cur : Snapshot}
    {boundary : Nat}
    (running : Running faults sys
      ⟨store, task, landed, .saving cur boundary (.done (.ok ()))⟩ lo base sure maybe) :
    Running faults
      { sys with
        phase := .running ⟨store.saved boundary, task, landed, .saved store.prevBoundary⟩ }
      ⟨store.saved boundary, task, landed, .saved store.prevBoundary⟩ lo base sure maybe := by
  obtain ⟨old, saving⟩ := running.staging
  exact ⟨running.restage rfl rfl saving.succeeded, running.holds (by simp) rfl rfl⟩

theorem Running.fileCall {task : Task} {landed : Option Store.Staged} {cur : Snapshot}
    {boundary : Nat} {program : FileProgram (Except Failure Unit)} {fate : Fate}
    {outcome : FileProgram (Except Failure Unit) × SnapFiles}
    (running : Running faults sys ⟨store, task, landed, .saving cur boundary program⟩
      lo base sure maybe)
    (stepped : program.step (Checkpoint.directory faults) fate sys.files = some outcome) :
    Running faults
      { sys with
        files := outcome.2
        phase := .running ⟨store, task, landed, .saving cur boundary outcome.1⟩ }
      ⟨store, task, landed, .saving cur boundary outcome.1⟩ lo base sure maybe := by
  obtain ⟨old, saving⟩ := running.staging
  refine ⟨⟨running.sound.congr rfl rfl rfl, running.seen, running.snap, running.index,
    running.landed, old, ?_⟩, ?_⟩
  · exact { saving with spec := saving.spec.step stepped }
  · have holding := running.holding
    unfold Holding at holding ⊢
    cases task with
    | free => exact holding
    | append group staged program => exact holding
    | rotate cur program => cases holding.2.1
    | remove program => cases holding.1

/-! ### Reclaiming segments -/

theorem Running.beginRemove {landed : Option Store.Staged} {covered : Nat}
    (running : Running faults sys ⟨store, .free, landed, .saved covered⟩ lo base sure maybe) :
    Running faults
      { sys with
        phase := .running
          ⟨store, .remove (store.wal.removeSegmentsBefore covered), landed, .idle⟩ }
      ⟨store, .remove (store.wal.removeSegmentsBefore covered), landed, .idle⟩
      lo base sure maybe := by
  obtain ⟨keeps, quiet⟩ := running.holding
  obtain ⟨reclaim, oldest, low, ready, beyond, within⟩ := running.staging
  exact ⟨⟨running.sound.congr rfl rfl rfl, running.seen, running.snap, running.index,
    running.landed, reclaim⟩, rfl, quiet, covered, oldest, low, ready, beyond,
    removeSegmentsBefore_spec keeps within⟩

/-- The segments that are gone held only records the older generation covers. -/
theorem Running.endRemove {landed : Option Store.Staged} {result : Except Failure Nat}
    (running : Running faults sys ⟨store, .remove (.done result), landed, stage⟩
      lo base sure maybe) :
    ∃ lo sure, Running faults
      { sys with phase := .running ⟨store, .free, landed, stage⟩ }
      ⟨store, .free, landed, stage⟩ lo base sure maybe := by
  obtain ⟨rfl, quiet, covered, oldest, low, ready, beyond, spec⟩ := running.holding
  obtain ⟨gone, left, rfl, below, keeps⟩ := spec.2
  obtain ⟨still, trimmed⟩ := running.sound.trimmed low beyond below
  have reclaim : Reclaim sys.history lo (lo + (gone ++ left).length) (gone ++ left ++ maybe)
    store.wal.segSeq sys.files store.latestDamaged store.prevBoundary := running.staging
  have same : lo + (gone ++ left).length = lo + gone.length + left.length := by
    rw [List.length_append, Nat.add_assoc]
  have fewer : left ++ maybe ⊆ gone ++ left ++ maybe := by
    rw [List.append_assoc]
    exact List.subset_append_right _ _
  rw [same] at ready
  exact ⟨lo + gone.length, left, ⟨trimmed.congr rfl rfl rfl, running.seen, running.snap,
    running.index, running.landed, ready.mono still (Nat.le_refl _) rfl,
    reclaim.beyond.subset fewer, reclaim.within⟩, keeps, quiet⟩

/-! ### Calls of the program that holds the log -/

theorem Consistent.call {task next : Task} {landed : Option Store.Staged} {segments : Segments}
    (consistent : Consistent faults sys ⟨store, task, landed, stage⟩ lo base sure maybe) :
    Consistent faults
      { sys with segments := segments, phase := .running ⟨store, next, landed, stage⟩ }
      ⟨store, next, landed, stage⟩ lo base sure maybe :=
  ⟨consistent.sound.congr rfl rfl rfl, consistent.seen, consistent.snap, consistent.index,
    consistent.landed, consistent.staging⟩

theorem Running.appendCall {landed : Option Store.Staged} {group : List (List Op)}
    {staged : Store.Staged} {program : SegmentProgram (Except Failure Unit × Wal)} {fate : Fate}
    {outcome : SegmentProgram (Except Failure Unit × Wal) × Segments}
    (running : Running faults sys ⟨store, .append group staged program, landed, stage⟩
      lo base sure maybe)
    (stepped : program.step (Wal.directory faults) fate sys.segments = some outcome) :
    Running faults
      { sys with
        segments := outcome.2
        phase := .running ⟨store, .append group staged outcome.1, landed, stage⟩ }
      ⟨store, .append group staged outcome.1, landed, stage⟩ lo base sure maybe := by
  obtain ⟨nothing, ⟨start, pending, nonempty, same, spec⟩ | ⟨_, _, _, refused⟩⟩ := running.holding
  · exact ⟨running.call, nothing,
      Or.inl ⟨start, pending, nonempty, same, spec.step stepped⟩⟩
  · rw [refused] at stepped
    cases stepped

theorem Running.rotateCall {landed : Option Store.Staged} {cur : Snapshot}
    {program : SegmentProgram (Except Failure Nat × Wal)} {fate : Fate}
    {outcome : SegmentProgram (Except Failure Nat × Wal) × Segments}
    (running : Running faults sys ⟨store, .rotate cur program, landed, stage⟩ lo base sure maybe)
    (stepped : program.step (Wal.directory faults) fate sys.segments = some outcome) :
    Running faults
      { sys with
        segments := outcome.2, phase := .running ⟨store, .rotate cur outcome.1, landed, stage⟩ }
      ⟨store, .rotate cur outcome.1, landed, stage⟩ lo base sure maybe := by
  obtain ⟨nothing, idle, pinned, small, quiet, spec⟩ := running.holding
  exact ⟨running.call, nothing, idle, pinned, small, quiet, spec.step stepped⟩

theorem Running.removeCall {landed : Option Store.Staged}
    {program : SegmentProgram (Except Failure Nat)} {fate : Fate}
    {outcome : SegmentProgram (Except Failure Nat) × Segments}
    (running : Running faults sys ⟨store, .remove program, landed, stage⟩ lo base sure maybe)
    (stepped : program.step (Wal.directory faults) fate sys.segments = some outcome) :
    Running faults
      { sys with
        segments := outcome.2, phase := .running ⟨store, .remove outcome.1, landed, stage⟩ }
      ⟨store, .remove outcome.1, landed, stage⟩ lo base sure maybe := by
  obtain ⟨idle, quiet, covered, oldest, low, ready, beyond, spec⟩ := running.holding
  exact ⟨running.call, idle, quiet, covered, oldest, low, ready, beyond, spec.step stepped⟩

theorem Reopening.call {program : SegmentProgram (Except Failure Store)} {fate : Fate}
    {outcome : SegmentProgram (Except Failure Store) × Segments}
    (reopening : Reopening faults sys program)
    (stepped : program.step (Wal.directory faults) fate sys.segments = some outcome) :
    Reopening faults { sys with segments := outcome.2, phase := .opening outcome.1 } outcome.1 := by
  obtain ⟨lo, base, sure, maybe, sound, generations, spec⟩ := reopening
  exact ⟨lo, base, sure, maybe, sound.congr rfl rfl rfl, generations, spec.step stepped⟩

/-! ### Every step -/

theorem Inv.opening {program : SegmentProgram (Except Failure Store)} (inv : Inv faults sys)
    (phase : sys.phase = .opening program) : Reopening faults sys program := by
  rw [Inv, phase] at inv
  exact inv

theorem Inv.running {live : Live} (inv : Inv faults sys) (phase : sys.phase = .running live) :
    ∃ lo base sure maybe, Running faults sys live lo base sure maybe := by
  rw [Inv, phase] at inv
  exact inv

theorem Inv.step {event : System.Event} {next : System} (honest : faults ≠ .any)
    (inv : Inv faults sys) (stepped : sys.step faults event = some next) : Inv faults next := by
  cases System.step_moves stepped with
  | beginOpen options phase => exact inv.atRest.reopening options
  | opened store phase => exact (inv.opening phase).endOpen
  | refused failure phase => exact inv.atRest.closed
  | beginFlush group store stage phase nonempty checked bound =>
      obtain ⟨lo, base, sure, maybe, running⟩ := inv.running phase
      exact ⟨lo, base, sure, maybe, running.beginFlush honest nonempty checked bound⟩
  | flushed store group staged wal stage phase =>
      obtain ⟨lo, base, sure, maybe, running⟩ := inv.running phase
      exact ⟨lo, running.endFlush_ok⟩
  | flushFailed store group staged failure wal landed stage phase =>
      obtain ⟨lo, base, sure, maybe, running⟩ := inv.running phase
      exact ⟨lo, running.endFlush_error⟩
  | publish store task staged stage phase =>
      obtain ⟨lo, base, sure, maybe, running⟩ := inv.running phase
      exact ⟨lo, base, sure, maybe, running.publish⟩
  | beginCheckpoint store phase small =>
      obtain ⟨lo, base, sure, maybe, running⟩ := inv.running phase
      exact ⟨lo, base, sure, maybe, running.beginCheckpoint honest small⟩
  | rotated store cur boundary wal landed stage phase =>
      obtain ⟨lo, base, sure, maybe, running⟩ := inv.running phase
      exact ⟨lo, base, running.endRotate_ok honest⟩
  | rotateFailed store cur failure wal landed stage phase =>
      obtain ⟨lo, base, sure, maybe, running⟩ := inv.running phase
      exact ⟨lo, base, running.endRotate_error⟩
  | saved store task landed cur boundary phase =>
      obtain ⟨lo, base, sure, maybe, running⟩ := inv.running phase
      exact ⟨lo, base, sure, maybe, running.endSave_ok⟩
  | saveFailed store task landed cur boundary failure phase =>
      obtain ⟨lo, base, sure, maybe, running⟩ := inv.running phase
      exact ⟨lo, base, sure, maybe, running.endSave_error⟩
  | beginRemove store landed covered phase =>
      obtain ⟨lo, base, sure, maybe, running⟩ := inv.running phase
      exact ⟨lo, base, sure, maybe, running.beginRemove⟩
  | removed store result landed stage phase =>
      obtain ⟨lo, base, sure, maybe, running⟩ := inv.running phase
      obtain ⟨lo, left, running⟩ := running.endRemove
      exact ⟨lo, base, left, maybe, running⟩
  | openCall fate program outcome phase served => exact (inv.opening phase).call served
  | appendCall fate store group staged landed stage program outcome phase served =>
      obtain ⟨lo, base, sure, maybe, running⟩ := inv.running phase
      exact ⟨lo, base, sure, maybe, running.appendCall served⟩
  | rotateCall fate store cur landed stage program outcome phase served =>
      obtain ⟨lo, base, sure, maybe, running⟩ := inv.running phase
      exact ⟨lo, base, sure, maybe, running.rotateCall served⟩
  | removeCall fate store landed stage program outcome phase served =>
      obtain ⟨lo, base, sure, maybe, running⟩ := inv.running phase
      exact ⟨lo, base, sure, maybe, running.removeCall served⟩
  | fileCall fate store task landed cur boundary program outcome phase served =>
      obtain ⟨lo, base, sure, maybe, running⟩ := inv.running phase
      exact ⟨lo, base, sure, maybe, running.fileCall served⟩
  | close store phase => exact inv.atRest.closed
  | crash cut => exact inv.atRest.crash cut
  | damage garbage phase fallback spoilt =>
      have rest := inv.atRest.damage (Option.isSome_iff_ne_none.mp fallback) spoilt
      rw [phase] at rest
      rw [Inv, phase]
      exact rest

theorem Inv.initial : Inv faults System.initial := by
  refine ⟨0, [], [], [], ⟨rfl, Nat.le_refl 0, List.prefix_rfl, by decide, ?_, fun _ => by decide⟩,
    ⟨Or.inl rfl, Or.inl (Or.inl rfl), fun _ _ => rfl⟩, Or.inl ⟨rfl, rfl⟩⟩
  intro ops member
  cases member

theorem Inv.run {events : List System.Event} {next : System} (honest : faults ≠ .any)
    (inv : Inv faults sys) (ran : System.run faults events sys = some next) : Inv faults next := by
  induction events generalizing sys with
  | nil =>
      cases ran
      exact inv
  | cons event events ih =>
      rw [System.run, List.foldlM_cons] at ran
      obtain ⟨middle, stepped, rest⟩ := Option.bind_eq_some_iff.mp ran
      exact ih (inv.step honest stepped) rest

end Steps

end Keystory
