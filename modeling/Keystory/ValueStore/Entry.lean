/-
The directory entry of the log over a run. Creating the log and renaming over it
move the current entry only; a sync of the directory makes it durable. So the two
entries agree exactly if every step that moved the one was followed by one that
brought the other after it.
-/

import Keystory.ValueStore.System

namespace Keystory.ValueStore

open General

/-! ### Steps that touch the entry -/

/-- The log's name gets another file: a call that creates the log may still fail. -/
def Call.names (disk : Disk) : Call → Fate → Bool
  | .openLog, fate => decide (disk.log = none ∧ fate ≠ .fail 0)
  | .rename _, .ok => disk.tmp.isSome
  | _, _ => false

/-- A sync of the directory that succeeds, or fails having got through. -/
def Call.settles : Call → Fate → Bool
  | .syncDir, fate => decide (fate ≠ .fail 0)
  | _, _ => false

def pending? {Result : Type} : DiskProgram Result → Option Call
  | .done _ => none
  | .call request _ => some request

def Phase.pending? : Phase → Option Call
  | .opening program => ValueStore.pending? program
  | .putting _ program => ValueStore.pending? program
  | .compacting program => ValueStore.pending? program
  | .down => none
  | .idle _ => none

namespace System

/-- The file-system call that an event makes; a kill cuts it short. -/
def makes? (sys : System) : Event → Option (Call × Fate)
  | .call fate => sys.phase.pending?.map (fun call => (call, fate))
  | .kill extent => sys.phase.pending?.map (fun call => (call, .fail extent))
  | _ => none

def names (sys : System) (event : Event) : Bool :=
  (sys.makes? event).any (fun made => made.1.names sys.disk made.2)

/-- After a power loss there is one entry, whichever it is. -/
def settles (sys : System) : Event → Bool
  | .powerLoss _ _ => true
  | event => (sys.makes? event).any (fun made => made.1.settles made.2)

end System

/-- Each step that created the log or renamed over it was followed by a step that made the
log's entry durable. -/
def EntrySynced (events : List Event) : Prop :=
  Followed (fun taken : System × Event => taken.1.names taken.2 = true)
    (fun taken => taken.1.settles taken.2 = true) (runTrace System.step System.new events)

/-! ### What a call does to the entry -/

/-- Names denote files, and the temporary file's denotes neither of the log's. -/
structure Disk.Apart (disk : Disk) : Prop where
  log : ∀ number, disk.log = some number → number < disk.files.length
  durable : ∀ number, disk.durable = some number → number < disk.files.length
  tmp : ∀ number, disk.tmp = some number →
    number < disk.files.length ∧ disk.log ≠ some number ∧ disk.durable ≠ some number

section Calls

variable {disk : Disk}

theorem Disk.Apart.modify (apart : disk.Apart) (number : Nat) (change : File UInt8 → File UInt8) :
    (disk.modify number change).Apart := by
  have same : (disk.modify number change).files.length = disk.files.length :=
    List.length_modify _ _ _
  refine ⟨?_, ?_, ?_⟩
  · rw [same]
    exact apart.log
  · rw [same]
    exact apart.durable
  · rw [same]
    exact apart.tmp

theorem Disk.Apart.touchLog (apart : disk.Apart) : disk.touchLog.Apart := by
  unfold Disk.touchLog
  split
  · exact apart
  · refine ⟨?_, ?_, ?_⟩
    · intro number named
      cases named
      simp
    · intro number named
      exact (apart.durable number named).trans_le (List.prefix_append _ _).length_le
    · intro number named
      obtain ⟨within, _, other⟩ := apart.tmp number named
      refine ⟨within.trans_le (List.prefix_append _ _).length_le, ?_, other⟩
      rw [ne_eq, Option.some.injEq]
      exact (Nat.ne_of_lt within).symm

theorem Disk.Apart.touchTmp (apart : disk.Apart) : disk.touchTmp.Apart := by
  unfold Disk.touchTmp
  split
  · exact apart
  · refine ⟨?_, ?_, ?_⟩
    · intro number named
      exact (apart.log number named).trans_le (List.prefix_append _ _).length_le
    · intro number named
      exact (apart.durable number named).trans_le (List.prefix_append _ _).length_le
    · intro number named
      cases named
      refine ⟨by simp, ?_, ?_⟩
      · exact fun named => absurd (apart.log _ named) (lt_irrefl _)
      · exact fun named => absurd (apart.durable _ named) (lt_irrefl _)

theorem Disk.Apart.syncDir (apart : disk.Apart) : { disk with durable := disk.log }.Apart :=
  ⟨apart.log, apart.log, fun number named =>
    ⟨(apart.tmp number named).1, (apart.tmp number named).2.1, (apart.tmp number named).2.1⟩⟩

theorem Disk.Apart.serve (apart : disk.Apart) (call : Call) (fate : Fate) :
    (serve call fate disk).2.Apart := by
  have untmp : { disk with tmp := none }.Apart :=
    ⟨apart.log, apart.durable, fun number named => by cases named⟩
  cases call with
  | probe => exact apart
  | createDirs => exact apart
  | openLog =>
      cases fate with
      | ok => exact apart.touchLog
      | fail extent =>
          change (if extent = 0 then disk else disk.touchLog).Apart
          split
          · exact apart
          · exact apart.touchLog
  | syncDir =>
      cases fate with
      | ok => exact apart.syncDir
      | fail extent =>
          change (if extent = 0 then disk else { disk with durable := disk.log }).Apart
          split
          · exact apart
          · exact apart.syncDir
  | readLog => cases fate <;> exact apart
  | len file => cases fate <;> exact apart
  | setLen file length =>
      cases fate with
      | ok => exact apart.modify _ _
      | fail extent => exact apart
  | sync file =>
      cases fate with
      | ok => exact apart.modify _ _
      | fail extent => exact apart.modify _ _
  | write file data => exact apart.modify _ _
  | removeTmp =>
      cases fate with
      | ok => exact untmp
      | fail extent => exact apart
  | createTmp =>
      cases fate with
      | ok => exact apart.touchTmp
      | fail extent =>
          change (if extent = 0 then disk else disk.touchTmp).Apart
          split
          · exact apart
          · exact apart.touchTmp
  | rename live =>
      cases fate with
      | fail extent => exact apart
      | ok =>
          cases tmp : disk.tmp with
          | none =>
              simp only [ValueStore.serve, tmp]
              exact apart
          | some file =>
              simp only [ValueStore.serve, tmp]
              refine ⟨?_, apart.durable, fun number named => by cases named⟩
              intro number named
              cases named
              exact (apart.tmp file tmp).1

theorem Disk.Apart.powerLoss (apart : disk.Apart) (restore : Bool) (kept : Nat → Nat) :
    (disk.powerLoss restore kept).Apart := by
  have same : (disk.powerLoss restore kept).files.length = disk.files.length :=
    List.length_mapIdx
  have entry : ∀ number, (if restore then disk.durable else disk.log) = some number →
      number < disk.files.length := by
    cases restore with
    | true => exact apart.durable
    | false => exact apart.log
  have other : ∀ number, disk.tmp = some number →
      (if restore then disk.durable else disk.log) ≠ some number := by
    cases restore with
    | true => exact fun number named => (apart.tmp number named).2.2
    | false => exact fun number named => (apart.tmp number named).2.1
  refine ⟨?_, ?_, ?_⟩
  · rw [same]
    exact entry
  · rw [same]
    exact entry
  · rw [same]
    exact fun number named => ⟨(apart.tmp number named).1, other number named, other number named⟩

theorem durable_ne_log_of_names (apart : disk.Apart) {call : Call} {fate : Fate}
    (names : call.names disk fate = true) :
    (serve call fate disk).2.durable ≠ (serve call fate disk).2.log := by
  cases call with
  | openLog =>
      obtain ⟨absent, made⟩ := of_decide_eq_true names
      have touched : (serve .openLog fate disk).2 = disk.touchLog := by
        cases fate with
        | ok => rfl
        | fail extent => exact if_neg (fun zero => made (congrArg Fate.fail zero))
      rw [touched, Disk.touchLog]
      simp only [absent]
      exact fun named => absurd (apart.durable _ named) (lt_irrefl _)
  | rename live =>
      cases fate with
      | fail extent => cases names
      | ok =>
          obtain ⟨file, tmp⟩ := Option.isSome_iff_exists.mp names
          simp only [serve, tmp]
          exact (apart.tmp file tmp).2.2
  | probe | createDirs | syncDir | readLog | len _ | setLen _ _ | sync _ | write _ _
  | removeTmp | createTmp => cases names

theorem durable_eq_log_of_settles {call : Call} {fate : Fate}
    (settles : call.settles fate = true) :
    (serve call fate disk).2.durable = (serve call fate disk).2.log := by
  cases call with
  | syncDir =>
      have through := of_decide_eq_true settles
      cases fate with
      | ok => rfl
      | fail extent =>
          have later : extent ≠ 0 := fun zero => through (congrArg Fate.fail zero)
          simp [serve, later]
  | probe | createDirs | openLog | readLog | len _ | setLen _ _ | sync _ | write _ _
  | removeTmp | createTmp | rename _ => cases settles

theorem not_names_of_settles {call : Call} {fate : Fate} (settles : call.settles fate = true) :
    call.names disk fate = false := by
  cases call with
  | syncDir => rfl
  | probe | createDirs | openLog | readLog | len _ | setLen _ _ | sync _ | write _ _
  | removeTmp | createTmp | rename _ => cases settles

theorem entries_of_not_names {call : Call} {fate : Fate} (names : call.names disk fate = false)
    (settles : call.settles fate = false) :
    (serve call fate disk).2.log = disk.log ∧ (serve call fate disk).2.durable = disk.durable := by
  cases call with
  | openLog =>
      have either := of_decide_eq_false names
      have touched : disk.log ≠ none → disk.touchLog = disk := by
        intro present
        unfold Disk.touchLog
        split
        · rfl
        · exact absurd ‹_› present
      by_cases absent : disk.log = none
      · have unmade : fate = .fail 0 := by
          by_contra made
          exact either ⟨absent, made⟩
        subst unmade
        exact ⟨rfl, rfl⟩
      · cases fate with
        | ok => simp [serve, touched absent]
        | fail extent => simp [serve, touched absent]
  | syncDir =>
      cases not_not.mp (of_decide_eq_false settles)
      exact ⟨rfl, rfl⟩
  | rename live =>
      cases fate with
      | fail extent => exact ⟨rfl, rfl⟩
      | ok =>
          have absent : disk.tmp = none := by simpa [Call.names] using names
          simp [serve, absent]
  | createTmp =>
      have touched : disk.touchTmp.log = disk.log ∧ disk.touchTmp.durable = disk.durable := by
        unfold Disk.touchTmp
        split <;> exact ⟨rfl, rfl⟩
      cases fate with
      | ok => exact touched
      | fail extent =>
          by_cases zero : extent = 0
          · simp [serve, zero]
          · simpa [serve, zero] using touched
  | probe | createDirs | write _ _ => exact ⟨rfl, rfl⟩
  | readLog | len _ | setLen _ _ | sync _ | removeTmp => cases fate <;> exact ⟨rfl, rfl⟩

end Calls

/-! ### What a step does to the entry -/

section Steps

variable {sys next : System} {event : Event}

theorem interrupted_eq {Result : Type} (extent : Nat) (program : DiskProgram Result) (disk : Disk) :
    interrupted extent program disk =
      (pending? program).elim disk (fun call => (serve call (.fail extent) disk).2) := by
  cases program with
  | done result => rfl
  | call request next => rfl

/-- A step makes the call it is said to make, loses the power, or leaves the files alone. -/
inductive Moved (sys : System) (event : Event) (after : Disk) : Prop where
  | served (call : Call) (fate : Fate) (makes : sys.makes? event = some (call, fate))
      (same : after = (serve call fate sys.disk).2)
  | lost (restore : Bool) (kept : Nat → Nat) (power : event = .powerLoss restore kept)
      (same : after = sys.disk.powerLoss restore kept)
  | silent (makes : sys.makes? event = none)
      (powered : ∀ restore kept, event ≠ .powerLoss restore kept) (notes : List Note)
      (same : after = { sys.disk with notes })

theorem moved_of_step (stepped : sys.step event = some next) : Moved sys event next.disk := by
  obtain ⟨disk, phase⟩ := sys
  cases event with
  | powerLoss restore kept =>
      cases stepped
      exact .lost restore kept rfl rfl
  | start =>
      cases phase with
      | down =>
          cases stepped
          exact .silent rfl (fun _ _ => by simp) disk.notes rfl
      | _ => cases stepped
  | put value =>
      cases phase with
      | idle inner =>
          obtain ⟨_, same⟩ := Option.ite_none_right_eq_some.mp stepped
          cases same
          exact .silent rfl (fun _ _ => by simp) disk.notes rfl
      | _ => cases stepped
  | compact live =>
      cases phase with
      | idle inner =>
          cases stepped
          exact .silent rfl (fun _ _ => by simp) disk.notes rfl
      | _ => cases stepped
  | call fate =>
      have made : ∀ {Result : Type} {program rest : DiskProgram Result} {after : Disk},
          Phase.pending? phase = pending? program →
          program.step directory fate disk = some (rest, after) →
          Moved ⟨disk, phase⟩ (.call fate) after := by
        intro Result program rest after awaits served
        obtain ⟨call, next, rfl, same⟩ := Program.step_eq_some served
        exact .served call fate (by simp [System.makes?, awaits, ValueStore.pending?])
          (congrArg Prod.snd same)
      cases phase with
      | opening program | putting value program | compacting program =>
          obtain ⟨⟨rest, after⟩, served, same⟩ := Option.bind_eq_some_iff.mp stepped
          cases same
          exact made rfl served
      | down | idle inner => cases stepped
  | finish =>
      have quiet : ∀ notes, next.disk = { disk with notes } →
          Moved ⟨disk, phase⟩ .finish next.disk :=
        fun notes same => .silent rfl (fun _ _ => by simp) notes same
      dsimp only [System.step] at stepped
      split at stepped
      all_goals cases stepped
      all_goals exact quiet _ rfl
  | kill extent =>
      have cut : ∀ {Result : Type} (program : DiskProgram Result),
          Phase.pending? phase = pending? program →
          next.disk = interrupted extent program disk →
          Moved ⟨disk, phase⟩ (.kill extent) next.disk := by
        intro Result program awaits same
        rw [interrupted_eq, ← awaits] at same
        cases made : Phase.pending? phase with
        | none =>
            rw [made] at same
            exact .silent (by simp [System.makes?, made]) (fun _ _ => by simp) disk.notes same
        | some call =>
            rw [made] at same
            exact .served call (.fail extent) (by simp [System.makes?, made]) same
      cases phase with
      | down | idle inner =>
          cases stepped
          exact .silent rfl (fun _ _ => by simp) disk.notes rfl
      | opening program | putting value program | compacting program =>
          cases stepped
          exact cut program rfl rfl

theorem settles_eq (powered : ∀ restore kept, event ≠ .powerLoss restore kept) :
    sys.settles event = (sys.makes? event).any (fun made => made.1.settles made.2) := by
  cases event with
  | powerLoss restore kept => exact absurd rfl (powered restore kept)
  | _ => rfl

theorem not_powerLoss_of_makes {made : Call × Fate} (makes : sys.makes? event = some made)
    (restore : Bool) (kept : Nat → Nat) : event ≠ .powerLoss restore kept := by
  rintro rfl
  cases makes

theorem names_eq_false_of_settles (settles : sys.settles event = true) :
    sys.names event = false := by
  unfold System.names
  cases made : sys.makes? event with
  | none => rfl
  | some call =>
      rw [settles_eq (not_powerLoss_of_makes made), made] at settles
      exact not_names_of_settles settles

/-- One step: the entries come apart where the log is named, come together where that is
settled, and stay as they are otherwise. -/
theorem entries_step (apart : sys.disk.Apart) (stepped : sys.step event = some next) :
    next.disk.Apart ∧ (next.disk.durable = next.disk.log ↔
      sys.settles event = true ∨
        (¬ sys.names event = true ∧ sys.disk.durable = sys.disk.log)) := by
  rcases moved_of_step stepped with ⟨call, fate, makes, same⟩ | ⟨restore, kept, rfl, same⟩ |
    ⟨makes, powered, notes, same⟩
  · have names : sys.names event = call.names sys.disk fate := by simp [System.names, makes]
    have settles : sys.settles event = call.settles fate := by
      simp [settles_eq (not_powerLoss_of_makes makes), makes]
    rw [same, names, settles]
    refine ⟨apart.serve call fate, ?_⟩
    by_cases settled : call.settles fate = true
    · simp [settled, durable_eq_log_of_settles settled]
    · by_cases named : call.names sys.disk fate = true
      · simp [settled, named, durable_ne_log_of_names apart named]
      · obtain ⟨log, durable⟩ := entries_of_not_names (Bool.not_eq_true _ ▸ named)
          (Bool.not_eq_true _ ▸ settled)
        simp [settled, named, log, durable]
  · rw [same]
    exact ⟨apart.powerLoss restore kept, iff_of_true rfl (Or.inl rfl)⟩
  · rw [same, settles_eq powered, System.names, makes]
    exact ⟨⟨apart.log, apart.durable, apart.tmp⟩, by simp⟩

end Steps

/-- Over a whole run the log's entry is durable exactly if each naming of the log was settled. -/
theorem durable_eq_log_iff {events : List Event} {sys : System}
    (reached : runSteps System.step System.new events = some sys) :
    sys.disk.durable = sys.disk.log ↔ EntrySynced events := by
  suffices both : sys.disk.Apart ∧ (sys.disk.durable = sys.disk.log ↔ EntrySynced events) by
    exact both.2
  -- from the end: the last event decides, or leaves it as it was before
  induction events using List.reverseRecOn generalizing sys with
  | nil =>
      cases reached
      refine ⟨⟨?_, ?_, ?_⟩, iff_of_true rfl Followed.nil⟩
      all_goals exact fun _ named => by cases named
  | append_singleton events event ih =>
      obtain ⟨before, ran, last⟩ := runSteps_append_eq_some.mp reached
      obtain ⟨after, stepped, done⟩ := runSteps_cons_eq_some.mp last
      cases done
      obtain ⟨apart, agree⟩ := ih ran
      obtain ⟨apart', agree'⟩ := entries_step apart stepped
      refine ⟨apart', ?_⟩
      rw [agree', agree]
      unfold EntrySynced
      rw [runTrace_concat ran, followed_concat_iff]
      · intro settles names
        exact absurd names (by simp [names_eq_false_of_settles settles])

end Keystory.ValueStore
