/-
Whole sessions of a log under failing file-system calls: while it is usable the
log replays to exactly what it acknowledged, and once poisoned it changes nothing
more and a fresh open recovers it. That is so unless a probe fails: a rotation
takes a segment it cannot ask after for absent.
-/

import Mathlib.Logic.Relation
import Keystory.Wal.Recovery

namespace Keystory

open General Wal

namespace Wal

/-- A log at rest: whole segments, then one that may have been cut short. -/
def WellFormed (segments : Segments) : Prop :=
  segments.entries = [] ∨ ∃ closed last bytes records,
    segments.entries = closedFiles closed ++ [(last, .settled bytes)] ∧
    bytes <+: segmentBytes records ∧ (∀ entry ∈ tagged closed, Fits entry.2.ops) ∧
    ∀ record ∈ records, Fits record.ops

def replayed (segments : Segments) : Except Failure (List Record × Option Nat) :=
  replay (fun collected _ record => .ok (collected ++ [record])) (files segments) []

/-- An open log, its directory, and what its callers have been told. -/
structure Session where
  wal : Wal
  segments : Segments
  /-- the records of the appends that returned `Ok`, in order -/
  acknowledged : List Record
  /-- the records of the last append made while the log was usable that failed -/
  failed : List Record

/-- One call, every file-system call in it succeeding or failing on its own. -/
inductive Session.Step (faults : Faults) (session : Session) : Session → Prop
  | append (records : List Record) (wal : Wal) (segments : Segments)
      (ended : (session.wal.appendMany records).Ends (directory faults) session.segments
        (.ok (), wal) segments) :
      Step faults session ⟨wal, segments, session.acknowledged ++ records, session.failed⟩
  | appendFails (records : List Record) (failure : Failure) (wal : Wal) (segments : Segments)
      (ended : (session.wal.appendMany records).Ends (directory faults) session.segments
        (.error failure, wal) segments) :
      Step faults session ⟨wal, segments, session.acknowledged,
        if session.wal.poisoned = none then records else session.failed⟩
  | rotate (result : Except Failure Nat) (wal : Wal) (segments : Segments)
      (ended : session.wal.rotateSegment.Ends (directory faults) session.segments
        (result, wal) segments) :
      Step faults session ⟨wal, segments, session.acknowledged,
        if session.wal.poisoned = none then [] else session.failed⟩

/-! ### What replay collects -/

theorem foldlM_collect_untag (entries : List (Nat × Record)) (collected : List Record) :
    entries.foldlM (fun (collected : List Record) entry =>
      (.ok (collected ++ [entry.2]) : Except Failure (List Record))) collected =
      .ok (collected ++ untag entries) := by
  rw [← foldlM_collect, untag, List.foldlM_map]
  rfl

theorem Replays.replayed_eq {segments : Segments} {entries : List (Nat × Record)}
    {ending : Option Nat} (replays : Replays segments entries ending) :
    replayed segments = .ok (untag entries, ending) := by
  rw [replayed, replays, foldlM_collect_untag]
  rfl

/-! ### Opening a log at rest -/

theorem WellFormed.opened {faults : Faults} {before after : Segments} {maxSegBytes : Nat}
    {wal : Wal} (wellFormed : WellFormed before)
    (ended : (openLog maxSegBytes).Ends (directory faults) before (.ok wal) after) :
    ∃ sure ending, replayed before = .ok (untag sure, ending) ∧ wal.poisoned = none ∧
      wal.Keeps after sure [] := by
  rcases wellFormed with empty | ⟨closed, last, bytes, records, listing, part, closedFits, fits⟩
  · have readable : Readable before [] [] := Or.inl ⟨empty, rfl⟩
    obtain ⟨entries, ending, recoverable⟩ := readable.recoverable
    obtain ⟨usable, _, ⟨sure, maybe, keeps, same, _⟩, _⟩ :=
      (recoverable.opens faults maxSegBytes).ends ended
    have none : entries = [] :=
      List.map_eq_nil_iff.mp (List.prefix_nil.mp recoverable.possible)
    rw [none] at same
    obtain ⟨rfl, rfl⟩ := List.append_eq_nil_iff.mp same
    refine ⟨[], ending, ?_, usable, keeps⟩
    rw [recoverable.replays.replayed_eq, none]
  · obtain ⟨whole, ending, ⟨rest, rfl⟩, reads⟩ := exists_reads part fits
    have shape : Shape before closed last (.settled bytes) whole rest := by
      refine ⟨listing, by simpa using part, ?_, closedFits, fits⟩
      cases ending with
      | none =>
          right
          rw [show bytes = segmentBytes whole from reads]
          exact List.prefix_rfl
      | some offset =>
          rcases reads with ⟨_, none, _⟩ | ⟨torn, _, _, same, _⟩
          · exact Or.inl none
          · right
            rw [same]
            exact List.prefix_append _ _
    have exactly : Reads (File.settled bytes).bytes (whole ++ []) ending := by
      simpa using reads
    obtain ⟨usable, file, backed⟩ :=
      (openLog_spec shape exactly List.nil_prefix).ends ended
    have replays := shape.replays exactly (by simp)
    rw [List.append_nil] at replays
    exact ⟨tagged closed ++ tag last whole, ending, replays.replayed_eq, usable,
      ⟨closed, last, file, whole, [], backed, rfl, rfl⟩⟩

/-! ### Sessions -/

/-- What every session keeps to: a usable log has exactly the acknowledged records,
a poisoned one has them and possibly part of the append that failed. -/
def Session.Sound (base : List Record) (session : Session) : Prop :=
  ∃ sure maybe, session.wal.Keeps session.segments sure maybe ∧
    base ++ session.acknowledged <+: untag sure ∧
    ((session.wal.poisoned = none ∧ maybe = [] ∧ untag sure = base ++ session.acknowledged) ∨
      (session.wal.poisoned ≠ none ∧
        untag (sure ++ maybe) <+: base ++ session.acknowledged ++ session.failed))

theorem Session.Step.stuck {faults : Faults} {session next : Session}
    (step : Session.Step faults session next)
    (poisoned : session.wal.poisoned ≠ none) : next = session := by
  cases step with
  | append records wal segments ended =>
      obtain ⟨failure, same⟩ := appendMany_poisoned poisoned records
      rw [same] at ended
      cases ended.1
  | appendFails records failure wal segments ended =>
      obtain ⟨failure, same⟩ := appendMany_poisoned poisoned records
      rw [same] at ended
      obtain ⟨outcome, rfl⟩ := ended
      cases outcome
      rw [if_neg poisoned]
  | rotate result wal segments ended =>
      obtain ⟨failure, same⟩ := rotateSegment_poisoned poisoned
      rw [same] at ended
      obtain ⟨outcome, rfl⟩ := ended
      cases outcome
      rw [if_neg poisoned]

theorem Session.Step.sound {faults : Faults} (honest : faults ≠ .any) {base : List Record}
    {session next : Session} (step : Session.Step faults session next)
    (sound : session.Sound base) : next.Sound base := by
  obtain ⟨sure, maybe, keeps, low, state⟩ := sound
  rcases state with ⟨usable, rfl, exactly⟩ | ⟨poisoned, high⟩
  · cases step with
    | append records wal segments ended =>
        obtain ⟨_, sure', maybe', new, keeps', same, more, _, usable', added, settled⟩ :=
          (appendMany_spec honest keeps records).ends ended
        rw [List.append_nil] at same
        have none : maybe' = [] := by
          by_cases empty : records = []
          · have nothing : new = [] := List.map_eq_nil_iff.mp (added.trans empty)
            rw [nothing, List.append_nil] at same
            exact (certain_only same more).2
          · exact settled empty
        subst none
        rw [List.append_nil] at same
        have total : untag sure' = base ++ (session.acknowledged ++ records) := by
          rw [same, untag_append, exactly, added, List.append_assoc]
        exact ⟨sure', [], keeps', by rw [total], Or.inl ⟨usable', rfl, total⟩⟩
    | appendFails records failure wal segments ended =>
        obtain ⟨_, sure', maybe', new, keeps', same, more, _, which⟩ :=
          (appendMany_spec honest keeps records).ends ended
        rw [List.append_nil] at same
        rw [if_pos usable]
        rcases which with rfl | ⟨poisoned', added⟩
        · rw [List.append_nil] at same
          obtain ⟨rfl, rfl⟩ := certain_only same more
          refine ⟨sure', [], keeps', low, ?_⟩
          by_cases usable' : wal.poisoned = none
          · exact Or.inl ⟨usable', rfl, exactly⟩
          · refine Or.inr ⟨usable', ?_⟩
            rw [List.append_nil, exactly]
            exact List.prefix_append _ _
        · refine ⟨sure', maybe', keeps', low.trans ?_, Or.inr ⟨poisoned', ?_⟩⟩
          · exact more.map Prod.snd
          · rw [same, untag_append, exactly, added]
    | rotate result wal segments ended =>
        obtain ⟨_, sure', maybe', keeps', same, more, _⟩ :=
          (rotateSegment_spec honest keeps).ends ended
        rw [List.append_nil] at same
        obtain ⟨rfl, rfl⟩ := certain_only same more
        rw [if_pos usable]
        refine ⟨sure', [], keeps', low, ?_⟩
        by_cases usable' : wal.poisoned = none
        · exact Or.inl ⟨usable', rfl, exactly⟩
        · refine Or.inr ⟨usable', ?_⟩
          rw [List.append_nil, exactly, List.append_nil]
  · rw [step.stuck poisoned]
    exact ⟨sure, maybe, keeps, low, Or.inr ⟨poisoned, high⟩⟩

theorem Session.sound_of_reachable {faults : Faults} (honest : faults ≠ .any)
    {base : List Record} {start session : Session} (sound : start.Sound base)
    (reached : Relation.ReflTransGen (Session.Step faults) start session) :
    session.Sound base := by
  induction reached with
  | refl => exact sound
  | tail _ step ih => exact step.sound honest ih

theorem Keeps.current_segment {wal : Wal} {segments : Segments} {sure maybe : List (Nat × Record)}
    (keeps : wal.Keeps segments sure maybe) (usable : wal.poisoned = none) :
    (∀ seq, wal.segSeq < seq → segments.find? seq = none) ∧
      ∃ file records, segments.find? wal.segSeq = some file ∧
        file.bytes = segmentBytes records ∧ file.bytes.length = wal.segBytes := by
  obtain ⟨closed, last, file, kept, extra, backed, rfl, rfl⟩ := keeps
  obtain ⟨current, _⟩ := backed.current usable
  rw [current]
  refine ⟨fun seq above => SortedMap.find?_beyond backed.shape.entries above, file, kept ++ extra,
    backed.shape.find?, backed.whole usable, ?_⟩
  rw [backed.whole usable, backed.counted usable]

theorem Session.Sound.reopens {base : List Record} {session : Session}
    (sound : session.Sound base) (poisoned : session.wal.poisoned ≠ none) (maxSegBytes : Nat) :
    ∃ part ending fresh, part <+: session.failed ∧
      replayed session.segments = .ok (base ++ session.acknowledged ++ part, ending) ∧
      ((openLog maxSegBytes).exec (directory .none) .ok session.segments).1 = .ok fresh ∧
      fresh.poisoned = none ∧
      replayed ((openLog maxSegBytes).exec (directory .none) .ok session.segments).2 =
        .ok (base ++ session.acknowledged ++ part, none) := by
  obtain ⟨sure, maybe, keeps, low, state⟩ := sound
  have high : untag (sure ++ maybe) <+: base ++ session.acknowledged ++ session.failed := by
    rcases state with ⟨usable, _⟩ | ⟨_, high⟩
    · exact absurd usable poisoned
    · exact high
  obtain ⟨entries, ending, recoverable⟩ := keeps.readable.recoverable
  obtain ⟨part, same⟩ := low.trans recoverable.certain
  have inside : part <+: session.failed := by
    rw [untag_append] at high
    have within := recoverable.possible.trans high
    rw [← same] at within
    exact (List.prefix_append_right_inj _).mp within
  have allowed : ∀ call, (directory .none).allows call .ok := fun _ => rfl
  obtain ⟨_, opened⟩ := (recoverable.opens .none maxSegBytes).exec allowed
  cases result : ((openLog maxSegBytes).exec (directory .none) .ok session.segments).1 with
  | error failure =>
      rw [result] at opened
      exact absurd rfl opened
  | ok fresh =>
      rw [result] at opened
      obtain ⟨usable, _, ⟨sure', maybe', keeps', total, _⟩, _⟩ := opened
      refine ⟨part, ending, fresh, inside, ?_, rfl, usable, ?_⟩
      · rw [recoverable.replays.replayed_eq, same]
      · rw [(keeps'.replays usable).replayed_eq, total, same]

/-- A log opened at rest, through any calls in which any file-system calls fail but the probe
whether a segment exists: while it is usable nothing lies above its segment, which is whole,
and replay gives exactly what was acknowledged; once it is poisoned every call fails and
changes nothing, replay gives what was acknowledged and part of the one append that failed,
and a fresh open recovers just that. -/
theorem log_survives_faults {faults : Faults} (honest : faults ≠ .any) {before after : Segments}
    {maxSegBytes : Nat} {wal : Wal} (wellFormed : WellFormed before)
    (opened : (openLog maxSegBytes).Ends (directory faults) before (.ok wal) after) :
    ∃ base torn, replayed before = .ok (base, torn) ∧
      ∀ session, Relation.ReflTransGen (Session.Step faults) ⟨wal, after, [], []⟩ session →
        (session.wal.poisoned = none →
          (∀ seq, session.wal.segSeq < seq → session.segments.find? seq = none) ∧
          (∃ file records, session.segments.find? session.wal.segSeq = some file ∧
            file.bytes = segmentBytes records ∧ file.bytes.length = session.wal.segBytes) ∧
          replayed session.segments = .ok (base ++ session.acknowledged, none)) ∧
        (session.wal.poisoned ≠ none →
          (∀ records, ∃ failure,
            session.wal.appendMany records = pure (.error failure, session.wal)) ∧
          (∃ failure, session.wal.rotateSegment = pure (.error failure, session.wal)) ∧
          ∀ maxSegBytes, ∃ part ending fresh, part <+: session.failed ∧
            replayed session.segments = .ok (base ++ session.acknowledged ++ part, ending) ∧
            ((openLog maxSegBytes).exec (directory .none) .ok session.segments).1 = .ok fresh ∧
            fresh.poisoned = none ∧
            replayed ((openLog maxSegBytes).exec (directory .none) .ok session.segments).2 =
              .ok (base ++ session.acknowledged ++ part, none)) := by
  obtain ⟨sure, torn, read, usable, keeps⟩ := wellFormed.opened opened
  refine ⟨untag sure, torn, read, ?_⟩
  intro session reached
  have start : Session.Sound (untag sure) ⟨wal, after, [], []⟩ :=
    ⟨sure, [], keeps, by simp, Or.inl ⟨usable, rfl, by simp⟩⟩
  have sound := Session.sound_of_reachable honest start reached
  constructor
  · intro healthy
    obtain ⟨sure', maybe', keeps', _, state⟩ := sound
    rcases state with ⟨_, rfl, exactly⟩ | ⟨poisoned, _⟩
    · obtain ⟨alone, whole⟩ := keeps'.current_segment healthy
      refine ⟨alone, whole, ?_⟩
      rw [(keeps'.replays healthy).replayed_eq, List.append_nil, exactly]
    · exact absurd healthy poisoned
  · intro poisoned
    exact ⟨appendMany_poisoned poisoned, rotateSegment_poisoned poisoned,
      sound.reopens poisoned⟩

/-- A log opened in an empty directory, then an append whose write fails after five
bytes and whose roll-back fails too: the log is poisoned, holds no record, and a
fresh open recovers that. -/
theorem log_survives_faults_when_poisoned :
    ∃ wal after session, (openLog 0).Ends (directory .honest) SortedMap.empty (.ok wal) after ∧
      Relation.ReflTransGen (Session.Step .honest) ⟨wal, after, [], []⟩ session ∧
      session.wal.poisoned ≠ none ∧ ∃ part ending, part <+: session.failed ∧
        replayed session.segments = .ok (part, ending) := by
  have opened : (openLog 0).Ends (directory .honest) SortedMap.empty
      (.ok (atSegment 0 1 headerLen)) (SortedMap.empty.insert 1 (.settled segmentHeader)) :=
    Program.follow_ends (List.replicate 6 .ok) rfl
  have failing : (((atSegment 0 1 headerLen).appendMany [⟨1, 1, [.put [1] [2]]⟩]).follow
      (directory .honest) [.fail 5, .fail 0]
      (SortedMap.empty.insert 1 (.settled segmentHeader))).map
        (fun outcome => (outcome.1.1.isOk, outcome.1.2.poisoned.isSome)) =
      some (false, true) := rfl
  obtain ⟨⟨⟨result, wal⟩, segments⟩, followed, facts⟩ := Option.map_eq_some_iff.mp failing
  obtain ⟨failed, poisoned⟩ := Prod.mk.inj facts
  cases result with
  | ok value => cases failed
  | error failure =>
      have step : Session.Step .honest
          ⟨atSegment 0 1 headerLen, SortedMap.empty.insert 1 (.settled segmentHeader), [], []⟩
          ⟨wal, segments, [], [⟨1, 1, [.put [1] [2]]⟩]⟩ :=
        .appendFails _ failure wal segments (Program.follow_ends _ followed)
      have refuses : wal.poisoned ≠ none := Option.isSome_iff_ne_none.mp poisoned
      obtain ⟨base, torn, read, sound⟩ := log_survives_faults (by decide) (Or.inl rfl) opened
      have empty : base = [] := by
        cases read
        rfl
      subst empty
      have reached := Relation.ReflTransGen.single step
      obtain ⟨part, ending, _, inside, replay, _⟩ := ((sound _ reached).2 refuses).2.2 0
      exact ⟨_, _, _, opened, reached, refuses, part, ending, inside, replay⟩

/-- A log with one record. The create of a rotation fails having left its file behind, and so
does the probe for that file: the rotation returns an error, and the log stays usable although a
segment lies above its own. The next append, whose write fails after five bytes and whose
roll-back fails too, then looks to replay like damage in the middle of the log, and replay
refuses the acknowledged record as well. -/
theorem rotation_leaves_segment_above :
    ∃ wal after session later failure,
      (openLog 1000).Ends (directory .any) SortedMap.empty (.ok wal) after ∧
      Relation.ReflTransGen (Session.Step .any) ⟨wal, after, [], []⟩ session ∧
      session.acknowledged = [⟨1, 1, [.put [1] [2]]⟩] ∧ session.wal.poisoned = none ∧
      session.wal.segSeq = 1 ∧ session.segments.find? 2 = some .empty ∧
      Session.Step .any session later ∧ later.acknowledged = session.acknowledged ∧
      replayed later.segments = .error failure := by
  have opened : (openLog 1000).Ends (directory .any) SortedMap.empty
      (.ok (atSegment 1000 1 headerLen)) (SortedMap.empty.insert 1 (.settled segmentHeader)) :=
    Program.follow_ends (List.replicate 6 .ok) rfl
  have observed : ((((atSegment 1000 1 headerLen).appendMany [⟨1, 1, [.put [1] [2]]⟩]).follow
      (directory .any) [.ok, .ok] (SortedMap.empty.insert 1 (.settled segmentHeader))).bind
      (fun first => (first.1.2.rotateSegment.follow (directory .any) [.ok, .fail 1, .fail 0]
        first.2).bind
        (fun second => ((second.1.2.appendMany [⟨1, 2, [.put [3] [4]]⟩]).follow (directory .any)
          [.fail 5, .fail 0] second.2).map
          (fun third => ((first.1.1.isOk, third.1.1.isOk, (replayed third.2).isOk),
            (second.1.2.poisoned, second.1.2.segSeq, second.2.find? 2)))))) =
      some ((true, false, false), (none, 1, some .empty)) := by
    decide +kernel
  obtain ⟨⟨⟨appended, wal⟩, segments⟩, first, observed⟩ := Option.bind_eq_some_iff.mp observed
  obtain ⟨⟨⟨rotated, wal'⟩, segments'⟩, second, observed⟩ := Option.bind_eq_some_iff.mp observed
  obtain ⟨⟨⟨refused, wal''⟩, segments''⟩, third, facts⟩ := Option.map_eq_some_iff.mp observed
  simp only [Prod.mk.injEq] at facts
  obtain ⟨⟨succeeds, fails, unread⟩, usable, current, above⟩ := facts
  cases appended with
  | error failure => cases succeeds
  | ok value =>
      cases refused with
      | ok value => cases fails
      | error failure =>
          cases read : replayed segments'' with
          | ok found =>
              rw [read] at unread
              cases unread
          | error damage =>
              have acknowledges : Session.Step .any
                  ⟨atSegment 1000 1 headerLen,
                    SortedMap.empty.insert 1 (.settled segmentHeader), [], []⟩
                  ⟨wal, segments, [⟨1, 1, [.put [1] [2]]⟩], []⟩ :=
                .append _ wal segments (Program.follow_ends _ first)
              have rotates := (Relation.ReflTransGen.single acknowledges).tail
                (.rotate rotated wal' segments' (Program.follow_ends _ second))
              exact ⟨_, _, _, _, damage, opened, rotates, rfl, usable, current, above,
                .appendFails _ failure wal'' segments'' (Program.follow_ends _ third), rfl, read⟩

end Wal

end Keystory
