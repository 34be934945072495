/-
The life of a tree directory. A process inserts, deletes and commits; any call of a
commit may fail, the process may die between any two of them, and a power loss may
undo a rename that no sync of the directory has made durable. The directory then holds
the map of the last commit that returned without an error, or one committed since,
unless a call has failed after it made a directory and before it synced the one above,
or the probe of an open fails.
-/

import Keystory.BTree.Persist

namespace Keystory.BTreeStore

open General

/-! ### The directory and its durable entry -/

/-- The files, and the one that `btree.dat` names should the power fail. -/
structure Disk where
  files : TreeFiles
  durable : Option (File UInt8)

namespace Disk

def empty : Disk := ⟨⟨none, none, .missing false⟩, none⟩

/-- The system may write entries back at any time, unasked. -/
def writeBack (disk : Disk) (now : Bool) : Disk :=
  ⟨disk.files, if now then disk.files.live else disk.durable⟩

/-- Only a sync of the directory makes its entries durable; one that fails may have. -/
def durableAfter (disk : Disk) : Call → Fate → Option (File UInt8)
  | .syncDir, .ok => disk.files.live
  | .syncDir, .fail extent => if extent = 0 then disk.durable else disk.files.live
  | _, _ => disk.durable

end Disk

/-- What a power loss has not dropped is there to stay. -/
def Home.settled : Home → Home
  | .missing _ => .missing false
  | _ => .durable

namespace Disk

/-- What a power loss leaves: one of the two files that `btree.dat` may name, and anything
under the name `btree.tmp`. It may drop a directory whose entry was never synced. -/
def powerLoss (disk : Disk) (dropped restore : Bool) (tmp : Option (File UInt8))
    (kept safe : Nat) : Disk :=
  if dropped = true ∧ disk.files.home.loose = true then empty
  else
    let left := (if restore then disk.durable else disk.files.live).map (·.crash kept safe)
    ⟨⟨tmp, left, disk.files.home.settled⟩, left⟩

end Disk

/-- How a call goes: whether entries are written back before it, and how it ends. -/
structure Turn where
  writtenBack : Bool
  fate : Fate

def handleCall (call : Call) (turn : Turn) (disk : Disk) : Bool × Disk :=
  let before := disk.writeBack turn.writtenBack
  ((serve call turn.fate before.files).1,
    ⟨(serve call turn.fate before.files).2, before.durableAfter call turn.fate⟩)

def machine : Device Call (fun _ => Bool) Turn Disk where
  serve := handleCall
  allows := fun _ _ => True

instance (call : Call) (turn : Turn) : Decidable (machine.allows call turn) :=
  inferInstanceAs (Decidable True)

/-! ### The process and its runs -/

inductive Process where
  | down
  | idle (tree : BTree)
  | committing (tree : BTree) (rest : FileProgram (Except Failure Unit))

structure System where
  disk : Disk
  process : Process

inductive Event where
  | update (update : Update)
  | commit
  /-- the commit's next file-system call -/
  | call (turn : Turn)
  | returned (result : Except Failure Unit)
  | die
  | powerLoss (dropped restore : Bool) (tmp : Option (File UInt8)) (kept safe : Nat)
  | reopen (stat : Fate)

def inMemory (tree : BTree) : Bool :=
  match treeDocument tree.root with
  | .ok doc => decide (doc.length < 2 ^ 64)
  | .error _ => true

namespace System

def initial : System := ⟨.empty, .down⟩

def step (sys : System) : Event → Option System
  | .update update =>
      match sys.process with
      | .idle tree => (tree.run [update]).map (fun outcome => ⟨sys.disk, .idle outcome.1⟩)
      | _ => none
  | .commit =>
      match sys.process with
      | .idle tree =>
          if inMemory tree then some ⟨sys.disk, .committing tree (commit tree)⟩ else none
      | _ => none
  | .call turn =>
      match sys.process with
      | .committing tree rest =>
          (rest.step machine turn sys.disk).map (fun next => ⟨next.2, .committing tree next.1⟩)
      | _ => none
  | .returned result =>
      match sys.process with
      | .committing tree (.done actual) =>
          if actual = result then some ⟨sys.disk, .idle tree⟩ else none
      | _ => none
  | .die => some ⟨sys.disk, .down⟩
  | .powerLoss dropped restore tmp kept safe =>
      some ⟨sys.disk.powerLoss dropped restore tmp kept safe, .down⟩
  | .reopen stat =>
      match sys.process, openTree stat sys.disk.files with
      | .down, .ok tree => some ⟨sys.disk, .idle tree⟩
      | _, _ => none

/-- Not a probe that fails, nor a call that fails between making a directory and syncing the
one above it: the next commit finds the new directory there and leaves it at that. -/
def careful (sys : System) : Event → Bool
  | .reopen stat => decide (stat = .ok)
  | .call turn =>
      match sys.process with
      | .committing _ (.call .createDir _) =>
          !decide (sys.disk.files.home = .missing false ∧ turn.fate ∈ [.fail 1, .fail 2])
      | _ => true
  | _ => true

end System

/-! ### What the directory is for -/

/-- The map of the last commit that returned without an error, those of the commits
begun since then, and the one the process works on. -/
structure Ledger where
  acknowledged : SortedMap Bytes Bytes
  attempted : List (SortedMap Bytes Bytes)
  working : SortedMap Bytes Bytes

namespace Ledger

def initial : Ledger := ⟨.empty, [], .empty⟩

def kept (ledger : Ledger) : List (SortedMap Bytes Bytes) :=
  ledger.acknowledged :: ledger.attempted

inductive Step : Ledger → Event → Ledger → Prop
  | update (ledger : Ledger) (update : Update) :
      Step ledger (.update update) { ledger with working := (mapRun ledger.working [update]).1 }
  | commit (ledger : Ledger) :
      Step ledger .commit { ledger with attempted := ledger.working :: ledger.attempted }
  | call (ledger : Ledger) (turn : Turn) : Step ledger (.call turn) ledger
  | acknowledge (ledger : Ledger) :
      Step ledger (.returned (.ok ()))
        { ledger with acknowledged := ledger.working, attempted := [] }
  | fail (ledger : Ledger) (failure : Failure) : Step ledger (.returned (.error failure)) ledger
  | die (ledger : Ledger) : Step ledger .die ledger
  | powerLoss (ledger : Ledger) (dropped restore : Bool) (tmp : Option (File UInt8))
      (kept safe : Nat) : Step ledger (.powerLoss dropped restore tmp kept safe) ledger
  | reopen {ledger : Ledger} {map : SortedMap Bytes Bytes} (stat : Fate)
      (member : map ∈ ledger.kept) : Step ledger (.reopen stat) { ledger with working := map }

inductive Run : Ledger → List Event → Ledger → Prop
  | nil (ledger : Ledger) : Run ledger [] ledger
  | cons {ledger next final : Ledger} {event : Event} {events : List Event}
      (step : Step ledger event next) (rest : Run next events final) :
      Run ledger (event :: events) final

end Ledger

/-! ### One commit -/

section Both

variable {good : Option (File UInt8) → Prop} {disk : Disk}

/-- Whichever file `btree.dat` names, and will name after a power loss, is good. -/
def Disk.Both (good : Option (File UInt8) → Prop) (disk : Disk) : Prop :=
  good disk.files.live ∧ good disk.durable

theorem Disk.Both.writeBack (both : disk.Both good) (now : Bool) :
    (disk.writeBack now).Both good := by
  cases now with
  | true => exact ⟨both.1, both.1⟩
  | false => exact both

theorem Disk.Both.durableAfter (both : disk.Both good) (call : Call) (fate : Fate) :
    good (disk.durableAfter call fate) := by
  cases call with
  | syncDir =>
      cases fate with
      | ok => exact both.1
      | fail extent =>
          rw [Disk.durableAfter]
          split_ifs
          · exact both.2
          · exact both.1
  | _ => exact both.2

theorem Disk.Both.handleCall (both : disk.Both good) {call : Call} (other : call ≠ .promote)
    (turn : Turn) : (handleCall call turn disk).2.Both good := by
  have before := both.writeBack turn.writtenBack
  refine ⟨?_, before.durableAfter call turn.fate⟩
  have live := serve_live turn.fate (disk.writeBack turn.writtenBack).files other
  exact live ▸ before.1

theorem Disk.Both.powerLoss (both : disk.Both good) (stays : disk.files.home.loose = false)
    {kept safe : Nat} (survives : ∀ file, good file → good (file.map (·.crash kept safe)))
    (dropped restore : Bool) (tmp : Option (File UInt8)) :
    (disk.powerLoss dropped restore tmp kept safe).Both good := by
  rw [Disk.powerLoss, if_neg (fun lost => absurd lost.2 (by simp [stays]))]
  cases restore with
  | true => exact ⟨survives _ both.2, survives _ both.2⟩
  | false => exact ⟨survives _ both.1, survives _ both.1⟩

theorem Disk.home_powerLoss (disk : Disk) (dropped restore : Bool) (tmp : Option (File UInt8))
    (kept safe : Nat) :
    (disk.powerLoss dropped restore tmp kept safe).files.home.loose = false := by
  unfold Disk.powerLoss
  split
  · rfl
  · change disk.files.home.settled.loose = false
    cases disk.files.home <;> rfl

theorem Home.loose_created {home : Home} (settled : home.loose = false) :
    home.created.loose = false := by
  cases home with
  | missing stray =>
      change stray = false at settled
      subst settled
      rfl
  | fresh => cases settled
  | durable => rfl

theorem Home.loose_halfCreated {home : Home} {extent : Nat} (settled : home.loose = false)
    (lucky : ¬ (home = .missing false ∧ Fate.fail extent ∈ [.fail 1, .fail 2])) :
    (home.halfCreated extent).loose = false := by
  cases home with
  | missing stray =>
      change stray = false at settled
      subst settled
      rcases extent with _ | _ | _ | extent
      · rfl
      · exact absurd ⟨rfl, List.mem_cons_self⟩ lucky
      · exact absurd ⟨rfl, List.mem_cons_of_mem _ List.mem_cons_self⟩ lucky
      · rfl
  | fresh => cases settled
  | durable => rfl

/-- A directory is left without a sync only by the call that makes it. -/
theorem home_handleCall {call : Call} {turn : Turn} (stays : disk.files.home.loose = false)
    (careful : call = .createDir →
      ¬ (disk.files.home = .missing false ∧ turn.fate ∈ [.fail 1, .fail 2])) :
    (handleCall call turn disk).2.files.home.loose = false := by
  change (serve call turn.fate disk.files).2.home.loose = false
  cases call with
  | createDir =>
      have lucky := careful rfl
      cases fate : turn.fate with
      | ok => exact Home.loose_created stays
      | fail extent =>
          rw [fate] at lucky
          exact Home.loose_halfCreated stays lucky
  | promote =>
      have kept : disk.files.promoted.home = disk.files.home := by
        unfold TreeFiles.promoted
        split <;> rfl
      cases turn.fate with
      | ok => exact kept ▸ stays
      | fail extent =>
          rw [serve]
          split_ifs
          · exact stays
          · exact kept ▸ stays
  | createTmp =>
      cases turn.fate with
      | ok => exact stays
      | fail extent =>
          rw [serve]
          split_ifs
          · exact stays
          · exact stays
  | write | syncTmp | syncDir => cases turn.fate <;> exact stays

def Renewed (doc : Bytes) (result : Except Failure Unit) (disk : Disk) : Prop :=
  result = .ok () → disk.Both (· = some (File.settled doc))

variable {doc : Bytes}

theorem attempt_both {call : Call} {next : FileProgram (Except Failure Unit)}
    (now : disk.Both good)
    (failed : ∀ writtenBack extent, (handleCall call ⟨writtenBack, .fail extent⟩ disk).2.Both good)
    (served : ∀ writtenBack, next.Spec machine (Disk.Both good) (Renewed doc)
      (handleCall call ⟨writtenBack, .ok⟩ disk).2) :
    (attempt call next).Spec machine (Disk.Both good) (Renewed doc) disk := by
  refine Program.spec_request_bind.mpr ⟨now, fun turn _ => ?_⟩
  obtain ⟨writtenBack, fate⟩ := turn
  change Program.Spec machine (Disk.Both good) (Renewed doc)
    (if (serve call fate disk.files).1 = true then next else return .error .os)
    (handleCall call ⟨writtenBack, fate⟩ disk).2
  split_ifs with worked
  · rw [serve_of_true worked]
    exact served writtenBack
  · refine ⟨?_, fun impossible => (by cases impossible)⟩
    cases fate with
    | ok => exact (served writtenBack).now
    | fail extent => exact failed writtenBack extent

theorem attempt_both_of_ne {call : Call} {next : FileProgram (Except Failure Unit)}
    (other : call ≠ .promote) (now : disk.Both good)
    (served : ∀ writtenBack, (handleCall call ⟨writtenBack, .ok⟩ disk).2.Both good →
      next.Spec machine (Disk.Both good) (Renewed doc)
        (handleCall call ⟨writtenBack, .ok⟩ disk).2) :
    (attempt call next).Spec machine (Disk.Both good) (Renewed doc) disk :=
  attempt_both now (fun _ _ => now.handleCall other _)
    (fun writtenBack => served writtenBack (now.handleCall other _))

theorem publish_both (new : good (some (File.settled doc)))
    (draft : disk.files.tmp = some (File.settled doc)) (now : disk.Both good) :
    (attempt .promote <| attempt .syncDir <| return .ok ()).Spec machine (Disk.Both good)
      (Renewed doc) disk := by
  have renamed : disk.files.promoted = ⟨none, some (File.settled doc), disk.files.home⟩ := by
    rw [TreeFiles.promoted, draft]
  refine attempt_both now (fun writtenBack extent => ?_) (fun writtenBack => ?_)
  · have kept := (now.writeBack writtenBack).2
    refine ⟨?_, kept⟩
    change good (if extent = 0 then disk.files else disk.files.promoted).live
    split_ifs
    · exact now.1
    · rw [renamed]
      exact new
  · have served : (handleCall .promote ⟨writtenBack, .ok⟩ disk).2 =
        ⟨⟨none, some (File.settled doc), disk.files.home⟩,
          (disk.writeBack writtenBack).durable⟩ := by
      rw [← renamed]
      rfl
    rw [served]
    refine attempt_both_of_ne (by simp) ⟨new, (now.writeBack writtenBack).2⟩ ?_
    intro again both
    exact ⟨both, fun _ => ⟨rfl, rfl⟩⟩

/-- Wherever a commit stops, both names are good if they were and the new document is. -/
theorem commitDocument_both (new : good (some (File.settled doc))) (now : disk.Both good) :
    (commitDocument doc).Spec machine (Disk.Both good) (Renewed doc) disk := by
  refine attempt_both_of_ne (by simp) now (fun _ now => ?_)
  refine attempt_both_of_ne (by simp) now (fun _ now => ?_)
  refine attempt_both_of_ne (by simp) now (fun _ now => ?_)
  refine attempt_both_of_ne (by simp) now (fun _ now => ?_)
  exact publish_both new rfl now

end Both

/-! ### Trees on the disk -/

theorem Filled.depth_le {least height : Nat} {node : Node} (filled : Filled least height node) :
    depth node ≤ height := by
  induction filled with
  | leaf => exact Nat.zero_le _
  | @internal least height keys children lengths enough fits below ih =>
      rw [depth]
      refine Nat.succ_le_succ ?_
      clear lengths enough fits below
      induction children with
      | nil => exact Nat.zero_le _
      | cons child rest inner =>
          rw [List.forall_mem_cons] at ih
          rw [depthAll]
          exact Nat.max_le.mpr ⟨ih.1, inner ih.2⟩

/-- A tree with the entries of a map, after at most `added` inserts of new keys. -/
structure Reached (added : Nat) (map : SortedMap Bytes Bytes) (tree : BTree) : Prop where
  represents : Represents map tree
  spread : ∃ height, Spread added height tree

namespace Reached

variable {added more : Nat} {map : SortedMap Bytes Bytes} {tree : BTree}

theorem new : Reached 0 .empty BTree.new := ⟨.new, 0, .new⟩

theorem mono (reaches : Reached added map tree) (atMost : added ≤ more) :
    Reached more map tree := by
  obtain ⟨represents, height, spread⟩ := reaches
  exact ⟨represents, height, spread.mono atMost⟩

theorem update (reaches : Reached added map tree) (update : Update) :
    ∃ after replies, tree.run [update] = some (after, replies) ∧
      Reached (added + 1) (mapRun map [update]).1 after := by
  obtain ⟨represents, height, spread⟩ := reaches
  obtain ⟨after, replies, taller, ran, holds, wider⟩ := spread.run represents [update]
  have one : addedKeys map [update] ≤ 1 := by
    cases update with
    | insert key value =>
        rw [addedKeys, addedKeys]
        split_ifs
        · exact Nat.zero_le 1
        · exact Nat.le_refl 1
    | delete key => exact Nat.zero_le 1
  exact ⟨after, replies, ran, holds, taller, wider.mono (Nat.add_le_add_left one added)⟩

/-- Fewer than `2 ^ 64` inserts make no tree that nests too deep to be loaded again. -/
theorem opens (reaches : Reached added map tree) (few : added < 2 ^ 64) {doc : Bytes}
    (written : treeDocument tree.root = .ok doc) (fits : doc.length < 2 ^ 64) :
    openDocument doc = .ok tree := by
  obtain ⟨represents, height, spread⟩ := reaches
  have shallow : height ≤ maxDepth := by
    by_contra deep
    unfold maxDepth at deep
    obtain ⟨below, rfl⟩ := Nat.exists_eq_add_of_le' (by omega : 1 ≤ height)
    have leaves := le_trans spread.filled.root_leafCount_ge (spread.leaves (Nat.succ_pos below))
    have power : 3 ^ 64 ≤ 3 ^ below := Nat.pow_le_pow_right (by decide) (by omega)
    omega
  obtain ⟨page, isPage, result⟩ := bind_eq_ok_iff.mp written
  cases result
  rw [length_envelope] at fits
  have loadable := (spread.filled.shaped (Nat.le_refl 2)).loadable
    (le_trans spread.filled.depth_le shallow) isPage (by omega)
  refine openDocument_eq_ok_iff.mpr ⟨loadable, written, ?_⟩
  rw [count_eq_length, represents.entries, represents.len]
  rfl

end Reached

/-- The file is where a tree is stored: none for a new tree, else its settled document. -/
inductive Stored (tree : BTree) : Option (File UInt8) → Prop
  | absent (fresh : tree = BTree.new) : Stored tree none
  | document {doc : Bytes} (opened : openDocument doc = .ok tree) :
      Stored tree (some (File.settled doc))

theorem Stored.openTree_eq {tree : BTree} {files : TreeFiles} (stored : Stored tree files.live) :
    openTree .ok files = .ok tree := by
  obtain ⟨tmp, live, home⟩ := files
  cases stored with
  | absent fresh => rw [fresh]; rfl
  | document opened => exact (openTree_settled rfl).trans opened

def Holds (added : Nat) (maps : List (SortedMap Bytes Bytes)) (file : Option (File UInt8)) : Prop :=
  ∃ map ∈ maps, ∃ tree, Reached added map tree ∧ Stored tree file

namespace Holds

variable {added more : Nat} {maps others : List (SortedMap Bytes Bytes)}
  {file : Option (File UInt8)}

theorem mono (holds : Holds added maps file) (atMost : added ≤ more) (listed : maps ⊆ others) :
    Holds more others file := by
  obtain ⟨map, member, tree, reaches, stored⟩ := holds
  exact ⟨map, listed member, tree, reaches.mono atMost, stored⟩

theorem crash (holds : Holds added maps file) (kept safe : Nat) :
    Holds added maps (file.map (·.crash kept safe)) := by
  obtain ⟨map, member, tree, reaches, stored⟩ := holds
  refine ⟨map, member, tree, reaches, ?_⟩
  cases stored with
  | absent fresh => exact .absent fresh
  | document opened =>
      rw [Option.map_some, File.crash_settled]
      exact .document opened

end Holds

theorem Disk.Both.holds_mono {added more : Nat} {maps others : List (SortedMap Bytes Bytes)}
    {disk : Disk} (both : disk.Both (Holds added maps)) (atMost : added ≤ more)
    (listed : maps ⊆ others) : disk.Both (Holds more others) :=
  ⟨both.1.mono atMost listed, both.2.mono atMost listed⟩

def Committed (added : Nat) (map : SortedMap Bytes Bytes) (result : Except Failure Unit)
    (disk : Disk) : Prop :=
  result = .ok () → disk.Both (Holds added [map])

theorem Reached.commit_spec {added : Nat} {map : SortedMap Bytes Bytes} {tree : BTree}
    (reaches : Reached added map tree) (few : added < 2 ^ 64) (fits : inMemory tree = true)
    {maps : List (SortedMap Bytes Bytes)} {disk : Disk} (now : disk.Both (Holds added maps))
    (member : map ∈ maps) :
    (commit tree).Spec machine (Disk.Both (Holds added maps)) (Committed added map) disk := by
  unfold inMemory at fits
  unfold commit
  cases written : treeDocument tree.root with
  | error failure => exact ⟨now, fun impossible => (by cases impossible)⟩
  | ok doc =>
      rw [written] at fits
      have stored : Stored tree (some (File.settled doc)) :=
        .document (reaches.opens few written (of_decide_eq_true fits))
      refine (commitDocument_both ⟨map, member, tree, reaches, stored⟩ now).mono
        (fun _ both => both) ?_
      intro result final _ renewed finished
      obtain ⟨live, durable⟩ := renewed finished
      have only : Holds added [map] (some (File.settled doc)) :=
        ⟨map, List.mem_singleton_self map, tree, reaches, stored⟩
      exact ⟨live ▸ only, durable ▸ only⟩

/-! ### Runs -/

/-- The process works on the ledger's map, and what is left of a commit keeps to it. -/
inductive Process.Serves (added : Nat) (ledger : Ledger) (disk : Disk) : Process → Prop
  | down : Serves added ledger disk .down
  | idle {tree : BTree} (reaches : Reached added ledger.working tree) :
      Serves added ledger disk (.idle tree)
  | committing {tree : BTree} {rest : FileProgram (Except Failure Unit)}
      (reaches : Reached added ledger.working tree)
      (spec : rest.Spec machine (Disk.Both (Holds added ledger.kept))
        (Committed added ledger.working) disk) :
      Serves added ledger disk (.committing tree rest)

structure Tracks (added : Nat) (ledger : Ledger) (sys : System) : Prop where
  disk : sys.disk.Both (Holds added ledger.kept)
  stays : sys.disk.files.home.loose = false
  process : sys.process.Serves added ledger sys.disk

namespace Tracks

variable {added more : Nat} {ledger : Ledger} {sys next : System}

theorem initial : Tracks 0 .initial .initial where
  disk := by
    have holds : Holds 0 Ledger.initial.kept none :=
      ⟨.empty, List.mem_cons_self, BTree.new, .new, .absent rfl⟩
    exact ⟨holds, holds⟩
  stays := rfl
  process := .down

theorem mono (tracks : Tracks added ledger sys) (atMost : added ≤ more) :
    Tracks more ledger sys := by
  obtain ⟨disk, process⟩ := sys
  obtain ⟨both, stays, serves⟩ := tracks
  refine ⟨both.holds_mono atMost (List.Subset.refl _), stays, ?_⟩
  cases serves with
  | down => exact .down
  | idle reaches => exact .idle (reaches.mono atMost)
  | committing reaches spec =>
      refine .committing (reaches.mono atMost) (spec.mono
        (fun _ holds => holds.holds_mono atMost (List.Subset.refl _)) ?_)
      intro result final _ committed finished
      exact (committed finished).holds_mono atMost (List.Subset.refl _)

theorem step {event : Event} (tracks : Tracks added ledger sys) (few : added < 2 ^ 64)
    (careful : sys.careful event = true) (stepped : sys.step event = some next) :
    ∃ after, Ledger.Step ledger event after ∧ Tracks (added + 1) after next := by
  have wide := tracks.mono (Nat.le_succ added)
  obtain ⟨disk, process⟩ := sys
  obtain ⟨both, stays, serves⟩ := tracks
  cases event with
  | update update =>
      cases serves with
      | down => cases stepped
      | committing => cases stepped
      | idle reaches =>
          obtain ⟨tree, replies, ran, larger⟩ := reaches.update update
          simp only [System.step, ran, Option.map_some, Option.some.injEq] at stepped
          subst stepped
          exact ⟨_, .update ledger update, wide.disk, stays, .idle larger⟩
  | commit =>
      cases serves with
      | down => cases stepped
      | committing => cases stepped
      | @idle tree reaches =>
          rw [System.step, Option.ite_none_right_eq_some] at stepped
          obtain ⟨fits, same⟩ := stepped
          cases same
          refine ⟨_, .commit ledger, ?_⟩
          have listed : ledger.kept ⊆
              ({ ledger with attempted := ledger.working :: ledger.attempted } : Ledger).kept :=
            List.cons_subset_cons _ (List.subset_cons_self _ _)
          have now := both.holds_mono (Nat.le_refl added) listed
          have spec := reaches.commit_spec few fits now
            (List.mem_cons_of_mem _ List.mem_cons_self)
          exact Tracks.mono ⟨now, stays, .committing reaches spec⟩ (Nat.le_succ added)
  | call turn =>
      cases serves with
      | down => cases stepped
      | idle => cases stepped
      | @committing tree rest reaches spec =>
          obtain ⟨⟨left, reached⟩, moved, same⟩ := Option.map_eq_some_iff.mp stepped
          cases same
          have later := spec.step moved
          obtain ⟨call, _, rfl, outcome⟩ := Program.step_eq_some moved
          have kept : reached.files.home.loose = false := by
            rw [show reached = (handleCall call turn disk).2 from congrArg Prod.snd outcome]
            refine home_handleCall stays ?_
            rintro rfl both
            simp [System.careful, both] at careful
          exact ⟨ledger, .call ledger turn,
            Tracks.mono ⟨later.now, kept, .committing reaches later⟩ (Nat.le_succ added)⟩
  | returned result =>
      cases serves with
      | down => cases stepped
      | idle => cases stepped
      | @committing tree rest reaches spec =>
          cases rest with
          | call => cases stepped
          | done actual =>
              rw [System.step, Option.ite_none_right_eq_some] at stepped
              obtain ⟨rfl, same⟩ := stepped
              cases same
              cases actual with
              | error failure =>
                  exact ⟨ledger, .fail ledger failure,
                    Tracks.mono ⟨both, stays, .idle reaches⟩ (Nat.le_succ added)⟩
              | ok =>
                  exact ⟨_, .acknowledge ledger,
                    Tracks.mono ⟨spec.2 rfl, stays, .idle reaches⟩ (Nat.le_succ added)⟩
  | die =>
      cases stepped
      exact ⟨ledger, .die ledger, wide.disk, stays, .down⟩
  | powerLoss dropped restore tmp kept safe =>
      cases stepped
      exact ⟨ledger, .powerLoss ledger dropped restore tmp kept safe,
        wide.disk.powerLoss stays (fun _ holds => holds.crash kept safe) dropped restore tmp,
        disk.home_powerLoss dropped restore tmp kept safe, .down⟩
  | reopen stat =>
      cases serves with
      | idle => cases stepped
      | committing => cases stepped
      | down =>
          obtain ⟨map, member, tree, reaches, stored⟩ := wide.disk.1
          cases of_decide_eq_true careful
          rw [System.step, stored.openTree_eq] at stepped
          cases stepped
          exact ⟨_, .reopen .ok member, wide.disk, stays, .idle reaches⟩

theorem run {events : List Event} (tracks : Tracks added ledger sys)
    (few : added + events.length ≤ 2 ^ 64)
    (careful : ∀ taken ∈ runTrace System.step sys events, taken.1.careful taken.2 = true)
    (ran : runSteps System.step sys events = some next) :
    ∃ final, Ledger.Run ledger events final ∧ Tracks (added + events.length) final next := by
  induction events generalizing added ledger sys with
  | nil =>
      cases ran
      exact ⟨ledger, .nil ledger, tracks⟩
  | cons event events ih =>
      rw [List.length_cons] at few ⊢
      obtain ⟨middle, stepped, rest⟩ := runSteps_cons_eq_some.mp ran
      rw [runTrace, stepped, List.forall_mem_cons] at careful
      obtain ⟨after, first, kept⟩ := tracks.step (by omega) careful.1 stepped
      obtain ⟨final, later, reached⟩ := ih kept (by omega) careful.2 rest
      rw [Nat.add_right_comm, Nat.add_assoc added] at reached
      exact ⟨final, .cons first later, reached⟩

end Tracks

/-- Every run, with any failures, deaths and power losses in it, in which no call leaves the
directory made and not synced and no probe of an open fails, is one the ledger allows: an idle
process answers from the working map, and now or after a power loss the directory opens with
the last acknowledged map or one of a commit begun since. -/
theorem directory_follows_ledger {events : List Event} {sys : System}
    (few : events.length ≤ 2 ^ 64)
    (careful : ∀ taken ∈ runTrace System.step .initial events, taken.1.careful taken.2 = true)
    (ran : runSteps System.step .initial events = some sys) :
    ∃ ledger, Ledger.Run .initial events ledger ∧
      (∀ tree, sys.process = .idle tree → Represents ledger.working tree) ∧
      (∃ map ∈ ledger.kept, ∃ tree, openTree .ok sys.disk.files = .ok tree ∧
        Represents map tree) ∧
      ∀ dropped restore tmp kept safe, ∃ map ∈ ledger.kept, ∃ tree,
        openTree .ok (sys.disk.powerLoss dropped restore tmp kept safe).files = .ok tree ∧
          Represents map tree := by
  obtain ⟨ledger, allowed, both, stays, serves⟩ := Tracks.initial.run (by omega) careful ran
  refine ⟨ledger, allowed, ?_, ?_, fun dropped restore tmp kept safe => ?_⟩
  · intro tree isIdle
    rw [isIdle] at serves
    cases serves with
    | idle reaches => exact reaches.represents
  · obtain ⟨map, member, tree, reaches, stored⟩ := both.1
    exact ⟨map, member, tree, stored.openTree_eq, reaches.represents⟩
  · obtain ⟨map, member, tree, reaches, stored⟩ :=
      (both.powerLoss stays (fun _ holds => holds.crash kept safe) dropped restore tmp).1
    exact ⟨map, member, tree, stored.openTree_eq, reaches.represents⟩

def wholeCommit : List Event :=
  [.commit] ++ List.replicate 6 (.call ⟨false, .ok⟩) ++ [.returned (.ok ())]

/-- A second commit fails at the sync of the directory, and the power fails after it. -/
def renameUndone : List Event :=
  [.reopen .ok, .update (.insert [7] [8])] ++ wholeCommit ++ [.update (.insert [9] [9]), .commit] ++
    List.replicate 5 (.call ⟨false, .ok⟩) ++ [.call ⟨false, .fail 0⟩, .returned (.error .os),
    .powerLoss true true none 0 0, .reopen .ok]

theorem directory_follows_ledger_renameUndone :
    ∃ sys ledger, runSteps System.step .initial renameUndone = some sys ∧
      Ledger.Run .initial renameUndone ledger ∧ ∃ map ∈ ledger.kept,
        openTree .ok sys.disk.files = .ok { root := .leaf [([7], [8])], len := 1 } ∧
        Represents map { root := .leaf [([7], [8])], len := 1 } := by
  have document : treeDocument (.leaf [([7], [8])]) =
      .ok (envelope (envelope [0, 1, 0, 0, 0, 1, 0, 0, 0, 7, 1, 0, 0, 0, 8])) := rfl
  have left : (runSteps System.step .initial renameUndone).map (·.disk.files.live) =
      some (some (File.settled
        (envelope (envelope [0, 1, 0, 0, 0, 1, 0, 0, 0, 7, 1, 0, 0, 0, 8])))) := by
    decide +kernel
  have careful : (runTrace System.step .initial renameUndone).all
      (fun taken => taken.1.careful taken.2) = true := by
    decide +kernel
  obtain ⟨sys, ran, live⟩ := Option.map_eq_some_iff.mp left
  have stored : Stored { root := .leaf [([7], [8])], len := 1 } sys.disk.files.live := by
    rw [live]
    exact .document (openDocument_eq_ok_iff.mpr ⟨trivial, document, rfl⟩)
  obtain ⟨ledger, allowed, _, ⟨map, member, tree, opens, represents⟩, _⟩ :=
    directory_follows_ledger (by decide) (List.all_eq_true.mp careful) ran
  rw [stored.openTree_eq] at opens
  cases opens
  exact ⟨sys, ledger, ran, allowed, map, member, stored.openTree_eq, represents⟩

-- the condition is needed: a commit fails having made the directory, the next one is
-- acknowledged, and the power loss takes it with the directory
example : (runSteps System.step .initial
    ([.reopen .ok, .update (.insert [7] [8]), .commit, .call ⟨false, .fail 1⟩,
      .returned (.error .os)] ++ wholeCommit ++ [.powerLoss true true none 0 0])).map
      (fun sys => openTree .ok sys.disk.files) = some (.ok BTree.new) := rfl

end Keystory.BTreeStore
