/-
Committing a tree to `btree.dat` and loading it back.

A tree that inserts and deletes can reach is written unless a key, a separator or a
value is too long for its 32-bit length field, and then nothing is touched. A separator
may be too long although no key is: it outlives the key it was made from.
-/

import Keystory.General.File
import Keystory.General.Program
import Keystory.BTree.Document

namespace Keystory.BTreeStore

open General

/-! ### The file protocol -/

/-- The directory of a tree: not there, there by an entry (its own, or that of one above it)
that was never synced, or there to stay. Also above a missing one there may be a directory,
a `stray` one, that was made and never synced. -/
inductive Home where
  | missing (stray : Bool)
  | fresh
  | durable
deriving DecidableEq

/-- Some entry on the way to the directory was never synced. -/
def Home.loose : Home → Bool
  | .missing stray => stray
  | .fresh => true
  | .durable => false

/-- `create_dir_all_durably`: only what it creates itself is synced. -/
def Home.created : Home → Home
  | .missing stray => if stray then .fresh else .durable
  | home => home

/-- What it leaves when it fails: nothing, all directories but not all synced, only some of
those above, or all that it makes when it succeeds. -/
def Home.halfCreated : Home → Nat → Home
  | .missing stray, 0 => .missing stray
  | .missing _, 1 => .fresh
  | .missing _, 2 => .missing true
  | home, _ => home.created

/-- The directory and the files by their names: `btree.tmp` and `btree.dat`. -/
structure TreeFiles where
  tmp : Option (File UInt8)
  live : Option (File UInt8)
  home : Home
deriving DecidableEq

inductive Call where
  /-- create the directory, and sync those that hold a new one -/
  | createDir
  /-- open `btree.tmp` for writing, created or truncated -/
  | createTmp
  | write (data : Bytes)
  | syncTmp
  /-- rename `btree.tmp` to `btree.dat` -/
  | promote
  | syncDir

def TreeFiles.promoted (files : TreeFiles) : TreeFiles :=
  match files.tmp with
  | none => files
  | some file => { files with tmp := none, live := some file }

/-- A failed write leaves some of its bytes, a failed sync makes some safe; a failed
rename or create has had no effect, or all of it. -/
def serve : Call → Fate → TreeFiles → Bool × TreeFiles
  | .createDir, .ok, files => (true, { files with home := files.home.created })
  | .createDir, .fail extent, files =>
      (false, { files with home := files.home.halfCreated extent })
  | .createTmp, .ok, files => (true, { files with tmp := some .empty })
  | .createTmp, .fail extent, files =>
      (false, if extent = 0 then files else { files with tmp := some .empty })
  | .write data, .ok, files => (true, { files with tmp := files.tmp.map (·.append data) })
  | .write data, .fail extent, files =>
      (false, { files with tmp := files.tmp.map (·.append (data.take extent)) })
  | .syncTmp, .ok, files => (true, { files with tmp := files.tmp.map (·.sync) })
  | .syncTmp, .fail extent, files => (false, { files with tmp := files.tmp.map (·.harden extent) })
  | .promote, .ok, files => (files.tmp.isSome, files.promoted)
  | .promote, .fail extent, files => (false, if extent = 0 then files else files.promoted)
  | .syncDir, .ok, files => (true, files)
  | .syncDir, .fail _, files => (false, files)

def directory : Device Call (fun _ => Bool) Fate TreeFiles where
  serve := serve
  allows := fun _ _ => True

abbrev FileProgram := Program Call (fun _ => Bool)

/-- A call whose failure ends the program. -/
def attempt (call : Call) (next : FileProgram (Except Failure Unit)) :
    FileProgram (Except Failure Unit) := do
  if ← Program.request call then next else return .error .os

def commitDocument (doc : Bytes) : FileProgram (Except Failure Unit) :=
  attempt .createDir <| attempt .createTmp <| attempt (.write doc) <| attempt .syncTmp <|
    attempt .promote <| attempt .syncDir <| return .ok ()

def commit (tree : BTree) : FileProgram (Except Failure Unit) :=
  match treeDocument tree.root with
  | .error failure => return .error failure
  | .ok doc => commitDocument doc

/-- `open`, with the fate of the call behind `live.exists()`: a file that cannot be asked
after is taken for absent. -/
def openTree (stat : Fate) (files : TreeFiles) : Except Failure BTree :=
  match stat, files.live with
  | .ok, some file => openDocument file.bytes
  | .ok, none => .ok BTree.new
  | .fail _, _ => .ok BTree.new

theorem openTree_settled {files : TreeFiles} {doc : Bytes}
    (live : files.live = some (File.settled doc)) : openTree .ok files = openDocument doc := by
  simp only [openTree, live, File.bytes_settled]

theorem serve_live {call : Call} (fate : Fate) (files : TreeFiles) (other : call ≠ .promote) :
    (serve call fate files).2.live = files.live := by
  cases call with
  | promote => exact absurd rfl other
  | createTmp =>
      cases fate with
      | ok => rfl
      | fail extent =>
          rw [serve]
          split_ifs
          · rfl
          · rfl
  | createDir => cases fate <;> rfl
  | write => cases fate <;> rfl
  | syncTmp => cases fate <;> rfl
  | syncDir => cases fate <;> rfl

theorem serve_of_true {call : Call} {fate : Fate} {files : TreeFiles}
    (worked : (serve call fate files).1 = true) : fate = .ok := by
  cases fate with
  | ok => rfl
  | fail extent => cases call <;> cases worked

theorem commitDocument_exec (doc : Bytes) (files : TreeFiles) :
    (commitDocument doc).exec directory .ok files =
      (.ok (), ⟨none, some (File.settled doc), files.home.created⟩) :=
  rfl

/-! ### Which trees are written -/

/-- Every key, separator and value has a length that 32 bits can hold. -/
inductive Short : Node → Prop
  | leaf {entries : List Pair}
      (entriesShort : ∀ entry ∈ entries, entry.1.length < 2 ^ 32 ∧ entry.2.length < 2 ^ 32) :
      Short (.leaf entries)
  | internal {keys : List Bytes} {children : List Node}
      (keysShort : ∀ key ∈ keys, key.length < 2 ^ 32)
      (below : ∀ child ∈ children, Short child) : Short (.internal keys children)

def Decides (good : Prop) (result : Except Failure Bytes) : Prop :=
  (good ∧ ∃ bytes, result = .ok bytes) ∨
    (¬ good ∧ ∃ len, 2 ^ 32 ≤ len ∧ result = .error (framing len))

theorem Decides.congr {good other : Prop} {result : Except Failure Bytes}
    (decides : Decides good result) (same : good ↔ other) : Decides other result := by
  rw [← same]
  exact decides

theorem Decides.bind {good also : Prop} {first : Except Failure Bytes}
    {next : Bytes → Except Failure Bytes} (decides : Decides good first)
    (later : ∀ bytes, Decides also (next bytes)) : Decides (good ∧ also) (first >>= next) := by
  rcases decides with ⟨holds, bytes, rfl⟩ | ⟨fails, len, long, rfl⟩
  · exact (later bytes).congr (and_iff_right holds).symm
  · exact .inr ⟨fun both => fails both.1, len, long, rfl⟩

theorem decides_pure (bytes : Bytes) : Decides True (pure bytes) := .inl ⟨trivial, bytes, rfl⟩

theorem Decides.map {good : Prop} {first : Except Failure Bytes} (decides : Decides good first)
    (change : Bytes → Bytes) : Decides good (first >>= fun bytes => pure (change bytes)) :=
  (decides.bind (fun bytes => decides_pure (change bytes))).congr (by rw [and_true])

theorem decides_len32 (len : Nat) : Decides (len < 2 ^ 32) (len32 len) := by
  unfold len32
  split_ifs with fits
  · exact .inl ⟨by omega, _, rfl⟩
  · exact .inr ⟨by omega, len, by omega, rfl⟩

theorem decides_writeField (chunk : Bytes) :
    Decides (chunk.length < 2 ^ 32) (writeField chunk) :=
  (decides_len32 chunk.length).map (· ++ chunk)

theorem decides_writeEntry (entry : Pair) :
    Decides (entry.1.length < 2 ^ 32 ∧ entry.2.length < 2 ^ 32) (writeEntry entry) :=
  (decides_writeField entry.1).bind (fun key => (decides_writeField entry.2).map (key ++ ·))

theorem decides_writeMany {Item : Type} {write : Item → Except Failure Bytes} {good : Item → Prop}
    {items : List Item} (each : ∀ item ∈ items, Decides (good item) (write item)) :
    Decides (∀ item ∈ items, good item) (writeMany write items) := by
  induction items with
  | nil => exact (decides_pure []).congr (by simp)
  | cons item rest ih =>
      rw [List.forall_mem_cons] at each
      refine Decides.congr (each.1.bind (fun bytes => (ih each.2).map (bytes ++ ·))) ?_
      rw [List.forall_mem_cons]

theorem short_leaf_iff {entries : List Pair} :
    Short (.leaf entries) ↔
      ∀ entry ∈ entries, entry.1.length < 2 ^ 32 ∧ entry.2.length < 2 ^ 32 := by
  constructor
  · intro short
    cases short with
    | leaf entriesShort => exact entriesShort
  · exact .leaf

theorem short_internal_iff {keys : List Bytes} {children : List Node} :
    Short (.internal keys children) ↔
      (∀ key ∈ keys, key.length < 2 ^ 32) ∧ ∀ child ∈ children, Short child := by
  constructor
  · intro short
    cases short with
    | internal keysShort below => exact ⟨keysShort, below⟩
  · rintro ⟨keysShort, below⟩
    exact .internal keysShort below

theorem Filled.decides {least height : Nat} {node : Node} (filled : Filled least height node) :
    Decides (Short node) (nodePage node) := by
  induction filled with
  | @leaf least entries fits =>
      unfold order at fits
      rw [nodePage, nodeBody, short_leaf_iff]
      have fields := decides_writeMany (fun entry (_ : entry ∈ entries) => decides_writeEntry entry)
      refine Decides.congr (Decides.map ((decides_len32 entries.length).bind
        (fun entryCount => fields.map (fun bytes => 0 :: (entryCount ++ bytes)))) envelope) ?_
      exact and_iff_right (by omega)
  | @internal least height keys children lengths enough fits below ih =>
      unfold order at fits
      rw [nodePage, nodeBody, childPages_eq, short_internal_iff]
      have fields := decides_writeMany (fun key (_ : key ∈ keys) => decides_writeField key)
      have pages := decides_writeMany (fun child member =>
        (ih child member).map (fun page => toLe 8 page.length ++ page))
      refine Decides.congr (Decides.map ((decides_len32 keys.length).bind (fun keyCount =>
        fields.bind (fun keyFields => (decides_len32 children.length).bind (fun childCount =>
          pages.map (fun below => 1 :: (keyCount ++ (keyFields ++ (childCount ++ below))))))))
        envelope) ?_
      rw [and_iff_right (by omega : keys.length < 2 ^ 32),
        and_iff_right (by omega : children.length < 2 ^ 32)]

/-! ### Reading back what was written -/

mutual

def depth (node : Node) : Nat :=
  match node with
  | .leaf _ => 0
  | .internal _ children => depthAll children + 1

def depthAll (children : List Node) : Nat :=
  match children with
  | [] => 0
  | child :: rest => max (depth child) (depthAll rest)

end

theorem depth_le_depthAll {children : List Node} :
    ∀ child ∈ children, depth child ≤ depthAll children := by
  induction children with
  | nil => exact fun _ impossible => absurd impossible List.not_mem_nil
  | cons first rest ih =>
      rw [List.forall_mem_cons, depthAll]
      exact ⟨Nat.le_max_left _ _, fun child member => le_trans (ih child member)
        (Nat.le_max_right _ _)⟩

theorem exists_field_of_mem {Item : Type} {write : Item → Except Failure Bytes}
    {items : List Item} {bytes : Bytes} (written : writeMany write items = .ok bytes) :
    ∀ item ∈ items, ∃ field, write item = .ok field ∧ field.length ≤ bytes.length := by
  induction items generalizing bytes with
  | nil => exact fun _ impossible => absurd impossible List.not_mem_nil
  | cons first rest ih =>
      obtain ⟨field, writtenFirst, later⟩ := bind_eq_ok_iff.mp written
      obtain ⟨fields, writtenRest, result⟩ := bind_eq_ok_iff.mp later
      cases result
      rw [List.forall_mem_cons, List.length_append]
      refine ⟨⟨field, writtenFirst, Nat.le_add_right _ _⟩, fun item member => ?_⟩
      obtain ⟨own, writtenItem, short⟩ := ih writtenRest item member
      exact ⟨own, writtenItem, le_trans short (Nat.le_add_left _ _)⟩

/-- A written tree that is not too deep is loadable: a page is longer than those in it. -/
theorem Shaped.loadable {node : Node} (shaped : Shaped node) {levels : Nat}
    (shallow : depth node ≤ levels) {page : Bytes} (written : nodePage node = .ok page)
    (bound : page.length < 256 ^ 8) : Loadable (levels + 1) node := by
  induction shaped generalizing levels page with
  | leaf => exact trivial
  | @internal keys children separated lengths below ih =>
      rw [depth] at shallow
      obtain ⟨levels, rfl⟩ := Nat.exists_eq_add_of_le' (le_trans (Nat.le_add_left 1 _) shallow)
      obtain ⟨body, writtenBody, rfl⟩ := nodePage_eq_ok_iff.mp written
      rw [nodeBody] at writtenBody
      obtain ⟨keyCount, _, afterCount⟩ := bind_eq_ok_iff.mp writtenBody
      obtain ⟨fields, _, afterKeys⟩ := bind_eq_ok_iff.mp afterCount
      obtain ⟨childCount, _, afterChildCount⟩ := bind_eq_ok_iff.mp afterKeys
      obtain ⟨pages, writtenPages, result⟩ := bind_eq_ok_iff.mp afterChildCount
      cases result
      rw [length_envelope, List.length_cons, List.length_append, List.length_append,
        List.length_append] at bound
      rw [childPages_eq] at writtenPages
      refine ⟨separated, lengths, fun child member => ?_⟩
      obtain ⟨field, writtenChild, inside⟩ := exists_field_of_mem writtenPages child member
      obtain ⟨childBytes, isPage, result⟩ := bind_eq_ok_iff.mp writtenChild
      cases result
      rw [List.length_append] at inside
      have childBound : childBytes.length < 256 ^ 8 := by omega
      have childDepth := depth_le_depthAll child member
      refine ⟨ih child member (by omega) isPage childBound, fun other isOther => ?_⟩
      rw [isPage] at isOther
      cases isOther
      exact childBound

theorem commit_refused {tree : BTree} {least height : Nat}
    (filled : Filled least height tree.root) (long : ¬ Short tree.root) :
    ∃ len, 2 ^ 32 ≤ len ∧ commit tree = Program.done (.error (framing len)) := by
  rcases filled.decides with ⟨short, _⟩ | ⟨_, len, beyond, refused⟩
  · exact absurd short long
  · refine ⟨len, beyond, ?_⟩
    rw [commit, treeDocument, refused]
    rfl

/-- A tree that inserts and deletes reach, no deeper than a document may nest: if its
keys, separators and values fit their length fields, committing it leaves a document
that loads as the same tree; if one of them is too long, the commit is refused before
the first call. A document in memory is shorter than `2 ^ 64` bytes. -/
theorem commit_round_trips {updates : List Update} {tree : BTree} {replies : List Bool}
    (reached : BTree.new.run updates = some (tree, replies))
    (shallow : depth tree.root ≤ maxDepth) (files : TreeFiles) :
    (Short tree.root → ∃ doc after, treeDocument tree.root = .ok doc ∧
      (commit tree).exec directory .ok files = (.ok (), after) ∧
      after.live = some (File.settled doc) ∧
      (doc.length < 2 ^ 64 → openDocument doc = .ok tree ∧ openTree .ok after = .ok tree)) ∧
    (¬ Short tree.root → ∃ len, 2 ^ 32 ≤ len ∧
      commit tree = Program.done (.error (framing len))) := by
  obtain ⟨final, answers, height, ran, represents, spread⟩ :=
    Spread.new.run Represents.new updates
  rw [reached] at ran
  cases ran
  have counted : tree.len = count tree.root := by
    rw [count_eq_length, represents.entries, represents.len]
    rfl
  refine ⟨fun short => ?_, commit_refused spread.filled⟩
  rcases spread.filled.decides with ⟨_, page, written⟩ | ⟨long, _⟩
  · have document : treeDocument tree.root = .ok (envelope page) := by
      rw [treeDocument, written]
      rfl
    refine ⟨envelope page, ⟨none, some (File.settled (envelope page)), files.home.created⟩,
      document, ?_, rfl, fun bound => ?_⟩
    · rw [commit, document]
      exact commitDocument_exec _ files
    · rw [length_envelope] at bound
      have loadable := (spread.filled.shaped (Nat.le_refl 2)).loadable shallow written (by omega)
      have opened := openDocument_eq_ok_iff.mpr ⟨loadable, document, counted⟩
      exact ⟨opened, (openTree_settled rfl).trans opened⟩
  · exact absurd short long

def emptiedLeaf : BTree :=
  { root := .internal [[2]] [.leaf [], .leaf [([2], [9]), ([3], [9]), ([4], [9])]], len := 3 }

theorem commit_round_trips_emptied_leaf :
    ∃ doc after, (commit emptiedLeaf).exec directory .ok ⟨none, none, .missing false⟩ = (.ok (), after) ∧
      after.live = some (File.settled doc) ∧ openDocument doc = .ok emptiedLeaf ∧
      openTree .ok after = .ok emptiedLeaf := by
  have reached : BTree.new.run [.insert [0] [9], .insert [1] [9], .insert [2] [9],
      .insert [3] [9], .insert [4] [9], .delete [0], .delete [1]] =
      some (emptiedLeaf, [true, true]) := rfl
  have short : Short emptiedLeaf.root := by
    refine .internal (by decide) ?_
    simp only [List.mem_cons, List.not_mem_nil, or_false, forall_eq_or_imp, forall_eq]
    exact ⟨.leaf (by simp), .leaf (by decide)⟩
  obtain ⟨doc, after, written, committed, live, loads⟩ :=
    (commit_round_trips reached (by decide) ⟨none, none, .missing false⟩).1 short
  have size : (treeDocument emptiedLeaf.root).toOption.all
      (fun doc => decide (doc.length < 2 ^ 64)) = true := by
    decide +kernel
  rw [written] at size
  exact ⟨doc, after, committed, live, loads (of_decide_eq_true size)⟩

/-! ### A separator that is too long -/

/-- A key that becomes the separator of a split, and is then deleted. -/
theorem run_separator {long : Bytes} (low : [1] < long) (high : long < [3]) :
    BTree.new.run [.insert [0] [], .insert [1] [], .insert [3] [], .insert [4] [],
      .insert long [], .delete long] =
      some ({ root := .internal [long]
                [.leaf [([0], []), ([1], [])], .leaf [([3], []), ([4], [])]], len := 4 },
        [true]) := by
  have four : BTree.new.run [.insert [0] [], .insert [1] [], .insert [3] [], .insert [4] [],
      .insert long [], .delete long] =
      BTree.run { root := .leaf [([0], []), ([1], []), ([3], []), ([4], [])], len := 4 }
        [.insert long [], .delete long] := rfl
  have split : BTree.insert
      { root := .leaf [([0], []), ([1], []), ([3], []), ([4], [])], len := 4 } long [] =
      some { root := .internal [long] [.leaf [([0], []), ([1], [])],
        .leaf [(long, []), ([3], []), ([4], [])]], len := 5 } := by
    simp [BTree.insert, insertRec, insertEntries, partitionPoint, narrow, low, high.not_gt,
      high.ne', insertItem, splitLeaf, splitOff, order]
  have removed : BTree.delete { root := .internal [long] [.leaf [([0], []), ([1], [])],
      .leaf [(long, []), ([3], []), ([4], [])]], len := 5 } long =
      some ({ root := .internal [long] [.leaf [([0], []), ([1], [])],
        .leaf [([3], []), ([4], [])]], len := 4 }, true) := by
    simp [BTree.delete, deleteRec, route, partitionPoint, narrow, deleteAt, removeEntry,
      high.not_gt]
  rw [four, BTree.run, split]
  simp [BTree.run, removed]

/-- Every key and value of the tree is at most one byte long, and its commit is refused for the
separator that a deleted key has left behind. -/
theorem commit_refuses_leftover_separator :
    ∃ updates tree replies len, BTree.new.run updates = some (tree, replies) ∧
      depth tree.root ≤ maxDepth ∧
      (∀ entry ∈ tree.scan (fun _ => true), entry.1.length ≤ 1 ∧ entry.2.length ≤ 1) ∧
      commit tree = Program.done (.error (framing len)) := by
  have ran := @run_separator (2 :: List.replicate (2 ^ 32) 0)
    (List.cons_lt_cons_iff.mpr (Or.inl (by decide)))
    (List.cons_lt_cons_iff.mpr (Or.inl (by decide)))
  obtain ⟨_, _, height, same, _, spread⟩ := Spread.new.run Represents.new _
  rw [ran] at same
  cases same
  obtain ⟨len, _, refused⟩ := commit_refused spread.filled (fun short => by
    have within := (short_internal_iff.mp short).1 _ List.mem_cons_self
    rw [List.length_cons, List.length_replicate] at within
    omega)
  exact ⟨_, _, _, len, ran, by decide, by decide, refused⟩

end Keystory.BTreeStore
