/-
Directories that have to survive a power cut. Every directory entry has a flag that
says whether it is durable: making a directory leaves it unset, syncing the parent
sets it. `create_dir_all_durably` syncs the parents of the directories that it
finds missing, so an entry that an earlier call made and did not get to sync is
one that no later call comes back to.
-/

import Keystory.General.Program
import Keystory.General.Steps
import Keystory.Storage.Failure
import Mathlib.Data.List.Induction

namespace Keystory.Directories

open General

/-! ### Paths -/

inductive Component where
  | normal (name : String)
  | parentDir
  | curDir
deriving DecidableEq, Repr

structure Path where
  absolute : Bool
  components : List Component
deriving DecidableEq, Repr

/-- `as_os_str().is_empty()` -/
def Path.isEmpty (path : Path) : Bool := !path.absolute && path.components.isEmpty

def Path.parent (path : Path) : Option Path :=
  if path.components = [] then none
  else some { path with components := path.components.dropLast }

/-- `Path::new(".")` -/
def Path.dot : Path := ⟨false, [.curDir]⟩

/-- Where a directory is: the names from the root down to it. -/
abbrev Location := List String

def Component.step (place : Location) : Component → Location
  | .normal name => place ++ [name]
  | .parentDir => place.dropLast
  | .curDir => place

def visited (place : Location) : List Component → List Location
  | [] => []
  | component :: rest => component.step place :: visited (component.step place) rest

/-! ### Trees -/

/-- The directories there are, each with its flag. The root has no entry that could be lost,
every other directory is in one that exists, and the process works in an existing one. -/
structure Tree where
  entry : Location → Option Bool
  cwd : Location
  root : entry [] = some true
  closed : ∀ place name, (entry (place ++ [name])).isSome → (entry place).isSome
  working : (entry cwd).isSome

namespace Tree

def base (tree : Tree) (path : Path) : Location := if path.absolute then [] else tree.cwd

def walk (tree : Tree) : Location → List Component → Option Location
  | place, [] => some place
  | place, component :: rest =>
      if (tree.entry (component.step place)).isSome then tree.walk (component.step place) rest
      else none

def resolve (tree : Tree) (path : Path) : Option Location :=
  tree.walk (tree.base path) path.components

/-- A new directory needs its parent, and is not there yet. -/
def mkdir (tree : Tree) (made : Location) (fits : (tree.entry made.dropLast).isSome)
    (new : tree.entry made = none) : Tree where
  entry := fun place => if place = made then some false else tree.entry place
  cwd := tree.cwd
  root := by
    rw [if_neg]
    · exact tree.root
    · rintro rfl
      rw [tree.root] at new
      cases new
  closed := by
    intro place name present
    split
    · rfl
    · by_cases same : place ++ [name] = made
      · rw [← same, List.dropLast_concat] at fits
        exact fits
      · rw [if_neg same] at present
        exact tree.closed place name present
  working := by
    split
    · rfl
    · exact tree.working

/-- `create_dir_all`, outermost first, for as many new directories as it gets to make. -/
def createAll : List Component → Nat → Tree → Location → Tree
  | [], _, tree, _ => tree
  | component :: rest, budget, tree, place =>
      if new : tree.entry (component.step place) = none then
        match budget with
        | 0 => tree
        | budget + 1 =>
            if fits : (tree.entry (component.step place).dropLast).isSome then
              createAll rest budget (tree.mkdir (component.step place) fits new)
                (component.step place)
            else tree
      else createAll rest budget tree (component.step place)

def sync (tree : Tree) (dir : Location) : Tree where
  entry := fun place =>
    if place ≠ [] ∧ place.dropLast = dir then (tree.entry place).map (fun _ => true)
    else tree.entry place
  cwd := tree.cwd
  root := by
    rw [if_neg (by simp)]
    exact tree.root
  closed := by
    intro place name present
    have before : (tree.entry (place ++ [name])).isSome := by
      split at present
      · rwa [Option.isSome_map] at present
      · exact present
    have kept := tree.closed place name before
    split
    · rwa [Option.isSome_map]
    · exact kept
  working := by
    split
    · rw [Option.isSome_map]
      exact tree.working
    · exact tree.working

end Tree

/-! ### Calls -/

inductive Call where
  /-- `d.exists()` -/
  | probe (path : Path)
  | createDirAll (path : Path)
  | fsyncDir (path : Path)

def Call.Reply : Call → Type := fun _ => Bool

/-- A failed `create_dir_all` may have made some of the directories; a failed sync may have
made the entries durable all the same. -/
def serve : (call : Call) → Fate → Tree → call.Reply × Tree
  | .probe path, _, tree => ((tree.resolve path).isSome, tree)
  | .createDirAll path, .ok, tree =>
      (true, Tree.createAll path.components path.components.length tree (tree.base path))
  | .createDirAll path, .fail extent, tree =>
      (false, Tree.createAll path.components extent tree (tree.base path))
  | .fsyncDir path, .ok, tree =>
      match tree.resolve path with
      | some dir => (true, tree.sync dir)
      | none => (false, tree)
  | .fsyncDir path, .fail extent, tree =>
      match tree.resolve path with
      | some dir => (false, if extent = 0 then tree else tree.sync dir)
      | none => (false, tree)

def fileSystem : Device Call Call.Reply Fate Tree where
  serve := serve
  allows := fun _ _ => True

instance (call : Call) (fate : Fate) : Decidable (fileSystem.allows call fate) :=
  inferInstanceAs (Decidable True)

abbrev DirProgram := Program Call Call.Reply

def probe (path : Path) : DirProgram Bool := Program.request (Call.probe path)
def createDirAll (path : Path) : DirProgram Bool := Program.request (Call.createDirAll path)
def fsyncDir (path : Path) : DirProgram Bool := Program.request (Call.fsyncDir path)

/-! ### Creating directories durably -/

/-- The loop that collects what is missing. A parent has one component less, so as many turns
as the path has components, and one more, are enough. -/
def findMissing : Nat → Option Path → DirProgram (List Path)
  | 0, _ => return []
  | _, none => return []
  | fuel + 1, some dir =>
      if dir.isEmpty then return []
      else do
        if ← probe dir then return []
        else
          let missing ← findMissing fuel dir.parent
          return dir :: missing

def syncTarget (dir : Path) : Path :=
  match dir.parent with
  | some parent => if parent.isEmpty then .dot else parent
  | none => .dot

def syncParents : List Path → DirProgram (Except Failure Unit)
  | [] => return .ok ()
  | dir :: rest => do
      if ← fsyncDir (syncTarget dir) then syncParents rest else return .error .os

def createDirAllDurably (dir : Path) : DirProgram (Except Failure Unit) := do
  let missing ← findMissing (dir.components.length + 1) (some dir)
  if ← createDirAll dir then syncParents missing.reverse else return .error .os

/-! ### Attempts -/

/-- A process that calls `create_dir_all_durably` on one path again and again. -/
structure System where
  tree : Tree
  running : Option (DirProgram (Except Failure Unit))

inductive Event where
  | start
  /-- the call in progress makes its next file-system call -/
  | call (fate : Fate)
  | finish
  /-- the process dies; a file-system call it was in may have got some way -/
  | kill (extent : Nat)

def interrupted (extent : Nat) : DirProgram (Except Failure Unit) → Tree → Tree
  | .done _, tree => tree
  | .call request _, tree => (serve request (.fail extent) tree).2

namespace System

def step (path : Path) (sys : System) : Event → Option System
  | .start =>
      match sys.running with
      | none => some { sys with running := some (createDirAllDurably path) }
      | some _ => none
  | .call fate =>
      match sys.running with
      | none => none
      | some program => do
          let (program, tree) ← program.step fileSystem fate sys.tree
          return ⟨tree, some program⟩
  | .finish =>
      match sys.running with
      | some (.done _) => some { sys with running := none }
      | _ => none
  | .kill extent =>
      match sys.running with
      | some program => some ⟨interrupted extent program sys.tree, none⟩
      | none => some sys

def returns? (sys : System) : Option (Except Failure Unit) :=
  match sys.running with
  | some (.done result) => some result
  | _ => none

end System

def Path.places (path : Path) (tree : Tree) : List Location :=
  visited (tree.base path) path.components

/-- The places whose entries a call syncs that finds the tree so: the parents of the missing
ancestors of the path. -/
def Synced (path : Path) (tree : Tree) (dir : Location) : Prop :=
  ∃ front component, front ++ [component] <+: path.components ∧
    tree.walk (tree.base path) (front ++ [component]) = none ∧
    front.foldl Component.step (tree.base path) = dir

/-! ### Trees and walks -/

section Trees

variable {tree : Tree} {place : Location}

theorem Tree.parent_present (present : (tree.entry place).isSome) :
    (tree.entry place.dropLast).isSome := by
  rcases List.eq_nil_or_concat' place with rfl | ⟨front, name, rfl⟩
  · exact present
  · rw [List.dropLast_concat]
    exact tree.closed front name present

theorem Tree.ne_root (tree : Tree) {place : Location} (loose : tree.entry place ≠ some true) :
    place ≠ [] := by
  rintro rfl
  exact loose tree.root

theorem Tree.present_of_isPrefix {above : Location} (inside : above <+: place)
    (present : (tree.entry place).isSome) : (tree.entry above).isSome := by
  induction place using List.reverseRecOn with
  | nil =>
      rw [List.prefix_nil.mp inside]
      exact present
  | append_singleton front name ih =>
      rcases List.prefix_concat_iff.mp inside with rfl | shorter
      · exact present
      · exact ih shorter (tree.closed front name present)

/-- Only a name can lead from an existing place to one that does not exist. -/
theorem Tree.normal_of_new {component : Component} (present : (tree.entry place).isSome)
    (new : tree.entry (component.step place) = none) :
    (component.step place).dropLast = place := by
  cases component with
  | normal name => exact List.dropLast_concat
  | parentDir =>
      have there := tree.parent_present present
      rw [show place.dropLast = Component.step place .parentDir from rfl, new] at there
      cases there
  | curDir =>
      rw [show Component.step place .curDir = place from rfl] at new
      rw [new] at present
      cases present

theorem Tree.createAll_cwd (components : List Component) (budget : Nat) :
    (createAll components budget tree place).cwd = tree.cwd := by
  induction components generalizing budget tree place with
  | nil => rfl
  | cons component rest ih =>
      unfold createAll
      split
      · split
        · rfl
        · split
          · exact ih _
          · rfl
      · exact ih _

theorem Tree.createAll_keeps {components : List Component} (budget : Nat) {other : Location}
    {flag : Bool} (there : tree.entry other = some flag) :
    (createAll components budget tree place).entry other = some flag := by
  induction components generalizing budget tree place with
  | nil => exact there
  | cons component rest ih =>
      unfold createAll
      split
      · rename_i new
        split
        · exact there
        · split
          · apply ih
            have apart : other ≠ component.step place := by
              rintro rfl
              rw [new] at there
              cases there
            exact (if_neg apart).trans there
          · exact there
      · exact ih _ there

theorem Tree.entry_createAll {components : List Component} {budget : Nat}
    (enough : components.length ≤ budget) (present : (tree.entry place).isSome)
    (other : Location) :
    (createAll components budget tree place).entry other =
      (tree.entry other).or (if other ∈ visited place components then some false else none) := by
  induction components generalizing budget tree place with
  | nil => simp [createAll, visited]
  | cons component rest ih =>
      obtain ⟨budget, rfl⟩ := Nat.exists_eq_add_one_of_ne_zero
        (Nat.ne_of_gt (Nat.lt_of_lt_of_le (Nat.succ_pos _) enough))
      have fewer : rest.length ≤ budget := Nat.le_of_succ_le_succ enough
      unfold createAll
      by_cases new : tree.entry (component.step place) = none
      · have fits : (tree.entry (component.step place).dropLast).isSome := by
          rw [Tree.normal_of_new present new]
          exact present
        have made : ((tree.mkdir _ fits new).entry (component.step place)).isSome := by
          simp [mkdir]
        rw [dif_pos new]
        dsimp only
        rw [dif_pos fits, ih fewer made, visited]
        by_cases same : other = component.step place
        · simp [mkdir, same, new]
        · simp [mkdir, same]
      · rw [dif_neg new, ih (Nat.le_succ_of_le fewer) (Option.isSome_iff_ne_none.mpr new), visited]
        by_cases same : other = component.step place
        · obtain ⟨flag, there⟩ := Option.ne_none_iff_exists'.mp new
          simp [same, there]
        · simp [same]

theorem Tree.walk_eq_some_iff {components : List Component} {reached : Location} :
    tree.walk place components = some reached ↔
      (∀ other ∈ visited place components, (tree.entry other).isSome) ∧
        components.foldl Component.step place = reached := by
  induction components generalizing place with
  | nil => simp [walk, visited]
  | cons component rest ih =>
      rw [walk, visited, List.foldl_cons, Option.ite_none_right_eq_some, ih]
      simp only [List.mem_cons, forall_eq_or_imp, and_assoc]

theorem visited_append (place : Location) (first second : List Component) :
    visited place (first ++ second) =
      visited place first ++ visited (first.foldl Component.step place) second := by
  induction first generalizing place with
  | nil => rfl
  | cons component first ih => simp [visited, ih]

theorem Tree.walk_isPrefix {front components : List Component} (start : front <+: components)
    (there : (tree.walk place components).isSome) : (tree.walk place front).isSome := by
  obtain ⟨rest, rfl⟩ := start
  obtain ⟨reached, found⟩ := Option.isSome_iff_exists.mp there
  rw [walk_eq_some_iff, visited_append] at found
  rw [Option.isSome_iff_exists]
  refine ⟨_, walk_eq_some_iff.mpr ⟨?_, rfl⟩⟩
  exact fun other member => found.1 other (List.mem_append_left _ member)

theorem exists_name_of_isPrefix {components : List Component} {above : Location}
    (inside : above <+: components.foldl Component.step place) :
    above <+: place ∨ ∃ front name, front ++ [.normal name] <+: components ∧
      front.foldl Component.step place ++ [name] = above := by
  induction components generalizing place with
  | nil => exact Or.inl inside
  | cons component rest ih =>
      rcases ih inside with here | ⟨front, name, start, same⟩
      · cases component with
        | normal name =>
            rcases List.prefix_concat_iff.mp here with whole | shorter
            · refine Or.inr ⟨[], name, ?_, whole.symm⟩
              exact List.cons_prefix_cons.mpr ⟨rfl, List.nil_prefix⟩
            · exact Or.inl shorter
        | parentDir => exact Or.inl (here.trans (List.dropLast_prefix place))
        | curDir => exact Or.inl here
      · refine Or.inr ⟨component :: front, name, ?_, same⟩
        exact List.cons_prefix_cons.mpr ⟨rfl, start⟩

theorem exists_front_of_mem_visited {components : List Component} {other : Location}
    (member : other ∈ visited place components) :
    ∃ front, front <+: components ∧ front.foldl Component.step place = other := by
  induction components generalizing place with
  | nil => cases member
  | cons component rest ih =>
      rcases List.mem_cons.mp member with rfl | later
      · exact ⟨[component], List.cons_prefix_cons.mpr ⟨rfl, List.nil_prefix⟩, rfl⟩
      · obtain ⟨front, start, same⟩ := ih later
        exact ⟨component :: front, List.cons_prefix_cons.mpr ⟨rfl, start⟩, same⟩

theorem Tree.base_present (tree : Tree) (path : Path) : (tree.entry (tree.base path)).isSome := by
  unfold base
  split
  · rw [tree.root]
    rfl
  · exact tree.working

theorem synced_of_new {path : Path} (member : place ∈ path.places tree)
    (new : tree.entry place = none) : Synced path tree place.dropLast := by
  obtain ⟨whole, inside, led⟩ := exists_front_of_mem_visited member
  have itself : place <+: whole.foldl Component.step (tree.base path) :=
    led.symm ▸ List.prefix_refl place
  -- what lies above the base exists, so a name on the path led here
  rcases exists_name_of_isPrefix itself with above | ⟨front, name, start, same⟩
  · have there := tree.present_of_isPrefix above (tree.base_present path)
    rw [new] at there
    cases there
  · refine ⟨front, .normal name, start.trans inside, ?_, ?_⟩
    · rw [← Option.not_isSome_iff_eq_none]
      intro found
      obtain ⟨reached, walked⟩ := Option.isSome_iff_exists.mp found
      have there := (Tree.walk_eq_some_iff.mp walked).1 place (by
        rw [visited_append]
        exact List.mem_append_right _ (by simp [visited, Component.step, same]))
      rw [new] at there
      cases there
    · rw [← same, List.dropLast_concat]

end Trees

/-! ### The calls in turn -/

theorem base_eq {first second : Tree} (same : first.cwd = second.cwd) (path : Path) :
    first.base path = second.base path := by
  unfold Tree.base
  rw [same]

theorem findMissing_spec (tree : Tree) {fuel : Nat} {path : Path}
    (enough : path.components.length < fuel) :
    (findMissing fuel (some path)).Spec fileSystem (fun _ => True)
      (fun missing after => after = tree ∧ ∀ dir, dir ∈ missing ↔
        ∃ front component, dir = ⟨path.absolute, front ++ [component]⟩ ∧
          front ++ [component] <+: path.components ∧
          tree.walk (tree.base path) (front ++ [component]) = none) tree := by
  induction fuel generalizing path with
  | zero => exact absurd enough (Nat.not_lt_zero _)
  | succ fuel ih =>
      obtain ⟨absolute, components⟩ := path
      unfold findMissing
      by_cases empty : (⟨absolute, components⟩ : Path).isEmpty = true
      · rw [if_pos empty]
        have none : components = [] := by
          simp only [Path.isEmpty, Bool.and_eq_true] at empty
          exact List.isEmpty_iff.mp empty.2
        subst none
        refine ⟨trivial, rfl, ?_⟩
        simp
      · rw [if_neg empty]
        refine Program.spec_request_bind.mpr ⟨trivial, ?_⟩
        intro fate _
        change (if (tree.resolve ⟨absolute, components⟩).isSome = true then _ else _ :
          DirProgram (List Path)).Spec _ _ _ tree
        by_cases there : (tree.resolve ⟨absolute, components⟩).isSome = true
        · rw [if_pos there]
          refine ⟨trivial, rfl, ?_⟩
          intro dir
          constructor
          · intro absurd
            cases absurd
          · rintro ⟨front, component, _, start, missing⟩
            have found := Tree.walk_isPrefix start there
            rw [missing] at found
            cases found
        · rw [if_neg there]
          rcases List.eq_nil_or_concat' components with rfl | ⟨front, last, rfl⟩
          · exact absurd rfl there
          · have above : (⟨absolute, front ++ [last]⟩ : Path).parent = some ⟨absolute, front⟩ := by
              simp [Path.parent]
            have fewer : (⟨absolute, front⟩ : Path).components.length < fuel := by
              simpa using enough
            rw [above]
            refine Program.Spec.bind ((ih fewer).mono (fun _ _ => trivial) ?_)
            rintro missing after _ ⟨rfl, found⟩
            refine ⟨trivial, rfl, ?_⟩
            intro dir
            rw [List.mem_cons, found]
            constructor
            · rintro (rfl | ⟨shorter, component, rfl, start, missing⟩)
              · exact ⟨front, last, rfl, List.prefix_refl _,
                  Option.not_isSome_iff_eq_none.mp there⟩
              · exact ⟨shorter, component, rfl, start.trans (List.prefix_append _ _), missing⟩
            · rintro ⟨shorter, component, rfl, start, missing⟩
              rcases List.prefix_concat_iff.mp start with whole | start
              · left
                rw [whole]
              · exact Or.inr ⟨shorter, component, rfl, start, missing⟩

def syncPlace (tree : Tree) (dir : Path) : Location :=
  (syncTarget dir).components.foldl Component.step (tree.base (syncTarget dir))

theorem syncPlace_eq (tree : Tree) (absolute : Bool) (front : List Component)
    (component : Component) :
    syncPlace tree ⟨absolute, front ++ [component]⟩ =
      front.foldl Component.step (tree.base ⟨absolute, front ++ [component]⟩) := by
  have above : (⟨absolute, front ++ [component]⟩ : Path).parent = some ⟨absolute, front⟩ := by
    simp [Path.parent]
  unfold syncPlace syncTarget
  rw [above]
  dsimp only
  by_cases empty : (⟨absolute, front⟩ : Path).isEmpty = true
  · simp only [Path.isEmpty, Bool.and_eq_true, Bool.not_eq_true'] at empty
    obtain ⟨relative, none⟩ := empty
    subst relative
    rw [List.isEmpty_iff.mp none]
    rfl
  · rw [if_neg empty]
    rfl

theorem syncParents_spec (dirs : List Path) (tree : Tree) :
    (syncParents dirs).Spec fileSystem (fun _ => True)
      (fun result after => result = .ok () → ∀ place, after.entry place =
        if place ≠ [] ∧ place.dropLast ∈ dirs.map (syncPlace tree)
        then (tree.entry place).map (fun _ => true) else tree.entry place) tree := by
  induction dirs generalizing tree with
  | nil => exact ⟨trivial, fun _ place => by simp⟩
  | cons dir rest ih =>
      have failed : ∀ tree' : Tree, (pure (.error .os) : DirProgram (Except Failure Unit)).Spec
          fileSystem (fun _ => True)
          (fun result after => result = .ok () → ∀ place, after.entry place =
            if place ≠ [] ∧ place.dropLast ∈ (dir :: rest).map (syncPlace tree)
            then (tree.entry place).map (fun _ => true) else tree.entry place) tree' :=
        fun tree' => ⟨trivial, fun absurd => by cases absurd⟩
      refine Program.spec_request_bind.mpr ⟨trivial, ?_⟩
      intro fate _
      cases found : tree.resolve (syncTarget dir) with
      | none =>
          cases fate with
          | ok =>
              simp only [fileSystem, serve, found]
              exact failed tree
          | fail extent =>
              simp only [fileSystem, serve, found]
              exact failed tree
      | some target =>
          cases fate with
          | fail extent =>
              simp only [fileSystem, serve, found]
              exact failed _
          | ok =>
              simp only [fileSystem, serve, found]
              have here : syncPlace tree dir = target := (Tree.walk_eq_some_iff.mp found).2
              have later : syncPlace (tree.sync target) = syncPlace tree := rfl
              refine (ih (tree.sync target)).mono (fun _ _ => trivial) ?_
              intro result after _ synced same place
              rw [synced same place, later, List.map_cons, here]
              by_cases now : place ≠ [] ∧ place.dropLast = target
              · simp [Tree.sync, now.1, now.2]
              · have unchanged : (tree.sync target).entry place = tree.entry place := if_neg now
                have others : place ≠ [] ∧ place.dropLast ∈ target :: rest.map (syncPlace tree) ↔
                    place ≠ [] ∧ place.dropLast ∈ rest.map (syncPlace tree) := by
                  rw [List.mem_cons, and_or_left]
                  exact or_iff_right now
                simp only [unchanged, others]

/-- What a call that returns makes of a tree: every place on the path exists, and the entries
in the parents of those that were missing are durable. -/
theorem createDirAllDurably_spec (path : Path) (tree : Tree) :
    (createDirAllDurably path).Spec fileSystem (fun _ => True)
      (fun result after => result = .ok () → ∀ place ∈ path.places tree,
        (after.entry place = some true ↔
          (tree.entry place = some false → Synced path tree place.dropLast))) tree := by
  refine Program.Spec.bind ((findMissing_spec tree (Nat.lt_succ_self _)).mono
    (fun _ _ => trivial) ?_)
  rintro missing after _ ⟨same, found⟩
  rw [same]
  refine Program.spec_request_bind.mpr ⟨trivial, ?_⟩
  intro fate _
  cases fate with
  | fail extent => exact ⟨trivial, fun absurd => by cases absurd⟩
  | ok =>
      refine (syncParents_spec missing.reverse _).mono (fun _ _ => trivial) ?_
      intro result after _ synced returned place member
      have made : (fileSystem.serve (.createDirAll path) .ok tree).2.entry place =
          (tree.entry place).or (some false) := by
        have all := Tree.entry_createAll (Nat.le_refl path.components.length)
          (tree.base_present path) place
        rw [← Path.places, if_pos member] at all
        exact all
      have same : (fileSystem.serve (.createDirAll path) .ok tree).2.cwd = tree.cwd :=
        Tree.createAll_cwd _ _
      have parents : place.dropLast ∈ missing.reverse.map
          (syncPlace (fileSystem.serve (.createDirAll path) .ok tree).2) ↔
          Synced path tree place.dropLast := by
        rw [List.mem_map]
        constructor
        · rintro ⟨dir, inside, led⟩
          obtain ⟨front, component, rfl, start, absent⟩ :=
            (found dir).mp (List.mem_reverse.mp inside)
          rw [syncPlace_eq, base_eq same] at led
          exact ⟨front, component, start, absent, led⟩
        · rintro ⟨front, component, start, absent, led⟩
          refine ⟨⟨path.absolute, front ++ [component]⟩,
            List.mem_reverse.mpr ((found _).mpr ⟨front, component, rfl, start, absent⟩), ?_⟩
          rw [syncPlace_eq, base_eq same]
          exact led
      -- only an entry that was there and not durable depends on what this call syncs
      rw [synced returned place, made, ← parents]
      cases there : tree.entry place with
      | none =>
          have covered := parents.mpr (synced_of_new member there)
          rw [if_pos ⟨tree.ne_root (by simp [there]), covered⟩]
          simp
      | some flag =>
          cases flag with
          | true => simp
          | false =>
              have below : place ≠ [] := tree.ne_root (by simp [there])
              simp [below]

/-! ### Attempts, one after the other -/

def Kept (start tree : Tree) : Prop :=
  ∀ place, start.entry place = some true → tree.entry place = some true

theorem Tree.sync_keeps (tree : Tree) (dir place : Location)
    (there : tree.entry place = some true) :
    (tree.sync dir).entry place = some true := by
  unfold sync
  dsimp only
  split
  · rw [there]
    rfl
  · exact there

theorem Kept.serve {start tree : Tree} (kept : Kept start tree) (call : Call) (fate : Fate) :
    Kept start (serve call fate tree).2 := by
  intro place there
  have now := kept place there
  cases call with
  | probe path => exact now
  | createDirAll path =>
      cases fate with
      | ok => exact Tree.createAll_keeps _ now
      | fail extent => exact Tree.createAll_keeps _ now
  | fsyncDir path =>
      cases found : tree.resolve path with
      | none =>
          cases fate with
          | ok => simpa only [Directories.serve, found] using now
          | fail extent => simpa only [Directories.serve, found] using now
      | some dir =>
          cases fate with
          | ok => simpa only [Directories.serve, found] using tree.sync_keeps dir place now
          | fail extent =>
              simp only [Directories.serve, found]
              split
              · exact now
              · exact tree.sync_keeps dir place now

theorem Kept.step {start : Tree} {path : Path} {sys next : System} {event : Event}
    (kept : Kept start sys.tree) (stepped : sys.step path event = some next) :
    Kept start next.tree := by
  obtain ⟨tree, running⟩ := sys
  cases event with
  | start =>
      cases running with
      | none =>
          cases stepped
          exact kept
      | some program => cases stepped
  | call fate =>
      cases running with
      | none => cases stepped
      | some program =>
          obtain ⟨⟨later, tree'⟩, served, same⟩ := Option.bind_eq_some_iff.mp stepped
          cases same
          cases program with
          | done result => cases served
          | call request rest =>
              rw [Program.step, Option.ite_none_right_eq_some] at served
              cases served.2
              exact kept.serve request fate
  | finish =>
      cases running with
      | none => cases stepped
      | some program =>
          cases program with
          | done result =>
              cases stepped
              exact kept
          | call request rest => cases stepped
  | kill extent =>
      cases running with
      | none =>
          cases stepped
          exact kept
      | some program =>
          cases stepped
          cases program with
          | done result => exact kept
          | call request rest => exact kept.serve request (.fail extent)

theorem returned_of_calls {path : Path} {tree : Tree}
    {program : DirProgram (Except Failure Unit)} {stopped : Tree → Prop}
    {post : Except Failure Unit → Tree → Prop}
    (spec : program.Spec fileSystem stopped post tree) {fates : List Fate} {after : System}
    (ran : runSteps (System.step path) ⟨tree, some program⟩ (fates.map .call) = some after)
    {result : Except Failure Unit} (returned : after.running = some (.done result)) :
    post result after.tree := by
  have moves : ∀ fate program tree, System.step path ⟨tree, some program⟩ (.call fate) =
      (program.step fileSystem fate tree).map (fun next => ⟨next.2, some next.1⟩) := by
    intro fate program tree
    exact (Option.map_eq_bind ..).symm
  obtain ⟨rest, reached, rfl, left⟩ := spec.runSteps moves ran
  cases returned
  exact left.2

/-- After any attempts on a path, a call that returns Ok leaves every directory on it durable
exactly if each of them that was there without a durable entry is in a directory that this call
syncs, and a call syncs the parents of what it finds missing. Such entries can only come from
earlier attempts. -/
theorem created_durably_iff {path : Path} {start : Tree} {events : List Event}
    {before after : System} {fates : List Fate}
    (settled : ∀ place, start.entry place ≠ some false)
    (attempted : runSteps (System.step path) ⟨start, none⟩ events = some before)
    (idle : before.running = none)
    (ran : runSteps (System.step path) before (.start :: fates.map .call) = some after)
    (returned : after.running = some (.done (.ok ()))) :
    ((∀ place ∈ path.places before.tree, after.tree.entry place = some true) ↔
      ∀ place ∈ path.places before.tree, before.tree.entry place = some false →
        Synced path before.tree place.dropLast) ∧
      ∀ place, before.tree.entry place = some false → start.entry place = none := by
  constructor
  · obtain ⟨tree, running⟩ := before
    change running = none at idle
    subst idle
    obtain ⟨begun, stepped, rest⟩ := runSteps_cons_eq_some.mp ran
    cases stepped
    have made := returned_of_calls (createDirAllDurably_spec path tree) rest returned rfl
    exact forall₂_congr made
  · intro place loose
    have kept : Kept start before.tree := by
      refine runSteps_invariant (fun sys => Kept start sys.tree) ?_ (fun _ there => there) attempted
      exact fun kept stepped => kept.step stepped
    cases there : start.entry place with
    | none => rfl
    | some flag =>
        cases flag with
        | false => exact absurd there (settled place)
        | true =>
            rw [kept place there] at loose
            cases loose

def workTree : Tree where
  entry := fun place => if place = [] ∨ place = ["work"] then some true else none
  cwd := ["work"]
  root := rfl
  closed := by
    intro place name present
    have only : place ++ [name] = ["work"] := by
      by_contra other
      rw [if_neg (by simp [other])] at present
      cases present
    have whole : place ++ [name] = [] ++ ["work"] := only
    rw [(List.append_inj' whole rfl).1]
    rfl
  working := rfl

theorem workTree_settled (place : Location) : workTree.entry place ≠ some false := by
  unfold workTree
  dsimp only
  split <;> simp

def nested : Path := ⟨false, [.normal "store", .normal "wal"]⟩

/-- A first call that nothing fails in makes both directories durable. -/
theorem created_durably_iff_first :
    ∃ after, runSteps (System.step nested) ⟨workTree, none⟩
        (.start :: (List.replicate 5 Fate.ok).map .call) = some after ∧
      after.running = some (.done (.ok ())) ∧
      after.tree.entry ["work", "store"] = some true ∧
      after.tree.entry ["work", "store", "wal"] = some true := by
  have observed : (runSteps (System.step nested) ⟨workTree, none⟩
      (.start :: (List.replicate 5 Fate.ok).map .call)).bind
        (fun sys => sys.returns?.map Except.isOk) = some true := by
    decide +kernel
  obtain ⟨after, ran, ending⟩ := Option.bind_eq_some_iff.mp observed
  obtain ⟨result, returns, fine⟩ := Option.map_eq_some_iff.mp ending
  have returned : after.running = some (.done (.ok ())) := by
    obtain ⟨tree, running⟩ := after
    cases running with
    | none => cases returns
    | some program =>
        cases program with
        | call request rest => cases returns
        | done outcome =>
            cases returns
            cases result with
            | error failure => cases fine
            | ok value => rfl
  have attempted : runSteps (System.step nested) ⟨workTree, none⟩ [] = some ⟨workTree, none⟩ := rfl
  have durable := (created_durably_iff workTree_settled attempted rfl ran returned).1.mpr
    (fun place _ loose => absurd loose (workTree_settled place))
  exact ⟨after, ran, returned, durable _ (by decide), durable _ (by decide)⟩

def retried : List Event :=
  [.start, .call .ok, .call .ok, .call .ok, .call (.fail 0), .finish,
    .start, .call .ok, .call .ok]

/-- The second call finds nothing missing and returns Ok; neither entry is durable. -/
theorem retry_leaves_entries_unsynced :
    (∀ place, workTree.entry place ≠ some false) ∧
    (runSteps (System.step nested) ⟨workTree, none⟩ retried).map
        (fun sys => (sys.returns?.map Except.isOk, sys.tree.entry ["work", "store"],
          sys.tree.entry ["work", "store", "wal"])) =
      some (some true, some false, some false) := by
  refine ⟨workTree_settled, ?_⟩
  decide +kernel

end Keystory.Directories
