/-
Cells that are overwritten: a write is a no-op where the cell already shows what
it writes, and otherwise its result does not depend on the cell. The cell may
carry more than it shows, such as when it last changed, and a run of writes done
twice still leaves the cell as the run done once.
-/

import Mathlib.Data.List.Induction
import Mathlib.Tactic.Push

namespace Keystory.General

variable {Cell Write Shown : Type}

/-- How a write acts on a cell, given what cells show and what writes leave shown. -/
structure Overwrites (shows : Cell → Shown) (written : Write → Shown)
    (step : Cell → Write → Cell) : Prop where
  shown : ∀ cell write, shows (step cell write) = written write
  same : ∀ cell write, shows cell = written write → step cell write = cell
  forgets : ∀ cell other write, shows cell ≠ written write → shows other ≠ written write →
    step cell write = step other write

namespace Overwrites

variable {shows : Cell → Shown} {written : Write → Shown} {step : Cell → Write → Cell}

theorem foldl_same (laws : Overwrites shows written step) {cell : Cell} {writes : List Write}
    (uniform : ∀ write ∈ writes, shows cell = written write) :
    writes.foldl step cell = cell := by
  induction writes with
  | nil => rfl
  | cons write writes ih =>
      rw [List.foldl_cons, laws.same cell write (uniform write List.mem_cons_self)]
      exact ih (fun later member => uniform later (List.mem_cons_of_mem write member))

/-- Either a run forgets the cell it started from, or all it writes is what the
cell shows at its end. -/
theorem foldl_forgets_or_uniform (laws : Overwrites shows written step) (writes : List Write) :
    (∀ cell other, writes.foldl step cell = writes.foldl step other) ∨
      ∀ cell, ∀ write ∈ writes, shows (writes.foldl step cell) = written write := by
  induction writes using List.reverseRecOn with
  | nil => exact Or.inr (fun _ _ member => absurd member List.not_mem_nil)
  | append_singleton writes last ih =>
      simp only [List.foldl_append, List.foldl_cons, List.foldl_nil]
      rcases ih with forgets | uniform
      · exact Or.inl (fun cell other => by rw [forgets cell other])
      · by_cases agrees : ∀ write ∈ writes, written write = written last
        · refine Or.inr (fun cell write member => ?_)
          rw [laws.shown]
          rcases List.mem_append.mp member with earlier | final
          · exact (agrees write earlier).symm
          · rw [List.mem_singleton.mp final]
        · -- Whatever the start, the last write changes what the earlier ones left.
          push Not at agrees
          obtain ⟨write, member, differs⟩ := agrees
          refine Or.inl (fun cell other => laws.forgets _ _ last ?_ ?_)
          · rw [uniform cell write member]
            exact differs
          · rw [uniform other write member]
            exact differs

theorem foldl_foldl (laws : Overwrites shows written step) (writes : List Write) (cell : Cell) :
    writes.foldl step (writes.foldl step cell) = writes.foldl step cell := by
  rcases laws.foldl_forgets_or_uniform writes with forgets | uniform
  · exact forgets _ cell
  · exact laws.foldl_same (uniform cell)

end Overwrites

end Keystory.General
