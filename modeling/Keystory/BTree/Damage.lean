/-
Damage to the file of the tree is seen as damage.

No document continues another, so a file that was cut short or that goes on past its end
is refused without leaning on a checksum. The checksum finds every change of at most four
consecutive bytes.
-/

import Keystory.BTree.Document
import Keystory.Storage.Burst

namespace Keystory.BTreeStore

open General

/-! ### Where a document ends -/

theorem parseNode_append {levels : Nat} {node : Node} {body : Bytes}
    (loadable : Loadable (levels + 1) node) (written : nodeBody node = .ok body) (more : Bytes) :
    parseNode (parsePage levels) (body ++ more) = some (node, more) := by
  cases node with
  | leaf entries =>
      rw [nodeBody] at written
      obtain ⟨entryCount, counted, afterCount⟩ := bind_eq_ok_iff.mp written
      obtain ⟨fields, writtenEntries, result⟩ := bind_eq_ok_iff.mp afterCount
      cases result
      rw [List.cons_append, List.append_assoc, parseNode]
      exact parseLeaf_eq_some_iff.mpr
        ⟨entries, entryCount, fields, rfl, counted, writtenEntries, rfl⟩
  | internal keys children =>
      rw [Loadable] at loadable
      rw [nodeBody] at written
      obtain ⟨keyCount, counted, afterCount⟩ := bind_eq_ok_iff.mp written
      obtain ⟨fields, writtenKeys, afterKeys⟩ := bind_eq_ok_iff.mp afterCount
      obtain ⟨childCount, childCounted, afterChildCount⟩ := bind_eq_ok_iff.mp afterKeys
      obtain ⟨pages, writtenPages, result⟩ := bind_eq_ok_iff.mp afterChildCount
      cases result
      rw [List.cons_append, List.append_assoc, List.append_assoc, List.append_assoc, parseNode]
      exact (parseInternal_eq_some_iff parsePage_eq_some_iff).mpr ⟨keys, children, keyCount, fields,
        childCount, pages, rfl, loadable, counted, writtenKeys, childCounted, writtenPages, rfl⟩

theorem parseBody_isPrefix {levels : Nat} {short long : Bytes} {first second : Node}
    (parsedShort : parseBody (parsePage levels) short = some first)
    (parsedLong : parseBody (parsePage levels) long = some second) (within : short <+: long) :
    short = long := by
  obtain ⟨more, rfl⟩ := within
  obtain ⟨loadable, written⟩ := (parseBody_eq_some_iff parsePage_eq_some_iff).mp parsedShort
  rw [parseBody, parseNode_append loadable written] at parsedLong
  obtain ⟨ended, _⟩ := Option.ite_none_right_eq_some.mp parsedLong
  rw [List.length_eq_zero_iff.mp ended, List.append_nil]

theorem isPrefix_of_envelope_isPrefix {short long : Bytes}
    (within : envelope short <+: envelope long) : short <+: long := by
  have shorter := within.length_le
  rw [length_envelope, length_envelope] at shorter
  rw [envelope, envelope, List.prefix_append_right_inj] at within
  exact List.prefix_of_prefix_length_le ((List.prefix_append _ _).trans within)
    (List.prefix_append _ _) (by omega)

/-- No accepted document is the beginning of another. -/
theorem openDocument_isPrefix {short long : Bytes} {first second : BTree}
    (openedShort : openDocument short = .ok first) (openedLong : openDocument long = .ok second)
    (within : short <+: long) : short = long := by
  obtain ⟨shortPage, _, rfl, shortRoot, _⟩ := openDocument_eq_ok_iff_page.mp openedShort
  obtain ⟨longPage, _, rfl, longRoot, _⟩ := openDocument_eq_ok_iff_page.mp openedLong
  obtain ⟨shortBody, rfl, parsedShort⟩ := parsePage_succ_eq_some_iff.mp shortRoot
  obtain ⟨longBody, rfl, parsedLong⟩ := parsePage_succ_eq_some_iff.mp longRoot
  have inner := isPrefix_of_envelope_isPrefix (isPrefix_of_envelope_isPrefix within)
  rw [parseBody_isPrefix parsedShort parsedLong inner]

/-! ### What a checksum finds -/

theorem not_burst_envelope (body other : Bytes) : ¬Burst (envelope body) (envelope other) := by
  intro burst
  have sameMagic : (envelope body).take 4 = (envelope other).take 4 := by
    rw [envelope, envelope, List.take_left' (length_toLe 4 _), List.take_left' (length_toLe 4 _)]
  have inside := burst.drop sameMagic
  rw [envelope, envelope, List.drop_left' (length_toLe 4 _),
    List.drop_left' (length_toLe 4 _)] at inside
  exact inside.crc32_ne (length_toLe 4 _) (length_toLe 4 _) (ofLe_toLe_u32 _).symm
    (ofLe_toLe_u32 _).symm

theorem openDocument_refused {doc : Bytes} (refused : ∀ tree, openDocument doc ≠ .ok tree) :
    ∃ why, openDocument doc = .error (corrupt why) := by
  cases result : openDocument doc with
  | ok tree => exact absurd result (refused tree)
  | error failure =>
      unfold openDocument at result
      dsimp only at result
      split_ifs at result
      · exact ⟨_, result.symm⟩
      · exact ⟨_, result.symm⟩
      · exact ⟨_, result.symm⟩
      · cases parsed : parsePage (maxDepth + 1)
            ((doc.drop 4).take ((doc.drop 4).length - 4)) with
        | some root =>
            rw [parsed] at result
            cases result
        | none =>
            rw [parsed] at result
            exact ⟨_, result.symm⟩

/-- What may have become of a file: at most four consecutive bytes changed, its end was
lost, or something follows it. -/
inductive Harmed (doc : Bytes) : Bytes → Prop
  | burst {damaged : Bytes} : Burst doc damaged → Harmed doc damaged
  | cut {damaged : Bytes} : damaged <+: doc → damaged ≠ doc → Harmed doc damaged
  | continued {damaged : Bytes} : doc <+: damaged → damaged ≠ doc → Harmed doc damaged

/-- A document that `open` accepts is the only one of its tree, and none that has come to
harm is taken for a tree. -/
theorem harmed_document_refused {doc : Bytes} {tree : BTree}
    (opened : openDocument doc = .ok tree) :
    treeDocument tree.root = .ok doc ∧
      ∀ damaged, Harmed doc damaged → ∃ why, openDocument damaged = .error (corrupt why) := by
  refine ⟨(openDocument_eq_ok_iff.mp opened).2.1, fun damaged harm => ?_⟩
  refine openDocument_refused fun other accepted => ?_
  cases harm with
  | burst burst =>
      obtain ⟨body, _, rfl, _, _⟩ := openDocument_eq_ok_iff_page.mp opened
      obtain ⟨changed, _, rfl, _, _⟩ := openDocument_eq_ok_iff_page.mp accepted
      exact not_burst_envelope body changed burst
  | cut within shorter => exact shorter (openDocument_isPrefix accepted opened within)
  | continued within longer => exact longer (openDocument_isPrefix opened accepted within).symm

/-- The document of one entry without its last byte. -/
theorem harmed_document_refused_cut :
    ∃ doc, treeDocument (.leaf [([7], [8])]) = .ok doc ∧
      ∃ why, openDocument (doc.take (doc.length - 1)) = .error (corrupt why) := by
  have written : treeDocument (.leaf [([7], [8])]) =
      .ok (envelope (envelope [0, 1, 0, 0, 0, 1, 0, 0, 0, 7, 1, 0, 0, 0, 8])) := rfl
  have opened : openDocument (envelope (envelope [0, 1, 0, 0, 0, 1, 0, 0, 0, 7, 1, 0, 0, 0, 8])) =
      .ok { root := .leaf [([7], [8])], len := 1 } :=
    openDocument_eq_ok_iff.mpr ⟨trivial, written, rfl⟩
  refine ⟨_, written, (harmed_document_refused opened).2 _ (.cut (List.take_prefix _ _) ?_)⟩
  intro same
  have length := congrArg List.length same
  rw [List.length_take, length_envelope, length_envelope] at length
  omega

end Keystory.BTreeStore
