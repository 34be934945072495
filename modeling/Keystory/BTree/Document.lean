/-
The document a tree is persisted as: nested pages, each with its own magic number and
checksum, inside one more such envelope.

What the parser accepts is exactly what the writer writes for some tree of an
acceptable shape. Neither looks at the order of the keys.
-/

import Keystory.Storage.Crc
import Keystory.Storage.Cursor
import Keystory.BTree.Balance

namespace Keystory.BTreeStore

open General

def magic : Nat := 0x42545252

/-! ### Writing -/

def framing (len : Nat) : Failure :=
  .invalidInput s!"a length of {len} exceeds the document's u32 framing"

/-- A length for a 32-bit field; never truncated. -/
def len32 (len : Nat) : Except Failure Bytes :=
  if len ≤ 4294967295 then .ok (toLe 4 len) else .error (framing len)

def writeField (bytes : Bytes) : Except Failure Bytes := do
  let len ← len32 bytes.length
  return len ++ bytes

def writeEntry (entry : Pair) : Except Failure Bytes := do
  let key ← writeField entry.1
  let value ← writeField entry.2
  return key ++ value

def writeMany {Item : Type} (write : Item → Except Failure Bytes) :
    List Item → Except Failure Bytes
  | [] => return []
  | item :: rest => do
      let bytes ← write item
      let more ← writeMany write rest
      return bytes ++ more

/-- The magic number, a body and the body's checksum. -/
def envelope (body : Bytes) : Bytes :=
  toLe 4 magic ++ (body ++ toLe 4 (crc32 body).toNat)

mutual

/-- The body of a node's page, with the pages of its children inside. -/
def nodeBody (node : Node) : Except Failure Bytes :=
  match node with
  | .leaf entries => do
      let entryCount ← len32 entries.length
      let fields ← writeMany writeEntry entries
      return 0 :: (entryCount ++ fields)
  | .internal keys children => do
      let keyCount ← len32 keys.length
      let fields ← writeMany writeField keys
      let childCount ← len32 children.length
      let pages ← childPages children
      return 1 :: (keyCount ++ (fields ++ (childCount ++ pages)))

def childPages (children : List Node) : Except Failure Bytes :=
  match children with
  | [] => return []
  | child :: rest => do
      let body ← nodeBody child
      let page := envelope body
      let more ← childPages rest
      return toLe 8 page.length ++ page ++ more

end

def nodePage (node : Node) : Except Failure Bytes := do
  let body ← nodeBody node
  return envelope body

def treeDocument (root : Node) : Except Failure Bytes := do
  let body ← nodePage root
  return envelope body

/-! ### Reading -/

/-- `Cursor::take`: a length that lies yields `none`. -/
def take (count : Nat) (cursor : Bytes) : Option (Bytes × Bytes) :=
  if cursor.length < count then none else some (cursor.take count, cursor.drop count)

/-- The cursor's `u32` and `u64`. -/
def takeNumber (width : Nat) (cursor : Bytes) : Option (Nat × Bytes) := do
  let (bytes, cursor) ← take width cursor
  return (ofLe bytes, cursor)

def takeField (cursor : Bytes) : Option (Bytes × Bytes) := do
  let (len, cursor) ← takeNumber 4 cursor
  take len cursor

def takeEntry (cursor : Bytes) : Option (Pair × Bytes) := do
  let (key, cursor) ← takeField cursor
  let (value, cursor) ← takeField cursor
  return ((key, value), cursor)

def takeChild (parse : Bytes → Option Node) (cursor : Bytes) : Option (Node × Bytes) := do
  let (len, cursor) ← takeNumber 8 cursor
  let (page, cursor) ← take len cursor
  let child ← parse page
  return (child, cursor)

def takeMany {Item : Type} (read : Bytes → Option (Item × Bytes)) :
    Nat → Bytes → Option (List Item × Bytes)
  | 0, cursor => return ([], cursor)
  | more + 1, cursor => do
      let (item, cursor) ← read cursor
      let (items, cursor) ← takeMany read more cursor
      return (item :: items, cursor)

/-- Each entry needs two length fields, so a count beyond that is bogus. -/
def parseLeaf (cursor : Bytes) : Option (Node × Bytes) := do
  let (entryCount, cursor) ← takeNumber 4 cursor
  if cursor.length / 8 < entryCount then none
  else do
    let (entries, cursor) ← takeMany takeEntry entryCount cursor
    return (.leaf entries, cursor)

def parseInternal (parse : Bytes → Option Node) (cursor : Bytes) : Option (Node × Bytes) := do
  let (keyCount, cursor) ← takeNumber 4 cursor
  if cursor.length / 4 < keyCount then none
  else do
    let (keys, cursor) ← takeMany takeField keyCount cursor
    let (childCount, cursor) ← takeNumber 4 cursor
    if keyCount = 0 ∨ childCount ≠ keyCount + 1 then none
    else do
      let (children, cursor) ← takeMany (takeChild parse) childCount cursor
      return (.internal keys children, cursor)

def parseNode (parse : Bytes → Option Node) : Bytes → Option (Node × Bytes)
  | 0 :: cursor => parseLeaf cursor
  | 1 :: cursor => parseInternal parse cursor
  | _ => none

def parseBody (parse : Bytes → Option Node) (body : Bytes) : Option Node := do
  let (node, cursor) ← parseNode parse body
  if cursor.length = 0 then some node else none

/-- `parse_page`, at the depth where `levels` levels of pages may still follow: a page
below `MAX_DEPTH` is refused. -/
def parsePage : Nat → Bytes → Option Node
  | 0, _ => none
  | levels + 1, bytes =>
      if bytes.length < 4 + 4 then none
      else
        let rest := bytes.drop 4
        let body := rest.take (rest.length - 4)
        if ofLe (bytes.take 4) ≠ magic then none
        else if ofLe (rest.drop (rest.length - 4)) ≠ (crc32 body).toNat then none
        else parseBody (parsePage levels) body

def corrupt (why : String) : Failure := .invalidData s!"btree.dat {why}"

/-- What `open` makes of the bytes of `btree.dat`. -/
def openDocument (doc : Bytes) : Except Failure BTree :=
  if doc.length < 4 + 4 then .error (corrupt "is too short")
  else
    let body := (doc.drop 4).take ((doc.drop 4).length - 4)
    if ofLe (doc.take 4) ≠ magic then .error (corrupt "has a bad magic")
    else if ofLe (doc.drop (doc.length - 4)) ≠ (crc32 body).toNat then
      .error (corrupt "fails its CRC (torn or corrupt)")
    else
      match parsePage (maxDepth + 1) body with
      | some root => .ok { root := root, len := count root }
      | none => .error (corrupt "has an undecodable page")

/-! ### Fields -/

theorem len32_eq_ok_iff {len : Nat} {bytes : Bytes} :
    len32 len = .ok bytes ↔ len < 256 ^ 4 ∧ bytes = toLe 4 len := by
  unfold len32
  split_ifs with fits
  · rw [Except.ok.injEq]
    exact ⟨fun same => ⟨by omega, same.symm⟩, fun both => both.2.symm⟩
  · exact ⟨fun impossible => (by cases impossible), fun both => absurd both.1 (by omega)⟩

theorem take_eq_some_iff {count : Nat} {cursor chunk rest : Bytes} :
    take count cursor = some (chunk, rest) ↔ chunk.length = count ∧ cursor = chunk ++ rest := by
  unfold take
  constructor
  · intro read
    split at read
    case isTrue => cases read
    case isFalse enough =>
        cases read
        exact ⟨List.length_take_of_le (Nat.not_lt.mp enough),
          (List.take_append_drop count cursor).symm⟩
  · rintro ⟨rfl, rfl⟩
    rw [if_neg (by simp), List.take_left, List.drop_left]

theorem takeNumber_eq_some_iff {width number : Nat} {cursor rest : Bytes} :
    takeNumber width cursor = some (number, rest) ↔
      number < 256 ^ width ∧ cursor = toLe width number ++ rest := by
  constructor
  · intro read
    obtain ⟨⟨chunk, left⟩, taken, value⟩ := Option.bind_eq_some_iff.mp read
    obtain ⟨length, rfl⟩ := take_eq_some_iff.mp taken
    cases value
    refine ⟨?_, by rw [toLe_ofLe length]⟩
    rw [← length]
    exact ofLe_lt chunk
  · rintro ⟨bound, rfl⟩
    rw [takeNumber, take_eq_some_iff.mpr ⟨length_toLe width number, rfl⟩]
    change some (ofLe (toLe width number), rest) = _
    rw [ofLe_toLe bound]

theorem writeField_eq_ok_iff {chunk bytes : Bytes} :
    writeField chunk = .ok bytes ↔
      chunk.length < 256 ^ 4 ∧ bytes = toLe 4 chunk.length ++ chunk := by
  rw [writeField, bind_eq_ok_iff]
  constructor
  · rintro ⟨len, fits, same⟩
    obtain ⟨bound, rfl⟩ := len32_eq_ok_iff.mp fits
    exact ⟨bound, (Except.ok.inj same).symm⟩
  · rintro ⟨bound, rfl⟩
    exact ⟨_, len32_eq_ok_iff.mpr ⟨bound, rfl⟩, rfl⟩

theorem takeField_eq_some_iff {cursor chunk rest : Bytes} :
    takeField cursor = some (chunk, rest) ↔
      ∃ bytes, writeField chunk = .ok bytes ∧ cursor = bytes ++ rest := by
  constructor
  · intro read
    obtain ⟨⟨len, left⟩, number, taken⟩ := Option.bind_eq_some_iff.mp read
    obtain ⟨bound, rfl⟩ := takeNumber_eq_some_iff.mp number
    obtain ⟨rfl, rfl⟩ := take_eq_some_iff.mp taken
    exact ⟨_, writeField_eq_ok_iff.mpr ⟨bound, rfl⟩, (List.append_assoc _ _ _).symm⟩
  · rintro ⟨bytes, written, rfl⟩
    obtain ⟨bound, rfl⟩ := writeField_eq_ok_iff.mp written
    rw [takeField, List.append_assoc, takeNumber_eq_some_iff.mpr ⟨bound, rfl⟩]
    exact take_eq_some_iff.mpr ⟨rfl, rfl⟩

theorem takeEntry_eq_some_iff {cursor rest : Bytes} {entry : Pair} :
    takeEntry cursor = some (entry, rest) ↔
      ∃ bytes, writeEntry entry = .ok bytes ∧ cursor = bytes ++ rest := by
  constructor
  · intro read
    obtain ⟨⟨key, afterKey⟩, takenKey, read⟩ := Option.bind_eq_some_iff.mp read
    obtain ⟨⟨value, afterValue⟩, takenValue, result⟩ := Option.bind_eq_some_iff.mp read
    cases result
    obtain ⟨keyField, writtenKey, rfl⟩ := takeField_eq_some_iff.mp takenKey
    obtain ⟨valueField, writtenValue, rfl⟩ := takeField_eq_some_iff.mp takenValue
    refine ⟨keyField ++ valueField, ?_, (List.append_assoc _ _ _).symm⟩
    rw [writeEntry, writtenKey, writtenValue]
    rfl
  · rintro ⟨bytes, written, rfl⟩
    obtain ⟨keyField, writtenKey, written⟩ := bind_eq_ok_iff.mp written
    obtain ⟨valueField, writtenValue, result⟩ := bind_eq_ok_iff.mp written
    cases result
    rw [List.append_assoc, takeEntry, takeField_eq_some_iff.mpr ⟨keyField, writtenKey, rfl⟩]
    change (takeField (valueField ++ rest) >>= _) = _
    rw [takeField_eq_some_iff.mpr ⟨valueField, writtenValue, rfl⟩]
    rfl

theorem takeMany_eq_some_iff {Item : Type} {read : Bytes → Option (Item × Bytes)}
    {write : Item → Except Failure Bytes} {accepted : Item → Prop}
    (faithful : ∀ {cursor rest item}, read cursor = some (item, rest) ↔
      accepted item ∧ ∃ bytes, write item = .ok bytes ∧ cursor = bytes ++ rest)
    {total : Nat} {cursor rest : Bytes} {items : List Item} :
    takeMany read total cursor = some (items, rest) ↔
      items.length = total ∧ (∀ item ∈ items, accepted item) ∧
        ∃ bytes, writeMany write items = .ok bytes ∧ cursor = bytes ++ rest := by
  induction total generalizing cursor items with
  | zero =>
      constructor
      · intro read
        cases read
        exact ⟨rfl, fun _ impossible => absurd impossible List.not_mem_nil, [], rfl, rfl⟩
      · rintro ⟨length, _, bytes, written, rfl⟩
        obtain rfl := List.length_eq_zero_iff.mp length
        cases written
        rfl
  | succ total ih =>
      constructor
      · intro read
        obtain ⟨⟨item, after⟩, taken, read⟩ := Option.bind_eq_some_iff.mp read
        obtain ⟨⟨others, last⟩, more, result⟩ := Option.bind_eq_some_iff.mp read
        cases result
        obtain ⟨good, bytes, written, rfl⟩ := faithful.mp taken
        obtain ⟨length, allGood, fields, writtenRest, rfl⟩ := ih.mp more
        refine ⟨by rw [List.length_cons, length], List.forall_mem_cons.mpr ⟨good, allGood⟩,
          bytes ++ fields, ?_, (List.append_assoc _ _ _).symm⟩
        rw [writeMany, written, writtenRest]
        rfl
      · rintro ⟨length, allGood, bytes, written, rfl⟩
        cases items with
        | nil => cases length
        | cons item others =>
            rw [List.forall_mem_cons] at allGood
            obtain ⟨field, writtenItem, written⟩ := bind_eq_ok_iff.mp written
            obtain ⟨fields, writtenRest, result⟩ := bind_eq_ok_iff.mp written
            cases result
            rw [List.append_assoc, takeMany,
              faithful.mpr ⟨allGood.1, field, writtenItem, rfl⟩]
            change (takeMany read total (fields ++ rest) >>= _) = _
            rw [ih.mpr ⟨Nat.succ.inj length, allGood.2, fields, writtenRest, rfl⟩]
            rfl

theorem length_writeMany_ge {Item : Type} {write : Item → Except Failure Bytes} {least : Nat}
    (each : ∀ item bytes, write item = .ok bytes → least ≤ bytes.length) {items : List Item}
    {bytes : Bytes} (written : writeMany write items = .ok bytes) :
    items.length * least ≤ bytes.length := by
  induction items generalizing bytes with
  | nil => rw [List.length_nil, Nat.zero_mul]; exact Nat.zero_le _
  | cons item rest ih =>
      obtain ⟨field, writtenItem, written⟩ := bind_eq_ok_iff.mp written
      obtain ⟨fields, writtenRest, result⟩ := bind_eq_ok_iff.mp written
      cases result
      have here := each item field writtenItem
      have more := ih writtenRest
      rw [List.length_cons, Nat.succ_mul, List.length_append]
      omega

theorem length_writeField_ge (chunk bytes : Bytes) (written : writeField chunk = .ok bytes) :
    4 ≤ bytes.length := by
  obtain ⟨_, rfl⟩ := writeField_eq_ok_iff.mp written
  rw [List.length_append, length_toLe]
  exact Nat.le_add_right 4 _

theorem length_writeEntry_ge (entry : Pair) (bytes : Bytes)
    (written : writeEntry entry = .ok bytes) : 8 ≤ bytes.length := by
  obtain ⟨keyField, writtenKey, written⟩ := bind_eq_ok_iff.mp written
  obtain ⟨valueField, writtenValue, result⟩ := bind_eq_ok_iff.mp written
  cases result
  have first := length_writeField_ge _ _ writtenKey
  have second := length_writeField_ge _ _ writtenValue
  rw [List.length_append]
  omega

/-! ### Pages -/

theorem length_envelope (body : Bytes) : (envelope body).length = body.length + 8 := by
  rw [envelope, List.length_append, List.length_append, length_toLe, length_toLe]
  omega

theorem exists_parts {bytes : Bytes} (long : ¬ bytes.length < 4 + 4) :
    ∃ head body tail, bytes = head ++ (body ++ tail) ∧ head.length = 4 ∧ tail.length = 4 := by
  refine ⟨bytes.take 4, (bytes.drop 4).take ((bytes.drop 4).length - 4),
    (bytes.drop 4).drop ((bytes.drop 4).length - 4), ?_, ?_, ?_⟩
  · rw [List.take_append_drop, List.take_append_drop]
  · rw [List.length_take]
    omega
  · rw [List.length_drop, List.length_drop]
    omega

section Parts

variable {head body tail : Bytes} (headLength : head.length = 4) (tailLength : tail.length = 4)

include headLength in
theorem take_parts : (head ++ (body ++ tail)).take 4 = head := List.take_left' headLength

include headLength in
theorem drop_parts : (head ++ (body ++ tail)).drop 4 = body ++ tail := List.drop_left' headLength

include tailLength in
theorem body_parts : (body ++ tail).take ((body ++ tail).length - 4) = body := by
  rw [List.length_append, tailLength, Nat.add_sub_cancel, List.take_left]

include tailLength in
theorem tail_parts : (body ++ tail).drop ((body ++ tail).length - 4) = tail := by
  rw [List.length_append, tailLength, Nat.add_sub_cancel, List.drop_left]

include tailLength in
theorem last_parts :
    (head ++ (body ++ tail)).drop ((head ++ (body ++ tail)).length - 4) = tail := by
  rw [← List.append_assoc, List.length_append, tailLength, Nat.add_sub_cancel, List.drop_left]

theorem long_parts (headLength : head.length = 4) (tailLength : tail.length = 4) :
    ¬ (head ++ (body ++ tail)).length < 4 + 4 := by
  rw [List.length_append, List.length_append]
  omega

theorem envelope_eq_iff (headLength : head.length = 4) (tailLength : tail.length = 4) :
    head ++ (body ++ tail) = envelope body ↔
      ofLe head = magic ∧ ofLe tail = (crc32 body).toNat := by
  constructor
  · intro same
    obtain ⟨isHead, rest⟩ := List.append_inj same (headLength.trans (length_toLe 4 magic).symm)
    rw [isHead, List.append_cancel_left rest]
    exact ⟨ofLe_toLe (by decide), ofLe_toLe_u32 _⟩
  · rintro ⟨isMagic, isCrc⟩
    rw [envelope, ← isMagic, ← isCrc, toLe_ofLe headLength, toLe_ofLe tailLength]

end Parts

theorem parsePage_succ_eq_some_iff {levels : Nat} {bytes : Bytes} {node : Node} :
    parsePage (levels + 1) bytes = some node ↔
      ∃ body, bytes = envelope body ∧ parseBody (parsePage levels) body = some node := by
  have parts : ∀ {head body tail : Bytes}, head.length = 4 → tail.length = 4 →
      (parsePage (levels + 1) (head ++ (body ++ tail)) = some node ↔
        head ++ (body ++ tail) = envelope body ∧
          parseBody (parsePage levels) body = some node) := by
    intro head body tail headLength tailLength
    rw [parsePage, if_neg (long_parts headLength tailLength), envelope_eq_iff headLength tailLength]
    dsimp only
    rw [drop_parts headLength, body_parts tailLength, tail_parts tailLength,
      take_parts headLength]
    split_ifs with badMagic badCrc
    · exact ⟨fun impossible => (by cases impossible), fun both => absurd both.1.1 badMagic⟩
    · exact ⟨fun impossible => (by cases impossible), fun both => absurd both.1.2 badCrc⟩
    · exact ⟨fun parsed => ⟨⟨not_not.mp badMagic, not_not.mp badCrc⟩, parsed⟩, fun both => both.2⟩
  constructor
  · intro parsed
    by_cases long : bytes.length < 4 + 4
    · rw [parsePage, if_pos long] at parsed
      cases parsed
    · obtain ⟨head, body, tail, rfl, headLength, tailLength⟩ := exists_parts long
      exact ⟨body, (parts headLength tailLength).mp parsed⟩
  · rintro ⟨body, rfl, parsed⟩
    exact (parts (length_toLe 4 _) (length_toLe 4 _)).mpr ⟨rfl, parsed⟩

theorem openDocument_eq_ok_iff_page {doc : Bytes} {tree : BTree} :
    openDocument doc = .ok tree ↔
      ∃ body root, doc = envelope body ∧ parsePage (maxDepth + 1) body = some root ∧
        tree = { root := root, len := count root } := by
  have parts : ∀ {head body tail : Bytes}, head.length = 4 → tail.length = 4 →
      (openDocument (head ++ (body ++ tail)) = .ok tree ↔
        head ++ (body ++ tail) = envelope body ∧ ∃ root, parsePage (maxDepth + 1) body = some root ∧
          tree = { root := root, len := count root }) := by
    intro head body tail headLength tailLength
    rw [openDocument, if_neg (long_parts headLength tailLength),
      envelope_eq_iff headLength tailLength]
    dsimp only
    rw [last_parts tailLength, drop_parts headLength, body_parts tailLength,
      take_parts headLength]
    split_ifs with badMagic badCrc
    · exact ⟨fun impossible => (by cases impossible), fun both => absurd both.1.1 badMagic⟩
    · exact ⟨fun impossible => (by cases impossible), fun both => absurd both.1.2 badCrc⟩
    · rw [and_iff_right ⟨not_not.mp badMagic, not_not.mp badCrc⟩]
      cases parsePage (maxDepth + 1) body with
      | none => simp
      | some root => simp [eq_comm]
  constructor
  · intro opened
    by_cases long : doc.length < 4 + 4
    · rw [openDocument, if_pos long] at opened
      cases opened
    · obtain ⟨head, body, tail, rfl, headLength, tailLength⟩ := exists_parts long
      obtain ⟨same, root, parsed, isTree⟩ := (parts headLength tailLength).mp opened
      exact ⟨body, root, same, parsed, isTree⟩
  · rintro ⟨body, root, rfl, parsed, isTree⟩
    exact (parts (length_toLe 4 _) (length_toLe 4 _)).mpr ⟨rfl, root, parsed, isTree⟩

/-! ### What the parser accepts -/

/-- A tree the parser can return with that many levels of pages: its shape is checked
and its pages have lengths that 64 bits can count. -/
def Loadable : Nat → Node → Prop
  | 0, _ => False
  | _ + 1, .leaf _ => True
  | levels + 1, .internal keys children =>
      keys ≠ [] ∧ children.length = keys.length + 1 ∧
        ∀ child ∈ children, Loadable levels child ∧
          ∀ page, nodePage child = .ok page → page.length < 256 ^ 8

def childPage (child : Node) : Except Failure Bytes := do
  let page ← nodePage child
  return toLe 8 page.length ++ page

theorem childPages_eq (children : List Node) :
    childPages children = writeMany childPage children := by
  induction children with
  | nil => rw [childPages, writeMany]
  | cons child rest ih =>
      rw [childPages, writeMany, childPage, nodePage, ih]
      cases nodeBody child <;> rfl

theorem takeChild_eq_some_iff {parse : Bytes → Option Node} {accepted : Node → Prop}
    (faithful : ∀ {bytes node}, parse bytes = some node ↔
      accepted node ∧ nodePage node = .ok bytes) {cursor rest : Bytes} {child : Node} :
    takeChild parse cursor = some (child, rest) ↔
      (accepted child ∧ ∀ page, nodePage child = .ok page → page.length < 256 ^ 8) ∧
        ∃ bytes, childPage child = .ok bytes ∧ cursor = bytes ++ rest := by
  constructor
  · intro read
    obtain ⟨⟨len, afterLen⟩, number, read⟩ := Option.bind_eq_some_iff.mp read
    obtain ⟨⟨page, afterPage⟩, taken, read⟩ := Option.bind_eq_some_iff.mp read
    obtain ⟨node, parsed, result⟩ := Option.bind_eq_some_iff.mp read
    cases result
    obtain ⟨bound, rfl⟩ := takeNumber_eq_some_iff.mp number
    obtain ⟨rfl, rfl⟩ := take_eq_some_iff.mp taken
    obtain ⟨good, written⟩ := faithful.mp parsed
    refine ⟨⟨good, fun other isPage => ?_⟩, toLe 8 page.length ++ page, ?_,
      (List.append_assoc _ _ _).symm⟩
    · rw [written] at isPage
      cases isPage
      exact bound
    · rw [childPage, written]
      rfl
  · rintro ⟨⟨good, bound⟩, bytes, written, rfl⟩
    obtain ⟨page, isPage, result⟩ := bind_eq_ok_iff.mp written
    cases result
    rw [List.append_assoc, takeChild, takeNumber_eq_some_iff.mpr ⟨bound page isPage, rfl⟩]
    change (take page.length (page ++ rest) >>= _) = _
    rw [take_eq_some_iff.mpr ⟨rfl, rfl⟩]
    change (parse page >>= _) = _
    rw [faithful.mpr ⟨good, isPage⟩]
    rfl

theorem parseLeaf_eq_some_iff {cursor rest : Bytes} {node : Node} :
    parseLeaf cursor = some (node, rest) ↔
      ∃ entries entryCount fields, node = .leaf entries ∧ len32 entries.length = .ok entryCount ∧
        writeMany writeEntry entries = .ok fields ∧ cursor = entryCount ++ (fields ++ rest) := by
  have entriesSpec : ∀ {cursor rest entry}, takeEntry cursor = some (entry, rest) ↔
      True ∧ ∃ bytes, writeEntry entry = .ok bytes ∧ cursor = bytes ++ rest := by
    intro cursor rest entry
    rw [true_and, takeEntry_eq_some_iff]
  constructor
  · intro read
    obtain ⟨⟨entryCount, afterCount⟩, number, body⟩ := Option.bind_eq_some_iff.mp read
    clear read
    obtain ⟨bound, rfl⟩ := takeNumber_eq_some_iff.mp number
    dsimp only at body
    split_ifs at body
    obtain ⟨⟨entries, afterEntries⟩, taken, result⟩ := Option.bind_eq_some_iff.mp body
    cases result
    obtain ⟨rfl, _, fields, written, rfl⟩ := (takeMany_eq_some_iff entriesSpec).mp taken
    exact ⟨entries, _, fields, rfl, len32_eq_ok_iff.mpr ⟨bound, rfl⟩, written, rfl⟩
  · rintro ⟨entries, entryCount, fields, rfl, counted, written, rfl⟩
    obtain ⟨bound, rfl⟩ := len32_eq_ok_iff.mp counted
    have enough := length_writeMany_ge length_writeEntry_ge written
    have admitted : ¬ (fields ++ rest).length / 8 < entries.length := by
      rw [List.length_append]
      omega
    rw [parseLeaf, takeNumber_eq_some_iff.mpr ⟨bound, rfl⟩]
    change (if (fields ++ rest).length / 8 < entries.length then none else _) = _
    rw [if_neg admitted, (takeMany_eq_some_iff entriesSpec).mpr
      ⟨rfl, fun _ _ => trivial, fields, written, rfl⟩]
    rfl

section Internal

variable {parse : Bytes → Option Node} {accepted : Node → Prop}
  (faithful : ∀ {bytes node}, parse bytes = some node ↔ accepted node ∧ nodePage node = .ok bytes)

include faithful

theorem parseInternal_eq_some_iff {cursor rest : Bytes} {node : Node} :
    parseInternal parse cursor = some (node, rest) ↔
      ∃ keys children keyCount fields childCount pages, node = .internal keys children ∧
        (keys ≠ [] ∧ children.length = keys.length + 1 ∧ ∀ child ∈ children, accepted child ∧
          ∀ page, nodePage child = .ok page → page.length < 256 ^ 8) ∧
        len32 keys.length = .ok keyCount ∧ writeMany writeField keys = .ok fields ∧
        len32 children.length = .ok childCount ∧ childPages children = .ok pages ∧
        cursor = keyCount ++ (fields ++ (childCount ++ (pages ++ rest))) := by
  have keysSpec : ∀ {cursor rest key}, takeField cursor = some (key, rest) ↔
      True ∧ ∃ bytes, writeField key = .ok bytes ∧ cursor = bytes ++ rest := by
    intro cursor rest key
    rw [true_and, takeField_eq_some_iff]
  have childrenSpec : ∀ {cursor rest child}, takeChild parse cursor = some (child, rest) ↔ _ :=
    takeChild_eq_some_iff faithful
  constructor
  · intro read
    obtain ⟨⟨keyCount, afterCount⟩, number, body⟩ := Option.bind_eq_some_iff.mp read
    clear read
    obtain ⟨bound, rfl⟩ := takeNumber_eq_some_iff.mp number
    dsimp only at body
    split_ifs at body
    obtain ⟨⟨keys, afterKeys⟩, takenKeys, below⟩ := Option.bind_eq_some_iff.mp body
    clear body
    obtain ⟨rfl, _, fields, writtenKeys, rfl⟩ := (takeMany_eq_some_iff keysSpec).mp takenKeys
    obtain ⟨⟨childCount, afterChildCount⟩, childNumber, last⟩ := Option.bind_eq_some_iff.mp below
    clear below
    obtain ⟨childBound, rfl⟩ := takeNumber_eq_some_iff.mp childNumber
    dsimp only at last
    split_ifs at last with misshapen
    push Not at misshapen
    obtain ⟨⟨children, afterChildren⟩, taken, result⟩ := Option.bind_eq_some_iff.mp last
    cases result
    obtain ⟨length, good, pages, written, rfl⟩ := (takeMany_eq_some_iff childrenSpec).mp taken
    refine ⟨keys, children, _, fields, _, pages, rfl,
      ⟨List.ne_nil_of_length_pos (Nat.pos_of_ne_zero misshapen.1), length.trans misshapen.2, good⟩,
      len32_eq_ok_iff.mpr ⟨bound, rfl⟩, writtenKeys, len32_eq_ok_iff.mpr ⟨?_, rfl⟩, ?_, ?_⟩
    · rw [length]
      exact childBound
    · rw [childPages_eq]
      exact written
    · rw [length]
  · rintro ⟨keys, children, keyCount, fields, childCount, pages, rfl,
      ⟨separated, lengths, good⟩, counted, writtenKeys, childCounted, written, rfl⟩
    obtain ⟨bound, rfl⟩ := len32_eq_ok_iff.mp counted
    obtain ⟨childBound, rfl⟩ := len32_eq_ok_iff.mp childCounted
    have enough := length_writeMany_ge length_writeField_ge writtenKeys
    have admitted : ¬ (fields ++ (toLe 4 children.length ++ (pages ++ rest))).length / 4 <
        keys.length := by
      rw [List.length_append]
      omega
    have wellShaped : ¬ (keys.length = 0 ∨ children.length ≠ keys.length + 1) := by
      push Not
      exact ⟨fun empty => separated (List.length_eq_zero_iff.mp empty), lengths⟩
    rw [childPages_eq] at written
    rw [parseInternal, takeNumber_eq_some_iff.mpr ⟨bound, rfl⟩]
    change (if (fields ++ (toLe 4 children.length ++ (pages ++ rest))).length / 4 < keys.length
      then none else _) = _
    rw [if_neg admitted, (takeMany_eq_some_iff keysSpec).mpr
      ⟨rfl, fun _ _ => trivial, fields, writtenKeys, rfl⟩]
    simp only [Option.bind_eq_bind, Option.bind_some]
    rw [takeNumber_eq_some_iff.mpr ⟨childBound, rfl⟩, Option.bind_some, if_neg wellShaped,
      (takeMany_eq_some_iff childrenSpec).mpr ⟨rfl, good, pages, written, rfl⟩]
    rfl

end Internal

theorem nodePage_eq_ok_iff {node : Node} {bytes : Bytes} :
    nodePage node = .ok bytes ↔ ∃ body, nodeBody node = .ok body ∧ bytes = envelope body := by
  rw [nodePage, bind_eq_ok_iff]
  constructor
  · rintro ⟨body, written, result⟩
    exact ⟨body, written, (Except.ok.inj result).symm⟩
  · rintro ⟨body, written, rfl⟩
    exact ⟨body, written, rfl⟩

theorem parseBody_eq_some_iff {levels : Nat} {body : Bytes} {node : Node}
    (faithful : ∀ {bytes node}, parsePage levels bytes = some node ↔
      Loadable levels node ∧ nodePage node = .ok bytes) :
    parseBody (parsePage levels) body = some node ↔
      Loadable (levels + 1) node ∧ nodeBody node = .ok body := by
  constructor
  · intro parsed
    obtain ⟨⟨found, rest⟩, read, last⟩ := Option.bind_eq_some_iff.mp parsed
    dsimp only at last
    split_ifs at last with ended
    cases last
    obtain rfl := List.length_eq_zero_iff.mp ended
    unfold parseNode at read
    split at read
    case h_1 cursor =>
        obtain ⟨entries, entryCount, fields, rfl, counted, written, rfl⟩ :=
          parseLeaf_eq_some_iff.mp read
        rw [Loadable, nodeBody, counted, written, List.append_nil]
        exact ⟨trivial, rfl⟩
    case h_2 cursor =>
        obtain ⟨keys, children, keyCount, fields, childCount, pages, rfl, shape, counted,
          writtenKeys, childCounted, written, rfl⟩ := (parseInternal_eq_some_iff faithful).mp read
        rw [Loadable, nodeBody, counted, writtenKeys, childCounted, written, List.append_nil]
        exact ⟨shape, rfl⟩
    case h_3 => cases read
  · rintro ⟨loadable, written⟩
    cases node with
    | leaf entries =>
        rw [nodeBody] at written
        obtain ⟨entryCount, counted, afterCount⟩ := bind_eq_ok_iff.mp written
        obtain ⟨fields, writtenEntries, result⟩ := bind_eq_ok_iff.mp afterCount
        cases result
        have read : parseLeaf (entryCount ++ (fields ++ [])) = some (.leaf entries, []) :=
          parseLeaf_eq_some_iff.mpr
            ⟨entries, entryCount, fields, rfl, counted, writtenEntries, rfl⟩
        rw [List.append_nil] at read
        rw [parseBody, parseNode]
        simp only [read, Option.bind_eq_bind, Option.bind_some, List.length_nil, if_true]
    | internal keys children =>
        rw [Loadable] at loadable
        rw [nodeBody] at written
        obtain ⟨keyCount, counted, afterCount⟩ := bind_eq_ok_iff.mp written
        obtain ⟨fields, writtenKeys, afterKeys⟩ := bind_eq_ok_iff.mp afterCount
        obtain ⟨childCount, childCounted, afterChildCount⟩ := bind_eq_ok_iff.mp afterKeys
        obtain ⟨pages, writtenPages, result⟩ := bind_eq_ok_iff.mp afterChildCount
        cases result
        have read : parseInternal (parsePage levels)
            (keyCount ++ (fields ++ (childCount ++ (pages ++ [])))) =
              some (.internal keys children, []) :=
          (parseInternal_eq_some_iff faithful).mpr ⟨keys, children, keyCount, fields, childCount,
            pages, rfl, loadable, counted, writtenKeys, childCounted, writtenPages, rfl⟩
        rw [List.append_nil] at read
        rw [parseBody, parseNode]
        simp only [read, Option.bind_eq_bind, Option.bind_some, List.length_nil, if_true]

/-- The parser accepts exactly the pages the writer writes for loadable trees. -/
theorem parsePage_eq_some_iff {levels : Nat} {bytes : Bytes} {node : Node} :
    parsePage levels bytes = some node ↔ Loadable levels node ∧ nodePage node = .ok bytes := by
  induction levels generalizing bytes node with
  | zero =>
      rw [parsePage, Loadable]
      exact ⟨fun impossible => (by cases impossible), fun both => absurd both.1 id⟩
  | succ levels ih =>
      rw [parsePage_succ_eq_some_iff, nodePage_eq_ok_iff]
      constructor
      · rintro ⟨body, rfl, parsed⟩
        obtain ⟨loadable, written⟩ := (parseBody_eq_some_iff ih).mp parsed
        exact ⟨loadable, body, written, rfl⟩
      · rintro ⟨loadable, body, written, rfl⟩
        exact ⟨body, rfl, (parseBody_eq_some_iff ih).mpr ⟨loadable, written⟩⟩

/-- `open` accepts exactly the documents of loadable trees, and gives the tree back. -/
theorem openDocument_eq_ok_iff {doc : Bytes} {tree : BTree} :
    openDocument doc = .ok tree ↔
      Loadable (maxDepth + 1) tree.root ∧ treeDocument tree.root = .ok doc ∧
        tree.len = count tree.root := by
  rw [openDocument_eq_ok_iff_page, treeDocument]
  constructor
  · rintro ⟨body, root, rfl, parsed, rfl⟩
    obtain ⟨loadable, written⟩ := parsePage_eq_some_iff.mp parsed
    refine ⟨loadable, ?_, rfl⟩
    rw [written]
    rfl
  · rintro ⟨loadable, written, counted⟩
    obtain ⟨body, page, result⟩ := bind_eq_ok_iff.mp written
    cases result
    refine ⟨body, tree.root, rfl, parsePage_eq_some_iff.mpr ⟨loadable, page⟩, ?_⟩
    rw [← counted]

end Keystory.BTreeStore
