/-
The record encoding of the write-ahead log: payloads, the framing check, and the
bounded decoder. A payload the framing check accepts decodes to the record it
was made from.
-/

import Keystory.Storage.Crc
import Keystory.Storage.Cursor

namespace Keystory.Wal

open General

/-- One commit in the log. Term and index are 64-bit on disk and in memory. -/
structure Record where
  term : UInt64
  index : UInt64
  ops : List Op
deriving DecidableEq, Repr

def minPayload : Nat := 1 + 8 + 8 + 4 + 4

def maxPayload : Nat := 4294967295

def tagPut : UInt8 := 1
def tagDelete : UInt8 := 2
def tagBatch : UInt8 := 3

/-! ### Encoding -/

def opTag : Op → UInt8
  | .put _ _ => tagPut
  | .delete _ => tagDelete

/-- The closure `body` of `payload_len`. -/
def bodyLen : Op → Nat
  | .put key value => 4 + key.length + 4 + value.length
  | .delete key => 4 + key.length + 4 + 0

/-- The encoded size of a record with these ops, computed without encoding it. -/
def payloadLen : List Op → Nat
  | [op] => 1 + 8 + 8 + bodyLen op
  | ops => 1 + 8 + 8 + 4 + (ops.map (fun op => 1 + bodyLen op)).sum

def checkOps (ops : List Op) : Except Failure Unit :=
  if ops.isEmpty then
    .error (.invalidInput "a WAL record needs at least one op")
  else
    let len := payloadLen ops
    if len > maxPayload then
      .error (.invalidInput
        s!"a commit of {len} encoded bytes exceeds the WAL record limit of {maxPayload}")
    else .ok ()

/-- Lengths are cast to 32 bits, dropping what does not fit. -/
def encodeOpBody (op : Op) : Bytes :=
  let (key, value) : Bytes × Bytes :=
    match op with
    | .put key value => (key, value)
    | .delete key => (key, [])
  toLe 4 key.length ++ key ++ toLe 4 value.length ++ value

def encodePayload (record : Record) : Bytes :=
  match record.ops with
  | [op] =>
      [opTag op] ++ toLe 8 record.term.toNat ++ toLe 8 record.index.toNat ++ encodeOpBody op
  | ops =>
      [tagBatch] ++ toLe 8 record.term.toNat ++ toLe 8 record.index.toNat ++
        toLe 4 ops.length ++ ops.flatMap (fun op => opTag op :: encodeOpBody op)

/-! ### Decoding -/

def takeTag (what : String) (cursor : Bytes) : Except Failure (UInt8 × Bytes) := do
  let (tag, cursor) ← takeLe 1 what cursor
  return (UInt8.ofNat tag, cursor)

def decodeOp (tag : UInt8) (cursor : Bytes) : Except Failure (Op × Bytes) := do
  let (keyLen, cursor) ← takeLe 4 "k_len" cursor
  let (key, cursor) ← takeBytes keyLen "key body" cursor
  let (valueLen, cursor) ← takeLe 4 "v_len" cursor
  let (value, cursor) ← takeBytes valueLen "val body" cursor
  if tag = tagPut then return (.put key value, cursor)
  else if tag = tagDelete then return (.delete key, cursor)
  else throw (.invalidData "bad tag")

def decodeOps : Nat → Bytes → Except Failure (List Op × Bytes)
  | 0, cursor => return ([], cursor)
  | count + 1, cursor => do
      let (sub, cursor) ← takeTag "sub tag" cursor
      let (op, cursor) ← decodeOp sub cursor
      let (ops, cursor) ← decodeOps count cursor
      return (op :: ops, cursor)

def decodeBody (tag : UInt8) (cursor : Bytes) : Except Failure (List Op × Bytes) :=
  if tag = tagPut ∨ tag = tagDelete then do
    let (op, cursor) ← decodeOp tag cursor
    return ([op], cursor)
  else if tag = tagBatch then do
    let (count, cursor) ← takeLe 4 "batch count" cursor
    -- each op needs at least a tag and two lengths
    if count = 0 ∨ count > cursor.length / 9 then throw (.invalidData "batch count")
    else decodeOps count cursor
  else throw (.invalidData "bad tag")

def decodePayload (bytes : Bytes) : Except Failure Record := do
  let (tag, cursor) ← takeTag "tag" bytes
  let (term, cursor) ← takeLe 8 "term" cursor
  let (index, cursor) ← takeLe 8 "index" cursor
  let (ops, cursor) ← decodeBody tag cursor
  if cursor.length ≠ 0 then throw (.invalidData "trailing bytes")
  else return ⟨UInt64.ofNat term, UInt64.ofNat index, ops⟩

/-! ### The framing check -/

theorem length_encodeOpBody (op : Op) : (encodeOpBody op).length = bodyLen op := by
  cases op with
  | put key value => simp [encodeOpBody, bodyLen, Nat.add_assoc]
  | delete key => simp [encodeOpBody, bodyLen, Nat.add_assoc]

theorem length_encodeOps (ops : List Op) :
    (ops.flatMap (fun op => opTag op :: encodeOpBody op)).length =
      (ops.map (fun op => 1 + bodyLen op)).sum := by
  induction ops with
  | nil => rfl
  | cons op rest ih =>
      simp only [List.flatMap_cons, List.length_append, List.length_cons, List.map_cons,
        List.sum_cons, ih, length_encodeOpBody]
      omega

theorem length_encodePayload (record : Record) :
    (encodePayload record).length = payloadLen record.ops := by
  unfold encodePayload payloadLen
  split
  · simp only [List.length_append, List.length_singleton, length_toLe, length_encodeOpBody]
  · simp only [List.length_append, List.length_singleton, length_toLe, length_encodeOps]

/-- The ops a record can carry: what the framing check accepts. -/
structure Fits (ops : List Op) : Prop where
  nonempty : ops ≠ []
  bound : payloadLen ops ≤ maxPayload

theorem checkOps_eq_ok_iff (ops : List Op) : checkOps ops = .ok () ↔ Fits ops := by
  unfold checkOps
  by_cases empty : ops = []
  · simp only [empty, List.isEmpty_nil, if_true]
    exact ⟨fun impossible => absurd impossible (by simp), fun fits => absurd rfl fits.nonempty⟩
  · rw [if_neg (by simp [empty])]
    by_cases long : payloadLen ops > maxPayload
    · simp only [long, if_true]
      exact ⟨fun impossible => absurd impossible (by simp),
        fun fits => absurd fits.bound (Nat.not_le.mpr long)⟩
    · simp only [long, if_false, true_iff]
      exact ⟨empty, Nat.not_lt.mp long⟩

theorem bodyLen_le_sum {ops : List Op} {op : Op} (member : op ∈ ops) :
    bodyLen op ≤ (ops.map (fun op => 1 + bodyLen op)).sum := by
  induction ops with
  | nil => cases member
  | cons head rest ih =>
      rw [List.map_cons, List.sum_cons]
      rcases List.mem_cons.mp member with here | later
      · rw [here]
        omega
      · have counted := ih later
        omega

theorem bodyLen_le_payloadLen {ops : List Op} {op : Op} (member : op ∈ ops) :
    bodyLen op ≤ payloadLen ops := by
  unfold payloadLen
  split
  · rw [List.mem_singleton.mp member]
    omega
  · have counted := bodyLen_le_sum member
    omega

theorem length_mul_le_sum (ops : List Op) :
    9 * ops.length ≤ (ops.map (fun op => 1 + bodyLen op)).sum := by
  induction ops with
  | nil => exact Nat.le_refl 0
  | cons op rest ih =>
      have least : 8 ≤ bodyLen op := by cases op <;> simp only [bodyLen] <;> omega
      simp only [List.length_cons, List.map_cons, List.sum_cons]
      omega

theorem Fits.count {ops : List Op} (fits : Fits ops) : ops.length < 256 ^ 4 := by
  have counted := length_mul_le_sum ops
  have room := fits.bound
  unfold payloadLen maxPayload at room
  split at room
  · simp
  · omega

theorem minPayload_le {ops : List Op} (nonempty : ops ≠ []) : minPayload ≤ payloadLen ops := by
  have counted := length_mul_le_sum ops
  have positive := List.length_pos_iff.mpr nonempty
  unfold payloadLen minPayload
  split
  case h_1 op =>
      have least : 8 ≤ bodyLen op := by cases op <;> simp only [bodyLen] <;> omega
      omega
  case h_2 => omega

/-! ### Decoding what was encoded -/

theorem takeTag_cons (what : String) (tag : UInt8) (rest : Bytes) :
    takeTag what (tag :: rest) = .ok (tag, rest) := by
  have whole : takeLe 1 what (toLe 1 tag.toNat ++ rest) = .ok (tag.toNat, rest) :=
    takeLe_toLe what rest (UInt8.toNat_lt tag)
  have single : toLe 1 tag.toNat = [tag] := by simp [toLe]
  rw [single, List.singleton_append] at whole
  rw [takeTag, whole]
  simp [pure, Except.pure]

theorem decodeOp_encodeOpBody {op : Op} (rest : Bytes) (bound : bodyLen op ≤ maxPayload) :
    decodeOp (opTag op) (encodeOpBody op ++ rest) = .ok (op, rest) := by
  unfold maxPayload at bound
  cases op with
  | put key value =>
      simp only [bodyLen] at bound
      have keyBound : key.length < 256 ^ 4 := by omega
      have valueBound : value.length < 256 ^ 4 := by omega
      simp only [decodeOp, encodeOpBody, List.append_assoc, takeLe_toLe _ _ keyBound,
        takeLe_toLe _ _ valueBound, takeBytes_append, ok_bind, opTag, if_true]
      rfl
  | delete key =>
      simp only [bodyLen] at bound
      have keyBound : key.length < 256 ^ 4 := by omega
      have none : ([] : Bytes).length < 256 ^ 4 := by decide
      simp only [decodeOp, encodeOpBody, List.append_assoc, takeLe_toLe _ _ keyBound,
        takeLe_toLe _ _ none, takeBytes_append, ok_bind, opTag]
      rfl

theorem decodeOps_encode {ops : List Op} (rest : Bytes)
    (bound : ∀ op ∈ ops, bodyLen op ≤ maxPayload) :
    decodeOps ops.length (ops.flatMap (fun op => opTag op :: encodeOpBody op) ++ rest) =
      .ok (ops, rest) := by
  induction ops with
  | nil => rfl
  | cons op later ih =>
      have others := ih (fun other member => bound other (List.mem_cons_of_mem op member))
      simp only [List.length_cons, decodeOps, List.flatMap_cons, List.cons_append,
        List.append_assoc, takeTag_cons, ok_bind,
        decodeOp_encodeOpBody _ (bound op List.mem_cons_self), others]
      rfl

theorem decodeBody_single {op : Op} (bound : bodyLen op ≤ maxPayload) :
    decodeBody (opTag op) (encodeOpBody op) = .ok ([op], []) := by
  have decoded := decodeOp_encodeOpBody [] bound
  rw [List.append_nil] at decoded
  have known : opTag op = tagPut ∨ opTag op = tagDelete := by
    cases op with
    | put key value => exact Or.inl rfl
    | delete key => exact Or.inr rfl
  rw [decodeBody, if_pos known, decoded]
  rfl

theorem decodeBody_batch {ops : List Op} (nonempty : ops ≠ [])
    (bound : ∀ op ∈ ops, bodyLen op ≤ maxPayload) (count : ops.length < 256 ^ 4) :
    decodeBody tagBatch (toLe 4 ops.length ++
      ops.flatMap (fun op => opTag op :: encodeOpBody op)) = .ok (ops, []) := by
  have decoded := decodeOps_encode [] bound
  rw [List.append_nil] at decoded
  have positive := List.length_pos_iff.mpr nonempty
  have room := length_mul_le_sum ops
  have possible : ¬ (ops.length = 0 ∨ ops.length >
      (ops.flatMap (fun op => opTag op :: encodeOpBody op)).length / 9) := by
    rw [length_encodeOps]
    omega
  rw [decodeBody, if_neg (by decide), if_pos rfl, takeLe_toLe _ _ count]
  simp only [ok_bind, if_neg possible]
  exact decoded

theorem decodePayload_encodePayload {record : Record} (fits : Fits record.ops) :
    decodePayload (encodePayload record) = .ok record := by
  obtain ⟨term, index, ops⟩ := record
  have bound : ∀ op ∈ ops, bodyLen op ≤ maxPayload :=
    fun op member => Nat.le_trans (bodyLen_le_payloadLen member) fits.bound
  unfold encodePayload
  split
  case h_1 op single =>
      subst single
      simp only [decodePayload, List.append_assoc, List.cons_append, List.nil_append,
        takeTag_cons, takeLe_u64, ok_bind,
        decodeBody_single (bound op List.mem_cons_self)]
      simp [pure, Except.pure]
  case h_2 many =>
      simp only [decodePayload, List.append_assoc, List.cons_append, List.nil_append,
        takeTag_cons, takeLe_u64, ok_bind,
        decodeBody_batch fits.nonempty bound fits.count]
      simp [pure, Except.pure]

/-! ### Payloads end by themselves -/

theorem selfDelimiting_takeTag (what : String) : SelfDelimiting (takeTag what) :=
  (selfDelimiting_takeLe 1 what).bind (fun tag => selfDelimiting_pure (UInt8.ofNat tag))

theorem selfDelimiting_decodeOp (tag : UInt8) : SelfDelimiting (decodeOp tag) := by
  refine SelfDelimiting.bind (selfDelimiting_takeLe 4 "k_len") (fun keyLen => ?_)
  refine SelfDelimiting.bind (selfDelimiting_takeBytes keyLen "key body") (fun key => ?_)
  refine SelfDelimiting.bind (selfDelimiting_takeLe 4 "v_len") (fun valueLen => ?_)
  refine SelfDelimiting.bind (selfDelimiting_takeBytes valueLen "val body") (fun value => ?_)
  exact selfDelimiting_ite (selfDelimiting_pure (Op.put key value))
    (selfDelimiting_ite (selfDelimiting_pure (Op.delete key)) (selfDelimiting_throw _))

theorem selfDelimiting_decodeOps (count : Nat) : SelfDelimiting (decodeOps count) := by
  induction count with
  | zero => exact selfDelimiting_pure []
  | succ count ih =>
      refine SelfDelimiting.bind (selfDelimiting_takeTag "sub tag") (fun sub => ?_)
      refine SelfDelimiting.bind (selfDelimiting_decodeOp sub) (fun op => ?_)
      exact ih.bind (fun ops => selfDelimiting_pure (op :: ops))

/-- More bytes only make room for more ops, so the count check still passes. -/
theorem selfDelimiting_counted (count : Nat) :
    SelfDelimiting (fun cursor =>
      if count = 0 ∨ count > cursor.length / 9 then throw (.invalidData "batch count")
      else decodeOps count cursor) := by
  intro cursor ops rest read more
  dsimp only at read ⊢
  split at read
  case isTrue => cases read
  case isFalse possible =>
      have longer : ¬ (count = 0 ∨ count > (cursor ++ more).length / 9) := by
        have room : cursor.length / 9 ≤ (cursor ++ more).length / 9 :=
          Nat.div_le_div_right (by rw [List.length_append]; omega)
        omega
      rw [if_neg longer]
      exact selfDelimiting_decodeOps count cursor ops rest read more

theorem selfDelimiting_decodeBody (tag : UInt8) : SelfDelimiting (decodeBody tag) := by
  refine selfDelimiting_ite ?_ (selfDelimiting_ite ?_ (selfDelimiting_throw _))
  · exact (selfDelimiting_decodeOp tag).bind (fun op => selfDelimiting_pure [op])
  · exact (selfDelimiting_takeLe 4 "batch count").bind selfDelimiting_counted

def decodeFront (bytes : Bytes) : Except Failure (Record × Bytes) := do
  let (tag, cursor) ← takeTag "tag" bytes
  let (term, cursor) ← takeLe 8 "term" cursor
  let (index, cursor) ← takeLe 8 "index" cursor
  let (ops, cursor) ← decodeBody tag cursor
  return (⟨UInt64.ofNat term, UInt64.ofNat index, ops⟩, cursor)

theorem selfDelimiting_decodeFront : SelfDelimiting decodeFront := by
  refine SelfDelimiting.bind (selfDelimiting_takeTag "tag") (fun tag => ?_)
  refine SelfDelimiting.bind (selfDelimiting_takeLe 8 "term") (fun term => ?_)
  refine SelfDelimiting.bind (selfDelimiting_takeLe 8 "index") (fun index => ?_)
  exact (selfDelimiting_decodeBody tag).bind (fun ops => selfDelimiting_pure _)

theorem decodePayload_eq (bytes : Bytes) :
    decodePayload bytes = (do
      let (record, rest) ← decodeFront bytes
      if rest.length ≠ 0 then throw (.invalidData "trailing bytes") else return record) := by
  simp only [decodePayload, decodeFront, bind_assoc, pure_bind]

/-- No payload is the beginning of another: bytes after a payload are refused. -/
theorem decodePayload_append {bytes more : Bytes} {record : Record}
    (decoded : decodePayload bytes = .ok record) (some : more ≠ []) :
    decodePayload (bytes ++ more) = .error (.invalidData "trailing bytes") := by
  rw [decodePayload_eq] at decoded ⊢
  cases front : decodeFront bytes with
  | error failure =>
      rw [front] at decoded
      cases decoded
  | ok result =>
      obtain ⟨found, rest⟩ := result
      have positive := List.length_pos_iff.mpr some
      rw [selfDelimiting_decodeFront bytes found rest front more, ok_bind]
      have left : (rest ++ more).length ≠ 0 := by
        rw [List.length_append]
        omega
      dsimp only
      rw [if_pos left]
      rfl

theorem decodePayload_unique {whole first second : Bytes} {record other : Record}
    (firstStart : first <+: whole) (secondStart : second <+: whole)
    (firstDecoded : decodePayload first = .ok record)
    (secondDecoded : decodePayload second = .ok other) : first.length = second.length := by
  have refused : ∀ {short long : Bytes} {left right : Record}, short <+: long →
      decodePayload short = .ok left → decodePayload long = .ok right →
        short.length = long.length := by
    rintro short long left right ⟨more, rfl⟩ shortDecoded longDecoded
    by_cases none : more = []
    · rw [none, List.append_nil]
    · rw [decodePayload_append shortDecoded none] at longDecoded
      cases longDecoded
  rcases List.prefix_or_prefix_of_prefix firstStart secondStart with within | around
  · exact refused within firstDecoded secondDecoded
  · exact (refused around secondDecoded firstDecoded).symm

end Keystory.Wal
