/-
The byte strings the payload decoder accepts, next to the ones the encoder
writes. The decoder reads the value field of a delete and drops it, and takes a
batch of one op for a commit of one op; the encoder writes neither. A payload of
any other shape decodes to a record exactly when it is that record's encoding.
-/

import Keystory.Wal.Codec
import Mathlib.Algebra.Order.BigOperators.Group.List
import Mathlib.Algebra.Order.Group.Nat

namespace Keystory.Wal

open General

/-! ### The fields of a payload -/

/-- One op as it stands in a payload. A delete has a value field too. -/
structure OpFields where
  deletes : Bool
  key : Bytes
  value : Bytes
deriving DecidableEq, Repr

namespace OpFields

def tag (fields : OpFields) : UInt8 := if fields.deletes then tagDelete else tagPut

def body (fields : OpFields) : Bytes :=
  toLe 4 fields.key.length ++ fields.key ++ toLe 4 fields.value.length ++ fields.value

def op (fields : OpFields) : Op :=
  if fields.deletes then .delete fields.key else .put fields.key fields.value

def dropped (fields : OpFields) : Bytes := if fields.deletes then fields.value else []

structure Fits (fields : OpFields) : Prop where
  key : fields.key.length < 256 ^ 4
  value : fields.value.length < 256 ^ 4

theorem opTag_op (fields : OpFields) : opTag fields.op = fields.tag := by
  unfold op tag
  cases fields.deletes <;> rfl

theorem encodeOpBody_op {fields : OpFields} (kept : fields.dropped = []) :
    encodeOpBody fields.op = fields.body := by
  obtain ⟨deletes, key, value⟩ := fields
  cases deletes with
  | false => rfl
  | true =>
      have empty : value = [] := kept
      rw [empty]
      rfl

theorem length_body (fields : OpFields) :
    fields.body.length = 4 + fields.key.length + 4 + fields.value.length := by
  simp [body, Nat.add_assoc]

theorem length_body_op (fields : OpFields) :
    fields.body.length = bodyLen fields.op + fields.dropped.length := by
  rw [length_body]
  obtain ⟨deletes, key, value⟩ := fields
  cases deletes <;> rfl

end OpFields

/-- The two shapes of a payload after its tag, term and index. -/
inductive Layout where
  | single (fields : OpFields)
  | batch (fields : List OpFields)
deriving DecidableEq, Repr

namespace Layout

def ops : Layout → List Op
  | .single fields => [fields.op]
  | .batch fields => fields.map OpFields.op

def bytes (term index : UInt64) : Layout → Bytes
  | .single fields => [fields.tag] ++ toLe 8 term.toNat ++ toLe 8 index.toNat ++ fields.body
  | .batch fields =>
      [tagBatch] ++ toLe 8 term.toNat ++ toLe 8 index.toNat ++
        toLe 4 fields.length ++ fields.flatMap (fun fields => fields.tag :: fields.body)

/-- Every length and the count fit their fields, and a batch holds something. -/
inductive Fits : Layout → Prop where
  | single {fields : OpFields} (fits : fields.Fits) : Fits (.single fields)
  | batch {fields : List OpFields} (some : fields ≠ []) (count : fields.length < 256 ^ 4)
      (fits : ∀ one ∈ fields, one.Fits) : Fits (.batch fields)

/-- Shapes the encoder never writes: a delete with a value, or a batch of one op. -/
inductive Loose : Layout → Prop where
  | value {fields : OpFields} (dropped : fields.dropped ≠ []) : Loose (.single fields)
  | batchValue {fields : List OpFields} {one : OpFields} (member : one ∈ fields)
      (dropped : one.dropped ≠ []) : Loose (.batch fields)
  | batchOne (fields : OpFields) : Loose (.batch [fields])

end Layout

/-! ### What the decoder accepts -/

theorem takeTag_eq_ok_iff {what : String} {cursor rest : Bytes} {tag : UInt8} :
    takeTag what cursor = .ok (tag, rest) ↔ cursor = tag :: rest := by
  constructor
  · intro read
    cases cursor with
    | nil => cases read
    | cons head tail =>
        rw [takeTag_cons] at read
        cases read
        rfl
  · rintro rfl
    exact takeTag_cons what tag rest

theorem decodeOp_eq_ok_iff {tag : UInt8} {cursor rest : Bytes} {op : Op} :
    decodeOp tag cursor = .ok (op, rest) ↔
      ∃ fields : OpFields, fields.Fits ∧ fields.tag = tag ∧ fields.op = op ∧
        cursor = fields.body ++ rest := by
  constructor
  · intro read
    obtain ⟨⟨keyLen, atKey⟩, keyRead, afterKeyLen⟩ := bind_eq_ok_iff.mp read
    obtain ⟨⟨key, atLen⟩, keyTaken, afterKey⟩ := bind_eq_ok_iff.mp afterKeyLen
    obtain ⟨⟨valueLen, atValue⟩, valueRead, afterLen⟩ := bind_eq_ok_iff.mp afterKey
    obtain ⟨⟨value, left⟩, valueTaken, afterValue⟩ := bind_eq_ok_iff.mp afterLen
    clear read afterKeyLen afterKey afterLen
    obtain ⟨keyBound, rfl⟩ := takeLe_eq_ok_iff.mp keyRead
    obtain ⟨rfl, rfl⟩ := takeBytes_eq_ok_iff.mp keyTaken
    obtain ⟨valueBound, rfl⟩ := takeLe_eq_ok_iff.mp valueRead
    obtain ⟨rfl, rfl⟩ := takeBytes_eq_ok_iff.mp valueTaken
    dsimp only at afterValue
    split_ifs at afterValue with isPut isDelete
    · cases afterValue
      exact ⟨⟨false, key, value⟩, ⟨keyBound, valueBound⟩, isPut.symm, rfl,
        by simp [OpFields.body]⟩
    · cases afterValue
      exact ⟨⟨true, key, value⟩, ⟨keyBound, valueBound⟩, isDelete.symm, rfl,
        by simp [OpFields.body]⟩
  · rintro ⟨⟨deletes, key, value⟩, fits, rfl, rfl, rfl⟩
    simp only [decodeOp, OpFields.body, List.append_assoc, takeLe_toLe _ _ fits.key,
      takeLe_toLe _ _ fits.value, takeBytes_append, ok_bind]
    cases deletes <;> rfl

theorem decodeOps_eq_ok_iff {count : Nat} {cursor rest : Bytes} {ops : List Op} :
    decodeOps count cursor = .ok (ops, rest) ↔
      ∃ fields : List OpFields, fields.length = count ∧ (∀ one ∈ fields, one.Fits) ∧
        fields.map OpFields.op = ops ∧
        cursor = fields.flatMap (fun one => one.tag :: one.body) ++ rest := by
  induction count generalizing cursor ops with
  | zero =>
      constructor
      · intro read
        cases read
        exact ⟨[], rfl, by simp, rfl, rfl⟩
      · rintro ⟨fields, none, _, rfl, rfl⟩
        rw [List.length_eq_zero_iff.mp none]
        rfl
  | succ count ih =>
      constructor
      · intro read
        obtain ⟨⟨sub, atOp⟩, subRead, afterTag⟩ := bind_eq_ok_iff.mp read
        obtain ⟨⟨op, atOps⟩, opRead, afterOp⟩ := bind_eq_ok_iff.mp afterTag
        obtain ⟨⟨later, left⟩, laterRead, done⟩ := bind_eq_ok_iff.mp afterOp
        clear read afterTag afterOp
        cases done
        obtain rfl := takeTag_eq_ok_iff.mp subRead
        obtain ⟨one, oneFits, rfl, rfl, rfl⟩ := decodeOp_eq_ok_iff.mp opRead
        obtain ⟨fields, rfl, fits, rfl, rfl⟩ := ih.mp laterRead
        exact ⟨one :: fields, rfl, List.forall_mem_cons.mpr ⟨oneFits, fits⟩, rfl, by simp⟩
      · rintro ⟨fields, length, fits, rfl, rfl⟩
        cases fields with
        | nil => cases length
        | cons one fields =>
            obtain ⟨oneFits, fits⟩ := List.forall_mem_cons.mp fits
            have opRead : decodeOp one.tag (one.body ++
                (fields.flatMap (fun one => one.tag :: one.body) ++ rest)) =
                .ok (one.op, fields.flatMap (fun one => one.tag :: one.body) ++ rest) :=
              decodeOp_eq_ok_iff.mpr ⟨one, oneFits, rfl, rfl, rfl⟩
            have laterRead := ih.mpr ⟨fields, Nat.succ.inj length, fits, rfl, rfl⟩
            simp only [decodeOps, List.flatMap_cons, List.cons_append, List.append_assoc,
              takeTag_cons, ok_bind, opRead, laterRead]
            rfl

theorem length_flatMap_body (fields : List OpFields) :
    (fields.flatMap (fun one => one.tag :: one.body)).length =
      ((fields.map OpFields.op).map (fun op => 1 + bodyLen op)).sum +
        (fields.map (fun one => one.dropped.length)).sum := by
  induction fields with
  | nil => rfl
  | cons one fields ih =>
      simp only [List.flatMap_cons, List.length_append, List.length_cons, ih,
        OpFields.length_body_op, List.map_cons, List.sum_cons]
      omega

def Layout.tag : Layout → UInt8
  | .single fields => fields.tag
  | .batch _ => tagBatch

def Layout.rest : Layout → Bytes
  | .single fields => fields.body
  | .batch fields =>
      toLe 4 fields.length ++ fields.flatMap (fun fields => fields.tag :: fields.body)

theorem Layout.bytes_eq (term index : UInt64) (layout : Layout) :
    layout.bytes term index =
      layout.tag :: (toLe 8 term.toNat ++ (toLe 8 index.toNat ++ layout.rest)) := by
  cases layout with
  | single fields => simp [Layout.bytes, Layout.tag, Layout.rest]
  | batch fields => simp [Layout.bytes, Layout.tag, Layout.rest]

theorem decodeBody_eq_ok_iff {tag : UInt8} {cursor : Bytes} {ops : List Op} :
    decodeBody tag cursor = .ok (ops, []) ↔
      ∃ layout : Layout, layout.Fits ∧ layout.tag = tag ∧ layout.ops = ops ∧
        cursor = layout.rest := by
  constructor
  · intro read
    unfold decodeBody at read
    split_ifs at read with one batch
    · obtain ⟨⟨op, left⟩, opRead, done⟩ := bind_eq_ok_iff.mp read
      clear read
      cases done
      obtain ⟨fields, fits, sameTag, rfl, rfl⟩ := decodeOp_eq_ok_iff.mp opRead
      exact ⟨.single fields, .single fits, sameTag, rfl, List.append_nil _⟩
    · obtain ⟨⟨count, atOps⟩, countRead, afterCount⟩ := bind_eq_ok_iff.mp read
      clear read
      obtain ⟨countBound, rfl⟩ := takeLe_eq_ok_iff.mp countRead
      dsimp only at afterCount
      split_ifs at afterCount with bogus
      obtain ⟨fields, rfl, fits, rfl, rfl⟩ := decodeOps_eq_ok_iff.mp afterCount
      have some : fields ≠ [] := by
        rintro rfl
        exact bogus (Or.inl rfl)
      exact ⟨.batch fields, .batch some countBound fits, batch.symm, rfl, by
        rw [List.append_nil]
        rfl⟩
  · rintro ⟨layout, fits, rfl, rfl, rfl⟩
    cases fits with
    | @single fields fits =>
        have known : fields.tag = tagPut ∨ fields.tag = tagDelete := by
          unfold OpFields.tag
          cases fields.deletes with
          | false => exact Or.inl rfl
          | true => exact Or.inr rfl
        have read : decodeOp fields.tag fields.body = .ok (fields.op, []) :=
          decodeOp_eq_ok_iff.mpr ⟨fields, fits, rfl, rfl, (List.append_nil _).symm⟩
        simp only [decodeBody, Layout.tag, Layout.rest, if_pos known, read, ok_bind]
        rfl
    | @batch fields some count fits =>
        have read : decodeOps fields.length
            (fields.flatMap (fun one => one.tag :: one.body)) =
              .ok (fields.map OpFields.op, []) :=
          decodeOps_eq_ok_iff.mpr ⟨fields, rfl, fits, rfl, (List.append_nil _).symm⟩
        have positive := List.length_pos_iff.mpr some
        have room := length_mul_le_sum (fields.map OpFields.op)
        rw [List.length_map] at room
        have possible : ¬ (fields.length = 0 ∨ fields.length >
            (fields.flatMap (fun one => one.tag :: one.body)).length / 9) := by
          rw [length_flatMap_body]
          omega
        have notOne : ¬ (tagBatch = tagPut ∨ tagBatch = tagDelete) := by decide
        simp only [decodeBody, Layout.tag, Layout.rest, if_neg notOne, if_true,
          takeLe_toLe _ _ count, ok_bind, if_neg possible, read]
        rfl

/-- The decoder accepts the layouts whose fields fit, and reads off their ops. -/
theorem decodePayload_eq_ok_iff {bytes : Bytes} {record : Record} :
    decodePayload bytes = .ok record ↔
      ∃ layout : Layout, layout.Fits ∧ layout.ops = record.ops ∧
        bytes = layout.bytes record.term record.index := by
  constructor
  · intro decoded
    obtain ⟨⟨tag, atTerm⟩, tagRead, afterTag⟩ := bind_eq_ok_iff.mp decoded
    obtain ⟨⟨term, atIndex⟩, termRead, afterTerm⟩ := bind_eq_ok_iff.mp afterTag
    obtain ⟨⟨index, atBody⟩, indexRead, afterIndex⟩ := bind_eq_ok_iff.mp afterTerm
    obtain ⟨⟨ops, left⟩, bodyRead, afterBody⟩ := bind_eq_ok_iff.mp afterIndex
    clear decoded afterTag afterTerm afterIndex
    dsimp only at afterBody
    split_ifs at afterBody with trailing
    cases afterBody
    rw [List.length_eq_zero_iff.mp (not_not.mp trailing)] at bodyRead
    obtain rfl := takeTag_eq_ok_iff.mp tagRead
    obtain ⟨termBound, rfl⟩ := takeLe_eq_ok_iff.mp termRead
    obtain ⟨indexBound, rfl⟩ := takeLe_eq_ok_iff.mp indexRead
    obtain ⟨layout, fits, rfl, rfl, rfl⟩ := decodeBody_eq_ok_iff.mp bodyRead
    refine ⟨layout, fits, rfl, ?_⟩
    rw [Layout.bytes_eq, UInt64.toNat_ofNat_of_lt' termBound,
      UInt64.toNat_ofNat_of_lt' indexBound]
  · rintro ⟨layout, fits, sameOps, rfl⟩
    obtain ⟨term, index, ops⟩ := record
    have bodyRead := decodeBody_eq_ok_iff.mpr ⟨layout, fits, rfl, sameOps, rfl⟩
    rw [Layout.bytes_eq]
    simp only [decodePayload, takeTag_cons, takeLe_u64, ok_bind, bodyRead]
    simp [pure, Except.pure]

/-! ### What the encoder writes -/

theorem Layout.ops_ne_nil {layout : Layout} (fits : layout.Fits) : layout.ops ≠ [] := by
  cases fits with
  | single _ => exact List.cons_ne_nil _ _
  | batch some _ _ => simpa [Layout.ops] using some

theorem Layout.encodePayload_eq {record : Record} {layout : Layout} (fits : layout.Fits)
    (strict : ¬ layout.Loose) (same : layout.ops = record.ops) :
    encodePayload record = layout.bytes record.term record.index := by
  cases fits with
  | @single fields _ =>
      have kept : fields.dropped = [] := by
        by_contra some
        exact strict (.value some)
      unfold encodePayload
      rw [← same]
      simp only [Layout.ops, Layout.bytes, OpFields.opTag_op, OpFields.encodeOpBody_op kept]
  | @batch fields some _ _ =>
      have spelled : (fields.map OpFields.op).flatMap (fun op => opTag op :: encodeOpBody op) =
          fields.flatMap (fun one => one.tag :: one.body) := by
        rw [List.flatMap_map]
        apply List.flatMap_congr
        intro one member
        have kept : one.dropped = [] := by
          by_contra value
          exact strict (.batchValue member value)
        rw [OpFields.opTag_op, OpFields.encodeOpBody_op kept]
      rw [encodePayload, ← same]
      cases fields with
      | nil => exact absurd rfl some
      | cons first rest =>
          cases rest with
          | nil => exact absurd (.batchOne first) strict
          | cons second rest =>
              change _ ++ toLe 4 ((first :: second :: rest).map OpFields.op).length ++
                ((first :: second :: rest).map OpFields.op).flatMap _ = _
              rw [spelled, List.length_map]
              rfl

theorem Layout.Loose.longer {layout : Layout} (loose : layout.Loose) (term index : UInt64) :
    payloadLen layout.ops < (layout.bytes term index).length := by
  cases loose with
  | @value fields dropped =>
      have positive := List.length_pos_iff.mpr dropped
      simp only [Layout.ops, Layout.bytes, payloadLen, List.length_append,
        List.length_singleton, length_toLe, OpFields.length_body_op]
      omega
  | @batchValue fields one member dropped =>
      have positive := List.length_pos_iff.mpr dropped
      have counted : one.dropped.length ≤ (fields.map (fun one => one.dropped.length)).sum :=
        List.le_sum_of_mem (List.mem_map_of_mem member)
      simp only [Layout.ops, Layout.bytes, List.length_append, List.length_singleton,
        length_toLe, length_flatMap_body]
      unfold payloadLen
      split
      · rename_i single
        rw [single]
        simp only [List.map_cons, List.map_nil, List.sum_cons, List.sum_nil]
        omega
      · omega
  | batchOne fields =>
      simp only [Layout.ops, Layout.bytes, List.map_cons, List.map_nil, payloadLen,
        List.length_append, List.length_singleton, length_toLe, length_flatMap_body,
        List.sum_cons, List.sum_nil]
      omega

theorem Layout.fits_of_length {layout : Layout} {term index : UInt64} (some : layout.ops ≠ [])
    (bound : (layout.bytes term index).length ≤ maxPayload) : layout.Fits := by
  unfold maxPayload at bound
  cases layout with
  | single fields =>
      refine .single ⟨?_, ?_⟩
      all_goals
        simp only [Layout.bytes, OpFields.length_body, List.length_append,
          List.length_singleton, length_toLe] at bound
        omega
  | batch fields =>
      have within : ∀ one ∈ fields, one.body.length ≤
          (fields.flatMap (fun one => one.tag :: one.body)).length := by
        intro one member
        obtain ⟨before, after, rfl⟩ := List.append_of_mem member
        simp only [List.flatMap_append, List.flatMap_cons, List.length_append, List.length_cons]
        omega
      have room := length_mul_le_sum (fields.map OpFields.op)
      simp only [Layout.bytes, List.length_append, List.length_singleton, length_toLe] at bound
      refine .batch (by simpa [Layout.ops] using some) ?_ (fun one member => ?_)
      · rw [List.length_map] at room
        rw [length_flatMap_body] at bound
        omega
      · have short := within one member
        rw [OpFields.length_body] at short
        exact ⟨by omega, by omega⟩

/-- A payload decodes to exactly the records it is the encoding of, unless it is
one of the two shapes that only the decoder knows. -/
theorem decodePayload_canonical_iff (bytes : Bytes) (bound : bytes.length ≤ maxPayload) :
    (∀ record, decodePayload bytes = .ok record ↔
        record.ops ≠ [] ∧ bytes = encodePayload record) ↔
      ¬ ∃ term index, ∃ layout : Layout, layout.Loose ∧ bytes = layout.bytes term index := by
  constructor
  · rintro canonical ⟨term, index, layout, loose, rfl⟩
    have some : layout.ops ≠ [] := by
      cases loose with
      | value _ => exact List.cons_ne_nil _ _
      | batchValue member _ => simpa [Layout.ops] using List.ne_nil_of_mem member
      | batchOne _ => exact List.cons_ne_nil _ _
    have decoded : decodePayload (layout.bytes term index) = .ok ⟨term, index, layout.ops⟩ :=
      decodePayload_eq_ok_iff.mpr ⟨layout, Layout.fits_of_length some bound, rfl, rfl⟩
    have encoded := ((canonical _).mp decoded).2
    have longer := loose.longer term index
    rw [encoded, length_encodePayload] at longer
    exact Nat.lt_irrefl _ longer
  · intro strict record
    constructor
    · intro decoded
      obtain ⟨layout, fits, sameOps, rfl⟩ := decodePayload_eq_ok_iff.mp decoded
      refine ⟨sameOps ▸ Layout.ops_ne_nil fits, ?_⟩
      exact (Layout.encodePayload_eq fits
        (fun loose => strict ⟨_, _, layout, loose, rfl⟩) sameOps).symm
    · rintro ⟨nonempty, rfl⟩
      rw [length_encodePayload] at bound
      exact decodePayload_encodePayload ⟨nonempty, bound⟩

/-- The payload of a put is such a payload. -/
theorem decodePayload_canonical_iff_put :
    let bytes := encodePayload ⟨1, 1, [.put [107] [118]]⟩
    bytes.length ≤ maxPayload ∧
      ((∀ record, decodePayload bytes = .ok record ↔
          record.ops ≠ [] ∧ bytes = encodePayload record) ↔
        ¬ ∃ term index, ∃ layout : Layout, layout.Loose ∧ bytes = layout.bytes term index) :=
  ⟨by decide, decodePayload_canonical_iff _ (by decide)⟩

/-- A delete of the key `k` whose value field holds one byte is read as that delete. -/
theorem decodePayload_not_canonical :
    ¬ ∀ (bytes : Bytes) (record : Record), bytes.length ≤ maxPayload →
      (decodePayload bytes = .ok record ↔ record.ops ≠ [] ∧ bytes = encodePayload record) := by
  intro canonical
  let bytes : Bytes :=
    [2, 1, 0, 0, 0, 0, 0, 0, 0, 1, 0, 0, 0, 0, 0, 0, 0, 1, 0, 0, 0, 107, 1, 0, 0, 0, 120]
  have decoded : decodePayload bytes = .ok ⟨1, 1, [.delete [107]]⟩ := by decide +kernel
  have encoded := ((canonical bytes ⟨1, 1, [.delete [107]]⟩ (by decide)).mp decoded).2
  exact absurd encoded (by decide +kernel)

end Keystory.Wal
