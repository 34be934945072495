/-
Bounded reads from a byte string, shared by the decoders of the on-disk formats.
-/

import Keystory.General.LittleEndian
import Keystory.Storage.Failure
import Keystory.Types

namespace Keystory

open General

/-- A cursor is the rest of the bytes; each read checks what remains. -/
def takeBytes (count : Nat) (what : String) (cursor : Bytes) : Except Failure (Bytes × Bytes) :=
  if cursor.length < count then .error (.invalidData what)
  else .ok (cursor.take count, cursor.drop count)

/-- The cursor's `u8`, `u32` and `u64`: a number of `width` bytes. -/
def takeLe (width : Nat) (what : String) (cursor : Bytes) : Except Failure (Nat × Bytes) := do
  let (bytes, cursor) ← takeBytes width what cursor
  return (ofLe bytes, cursor)

theorem takeBytes_append {count : Nat} {chunk : Bytes} (what : String) (rest : Bytes)
    (width : chunk.length = count) : takeBytes count what (chunk ++ rest) = .ok (chunk, rest) := by
  have enough : ¬ (chunk ++ rest).length < count := by
    rw [List.length_append]
    omega
  rw [takeBytes, if_neg enough, ← width, List.take_left, List.drop_left]

theorem takeLe_toLe {width number : Nat} (what : String) (rest : Bytes)
    (bound : number < 256 ^ width) :
    takeLe width what (toLe width number ++ rest) = .ok (number, rest) := by
  rw [takeLe, takeBytes_append what rest (length_toLe width number)]
  change Except.ok (ofLe (toLe width number), rest) = _
  rw [ofLe_toLe bound]

theorem takeLe_u64 (what : String) (number : UInt64) (rest : Bytes) :
    takeLe 8 what (toLe 8 number.toNat ++ rest) = .ok (number.toNat, rest) :=
  takeLe_toLe what rest number.toNat_lt

theorem takeBytes_eq_ok_iff {count : Nat} {what : String} {cursor chunk rest : Bytes} :
    takeBytes count what cursor = .ok (chunk, rest) ↔
      chunk.length = count ∧ cursor = chunk ++ rest := by
  constructor
  · intro read
    unfold takeBytes at read
    split at read
    case isTrue => cases read
    case isFalse enough =>
        obtain ⟨taken, left⟩ := Prod.mk.inj (Except.ok.inj read)
        rw [← taken, ← left]
        exact ⟨List.length_take_of_le (Nat.not_lt.mp enough),
          (List.take_append_drop count cursor).symm⟩
  · rintro ⟨width, rfl⟩
    exact takeBytes_append what rest width

theorem takeLe_eq_ok_iff {width number : Nat} {what : String} {cursor rest : Bytes} :
    takeLe width what cursor = .ok (number, rest) ↔
      number < 256 ^ width ∧ cursor = toLe width number ++ rest := by
  constructor
  · intro read
    obtain ⟨⟨chunk, left⟩, taken, value⟩ := bind_eq_ok_iff.mp read
    obtain ⟨length, rfl⟩ := takeBytes_eq_ok_iff.mp taken
    obtain ⟨rfl, rfl⟩ := Prod.mk.inj (Except.ok.inj value)
    refine ⟨?_, by rw [toLe_ofLe length]⟩
    rw [← length]
    exact ofLe_lt chunk
  · rintro ⟨bound, rfl⟩
    exact takeLe_toLe what rest bound

/-! ### Readers that stop by themselves -/

/-- What the reader accepts does not depend on what comes after it, and is left over. -/
def SelfDelimiting {Value : Type} (reader : Bytes → Except Failure (Value × Bytes)) : Prop :=
  ∀ cursor value rest, reader cursor = .ok (value, rest) →
    ∀ more, reader (cursor ++ more) = .ok (value, rest ++ more)

section Readers

variable {Value Next : Type}

theorem selfDelimiting_pure (value : Value) :
    SelfDelimiting (fun cursor => (pure (value, cursor) : Except Failure (Value × Bytes))) := by
  intro cursor result rest read more
  cases read
  rfl

theorem selfDelimiting_throw (failure : Failure) :
    SelfDelimiting (fun _ => (throw failure : Except Failure (Value × Bytes))) := by
  intro cursor result rest read more
  cases read

theorem SelfDelimiting.bind {reader : Bytes → Except Failure (Value × Bytes)}
    {next : Value × Bytes → Except Failure (Next × Bytes)} (first : SelfDelimiting reader)
    (later : ∀ value, SelfDelimiting (fun cursor => next (value, cursor))) :
    SelfDelimiting (fun cursor => reader cursor >>= next) := by
  intro cursor result rest read more
  cases step : reader cursor with
  | error failure =>
      simp only [step, error_bind] at read
      cases read
  | ok middle =>
      obtain ⟨value, left⟩ := middle
      simp only [step, ok_bind] at read
      simp only [first cursor value left step more, ok_bind]
      exact later value left result rest read more

theorem selfDelimiting_ite {condition : Prop} [Decidable condition]
    {yes no : Bytes → Except Failure (Value × Bytes)} (ifYes : SelfDelimiting yes)
    (ifNo : SelfDelimiting no) :
    SelfDelimiting (fun cursor => if condition then yes cursor else no cursor) := by
  by_cases holds : condition
  · simp only [holds, if_true]
    exact ifYes
  · simp only [holds, if_false]
    exact ifNo

theorem selfDelimiting_takeBytes (count : Nat) (what : String) :
    SelfDelimiting (takeBytes count what) := by
  intro cursor value rest read more
  obtain ⟨width, rfl⟩ := takeBytes_eq_ok_iff.mp read
  rw [List.append_assoc]
  exact takeBytes_append what (rest ++ more) width

theorem selfDelimiting_takeLe (width : Nat) (what : String) :
    SelfDelimiting (takeLe width what) :=
  (selfDelimiting_takeBytes width what).bind (fun bytes => selfDelimiting_pure (ofLe bytes))

end Readers

end Keystory
