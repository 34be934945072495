/-
The errors the storage layers report, with the kinds callers tell them apart by.
-/

namespace Keystory

/-- The `io::ErrorKind`s keystory itself reports; `os` stands for whatever kind the
operating system gave a failed call. -/
inductive ErrorKind where
  | invalidData
  | unsupported
  | invalidInput
  | other
  | os
deriving DecidableEq, Repr

structure Failure where
  kind : ErrorKind
  text : String
deriving DecidableEq, Repr

namespace Failure

def invalidData (text : String) : Failure := ⟨.invalidData, text⟩

def unsupported (text : String) : Failure := ⟨.unsupported, text⟩

def invalidInput (text : String) : Failure := ⟨.invalidInput, text⟩

def other (text : String) : Failure := ⟨.other, text⟩

/-- A failed call; the operating system's own text is not modelled. -/
def os : Failure := ⟨.os, "os error"⟩

end Failure

/-! ### Failing calls -/

/-- What becomes of a file-system call: it succeeds, or fails after getting some way. -/
inductive Fate where
  | ok
  | fail (extent : Nat)
deriving DecidableEq

/-- Which failures are considered: none, those that report themselves, or any. -/
inductive Faults where
  | none
  | honest
  | any
deriving DecidableEq, Repr

/-- A probe asks whether a file exists; one that fails is taken for the answer no. -/
def Faults.allow (probe : Bool) : Faults → Fate → Bool
  | .none, fate => fate = .ok
  | .honest, fate => fate = .ok || !probe
  | .any, _ => true

/-! ### Errors in sequence -/

variable {Value Next : Type}

@[simp] theorem ok_bind (value : Value) (next : Value → Except Failure Next) :
    ((Except.ok value : Except Failure Value) >>= next) = next value := rfl

@[simp] theorem error_bind (failure : Failure) (next : Value → Except Failure Next) :
    ((Except.error failure : Except Failure Value) >>= next) = .error failure := rfl

theorem bind_eq_ok_iff {call : Except Failure Value} {next : Value → Except Failure Next}
    {result : Next} :
    (call >>= next) = .ok result ↔ ∃ value, call = .ok value ∧ next value = .ok result := by
  cases call with
  | error failure => simp
  | ok value => simp

end Keystory
