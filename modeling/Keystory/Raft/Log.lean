/-
How the append handler reshapes a log.

A log is read through its prefixes: an entry's position and term say which
leader's log it was copied from, and two logs that agree on the term at a
position will turn out to agree on everything before it. The handler itself
compares terms only, so what it computes is first put as one equation: keep what
precedes the message, then either the tail already held or the entries sent.
-/

import Keystory.General.Prefix
import Keystory.Raft.Node

namespace Keystory.Raft

open General

namespace Log

/-! ### Positions -/

theorem get_succ (log : Log) (position : Nat) :
    Log.get log (position + 1) = log[position]? := by
  simp [Log.get]

theorem termOf_succ (log : Log) (position : Nat) :
    Log.termOf log (position + 1) = log[position]?.map LogEntry.selfTerm := by
  rw [Log.termOf, get_succ]

theorem termOf_zero (log : Log) : Log.termOf log 0 = none := rfl

theorem termOf_eq_some_iff (log : Log) (index term : Nat) :
    Log.termOf log index = some term ↔
      ∃ position entry, index = position + 1 ∧ log[position]? = some entry ∧
        entry.selfTerm = term := by
  cases index with
  | zero => simp [termOf_zero]
  | succ position =>
      rw [termOf_succ, Option.map_eq_some_iff]
      constructor
      · rintro ⟨entry, found, same⟩
        exact ⟨position, entry, rfl, found, same⟩
      · rintro ⟨_, entry, samePosition, found, same⟩
        cases samePosition
        exact ⟨entry, found, same⟩

theorem termOf_isSome_iff (log : Log) (index : Nat) :
    (Log.termOf log index).isSome = true ↔ 1 ≤ index ∧ index ≤ log.length := by
  cases index with
  | zero => simp [termOf_zero]
  | succ position =>
      rw [termOf_succ, Option.isSome_map, isSome_getElem?]
      omega

@[simp] theorem lastTerm_nil : Log.lastTerm [] = 0 := rfl

theorem lastTerm_eq_of_getLast (log : Log) (nonempty : log ≠ []) :
    ∃ entry, log[log.length - 1]? = some entry ∧ entry.selfTerm = Log.lastTerm log := by
  refine ⟨log.getLast nonempty, ?_, ?_⟩
  · rw [← List.getLast?_eq_getElem?, List.getLast?_eq_some_getLast nonempty]
  · simp [Log.lastTerm, List.getLast?_eq_some_getLast nonempty]

end Log

/-! ### The append loop -/

/-- The tail after a message: entries held with the term sent are kept, the first
one that differs gives way to everything sent from there on. -/
def overwrite : List LogEntry → List LogEntry → List LogEntry
  | held, [] => held
  | [], sent => sent
  | head :: held, entry :: sent =>
      if head.selfTerm = entry.selfTerm then head :: overwrite held sent
      else entry :: sent

theorem overwrite_nil_left (sent : List LogEntry) : overwrite [] sent = sent := by
  cases sent <;> rfl

theorem appendLoop_eq_overwrite (log : Log) (position : Nat) (entries : List LogEntry)
    (reached : position ≤ log.length) :
    Node.appendLoop log (position + 1) entries =
      log.take position ++ overwrite (log.drop position) entries := by
  induction entries generalizing log position with
  | nil =>
      have whole : overwrite (log.drop position) [] = log.drop position := by
        cases log.drop position <;> rfl
      rw [whole, List.take_append_drop]
      rfl
  | cons entry rest ih =>
      unfold Node.appendLoop
      dsimp only
      rw [Log.termOf_succ]
      by_cases inside : position < log.length
      · have split : log.drop position = log[position] :: log.drop (position + 1) :=
          List.drop_eq_getElem_cons inside
        have found : log[position]? = some log[position] := List.getElem?_eq_getElem inside
        rw [found, Option.map_some]
        dsimp only
        by_cases same : log[position].selfTerm = entry.selfTerm
        · rw [if_pos same, ih log (position + 1) inside, split,
            take_succ_of_getElem? found]
          simp only [overwrite, if_pos same, List.append_assoc, List.cons_append,
            List.nil_append]
        · have cutLength : (Log.truncateFrom log (position + 1) ++ [entry]).length =
              position + 1 := by
            simp only [Log.truncateFrom, Nat.add_sub_cancel, List.length_append,
              List.length_take, List.length_singleton]
            omega
          rw [if_neg same, ih _ (position + 1) (Nat.le_of_eq cutLength.symm),
            List.take_of_length_le (Nat.le_of_eq cutLength),
            List.drop_of_length_le (Nat.le_of_eq cutLength), overwrite_nil_left, split]
          simp only [overwrite, if_neg same, Log.truncateFrom, Nat.add_sub_cancel,
            List.append_assoc, List.cons_append, List.nil_append]
      · have atEnd : position = log.length := by omega
        have missing : log[position]? = none := List.getElem?_eq_none (by omega)
        have grown : (log ++ [entry]).length = position + 1 := by
          rw [List.length_append, List.length_singleton, atEnd]
        rw [missing, Option.map_none]
        dsimp only
        rw [ih (log ++ [entry]) (position + 1) (Nat.le_of_eq grown.symm),
          List.take_of_length_le (Nat.le_of_eq grown),
          List.drop_of_length_le (Nat.le_of_eq grown), overwrite_nil_left,
          List.drop_of_length_le (Nat.le_of_eq atEnd.symm), overwrite_nil_left,
          List.take_of_length_le (Nat.le_of_eq atEnd.symm)]
        simp only [List.append_assoc, List.cons_append, List.nil_append]

def TermsDetermine (left right : List LogEntry) : Prop :=
  ∀ (position : Nat) (leftEntry rightEntry : LogEntry), left[position]? = some leftEntry →
    right[position]? = some rightEntry → leftEntry.selfTerm = rightEntry.selfTerm →
      leftEntry = rightEntry

theorem TermsDetermine.tail {leftHead rightHead : LogEntry} {left right : List LogEntry}
    (determined : TermsDetermine (leftHead :: left) (rightHead :: right)) :
    TermsDetermine left right := by
  intro position leftEntry rightEntry leftAt rightAt sameTerm
  exact determined (position + 1) leftEntry rightEntry leftAt rightAt sameTerm

/-- Where terms determine entries, overwriting keeps a tail that already holds
what was sent and otherwise replaces it by exactly what was sent. -/
theorem overwrite_eq_or (held sent : List LogEntry) (determined : TermsDetermine held sent) :
    (sent <+: held ∧ overwrite held sent = held) ∨
      (¬sent <+: held ∧ overwrite held sent = sent) := by
  induction held generalizing sent with
  | nil =>
      cases sent with
      | nil => exact Or.inl ⟨List.prefix_rfl, rfl⟩
      | cons entry rest =>
          exact Or.inr ⟨by simp, rfl⟩
  | cons head tail ih =>
      cases sent with
      | nil => exact Or.inl ⟨List.nil_prefix, rfl⟩
      | cons entry rest =>
          by_cases same : head.selfTerm = entry.selfTerm
          · have equal : head = entry := determined 0 head entry rfl rfl same
            subst equal
            have step : overwrite (head :: tail) (head :: rest) = head :: overwrite tail rest := by
              simp only [overwrite, if_true]
            rw [step, List.cons_prefix_cons]
            rcases ih rest determined.tail with ⟨held, result⟩ | ⟨missing, result⟩
            · exact Or.inl ⟨⟨rfl, held⟩, by rw [result]⟩
            · exact Or.inr ⟨fun both => missing both.2, by rw [result]⟩
          · refine Or.inr ⟨fun isPrefix => ?_, by simp only [overwrite, if_neg same]⟩
            exact same (by rw [(List.cons_prefix_cons.mp isPrefix).1])

/-- The append loop against the sender's own log: the log is left alone when it
already holds the sender's entries through the message, and otherwise becomes
exactly the sender's log through the message. -/
theorem appendLoop_slice (log source : Log) (position : Nat) (entries : List LogEntry)
    (reached : position ≤ log.length) (agree : log.take position = source.take position)
    (slice : entries <+: source.drop position) (determined : TermsDetermine log source) :
    (source.take (position + entries.length) <+: log ∧
        Node.appendLoop log (position + 1) entries = log) ∨
      (¬source.take (position + entries.length) <+: log ∧
        Node.appendLoop log (position + 1) entries =
          source.take (position + entries.length)) := by
  have sentEq : (source.drop position).take entries.length = entries :=
    List.prefix_iff_eq_take.mp slice |>.symm
  have through : source.take (position + entries.length) = log.take position ++ entries := by
    rw [List.take_add, sentEq, agree]
  have tails : TermsDetermine (log.drop position) entries := by
    intro offset leftEntry rightEntry leftAt rightAt sameTerm
    rw [List.getElem?_drop] at leftAt
    have sourceAt : source[position + offset]? = some rightEntry := by
      rw [← List.getElem?_drop]
      exact getElem?_of_isPrefix slice rightAt
    exact determined (position + offset) leftEntry rightEntry leftAt sourceAt sameTerm
  have heldIff : source.take (position + entries.length) <+: log ↔
      entries <+: log.drop position := by
    rw [through]
    constructor
    · intro isPrefix
      have cut : log.take position ++ entries <+: log.take position ++ log.drop position := by
        rw [List.take_append_drop]
        exact isPrefix
      exact (List.prefix_append_right_inj _).mp cut
    · intro isPrefix
      have joined := (List.prefix_append_right_inj (log.take position)).mpr isPrefix
      rwa [List.take_append_drop] at joined
  rw [heldIff, appendLoop_eq_overwrite log position entries reached]
  rcases overwrite_eq_or (log.drop position) entries tails with ⟨held, result⟩ | ⟨missing, result⟩
  · exact Or.inl ⟨held, by rw [result, List.take_append_drop]⟩
  · exact Or.inr ⟨missing, by rw [result, through]⟩

end Keystory.Raft
