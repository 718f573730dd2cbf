import Pmdk.Lib.Cache

/-!
# Logs of stores and flushes

What is done to the memory of one object, in order: stores, flushes of the lines of a range at
once, and ranges whose lines are gathered and are flushed by a later `finalize`. The object starts
at a line. A byte is `Flushed` if its line was flushed after the last store to it.

A range is given by its first byte and by the byte where it stops, which may be before the first.
-/

namespace FlushLog

open Cache (line lineSize)

inductive Event where
  | write (start stop : Nat)
  | flush (start stop : Nat)
  | gather (start stop : Nat)
  | finalize
deriving DecidableEq

def Reaches (start stop b : Nat) : Prop := line start ≤ line b ∧ line b * lineSize < stop

instance (start stop b : Nat) : Decidable (Reaches start stop b) :=
  inferInstanceAs (Decidable (_ ∧ _))

structure Byte where
  dirty : Bool
  gathered : Bool

def Byte.step (b : Nat) (s : Byte) : Event → Byte
  | .write start stop => { s with dirty := s.dirty || decide (start ≤ b ∧ b < stop) }
  | .flush start stop => { s with dirty := s.dirty && !decide (Reaches start stop b) }
  | .gather start stop => { s with gathered := s.gathered || decide (Reaches start stop b) }
  | .finalize => ⟨s.dirty && !s.gathered, false⟩

def after (log : List Event) (b : Nat) : Byte := log.foldl (Byte.step b) ⟨false, false⟩

def Flushed (log : List Event) (b : Nat) : Prop := (after log b).dirty = false

instance (log : List Event) (b : Nat) : Decidable (Flushed log b) :=
  inferInstanceAs (Decidable (_ = false))

variable {start stop b : Nat} {log : List Event}

theorem after_append (log log' : List Event) (b : Nat) :
    after (log ++ log') b = log'.foldl (Byte.step b) (after log b) := List.foldl_append

/-! ## Lines of a range -/

def StartsLine (start stop : Nat) : Prop := (start + (lineSize - 1)) / lineSize * lineSize < stop

instance (start stop : Nat) : Decidable (StartsLine start stop) :=
  inferInstanceAs (Decidable (_ < _))

theorem reaches_of_mem (hle : start ≤ b) (hlt : b < stop) : Reaches start stop b := by
  simp only [Reaches, line, lineSize]
  omega

theorem forall_reaches_iff {start last stop : Nat} (hlast : start ≤ last) :
    (∀ b, start ≤ b → b < stop → Reaches start last b) ↔ ¬ StartsLine last stop := by
  simp only [Reaches, line, StartsLine, lineSize]
  constructor
  · intro h hstarts
    have hline := h ((last + (64 - 1)) / 64 * 64) (by omega) hstarts
    omega
  · intro h b hle hlt
    omega

/-! ## Bytes at the end of a log -/

theorem flushed_finalize_iff : Flushed (log ++ [.finalize]) b ↔
    ((after log b).dirty = true → (after log b).gathered = true) := by
  rw [Flushed, after_append]
  simp [Byte.step]

@[simp] theorem dirty_append_flush : (after (log ++ [.flush start stop]) b).dirty = true ↔
    (after log b).dirty = true ∧ ¬ Reaches start stop b := by
  simp [after_append, Byte.step]

@[simp] theorem dirty_nil : (after [] b).dirty = false := rfl

@[simp] theorem gathered_nil : (after [] b).gathered = false := rfl

theorem flushed_of_flush (hle : start ≤ b) (hlt : b < stop) :
    Flushed (log ++ [.flush start stop] ++ [.finalize]) b := by
  rw [flushed_finalize_iff, dirty_append_flush]
  intro hdirty
  exact absurd (reaches_of_mem hle hlt) hdirty.2

end FlushLog
