import Pmdk.Lib.Run
import Mathlib.Data.Nat.Pairing

/-!
# The shutdown state of a replica

The functions of `shutdown_state.c` as lists of stores and deep flushes, so that the process can
be killed between any two of them. The structure is seen as the stores have left it as long as
the power is on; an ADR failure loses what was not flushed. The sum of the DIMMs' unsafe shutdown
counts is a counter, and the checksum is a parameter.
-/

namespace Pmdk.Shutdown

open Transition

/-- `struct shutdown_state`. Its reserved bytes are always zero. -/
structure Sds where
  usc : Nat
  uuid : Nat
  dirty : Nat
  checksum : Nat
  deriving DecidableEq

namespace Sds

def zero : Sds := ⟨0, 0, 0, 0⟩

end Sds

inductive Field
  | usc
  | uuid
  | dirty
  | checksum
  deriving DecidableEq

/-- A store to the structure, a deep flush of it, or the store to `sds_dirty_modified`. -/
inductive Op
  | clear (field : Field)
  | usc (v : Nat)
  | uuid (v : Nat)
  | dirty (v : Nat)
  | checksum
  | flush
  | markModified
  deriving DecidableEq

section Functions

variable (csum : Nat → Nat → Nat → Nat)

def Sds.sum (s : Sds) : Nat := csum s.usc s.uuid s.dirty

def Sds.verifies (s : Sds) : Bool := s.checksum = s.sum csum

def Op.apply (op : Op) (s : Sds) : Sds :=
  match op with
  | .clear .usc => { s with usc := 0 }
  | .clear .uuid => { s with uuid := 0 }
  | .clear .dirty => { s with dirty := 0 }
  | .clear .checksum => { s with checksum := 0 }
  | .usc v => { s with usc := v }
  | .uuid v => { s with uuid := v }
  | .dirty v => { s with dirty := v }
  | .checksum => { s with checksum := s.sum csum }
  | .flush => s
  | .markModified => s

def stateChecksum : List Op := [.checksum, .flush]

/-- `shutdown_state_init`; the words are cleared in the order in which `memset` does it. -/
def stateInit (order : List Field) : List Op := order.map Op.clear ++ stateChecksum

def setDirty : List Op := [.dirty 1, .markModified, .flush] ++ stateChecksum

/-- `shutdown_state_clear_dirty`, when the process has set the flag itself. -/
def clearDirty : List Op := [.dirty 0, .flush] ++ stateChecksum

def stateReinit (curr : Sds) (order : List Field) : List Op :=
  stateInit order ++ [.uuid curr.uuid, .usc curr.usc, .dirty 0, .flush] ++ stateChecksum

/-- The structure that `util_replica_check` fills from the DIMMs. -/
def current (counter uuid : Nat) : Sds := ⟨counter, uuid, 0, csum counter uuid 0⟩

/-- `shutdown_state_check`: what it writes when it returns 0, and `none` when it returns 1. -/
def stateCheck (curr pool : Sds) (order : List Field) : Option (List Op) :=
  if pool = .zero ∧ curr ≠ .zero then some (stateReinit curr order)
  else if ¬ pool.verifies csum then some (stateReinit curr order)
  else if pool.usc = curr.usc ∧ pool.uuid = curr.uuid then
    if pool.dirty = 0 then some [] else some (stateReinit curr order)
  else if pool.dirty = 0 then some (stateReinit curr order)
  else none

end Functions

inductive Phase
  | none
  | opening (todo : List Op)
  | failed
  | used
  | draining
  | closing (todo : List Op)
  deriving DecidableEq

/-- The structure, what it was since it was last flushed, and the process with
`sds_dirty_modified`. The last three fields are about the last session: it completed
`shutdown_state_set_dirty`, it came to `shutdown_state_clear_dirty`, it was killed. -/
structure State where
  sds : Sds
  unflushed : List Sds
  counter : Nat
  phase : Phase
  modified : Bool
  isDirty : Bool
  clearing : Bool
  killed : Bool
  deriving DecidableEq

inductive Event
  | check (order : List Field)
  | tick
  | close
  | kill
  | adr (left : Sds)
  deriving DecidableEq

def State.exec (csum : Nat → Nat → Nat → Nat) (op : Op) (s : State) : State :=
  let sds := op.apply csum s.sds
  { s with
    sds
    unflushed := if op = .flush then [sds] else sds :: s.unflushed
    modified := s.modified || op = .markModified }

def State.leaves (s : State) (left : Sds) : Prop :=
  left.usc ∈ s.unflushed.map Sds.usc ∧ left.uuid ∈ s.unflushed.map Sds.uuid ∧
    left.dirty ∈ s.unflushed.map Sds.dirty ∧ left.checksum ∈ s.unflushed.map Sds.checksum

instance (s : State) (left : Sds) : Decidable (s.leaves left) :=
  inferInstanceAs (Decidable (_ ∧ _ ∧ _ ∧ _))

def step (csum : Nat → Nat → Nat → Nat) (uuid : Nat) (e : Event) (s : State) : Option State :=
  match e, s.phase with
  | .check order, .none =>
    if order.Perm [.usc, .uuid, .dirty, .checksum] then
      let s := { s with modified := false, isDirty := false, clearing := false, killed := false }
      match stateCheck csum (current csum s.counter uuid) s.sds order with
      | none => some { s with phase := .failed }
      | some ops => some { s with phase := .opening (ops ++ setDirty) }
    else none
  | .tick, .opening [] => some { s with phase := .used, isDirty := true }
  | .tick, .opening (op :: todo) => some { s.exec csum op with phase := .opening todo }
  | .tick, .draining => some { s with
      phase := .closing (if s.modified then clearDirty else [])
      clearing := true }
  | .tick, .closing [] => some { s with phase := .none }
  | .tick, .closing (op :: todo) => some { s.exec csum op with phase := .closing todo }
  | .close, .failed => some { s with phase := .draining }
  | .close, .used => some { s with phase := .draining }
  | .kill, .none => none
  | .kill, _ => some { s with phase := .none, killed := true }
  | .adr left, phase =>
    if s.leaves left then some { s with
      sds := left
      unflushed := [left]
      counter := s.counter + 1
      phase := .none
      killed := s.killed || phase ≠ .none }
    else none
  | _, _ => none

def init (csum : Nat → Nat → Nat → Nat) (uuid counter : Nat) : State where
  sds := current csum counter uuid
  unflushed := [current csum counter uuid]
  counter := counter
  phase := .none
  modified := false
  isDirty := false
  clearing := false
  killed := false

/-- An ADR failure in this state must not go unnoticed: `shutdown_state_set_dirty` was completed,
`shutdown_state_clear_dirty` was not reached, and no other session has begun. -/
def State.inUse (s : State) : Bool := s.isDirty && !s.clearing

structure Ideal (csum : Nat → Nat → Nat → Nat) : Prop where
  inj : ∀ {u i d u' i' d'}, csum u i d = csum u' i' d' → u = u' ∧ i = i' ∧ d = d'
  zero : csum 0 0 0 = 0

end Pmdk.Shutdown
