import Pmdk.Obj.Palloc
import Pmdk.Obj.Tx
import Pmdk.Obj.TxRange

/-!
# The actions of a transaction

`pmemobj_tx_alloc`, `pmemobj_tx_free` and `pmemobj_tx_realloc` keep what they have reserved in the
vector `tx->actions`, and `tx_abort` cancels what is there. A run is the life of one transaction;
inner levels are begun and ended by the calls of `Tx`.

Each step that can fail comes with its answer.
-/

namespace Pmdk.TxActions

open Extend (Block)
open Palloc
open Tx (Thread Event)
open TxRange (maxAllocSize vecErase)

/-- The transaction, and the heap. `ranges` are the keys of the tree. `reserved` are the huge blocks
that the transaction has got from `palloc_reserve` and has not given back by `pmemobj_tx_free`. -/
structure State where
  thread : Thread
  heap : Heap
  actions : List Action
  capacity : Nat
  ranges : List Nat
  reserved : List Block

def State.begin (t : Thread) (heap : Heap) : State where
  thread := { t with log := [] }
  heap := heap
  actions := []
  capacity := 0
  ranges := []
  reserved := []

/-- `tx_abort`, without the undo log. -/
def State.txAbort (mallocs : List Bool) (s : State) : Option State :=
  (pallocCancel mallocs s.actions s.heap).map fun heap =>
    { s with heap, actions := [], ranges := [] }

/-- `tx_abort` was called. -/
def Aborted (t : Thread) : Prop := Event.cancel ∈ t.log

instance (t : Thread) : Decidable (Aborted t) := inferInstanceAs (Decidable (_ ∈ _))

def State.follow (mallocs : List Bool) (s : State) (t : Thread) : Option State :=
  if Aborted t then (s.txAbort mallocs).map fun s => { s with thread := t }
  else some { s with thread := t }

def State.objTxAbort (errnum : Int) (mallocs : List Bool) (s : State) : Option State :=
  (Tx.objTxAbort errnum s.thread).bind (s.follow mallocs)

def VEC_INIT_SIZE : Nat := 64

/-- What `tx_action_add` returns: no action, a place outside of the vector, or the last place of the
vector with the actions before it. -/
inductive Slot
  | null
  | wild
  | back (rest : List Action) (capacity : Nat)

/-- `tx_action_add`. The value of `VEC_INC_BACK` is not looked at, so the last action is returned
when there is no memory for a new one. -/
def txActionAdd (log vec : Bool) (s : State) : Slot :=
  if log = false then .null
  else if s.capacity = s.actions.length then
    if vec then .back s.actions (if s.capacity * 2 = 0 then VEC_INIT_SIZE else s.capacity * 2)
    else if s.actions = [] then .wild
    else .back s.actions.dropLast s.capacity
  else .back s.actions s.capacity

/-- The answers for `tx_alloc_common`: the room in the log, the memory for the vector, the
reservation, and the memory for the node of the tree. -/
structure AllocAnswers where
  log : Bool
  vec : Bool
  search : List Search
  outcome : Outcome
  malloc : Bool
  deriving DecidableEq

/-- The answers for `pmemobj_tx_free`, with the value of `errno` when the log has no room. -/
structure FreeAnswers where
  log : Bool
  vec : Bool
  errno : Int
  deriving DecidableEq

/-- A `PMEMoid`, of the same pool or of another one. -/
structure Oid where
  off : Nat
  samePool : Bool
  deriving DecidableEq

/-- `tx_alloc_common`, with the offset that it returns. -/
def txAllocCommon (size : Nat) (a : AllocAnswers) (mallocs : List Bool) (s : State) :
    Option (Option Nat × State) :=
  if size > maxAllocSize then (s.objTxAbort Tx.ENOMEM mallocs).map fun s => (none, s)
  else
    match txActionAdd a.log a.vec s with
    | .null => (s.objTxAbort Tx.ENOMEM mallocs).map fun s => (none, s)
    | .wild => none
    | .back rest capacity =>
      match pallocReserve a.search a.outcome s.heap with
      | (none, heap) =>
        -- `tx_action_remove`
        ({ s with heap, actions := rest, capacity }.objTxAbort Tx.ENOMEM mallocs).map
          fun s => (none, s)
      | (some act, heap) =>
        let s := { s with heap, capacity, reserved := act.reserved.toList ++ s.reserved }
        if a.malloc = false ∨ act.offset ∈ s.ranges then
          -- the same label, with the reservation made
          ({ s with actions := rest }.objTxAbort Tx.ENOMEM mallocs).map fun s => (none, s)
        else
          some (some act.offset,
            { s with actions := rest ++ [act], ranges := act.offset :: s.ranges })

def txAlloc (size : Nat) (a : AllocAnswers) (mallocs : List Bool) (s : State) :
    Option (Option Nat × State) :=
  if s.thread.stage ≠ .work then none
  else if size = 0 then (s.objTxAbort Tx.EINVAL mallocs).map fun s => (none, s)
  else txAllocCommon size a mallocs s

/-- The action that `pmemobj_tx_free` finds for an object of the same transaction. -/
def State.findAction (s : State) (off : Nat) : Option Nat :=
  if off ∈ s.ranges then s.actions.findIdx? (·.offset = off) else none

def State.cancelAction (i : Nat) (off : Nat) (mallocs : List Bool) (s : State) : Option State :=
  s.actions[i]?.bind fun act =>
    (pallocCancel mallocs [act] s.heap).map fun heap =>
      { s with
        heap
        actions := vecErase s.actions i
        ranges := s.ranges.erase off
        reserved := if mallocs.headD true then
          act.reserved.elim s.reserved s.reserved.erase else s.reserved }

def txFree (oid : Oid) (f : FreeAnswers) (mallocs : List Bool) (s : State) :
    Option (Int × State) :=
  if s.thread.stage ≠ .work then none
  else if oid.off = 0 then some (0, s)
  else if oid.samePool = false then
    (s.objTxAbort Tx.EINVAL mallocs).map fun s => (Tx.EINVAL, s)
  else
    match s.findAction oid.off with
    | some i => (s.cancelAction i oid.off mallocs).map fun s => (0, s)
    | none =>
      match txActionAdd f.log f.vec s with
      | .null => (s.objTxAbort f.errno mallocs).map fun s => (f.errno, s)
      | .wild => none
      | .back rest capacity =>
        some (0, { s with actions := rest ++ [pallocDeferFree oid.off], capacity })

/-- `pmemobj_tx_realloc`. When the free fails, `obj_tx_abort` has run; if it has jumped to the
environment of the level, the rest of the function is not reached. After an abort of the outermost
level `VEC_POP_BACK` finds an empty vector, and nothing looks at its size before `VEC_DELETE`. -/
def txRealloc (oid : Oid) (size : Nat) (a : AllocAnswers) (f : FreeAnswers) (jumps : Bool)
    (mallocs : List Bool) (s : State) : Option State :=
  if s.thread.stage ≠ .work then none
  else if size > maxAllocSize then s.objTxAbort Tx.ENOMEM mallocs
  else if oid.off = 0 then (txAllocCommon size a mallocs s).map Prod.snd
  else if size = 0 then (txFree oid f mallocs s).map Prod.snd
  else
    (txAllocCommon size a mallocs s).bind fun new =>
      match new.1 with
      | none => some new.2
      | some _ =>
        (txFree oid f mallocs new.2).map fun r =>
          if r.1 ≠ 0 ∧ jumps = false then { r.2 with actions := r.2.actions.dropLast }
          else r.2

inductive Call
  | tx (c : Tx.Call)
  | alloc (size : Nat) (a : AllocAnswers)
  | free (oid : Oid) (f : FreeAnswers)
  | realloc (oid : Oid) (size : Nat) (a : AllocAnswers) (f : FreeAnswers) (jumps : Bool)
  deriving DecidableEq

structure Act where
  call : Call
  mallocs : List Bool
  deriving DecidableEq

def leaves (c : Tx.Call) (t : Thread) : Prop :=
  match c with
  | .txBegin _ _ _ => t.stage = .none
  | .txEnd => t.txEntries = 1
  | _ => False

instance (c : Tx.Call) (t : Thread) : Decidable (leaves c t) := by
  unfold leaves
  split <;> infer_instance

def State.settle (s : State) : State :=
  { s with
    thread := { s.thread with log := [] }
    reserved := if Aborted s.thread then [] else s.reserved }

def step (a : Act) (s : State) : Option State :=
  let s := s.settle
  match a.call with
  | .tx c =>
    if leaves c s.thread then none
    else
      (Tx.exec c s.thread).bind fun r =>
        if Event.publish ∈ r.2.log then none else s.follow a.mallocs r.2
  | .alloc size al => (txAlloc size al a.mallocs s).map Prod.snd
  | .free oid f => (txFree oid f a.mallocs s).map Prod.snd
  | .realloc oid size al f jumps => txRealloc oid size al f jumps a.mallocs s

end Pmdk.TxActions
