import Mathlib.Algebra.Order.Ring.Nat
import Mathlib.Data.List.Basic

/-!
# The transaction state machine of `tx.c`

A thread has one `struct tx`. `Thread` keeps its control fields, the number of records on
`tx_entries`, and the `nest_count` that `lane_hold` and `lane_release` maintain for the thread. The
records only differ in the `jmp_buf`, which is zeroed when the caller passes no environment.

What a call does to the pool is recorded in `log`: taking and giving back the lane, applying the
undo log, cancelling and publishing the reserved actions. A call is answered with `none` when the
code stops the process, either through `FATAL` or by following a null pointer.
-/

namespace Pmdk.Tx

inductive Stage
  | none
  | work
  | onCommit
  | onAbort
  | onFinally
  deriving DecidableEq

/-- The lock types of `enum pobj_tx_param`. -/
inductive LockType
  | mutex
  | rwlock
  deriving DecidableEq

/-- A `tx_lock_data` record. -/
structure Lock where
  lockType : LockType
  addr : Nat
  deriving DecidableEq

inductive Event
  | laneHold
  | laneRelease
  | undoApply
  | cancel
  | preCommit
  | publish
  | postCommit
  | callback (stage : Stage)
  | unlock (lock : Lock)
  deriving DecidableEq

/-- One variadic parameter of `pmemobj_tx_begin`. A lock comes with what its acquisition
answers: whether `Malloc` finds memory for the record, and the return value of
`pmemobj_mutex_lock` or `pmemobj_rwlock_wrlock`. -/
inductive Param
  | cb (cb arg : Nat)
  | lock (lockType : LockType) (addr : Nat) (malloc : Bool) (ret : Int)
  deriving DecidableEq

structure Thread where
  pop : Option Nat
  stage : Stage
  lastErrnum : Int
  lane : Bool
  txLocks : List Lock
  txEntries : Nat
  stageCallback : Option (Nat × Nat)
  nestCount : Nat
  log : List Event
  deriving DecidableEq

/-- A thread that has never started a transaction: `struct tx` is zeroed. -/
def Thread.init : Thread :=
  { pop := .none, stage := .none, lastErrnum := 0, lane := false, txLocks := [],
    txEntries := 0, stageCallback := .none, nestCount := 0, log := [] }

def ECANCELED : Int := 125

def EINVAL : Int := 22

def ENOMEM : Int := 12

def Thread.emit (e : Event) (t : Thread) : Thread :=
  { t with log := t.log ++ [e] }

/-- `lane_hold` stores the lane in `tx->lane`. Only the outermost hold of a thread takes a
lane lock; an inner one counts. -/
def laneHold (t : Thread) : Thread :=
  { t with nestCount := t.nestCount + 1, lane := true }.emit .laneHold

/-- `lane_release`, which is fatal when nothing is held. -/
def laneRelease (t : Thread) : Option Thread :=
  if t.nestCount = 0 then .none
  else some ({ t with nestCount := t.nestCount - 1 }.emit .laneRelease)

/-- `obj_tx_callback` runs the callback at the outermost level only. -/
def objTxCallback (t : Thread) : Option Thread :=
  match t.stageCallback, t.txEntries with
  | .none, _ => some t
  | some _, 0 => .none
  | some _, 1 => some (t.emit (.callback t.stage))
  | some _, _ + 2 => some t

/-- `tx_abort` applies the undo log and cancels the reserved actions. -/
def txAbort (t : Thread) : Thread :=
  (t.emit .undoApply).emit .cancel

def objTxAbort (errnum : Int) (t : Thread) : Option Thread :=
  if t.stage ≠ .work then .none
  else
    let errnum := if errnum = 0 then ECANCELED else errnum
    let t := { t with stage := .onAbort }
    match t.txEntries with
    | 0 => .none
    | 1 =>
      -- the outermost transaction
      (laneRelease (txAbort t)).bind fun t =>
        objTxCallback { t with lane := false, lastErrnum := errnum }
    | _ + 2 => objTxCallback { t with lastErrnum := errnum }

/-- `add_to_tx_and_lock`. A lock whose acquisition fails is put on the list all the same. -/
def addToTxAndLock (lockType : LockType) (addr : Nat) (malloc : Bool) (ret : Int)
    (t : Thread) : Int × Thread :=
  if t.txLocks.any (fun l => l.addr = addr) then (0, t)
  else if malloc = false then (ENOMEM, t)
  else (ret, { t with txLocks := ⟨lockType, addr⟩ :: t.txLocks })

/-- The parameter loop of `pmemobj_tx_begin`. -/
def handleParams : List Param → Thread → Option (Int × Thread)
  | [], t => some (0, t)
  | .cb cb arg :: params, t =>
    if t.stageCallback.any (fun old => old ≠ (cb, arg)) then .none
    else handleParams params { t with stageCallback := some (cb, arg) }
  | .lock lockType addr malloc ret :: params, t =>
    let (err, t) := addToTxAndLock lockType addr malloc ret t
    if err ≠ 0 then some (err, t) else handleParams params t

/-- The `err_abort` label of `pmemobj_tx_begin`. -/
def errAbort (err : Int) (t : Thread) : Option (Int × Thread) :=
  if t.stage = .work then (objTxAbort err t).map (fun t => (err, t))
  else some (err, { t with stage := .onAbort })

/-- The part of `pmemobj_tx_begin` after the stage has been examined. -/
def beginLevel (malloc : Bool) (params : List Param) (t : Thread) : Option (Int × Thread) :=
  if malloc = false then errAbort ENOMEM t
  else
    let t := { t with lastErrnum := 0, txEntries := t.txEntries + 1, stage := .work }
    (handleParams params t).bind fun (err, t) =>
      if err ≠ 0 then errAbort err t else some (0, t)

/-- `pmemobj_tx_begin`, with a null `jmp_buf`. `malloc` tells whether there is memory for the
`tx_data` record. -/
def txBegin (pop : Nat) (malloc : Bool) (params : List Param) (t : Thread) :
    Option (Int × Thread) :=
  match t.stage with
  | .work =>
    if t.pop ≠ some pop then (objTxAbort EINVAL t).map (fun t => (EINVAL, t))
    else beginLevel malloc params t
  | .none =>
    beginLevel malloc params
      { laneHold t with txEntries := 0, txLocks := [], pop := some pop }
  | _ => .none

def txCommit (t : Thread) : Option Thread :=
  if t.stage ≠ .work then .none
  else
    (objTxCallback t).bind fun t =>
      match t.txEntries with
      | 0 => .none
      | 1 =>
        -- the outermost transaction
        (laneRelease (((t.emit .preCommit).emit .publish).emit .postCommit)).bind fun t =>
          objTxCallback { t with lane := false, stage := .onCommit }
      | _ + 2 => objTxCallback { t with stage := .onCommit }

def releaseAndFreeTxLocks (t : Thread) : Thread :=
  { t with log := t.log ++ t.txLocks.map .unlock, txLocks := [] }

/-- The first part of `pmemobj_tx_end`: a registered callback sees the stage
`TX_STAGE_FINALLY`, unless `pmemobj_tx_process` has been there already. -/
def endFinally (t : Thread) : Option Thread :=
  if t.stageCallback.isSome ∧ (t.stage = .onCommit ∨ t.stage = .onAbort) then
    objTxCallback { t with stage := .onFinally }
  else some t

/-- What `pmemobj_tx_end` does once the last `tx_data` record is gone. -/
def endOutermost (t : Thread) : Thread :=
  let t := { releaseAndFreeTxLocks t with pop := .none, stage := .none }
  match t.stageCallback with
  | .none => t
  | some _ => { t with stageCallback := .none }.emit (.callback .none)

def txEnd (t : Thread) : Option (Int × Thread) :=
  if t.stage = .work then .none
  else if t.pop = .none then .none
  else
    (endFinally t).bind fun t =>
      match t.txEntries with
      | 0 => .none
      | 1 =>
        let t := endOutermost { t with txEntries := 0 }
        some (t.lastErrnum, t)
      | n + 2 =>
        -- resume the enclosing level and waterfall the error
        let t := { t with txEntries := n + 1, stage := .work }
        if t.lastErrnum ≠ 0 then
          (objTxAbort t.lastErrnum t).map fun t => (t.lastErrnum, t)
        else some (t.lastErrnum, t)

def txProcess (t : Thread) : Option Thread :=
  match t.stage with
  | .none => .none
  | .work => txCommit t
  | .onAbort | .onCommit => objTxCallback { t with stage := .onFinally }
  | .onFinally => some { t with stage := .none }

inductive Call
  | txBegin (pop : Nat) (malloc : Bool) (params : List Param)
  | txCommit
  | txAbort (errnum : Int)
  | txProcess
  | txEnd
  deriving DecidableEq

/-- A call with its effects and its return value; the functions that return nothing
are given the value `0`. -/
structure Entry where
  call : Call
  events : List Event
  ret : Int
  deriving DecidableEq

def exec : Call → Thread → Option (Int × Thread)
  | .txBegin pop malloc params, t => txBegin pop malloc params t
  | .txCommit, t => (txCommit t).map (fun t => (0, t))
  | .txAbort errnum, t => (objTxAbort errnum t).map (fun t => (0, t))
  | .txProcess, t => (txProcess t).map (fun t => (0, t))
  | .txEnd, t => txEnd t

structure World where
  thread : Thread
  trace : List Entry
  deriving DecidableEq

def World.init : World := ⟨Thread.init, []⟩

def step (c : Call) (w : World) : Option World :=
  (exec c { w.thread with log := [] }).map fun (ret, t) =>
    ⟨t, w.trace ++ [⟨c, t.log, ret⟩]⟩

end Pmdk.Tx
