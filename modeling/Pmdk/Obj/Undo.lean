import Pmdk.Lib.Run
import Pmdk.Obj.Ulog

/-!
# The undo log of a lane

The operation context of the undo log (`memops.c`), how a transaction appends buffers to the log,
and how the log is emptied by a commit, an abort or the recovery after a crash. Every action makes
at most one change to the persistent state, so that a crash may come between any two of them. Then
the pool is opened again: `lane_boot` creates the context of the lane, and
`lane_recover_and_section_boot` recovers the log through a context of its own.

Where the code would follow a null pointer or read a block that was freed, the answer is `none`.
-/

namespace Pmdk.Undo

structure Pool where
  undo : Ulog
  blocks : Nat → Option Ulog
  size : Nat

inductive Loc
  | base
  | ext (offset : Nat)
  deriving DecidableEq

def Pool.get (p : Pool) : Loc → Option Ulog
  | .base => some p.undo
  | .ext offset => p.blocks offset

def Pool.set (p : Pool) (u : Ulog) : Loc → Pool
  | .base => { p with undo := u }
  | .ext offset => { p with blocks := Function.update p.blocks offset (some u) }

def laneUndoSize : Nat := 2048

def Pool.chain (p : Pool) : Option (List (Nat × Ulog)) :=
  Ulog.chain p.blocks (p.size + 1) p.undo.next

def Pool.foreachEntry (p : Pool) : Option (List (List UInt64)) :=
  Ulog.foreachEntry p.blocks (p.size + 1) p.undo

/-! ## The operation context -/

/-- The fields of `struct operation_context` that matter to an undo log. -/
structure Ctx where
  next : List Nat
  ulogCapacity : Nat
  curr : Option Loc
  currOffset : Nat
  currCapacity : Nat
  totalLogged : Nat
  deriving DecidableEq

def operationNew (baseNbytes : Nat) (p : Pool) : Option Ctx :=
  p.chain.map fun l =>
    { next := l.map Prod.fst
      ulogCapacity := baseNbytes + (l.map fun x => x.2.capacity).sum
      curr := none, currOffset := 0, currCapacity := 0, totalLogged := 0 }

def Ctx.init (ctx : Ctx) : Ctx :=
  { ctx with curr := none, currOffset := 0, currCapacity := 0, totalLogged := 0 }

/-- The capacity that `ulog_reserve` counts along the vector of offsets. -/
def reserved (baseNbytes : Nat) (p : Pool) : List Nat → Option Nat
  | [] => some baseNbytes
  | offset :: next =>
    (p.blocks offset).bind fun u => (reserved baseNbytes p next).map (u.capacity + ·)

/-- The ulog to which `ulog_reserve` chains a new one. -/
def Ctx.last (ctx : Ctx) : Loc :=
  match ctx.next.getLast? with
  | none => .base
  | some offset => .ext offset

/-- The choice of the current ulog in `operation_add_buffer`, for a buffer of `size` bytes.
This is refused while `ulog_reserve` has to extend the log. -/
def Ctx.select (ctx : Ctx) (p : Pool) (size : Nat) : Option Ctx :=
  if ctx.currCapacity ≠ 0 then some ctx
  else
    let newCapacity := ctx.totalLogged + (size + 24)
    let capacity? := if newCapacity > ctx.ulogCapacity then
        (reserved laneUndoSize p ctx.next).filter (newCapacity ≤ ·)
      else some ctx.ulogCapacity
    capacity?.bind fun ulogCapacity =>
      let loc? := match ctx.curr with
        | none => some Loc.base
        | some loc => (p.get loc).bind fun u => if u.next = 0 then none else some (.ext u.next)
      loc?.bind fun loc => (p.get loc).map fun u =>
        { ctx with ulogCapacity, curr := loc, currOffset := 0, currCapacity := u.capacity }

def Ctx.dataSize (ctx : Ctx) (size : Nat) : Nat := min (size + 24) ctx.currCapacity - 24

def Ctx.advance (ctx : Ctx) (n : Nat) : Ctx :=
  { ctx with
    totalLogged := ctx.totalLogged + n
    currOffset := ctx.currOffset + n
    currCapacity := ctx.currCapacity - n }

/-! ## Emptying the log -/

/-- The changes that `ulog_clobber_data` makes. -/
inductive Write
  | zero (loc : Loc) (nbytes : Nat)
  | freeNext (loc : Loc)
  deriving DecidableEq

/-- One change. `ulog_free` zeroes the `next` field in the step that frees the block. -/
def Write.apply (w : Write) (p : Pool) : Option Pool :=
  match w with
  | .zero loc nbytes => (p.get loc).map fun u => p.set (u.zero nbytes) loc
  | .freeNext loc => (p.get loc).map fun u =>
    ({ p with blocks := Function.update p.blocks u.next none }).set { u with next := 0 } loc

/-- What `ulog_clobber_data` zeroes: the first ulog and the one that `next` names first. -/
def zeroWrites (p : Pool) (nbytes : Nat) (next : List Nat) : Option (List Write) :=
  if nbytes - laneUndoSize = 0 then some [.zero .base (min nbytes laneUndoSize)]
  else next.head?.bind fun offset => (p.blocks offset).map fun u =>
    [.zero .base (min nbytes laneUndoSize),
      .zero (.ext offset) (min (nbytes - laneUndoSize) u.capacity)]

def freeWrites (l : List (Nat × Ulog)) : List Write :=
  (l.dropLast.map fun x => .freeNext (.ext x.1)).reverse

def ulogClobberData (p : Pool) (nbytes : Nat) (next : List Nat) : Option (List Write) :=
  (zeroWrites p nbytes next).bind fun zs => p.chain.map fun l => zs ++ freeWrites l

def finishWrites (p : Pool) (ctx : Ctx) : Option (List Write) :=
  if ctx.totalLogged = 0 then some [] else ulogClobberData p ctx.totalLogged ctx.next

/-! ## The states and actions of a lane -/

/-- The rest of a buffer that is being added, and whether the entry in progress has been stored
but for its first cache line. -/
structure Job where
  dest : Nat
  bytes : List UInt8
  copied : Bool
  deriving DecidableEq

inductive Phase
  | idle
  | work (job : Option Job)
  | finish (todo : List Write) (recovering : Bool)
  deriving DecidableEq

/-- `appended` are the entries that the current transaction has appended. -/
structure State where
  pool : Pool
  ctx : Ctx
  phase : Phase
  appended : List (List UInt64)

def State.init (size : Nat) : State where
  pool := { undo := Ulog.construct laneUndoSize, blocks := fun _ => none, size }
  ctx :=
    { next := [], ulogCapacity := laneUndoSize, curr := none, currOffset := 0,
      currCapacity := 0, totalLogged := 0 }
  phase := .idle
  appended := []

inductive Act
  | begin
  | addBuffer (dest : Nat) (bytes : List UInt8)
  | extend (offset capacity : Nat)
  | copyData
  | copyHead
  | commit
  | abort
  | finish
  | crash
  deriving DecidableEq

/-- `lane_undo_extend` inside of `ulog_reserve`: the heap hands out the block at `offset`. -/
def State.extend (s : State) (size offset capacity : Nat) : Option State :=
  if s.ctx.currCapacity = 0 ∧ s.ctx.totalLogged + (size + 24) > s.ctx.ulogCapacity ∧
      (∃ c ∈ reserved laneUndoSize s.pool s.ctx.next, c < s.ctx.totalLogged + (size + 24)) ∧
      offset ≠ 0 ∧ offset < s.pool.size ∧ (s.pool.blocks offset).isNone ∧
      64 ≤ capacity ∧ capacity % 64 = 0 then
    (s.pool.get s.ctx.last).map fun u =>
      let pool := s.pool.set { u with next := offset } s.ctx.last
      { s with
        pool := { pool with
          blocks := Function.update pool.blocks offset (some (Ulog.construct capacity)) }
        ctx := { s.ctx with next := s.ctx.next ++ [offset] } }
  else none

def entryWords (ctx : Ctx) (job : Job) : List UInt64 :=
  Ulog.bufCreate job.dest (job.bytes.take (ctx.dataSize job.bytes.length))

def State.copyData (s : State) (job : Job) : Option State :=
  (s.ctx.select s.pool job.bytes.length).bind fun ctx =>
    ctx.curr.bind fun loc => (s.pool.get loc).map fun u =>
      { s with
        pool := s.pool.set
          (u.store (ctx.currOffset / 8 + 8) ((entryWords ctx job).drop 8)) loc
        ctx
        phase := .work (some { job with copied := true }) }

def State.copyHead (s : State) (job : Job) : Option State :=
  s.ctx.curr.bind fun loc => (s.pool.get loc).map fun u =>
    let words := entryWords s.ctx job
    let n := s.ctx.dataSize job.bytes.length
    { s with
      pool := s.pool.set (u.store (s.ctx.currOffset / 8) (words.take 8)) loc
      ctx := s.ctx.advance (words.length * 8)
      phase := .work (if (job.bytes.drop n).isEmpty then none
        else some ⟨job.dest + n, job.bytes.drop n, false⟩)
      appended := s.appended ++ [words] }

/-- The effect of `palloc_publish` on the log: if there is a snapshot, the offset of the first
entry is set to zero. -/
def State.publish (s : State) : Pool :=
  if s.appended.isEmpty then s.pool
  else { s.pool with undo := s.pool.undo.store 0 [0] }

/-- A crash, and the recovery up to the changes of `ulog_clobber_data`. -/
def State.crash (s : State) : Option State :=
  (operationNew laneUndoSize s.pool).bind fun ctx => s.pool.undo.baseNbytes.bind fun n =>
    s.pool.foreachEntry.bind fun _ =>
      (finishWrites s.pool { ctx with totalLogged := n }).map fun todo =>
        { s with ctx, phase := .finish todo true, appended := [] }

def step (a : Act) (s : State) : Option State :=
  match a, s.phase with
  | .begin, .idle => some { s with ctx := s.ctx.init, phase := .work none, appended := [] }
  | .addBuffer dest bytes, .work none =>
    if bytes ≠ [] ∧ dest + bytes.length < 2 ^ 61 then
      some { s with phase := .work (some ⟨dest, bytes, false⟩) }
    else none
  | .extend offset capacity, .work (some ⟨_, bytes, false⟩) =>
    s.extend bytes.length offset capacity
  | .copyData, .work (some ⟨dest, bytes, false⟩) => s.copyData ⟨dest, bytes, false⟩
  | .copyHead, .work (some ⟨dest, bytes, true⟩) => s.copyHead ⟨dest, bytes, true⟩
  | .commit, .work none =>
    (finishWrites s.publish s.ctx).map fun todo =>
      { s with pool := s.publish, phase := .finish todo false }
  | .abort, .work none =>
    (finishWrites s.pool s.ctx).map fun todo => { s with phase := .finish todo false }
  | .abort, .work (some ⟨_, _, false⟩) =>
    (finishWrites s.pool s.ctx).map fun todo => { s with phase := .finish todo false }
  | .finish, .finish (w :: todo) recovering =>
    (w.apply s.pool).map fun pool => { s with pool, phase := .finish todo recovering }
  | .finish, .finish [] true => some { s with phase := .idle }
  | .finish, .finish [] false =>
    if s.ctx.totalLogged = 0 then some { s with phase := .idle }
    else (operationNew laneUndoSize s.pool).map fun ctx =>
      { s with
        ctx := { s.ctx with next := ctx.next, ulogCapacity := ctx.ulogCapacity }
        phase := .idle }
  | .crash, _ => s.crash
  | _, _ => none

end Pmdk.Undo
