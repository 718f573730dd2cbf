import Pmdk.Obj.Undo

/-!
# The lanes of a pool

Every lane has two redo logs and an undo log, and an operation context for each of them. The redo
log `external` and the undo log are extended by ulogs from the heap. The `next` field of a ulog is
changed through the redo log `internal` of a lane: the change is stored there, made, and then the
log is emptied. A crash may come between any two of these steps.

Of the entries of a redo log only their number matters and what they do to the logs themselves.
-/

namespace Pmdk.Lanes

open Undo (Loc Ctx Job Write laneUndoSize)
open Function

/-! ## The persistent state -/

inductive Slot
  | internal
  | external
  | undo
  deriving DecidableEq

/-- `LANE_REDO_INTERNAL_SIZE`, `LANE_REDO_EXTERNAL_SIZE` and `LANE_UNDO_SIZE`. -/
def Slot.size : Slot → Nat
  | .internal => 192
  | .external => 640
  | .undo => laneUndoSize

structure Log where
  lane : Nat
  slot : Slot
  deriving DecidableEq

/-- What the entries of a redo log do to the logs: `pmalloc_construct` chains a new ulog to the
one at `loc`, `pfree` frees the ulog behind the one at `loc`, and `palloc_publish` may set the
offset of the first undo entry of a transaction to zero. -/
inductive Change
  | link (log : Log) (loc : Loc) (offset capacity : Nat)
  | unlink (log : Log) (loc : Loc) (offset : Nat)
  | publish (lane : Nat) (first : Bool)
  deriving DecidableEq

/-- What a redo log holds, before and after `ulog_process`. -/
inductive Redo
  | empty
  | stored (c : Change)
  | processed (c : Change)
  deriving DecidableEq

def Redo.offset : Redo → Option Nat
  | .stored (.link _ _ offset _) | .processed (.link _ _ offset _) => some offset
  | .stored (.unlink _ _ offset) | .processed (.unlink _ _ offset) => some offset
  | _ => none

structure Pool where
  ulog : Log → Ulog
  redo : Log → Redo
  blocks : Nat → Option Ulog
  size : Nat
  nlanes : Nat

def Pool.view (p : Pool) (k : Log) : Undo.Pool :=
  { undo := p.ulog k, blocks := p.blocks, size := p.size }

def Pool.put (p : Pool) (k : Log) (q : Undo.Pool) : Pool :=
  { p with ulog := update p.ulog k q.undo, blocks := q.blocks }

/-- The stores of `ulog_process`. The new ulog has been constructed before, so that it is there
also when the change is made a second time. -/
def Change.apply (p : Pool) : Change → Option Pool
  | .link k loc offset capacity => ((p.view k).get loc).map fun u =>
    let q := (p.view k).set { u with next := offset } loc
    p.put k { q with
      blocks := if (q.blocks offset).isNone then
          update q.blocks offset (some (Ulog.construct capacity))
        else q.blocks }
  | .unlink k loc offset => ((p.view k).get loc).map fun u =>
    p.put k (({ p.view k with blocks := update p.blocks offset none }).set
      { u with next := 0 } loc)
  | .publish i first => some (if first then
      { p with
        ulog := update p.ulog ⟨i, .undo⟩ ((p.ulog ⟨i, .undo⟩).store 0 [0]) }
      else p)

def storeNext (blocks : Nat → Option Ulog) : List Nat → List UInt64 → Option (Nat → Option Ulog)
  | _, [] => some blocks
  | [], _ :: _ => none
  | offset :: next, w :: ws => (blocks offset).bind fun u =>
    storeNext
      (update blocks offset (some (u.store 0 ((w :: ws).take (u.capacity / 8)))))
      next ((w :: ws).drop (u.capacity / 8))

def redoWords (ws : List UInt64) : List UInt64 :=
  ws ++ List.replicate (Ulog.cachelineAlign (ws.length * 8 + 8) / 8 - ws.length) 0

/-- `ulog_store`. Up to the store of the checksum the log counts as empty. -/
def Pool.ulogStore (p : Pool) (k : Log) (next : List Nat) (ws : List UInt64) (c : Change) :
    Option Pool :=
  (storeNext p.blocks next ((redoWords ws).drop (k.slot.size / 8))).map fun blocks =>
    let u := (p.ulog k).store 0 ((redoWords ws).take (k.slot.size / 8))
    { p with
      ulog := update p.ulog k
        { u with next := next.head?.getD 0, capacity := k.slot.size }
      redo := update p.redo k (.stored c)
      blocks }

def Pool.ulogClobber (p : Pool) (k : Log) (next : Nat) : Pool :=
  { p with
    ulog := update p.ulog k { p.ulog k with next, capacity := 0 }
    redo := update p.redo k .empty }

def Pool.ulogRecover (p : Pool) (k : Log) : Option Pool :=
  match p.redo k with
  | .empty => some p
  | .stored c | .processed c => (c.apply p).map fun q => q.ulogClobber k (q.ulog k).next

/-! ## The lanes at run time -/

inductive Task
  | none
  | addBuffer (job : Job)
  | reserve (newCapacity : Nat)
  deriving DecidableEq

/-- A transaction, or an operation on the external log outside of one, is open until its
`palloc_publish`; a transaction is finished afterwards. -/
inductive Phase
  | idle
  | open (tx : Bool) (task : Task)
  | process (tx : Bool)
  | finish (todo : List Write)
  deriving DecidableEq

structure Lane where
  ctx : Slot → Ctx
  phase : Phase
  appended : List (List UInt64)

def Lane.setCtx (lane : Lane) (slot : Slot) (ctx : Ctx) : Lane :=
  { lane with ctx := update lane.ctx slot ctx }

def laneInit (p : Pool) (i : Nat) : Option Lane :=
  (Undo.operationNew Slot.internal.size (p.view ⟨i, .internal⟩)).bind fun internal =>
  (Undo.operationNew Slot.external.size (p.view ⟨i, .external⟩)).bind fun external =>
  (Undo.operationNew Slot.undo.size (p.view ⟨i, .undo⟩)).map fun undo =>
    { ctx := fun
        | .internal => internal
        | .external => external
        | .undo => undo
      phase := .idle
      appended := [] }

def Lane.new : Lane where
  ctx slot :=
    { next := [], ulogCapacity := slot.size, curr := none, currOffset := 0, currCapacity := 0,
      totalLogged := 0 }
  phase := .idle
  appended := []

def laneBoot (p : Pool) : Option (Nat → Lane) :=
  if ∀ i < p.nlanes, (laneInit p i).isSome then
    some fun i => (laneInit p i).getD Lane.new
  else none

inductive Mode
  | run
  | replay (lane : Nat)
  | recover (lane : Nat) (todo : Option (List Write))
  deriving DecidableEq

structure State where
  pool : Pool
  lanes : Nat → Lane
  mode : Mode

def State.init (nlanes size : Nat) : State where
  pool :=
    { ulog := fun k => Ulog.construct k.slot.size, redo := fun _ => .empty, blocks := fun _ => none,
      size, nlanes }
  lanes _ := Lane.new
  mode := .run

def State.put (s : State) (i : Nat) (pool : Pool) (lane : Lane) : State :=
  { s with pool, lanes := update s.lanes i lane }

/-! ## The steps -/

/-- The log and the capacity that `operation_reserve` was called for. -/
def Lane.asked (lane : Lane) : Option (Slot × Nat) :=
  match lane.phase with
  | .open _ (.reserve newCapacity) => some (.external, newCapacity)
  | .open true (.addBuffer ⟨_, bytes, false⟩) =>
    if (lane.ctx .undo).currCapacity = 0 then
      some (.undo, (lane.ctx .undo).totalLogged + (bytes.length + 24))
    else none
  | _ => none

/-- The log that `ulog_reserve` has to extend. -/
def State.short (s : State) (i : Nat) : Option Slot :=
  (s.lanes i).asked.bind fun (slot, newCapacity) =>
    let ctx := (s.lanes i).ctx slot
    if newCapacity > ctx.ulogCapacity ∧
        (∃ c ∈ Undo.reserved slot.size (s.pool.view ⟨i, slot⟩) ctx.next, c < newCapacity) then
      some slot
    else none

/-- The heap hands out the block at `offset`, and the redo log of the allocator is stored. -/
def State.extend (s : State) (i offset capacity : Nat) (ws : List UInt64) : Option State :=
  (s.short i).bind fun slot =>
    if offset ≠ 0 ∧ offset < s.pool.size ∧ (s.pool.blocks offset).isNone ∧
        (∀ j < s.pool.nlanes, (s.pool.redo ⟨j, .internal⟩).offset ≠ some offset) ∧
        64 ≤ capacity ∧ capacity % 64 = 0 then
      (s.pool.ulogStore ⟨i, .internal⟩ ((s.lanes i).ctx .internal).next ws
        (.link ⟨i, slot⟩ ((s.lanes i).ctx slot).last offset capacity)).map fun pool =>
          { s with pool }
    else none

/-- The end of `operation_reserve` on the external log. -/
def State.reserved (s : State) (i newCapacity : Nat) (tx : Bool) : Option State :=
  let ctx := (s.lanes i).ctx .external
  ((Undo.reserved Slot.external.size (s.pool.view ⟨i, .external⟩) ctx.next).filter
      (newCapacity ≤ ·)).map fun ulogCapacity =>
    s.put i s.pool
      { (s.lanes i).setCtx .external { ctx with ulogCapacity } with phase := .open tx .none }

/-- The undo log of a lane as it is seen by `operation_add_buffer`. -/
def State.undo (s : State) (i : Nat) (job : Job) : Undo.State where
  pool := s.pool.view ⟨i, .undo⟩
  ctx := (s.lanes i).ctx .undo
  phase := .work (some job)
  appended := (s.lanes i).appended

def State.putUndo (s : State) (i : Nat) (u : Undo.State) : State :=
  s.put i (s.pool.put ⟨i, .undo⟩ u.pool)
    { (s.lanes i).setCtx .undo u.ctx with
      phase := .open true (match u.phase with
        | .work (some job) => .addBuffer job
        | _ => .none)
      appended := u.appended }

def State.finishUndo (s : State) (i : Nat) (pool : Pool) : Option State :=
  (Undo.finishWrites (pool.view ⟨i, .undo⟩) ((s.lanes i).ctx .undo)).map fun todo =>
    s.put i pool { s.lanes i with phase := .finish todo }

/-- After `palloc_publish`. -/
def State.published (s : State) (i : Nat) (tx : Bool) (pool : Pool) : Option State :=
  if tx then s.finishUndo i pool
  else some (s.put i pool { s.lanes i with phase := .idle })

/-- `palloc_publish`, up to the store of the redo log if there is more than one entry. -/
def State.publish (s : State) (i : Nat) (tx : Bool) (ws : List UInt64) : Option State :=
  let first := tx && !(s.lanes i).appended.isEmpty
  match ws with
  | [] => if first then none else s.published i tx s.pool
  | [_] => none
  | [_, _] => ((Change.publish i first).apply s.pool).bind (s.published i tx)
  | ws => (s.pool.ulogStore ⟨i, .external⟩ ((s.lanes i).ctx .external).next ws
      (.publish i first)).map fun pool =>
        s.put i pool { s.lanes i with phase := .process tx }

/-- What a lane does when its operation on the heap is done: `ulog_reserve` goes on with its
vector, and `ulog_clobber_data` with the next ulog. -/
def Lane.processed (lane : Lane) : Change → Lane
  | .link log _ offset _ =>
    lane.setCtx log.slot
      { lane.ctx log.slot with next := (lane.ctx log.slot).next ++ [offset] }
  | .unlink _ _ _ =>
    match lane.phase with
    | .finish todo => { lane with phase := .finish todo.tail }
    | _ => lane
  | .publish _ _ => lane

def State.process (s : State) (k : Log) : Option State :=
  match s.pool.redo k with
  | .stored c => (c.apply s.pool).bind fun pool =>
    let pool := { pool with redo := update pool.redo k (.processed c) }
    match s.mode with
    | .run => some (s.put k.lane pool ((s.lanes k.lane).processed c))
    | .replay _ => none
    | .recover i todo => some { s with pool, mode := .recover i (todo.map List.tail) }
  | _ => none

def State.clobber (s : State) (k : Log) : Option State :=
  match s.pool.redo k with
  | .processed _ =>
    let pool := s.pool.ulogClobber k (((s.lanes k.lane).ctx k.slot).next.head?.getD 0)
    match s.mode, (s.lanes k.lane).phase, k.slot with
    | .replay _, _, _ => none
    | .run, .process tx, .external => s.published k.lane tx pool
    | _, _, _ => some { s with pool }
  | _ => none

/-- One change of `ulog_clobber_data` on the undo log of lane `i`; blocks are freed through the
redo log of lane `j`. -/
def Pool.clobberData (p : Pool) (lanes : Nat → Lane) (i j : Nat) (ws : List UInt64) :
    Write → Option Pool
  | .zero loc nbytes =>
    ((Write.zero loc nbytes).apply (p.view ⟨i, .undo⟩)).map (p.put ⟨i, .undo⟩)
  | .freeNext loc => ((p.view ⟨i, .undo⟩).get loc).bind fun u =>
    p.ulogStore ⟨j, .internal⟩ ((lanes j).ctx .internal).next ws
      (.unlink ⟨i, .undo⟩ loc u.next)

def remaining : List Write → List Write
  | .zero _ _ :: todo => todo
  | todo => todo

/-- The end of `operation_finish` on the undo log. -/
def State.finished (s : State) (i : Nat) : Option State :=
  let lane := s.lanes i
  if (lane.ctx .undo).totalLogged = 0 then some (s.put i s.pool { lane with phase := .idle })
  else (Undo.operationNew Slot.undo.size (s.pool.view ⟨i, .undo⟩)).map fun ctx =>
    s.put i s.pool
      { lane.setCtx .undo
          { lane.ctx .undo with next := ctx.next, ulogCapacity := ctx.ulogCapacity } with
        phase := .idle }

inductive Act
  | begin (i : Nat)
  | start (i : Nat)
  | addBuffer (i dest : Nat) (bytes : List UInt8)
  | reserve (i newCapacity : Nat)
  | extend (i offset capacity : Nat) (ws : List UInt64)
  | reserved (i : Nat)
  | fail (i : Nat)
  | copyData (i : Nat)
  | copyHead (i : Nat)
  | publish (i : Nat) (ws : List UInt64)
  | abort (i : Nat)
  | finish (i : Nat) (ws : List UInt64)
  | process (k : Log)
  | clobber (k : Log)
  | reopen
  | replay
  | recover (j : Nat) (ws : List UInt64)
  deriving DecidableEq

/-- The actions of the lane `i` while the pool is in use. -/
def State.act (s : State) (i : Nat) (a : Act) : Option State :=
  let lane := s.lanes i
  match a, lane.phase with
  | .begin _, .idle =>
    some (s.put i s.pool
      { lane.setCtx .undo (lane.ctx .undo).init with phase := .open true .none, appended := [] })
  | .start _, .idle => some (s.put i s.pool { lane with phase := .open false .none })
  | .addBuffer _ dest bytes, .open true .none =>
    if bytes ≠ [] ∧ dest + bytes.length < 2 ^ 61 then
      some (s.put i s.pool { lane with phase := .open true (.addBuffer ⟨dest, bytes, false⟩) })
    else none
  | .reserve _ newCapacity, .open tx .none =>
    some (s.put i s.pool { lane with phase := .open tx (.reserve newCapacity) })
  | .extend _ offset capacity ws, _ => s.extend i offset capacity ws
  | .reserved _, .open tx (.reserve newCapacity) =>
    if newCapacity ≤ (lane.ctx .external).ulogCapacity then
      some (s.put i s.pool { lane with phase := .open tx .none })
    else s.reserved i newCapacity tx
  | .fail _, .open tx (.reserve _) =>
    (s.short i).map fun _ => s.put i s.pool { lane with phase := .open tx .none }
  | .fail _, .open true (.addBuffer _) => (s.short i).bind fun _ => s.finishUndo i s.pool
  | .copyData _, .open true (.addBuffer ⟨dest, bytes, false⟩) =>
    ((s.undo i ⟨dest, bytes, false⟩).copyData ⟨dest, bytes, false⟩).map (s.putUndo i)
  | .copyHead _, .open true (.addBuffer ⟨dest, bytes, true⟩) =>
    ((s.undo i ⟨dest, bytes, true⟩).copyHead ⟨dest, bytes, true⟩).map (s.putUndo i)
  | .publish _ ws, .open tx .none => s.publish i tx ws
  | .abort _, .open true .none => s.finishUndo i s.pool
  | .finish _ _, .finish [] => s.finished i
  | .finish _ ws, .finish (w :: todo) =>
    (s.pool.clobberData s.lanes i i ws w).map fun pool =>
      s.put i pool { lane with phase := .finish (remaining (w :: todo)) }
  | _, _ => none

/-- The first loop of `lane_recover_and_section_boot`. -/
def State.replay (s : State) : Option State :=
  match s.mode with
  | .replay i =>
    if i < s.pool.nlanes then
      (s.pool.ulogRecover ⟨i, .internal⟩).bind fun pool =>
        (pool.ulogRecover ⟨i, .external⟩).map fun pool =>
          { s with pool, mode := .replay (i + 1) }
    else some { s with mode := .recover 0 none }
  | _ => none

/-- The second loop of `lane_recover_and_section_boot`, step by step. -/
def State.recover (s : State) (j : Nat) (ws : List UInt64) : Option State :=
  match s.mode with
  | .recover i none =>
    if i < s.pool.nlanes then
      let p := s.pool.view ⟨i, .undo⟩
      (Undo.operationNew Slot.undo.size p).bind fun ctx => p.undo.baseNbytes.bind fun n =>
        p.foreachEntry.bind fun _ =>
          (Undo.finishWrites p { ctx with totalLogged := n }).map fun todo =>
            { s with mode := .recover i (some todo) }
    else some { s with mode := .run }
  | .recover i (some []) => some { s with mode := .recover (i + 1) none }
  | .recover i (some (w :: todo)) =>
    (s.pool.clobberData s.lanes i j ws w).map fun pool =>
      { s with pool, mode := .recover i (some (remaining (w :: todo))) }
  | _ => none

def Act.lane : Act → Nat
  | .begin i | .start i | .addBuffer i _ _ | .reserve i _ | .extend i _ _ _ | .reserved i
  | .fail i | .copyData i | .copyHead i | .publish i _ | .abort i | .finish i _
  | .recover i _ => i
  | .process k | .clobber k => k.lane
  | .reopen | .replay => 0

def step (a : Act) (s : State) : Option State :=
  if a.lane < s.pool.nlanes then
    match a with
    | .process k => s.process k
    | .clobber k => s.clobber k
    | .reopen => (laneBoot s.pool).map fun lanes => { s with lanes, mode := .replay 0 }
    | .replay => s.replay
    | .recover j ws =>
      if ∀ i < s.pool.nlanes, s.pool.redo ⟨i, .internal⟩ = .empty then s.recover j ws else none
    | a =>
      if s.mode = .run ∧ s.pool.redo ⟨a.lane, .internal⟩ = .empty then s.act a.lane a else none
  else none

end Pmdk.Lanes
