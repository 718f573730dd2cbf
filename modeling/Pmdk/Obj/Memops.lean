import Pmdk.Lib.Assign
import Pmdk.Lib.Run
import Pmdk.Obj.Vecq

/-!
# Redo operations of `memops.c`

An operation collects 8-byte modifications of the pool in a shadow log and makes them all at once in
`operation_finish`. `operation_add_entry` sends a modification of a valid pool offset to the
persistent shadow log and any other one to the transient log.

The pool is a function from offsets to 8-byte words, and a log is the list of its entries. `Assigns`
is the case of an operation that only sets words of the pool, where merging is not observable.
-/

namespace Pmdk

open Function List

abbrev Mem := UInt64 → UInt64

/-- The fields of `PMEMobjpool` that decide whether an offset is valid, and its identifier.
`rootOffset` and `rootSize` are the offsets of the fields of that name. -/
structure Pool where
  uuidLo : UInt64
  heapOffset : UInt64
  heapSize : UInt64
  lanesOffset : UInt64
  nlanes : UInt64
  rootOffset : UInt64
  rootSize : UInt64

namespace Pool

/-- `sizeof(struct lane_layout)`. -/
def laneLayoutSize : UInt64 := 3072

def offIsValid (p : Pool) (off : UInt64) : Bool :=
  (p.heapOffset ≤ off && off < p.heapOffset + p.heapSize) ||
  p.rootOffset == off || p.rootSize == off ||
  (p.lanesOffset ≤ off && off < p.lanesOffset + p.nlanes * laneLayoutSize)

end Pool

variable {x : EntryVal}

namespace Memops

open Assign

inductive OperationType
  | and
  | or
  | set
  deriving DecidableEq

def OperationType.eval : OperationType → UInt64 → UInt64 → UInt64
  | .and, old, value => old &&& value
  | .or, old, value => old ||| value
  | .set, _, value => value

structure EntryVal where
  offset : UInt64
  value : UInt64
  type : OperationType
  deriving DecidableEq

/-- `ulog_entry_apply` on an 8-byte entry. -/
def EntryVal.apply (e : EntryVal) (m : Mem) : Mem :=
  update m e.offset (e.type.eval (m e.offset) e.value)

def applyLog (log : List EntryVal) (m : Mem) : Mem :=
  log.foldl (fun m e => e.apply m) m

@[simp] theorem applyLog_nil (m : Mem) : applyLog [] m = m := rfl

@[simp] theorem applyLog_cons (e : EntryVal) (log : List EntryVal) (m : Mem) :
    applyLog (e :: log) m = applyLog log (e.apply m) := rfl

theorem applyLog_append (log log' : List EntryVal) (m : Mem) :
    applyLog (log ++ log') m = applyLog log' (applyLog log m) :=
  foldl_append

def ULOG_BASE_SIZE : Nat := 1024

def OP_MERGE_SEARCH : Nat := 64

def CACHELINE_SIZE : Nat := 64

/-- `sizeof(struct ulog_entry_val)`. -/
def entryValSize : Nat := 16

/-- A `struct operation_log` with its entries. Its `offset` is the number of bytes that the
entries take. -/
structure OperationLog where
  entries : List EntryVal
  capacity : Nat

def OperationLog.offset (log : OperationLog) : Nat := entryValSize * log.entries.length

theorem OperationLog.offset_eq_zero_iff {log : OperationLog} :
    log.offset = 0 ↔ log.entries = [] := by
  rw [offset, Nat.mul_eq_zero, length_eq_zero_iff]
  exact or_iff_right (by decide)

/-- `operation_log_transient_init` and `operation_log_persistent_init`. -/
def OperationLog.init : OperationLog := ⟨[], ULOG_BASE_SIZE⟩

/-- The collection `merge_entries` of pointers to entries of the persistent log, which are the
numbers of the entries here. Its buffer is allocated with the first entry and stays. -/
structure MergeEntries extends Vecq Nat where
  allocated : capacity = Vecq.VECQ_INIT_SIZE ∨ capacity = 0

variable {q : MergeEntries}

namespace MergeEntries

def init : MergeEntries := ⟨Vecq.init, .inr rfl⟩

def clear (q : MergeEntries) : MergeEntries := ⟨q.toVecq.clear, q.allocated⟩

theorem capacity_enqueue {q : Vecq Nat} (h : q.capacity = Vecq.VECQ_INIT_SIZE ∨ q.capacity = 0)
    (hsize : q.size ≠ Vecq.VECQ_INIT_SIZE) (k : Nat) :
    (q.enqueue k).capacity = Vecq.VECQ_INIT_SIZE ∨ (q.enqueue k).capacity = 0 := by
  unfold Vecq.enqueue
  split
  · rename_i hfull
    refine .inl ?_
    rw [Vecq.capacity_insert, Vecq.grow, if_pos (h.resolve_left fun h => hsize (hfull ▸ h))]
  · exact h

theorem size_dequeue {q : Vecq Nat} (hsize : q.size = Vecq.VECQ_INIT_SIZE) :
    q.dequeue.size ≠ Vecq.VECQ_INIT_SIZE := by
  have hdequeue : q.dequeue.size = q.back - (q.front + 1) := rfl
  have hdef : q.size = q.back - q.front := rfl
  simp only [Vecq.VECQ_INIT_SIZE] at hsize ⊢
  omega

/-- `operation_merge_entry_add`, with memory for the buffer. -/
def add (k : Nat) (q : MergeEntries) : MergeEntries :=
  if h : q.toVecq.size = OP_MERGE_SEARCH then
    ⟨q.toVecq.dequeue.enqueue k, capacity_enqueue (q := q.toVecq.dequeue) q.allocated
        (size_dequeue h) k⟩
  else ⟨q.toVecq.enqueue k, capacity_enqueue q.allocated h k⟩

theorem add_of_lt (h : q.size < Vecq.VECQ_INIT_SIZE) (k : Nat) :
    (q.add k).toVecq = q.toVecq.enqueue k := by
  have hne : ¬ q.size = OP_MERGE_SEARCH := Nat.ne_of_lt h
  rw [add, dif_neg hne]

theorem add_of_full (h : q.size = Vecq.VECQ_INIT_SIZE) (k : Nat) :
    (q.add k).toVecq = q.toVecq.dequeue.enqueue k := by
  have hfull : q.size = OP_MERGE_SEARCH := h
  rw [add, dif_pos hfull]

end MergeEntries

/-- The part of `struct operation_context` that a redo operation uses. -/
structure OperationContext where
  pshadowOps : OperationLog
  transientOps : OperationLog
  mergeEntries : MergeEntries

def operationNew : OperationContext := ⟨.init, .init, .init⟩

/-- `operation_start`. The logs keep the capacities that earlier operations have grown them
to. -/
def operationStart (ctx : OperationContext) : OperationContext :=
  { pshadowOps := { ctx.pshadowOps with entries := [] }
    transientOps := { ctx.transientOps with entries := [] }
    mergeEntries := ctx.mergeEntries.clear }

/-- `operation_merge`, on entries of the same offset and type. -/
def operationMerge (old new : EntryVal) : EntryVal :=
  { old with value := new.type.eval old.value new.value }

/-- The entry at which the scan of `operation_try_merge_entry` stops: the first one of the
word that it meets. -/
def mergeCandidate (e : EntryVal) (ctx : OperationContext) : Option Nat :=
  ctx.mergeEntries.reverse.find? fun k =>
    (ctx.pshadowOps.entries[k]?).any fun x => x.offset == e.offset

def operationTryMergeEntry (e : EntryVal) (ctx : OperationContext) : Option (List EntryVal) :=
  match mergeCandidate e ctx with
  | none => none
  | some k =>
    if (ctx.pshadowOps.entries[k]?).any fun x => x.type == e.type then
      some (ctx.pshadowOps.entries.modify k fun x => operationMerge x e)
    else none

def OperationLog.grow (log : OperationLog) : OperationLog :=
  { log with capacity := log.capacity + ULOG_BASE_SIZE }

def OperationLog.isFull (log : OperationLog) : Prop :=
  log.offset + CACHELINE_SIZE = log.capacity

instance (log : OperationLog) : Decidable log.isFull :=
  inferInstanceAs (Decidable (_ = _))

/-- The start of `operation_add_typed_entry` for `LOG_PERSISTENT`. Growing the log moves its
entries, so the merge collection is cleared. -/
def OperationContext.makeRoom (ctx : OperationContext) : OperationContext :=
  if ctx.pshadowOps.isFull then
    { ctx with pshadowOps := ctx.pshadowOps.grow, mergeEntries := ctx.mergeEntries.clear }
  else ctx

/-- `operation_add_typed_entry` for `LOG_PERSISTENT`. -/
def addPersistent (e : EntryVal) (ctx : OperationContext) : OperationContext :=
  let ctx := ctx.makeRoom
  match operationTryMergeEntry e ctx with
  | some entries => { ctx with pshadowOps := { ctx.pshadowOps with entries := entries } }
  | none =>
    { ctx with
      pshadowOps := { ctx.pshadowOps with entries := ctx.pshadowOps.entries ++ [e] }
      mergeEntries := ctx.mergeEntries.add ctx.pshadowOps.entries.length }

/-- `operation_add_typed_entry` for `LOG_TRANSIENT`. The merge collection is cleared here as
well when the transient log grows. -/
def addTransient (e : EntryVal) (ctx : OperationContext) : OperationContext :=
  let ctx := if ctx.transientOps.isFull then
      { ctx with transientOps := ctx.transientOps.grow, mergeEntries := ctx.mergeEntries.clear }
    else ctx
  { ctx with
    transientOps := { ctx.transientOps with entries := ctx.transientOps.entries ++ [e] } }

def operationAddEntry (p : Pool) (offset value : UInt64) (type : OperationType)
    (ctx : OperationContext) : OperationContext :=
  if p.offIsValid offset then addPersistent ⟨offset, value, type⟩ ctx
  else addTransient ⟨offset, value, type⟩ ctx

/-- The transient entries that `ulog_process` visits. `Realloc` leaves the capacity in the
header of the transient log as `operation_log_transient_init` has set it, and
`ulog_foreach_entry` goes by that capacity. -/
def OperationContext.processedTransient (ctx : OperationContext) : List EntryVal :=
  ctx.transientOps.entries.take (ULOG_BASE_SIZE / entryValSize)

/-- What the logs of a context do to the pool: `operation_process` applies the persistent
log and then the transient one. A single persistent entry is applied without the redo log,
with the same result. -/
def OperationContext.effect (ctx : OperationContext) (m : Mem) : Mem :=
  applyLog ctx.processedTransient (applyLog ctx.pshadowOps.entries m)

/-- `operation_finish` of a redo operation. Nothing at all is processed when there is no
persistent entry. -/
def operationFinish (ctx : OperationContext) (m : Mem) : Mem :=
  if ctx.pshadowOps.entries = [] then m else ctx.effect m

/-! ## The effect of an entry -/

variable {e : EntryVal} {a : UInt64}

theorem EntryVal.apply_of_ne (h : a ≠ e.offset) (m : Mem) : e.apply m a = m a :=
  update_of_ne h _ _

theorem EntryVal.apply_comm (h : x.offset ≠ e.offset) (m : Mem) :
    x.apply (e.apply m) = e.apply (x.apply m) := by
  unfold EntryVal.apply
  rw [update_of_ne h, update_of_ne h.symm, update_comm h]

theorem operationMerge_apply (hoffset : x.offset = e.offset)
    (htype : x.type = e.type) (m : Mem) : (operationMerge x e).apply m = e.apply (x.apply m) := by
  have heval : ∀ (t : OperationType) (old a b : UInt64),
      t.eval old (t.eval a b) = t.eval (t.eval old a) b := by
    intro t old a b
    cases t with
    | and => exact (UInt64.and_assoc old a b).symm
    | or => exact (UInt64.or_assoc old a b).symm
    | set => rfl
  unfold EntryVal.apply operationMerge
  rw [hoffset, update_self, update_idem, htype, heval]

theorem applyLog_congr (log : List EntryVal) {m m' : Mem} (h : m a = m' a) :
    applyLog log m a = applyLog log m' a := by
  induction log generalizing m m' with
  | nil => exact h
  | cons e log ih =>
    rw [applyLog_cons, applyLog_cons]
    refine ih ?_
    unfold EntryVal.apply
    by_cases ha : a = e.offset
    · rw [← ha, update_self, update_self, h]
    · rw [update_of_ne ha, update_of_ne ha, h]

theorem applyLog_apply {log : List EntryVal} (h : ∀ x ∈ log, x.offset ≠ e.offset) (m : Mem) :
    applyLog log (e.apply m) = e.apply (applyLog log m) := by
  induction log generalizing m with
  | nil => rfl
  | cons x log ih =>
    rw [forall_mem_cons] at h
    rw [applyLog_cons, applyLog_cons, EntryVal.apply_comm h.1, ih h.2]

/-! ## Merging -/

variable {ctx ctx' : OperationContext} {k : Nat} {offset : UInt64}

theorem getElem?_mergeCandidate (h : mergeCandidate e ctx = some k) :
    ∃ x, ctx.pshadowOps.entries[k]? = some x ∧ x.offset = e.offset := by
  have hword := find?_some h
  rw [Option.any_eq_true] at hword
  obtain ⟨x, hx, hoffset⟩ := hword
  exact ⟨x, hx, beq_iff_eq.mp hoffset⟩

theorem operationTryMergeEntry_eq_some
    {log : List EntryVal} (h : operationTryMergeEntry e ctx = some log) :
    ∃ k x log₁ log₂, mergeCandidate e ctx = some k ∧ x.offset = e.offset ∧
      x.type = e.type ∧ ctx.pshadowOps.entries = log₁ ++ x :: log₂ ∧ log₁.length = k ∧
      log = log₁ ++ operationMerge x e :: log₂ := by
  unfold operationTryMergeEntry at h
  split at h
  · cases h
  · rename_i k hk
    split at h
    · rename_i htype
      obtain ⟨x, hx, hoffset⟩ := getElem?_mergeCandidate hk
      obtain ⟨hlt, hget⟩ := List.getElem?_eq_some_iff.mp hx
      rw [hx, Option.any_some, beq_iff_eq] at htype
      refine ⟨k, x, ctx.pshadowOps.entries.take k, ctx.pshadowOps.entries.drop (k + 1), hk,
        hoffset, htype, ?_, ?_, ?_⟩
      · rw [← hget, getElem_cons_drop, take_append_drop]
      · rw [length_take, Nat.min_eq_left (Nat.le_of_lt hlt)]
      · rw [← Option.some.inj h, modify_eq_take_cons_drop hlt, hget]
    · cases h

@[simp] theorem makeRoom_entries (ctx : OperationContext) :
    ctx.makeRoom.pshadowOps.entries = ctx.pshadowOps.entries := by
  unfold OperationContext.makeRoom
  split <;> rfl

@[simp] theorem makeRoom_transientOps (ctx : OperationContext) :
    ctx.makeRoom.transientOps = ctx.transientOps := by
  unfold OperationContext.makeRoom
  split <;> rfl

theorem addPersistent_cases (e : EntryVal) (ctx : OperationContext) :
    (operationTryMergeEntry e ctx.makeRoom = none ∧
      (addPersistent e ctx).pshadowOps.entries = ctx.pshadowOps.entries ++ [e] ∧
      (addPersistent e ctx).mergeEntries =
        ctx.makeRoom.mergeEntries.add ctx.pshadowOps.entries.length) ∨
    ∃ k x log₁ log₂, mergeCandidate e ctx.makeRoom = some k ∧ x.offset = e.offset ∧
      x.type = e.type ∧ ctx.pshadowOps.entries = log₁ ++ x :: log₂ ∧ log₁.length = k ∧
      (addPersistent e ctx).pshadowOps.entries = log₁ ++ operationMerge x e :: log₂ ∧
      (addPersistent e ctx).mergeEntries = ctx.makeRoom.mergeEntries := by
  cases htry : operationTryMergeEntry e ctx.makeRoom with
  | none =>
    refine .inl ⟨rfl, ?_, ?_⟩
    · simp [addPersistent, htry]
    · simp [addPersistent, htry]
  | some log =>
    obtain ⟨k, x, log₁, log₂, hk, hoffset, htype, heq, hlength, hlog⟩ :=
      operationTryMergeEntry_eq_some htry
    rw [makeRoom_entries] at heq
    refine .inr ⟨k, x, log₁, log₂, hk, hoffset, htype, heq, hlength, ?_, ?_⟩
    · simp [addPersistent, htry, hlog]
    · simp [addPersistent, htry]

@[simp] theorem addPersistent_transientOps (e : EntryVal) (ctx : OperationContext) :
    (addPersistent e ctx).transientOps = ctx.transientOps := by
  unfold addPersistent
  dsimp only
  split <;> exact makeRoom_transientOps ctx

/-- Whether entries are merged or not, the other words do not see it. -/
theorem addPersistent_of_ne (e : EntryVal) (ctx : OperationContext) {m : Mem} (ha : a ≠ e.offset) :
    applyLog (addPersistent e ctx).pshadowOps.entries m a =
      applyLog ctx.pshadowOps.entries m a := by
  rcases addPersistent_cases e ctx with
    ⟨-, hlog, -⟩ | ⟨k, x, log₁, log₂, -, hoffset, htype, heq, -, hlog, -⟩
  · rw [hlog, applyLog_append]
    exact EntryVal.apply_of_ne ha _
  · rw [hlog, heq, applyLog_append, applyLog_append, applyLog_cons, applyLog_cons,
      operationMerge_apply hoffset htype]
    exact applyLog_congr log₂ (EntryVal.apply_of_ne ha _)

theorem addPersistent_ne_nil (e : EntryVal) (ctx : OperationContext) :
    (addPersistent e ctx).pshadowOps.entries ≠ [] := by
  rcases addPersistent_cases e ctx with ⟨-, hlog, -⟩ | ⟨k, x, log₁, log₂, -, -, -, -, -, hlog, -⟩
  · rw [hlog]
    exact append_ne_nil_of_right_ne_nil _ (cons_ne_nil _ _)
  · rw [hlog]
    exact append_ne_nil_of_right_ne_nil _ (cons_ne_nil _ _)

def MeetsNewest (e : EntryVal) (ctx : OperationContext) : Prop :=
  ∀ k ∈ mergeCandidate e ctx.makeRoom,
    (∀ x ∈ ctx.pshadowOps.entries[k]?, x.type = e.type) →
      ∀ y ∈ ctx.pshadowOps.entries.drop (k + 1), y.offset ≠ e.offset

instance (e : EntryVal) (ctx : OperationContext) : Decidable (MeetsNewest e ctx) :=
  inferInstanceAs (Decidable (∀ k ∈ mergeCandidate e ctx.makeRoom, _))

theorem addPersistent_apply (h : MeetsNewest e ctx) (m : Mem) :
    applyLog (addPersistent e ctx).pshadowOps.entries m =
      e.apply (applyLog ctx.pshadowOps.entries m) := by
  rcases addPersistent_cases e ctx with
    ⟨-, hlog, -⟩ | ⟨k, x, log₁, log₂, hk, hoffset, htype, heq, rfl, hlog, -⟩
  · rw [hlog, applyLog_append]
    rfl
  · have hnewest := h log₁.length hk
    have hdrop : (log₁ ++ x :: log₂).drop (log₁.length + 1) = log₂ := by
      rw [drop_append]
      simp
    rw [heq, getElem?_append_right (Nat.le_refl _), Nat.sub_self, hdrop] at hnewest
    have hlater : ∀ y ∈ log₂, y.offset ≠ e.offset :=
      hnewest fun z hz => Option.some.inj hz ▸ htype
    rw [hlog, heq, applyLog_append, applyLog_append, applyLog_cons, applyLog_cons,
      operationMerge_apply hoffset htype, applyLog_apply hlater]

/-! ## The merge collection -/

def Tracked (ctx : OperationContext) : Prop :=
  ctx.mergeEntries.Tracks ctx.pshadowOps.entries.length

theorem tracked_operationStart (ctx : OperationContext) : Tracked (operationStart ctx) :=
  Vecq.Tracks.clear 0 ctx.mergeEntries.allocated

theorem Tracked.makeRoom (h : Tracked ctx) : Tracked ctx.makeRoom := by
  unfold OperationContext.makeRoom
  split
  · exact Vecq.Tracks.clear _ ctx.mergeEntries.allocated
  · exact h

theorem MergeEntries.tracks_add {n : Nat} (h : q.Tracks n) : (q.add n).Tracks (n + 1) := by
  rcases Nat.lt_or_eq_of_le h.size_le_init with hsize | hsize
  · rw [MergeEntries.add_of_lt hsize]
    exact h.enqueue hsize
  · rw [MergeEntries.add_of_full hsize]
    exact h.dequeue_enqueue hsize

theorem Tracked.addPersistent (h : Tracked ctx) (e : EntryVal) :
    Tracked (addPersistent e ctx) := by
  have hroom := h.makeRoom
  rw [Tracked, makeRoom_entries] at hroom
  unfold Tracked
  rcases addPersistent_cases e ctx with
    ⟨-, hlog, hmerge⟩ | ⟨-, x, log₁, log₂, -, -, -, heq, -, hlog, hmerge⟩
  · rw [hlog, hmerge, length_append]
    exact MergeEntries.tracks_add hroom
  · rw [hlog, hmerge]
    rw [heq] at hroom
    simpa using hroom

/-! ## Transient entries -/

theorem addTransient_spec (e : EntryVal) (ctx : OperationContext) :
    (addTransient e ctx).pshadowOps = ctx.pshadowOps ∧
      (addTransient e ctx).transientOps.entries = ctx.transientOps.entries ++ [e] := by
  unfold addTransient
  by_cases hfull : ctx.transientOps.isFull
  · simp [hfull, OperationLog.grow]
  · simp [hfull]

theorem effect_add_of_ne (p : Pool) {value : UInt64} {type : OperationType}
    (ctx : OperationContext) (m : Mem) (h : a ≠ offset) :
    (operationAddEntry p offset value type ctx).effect m a = ctx.effect m a := by
  unfold operationAddEntry OperationContext.effect OperationContext.processedTransient
  split
  · rw [addPersistent_transientOps]
    exact applyLog_congr _ (addPersistent_of_ne _ ctx h)
  · obtain ⟨hpersistent, htransient⟩ := addTransient_spec ⟨offset, value, type⟩ ctx
    rw [hpersistent, htransient, take_append, applyLog_append]
    cases ULOG_BASE_SIZE / entryValSize - ctx.transientOps.entries.length with
    | zero => rfl
    | succ n =>
      rw [take_succ_cons, take_nil]
      exact EntryVal.apply_of_ne h _

theorem operationAddEntry_ne_nil (p : Pool) {value : UInt64} {type : OperationType}
    (h : ctx.pshadowOps.entries ≠ []) :
    (operationAddEntry p offset value type ctx).pshadowOps.entries ≠ [] := by
  unfold operationAddEntry
  split
  · exact addPersistent_ne_nil _ _
  · rw [(addTransient_spec _ _).1]
    exact h

/-! ## Assignments -/

def OperationContext.trackedEntries (ctx : OperationContext) : List EntryVal :=
  ctx.pshadowOps.entries.drop (ctx.pshadowOps.entries.length - ctx.mergeEntries.size)

structure SetsOnce (ctx : OperationContext) : Prop where
  tracked : Tracked ctx
  set : ∀ x ∈ ctx.trackedEntries, x.type = .set
  nodup : (ctx.trackedEntries.map EntryVal.offset).Nodup

theorem setsOnce_operationStart (ctx : OperationContext) : SetsOnce (operationStart ctx) :=
  ⟨tracked_operationStart ctx, fun _ hx => absurd hx not_mem_nil, nodup_nil⟩

theorem SetsOnce.makeRoom (h : SetsOnce ctx) : SetsOnce ctx.makeRoom := by
  refine ⟨h.tracked.makeRoom, ?_, ?_⟩
  all_goals
    unfold OperationContext.trackedEntries
    rw [makeRoom_entries]
    unfold OperationContext.makeRoom
    split
  · simp [MergeEntries.clear]
  · exact h.set
  · simp [MergeEntries.clear]
  · exact h.nodup

theorem mergeCandidate_mem (h : Tracked ctx) (hk : mergeCandidate e ctx = some k) :
    ctx.pshadowOps.entries.length - ctx.mergeEntries.size ≤ k ∧
      k < ctx.pshadowOps.entries.length :=
  h.mem_reverse_iff.mp (mem_of_find?_eq_some hk)

theorem trackedEntries_eq {log₁ log₂ : List EntryVal}
    (hk : ctx.pshadowOps.entries.length - ctx.mergeEntries.size ≤ k)
    (heq : ctx.pshadowOps.entries = log₁ ++ x :: log₂) (hlength : log₁.length = k) :
    ctx.trackedEntries =
      log₁.drop (ctx.pshadowOps.entries.length - ctx.mergeEntries.size) ++ x :: log₂ := by
  unfold OperationContext.trackedEntries
  rw [← hlength] at hk
  generalize ctx.pshadowOps.entries.length - ctx.mergeEntries.size = d at hk ⊢
  rw [heq, drop_append_of_le_length hk]

theorem SetsOnce.meetsNewest (h : SetsOnce ctx) (e : EntryVal) :
    MeetsNewest e ctx := by
  intro k hk _ y hy hoffset
  obtain ⟨x, hx, hword⟩ := getElem?_mergeCandidate hk
  obtain ⟨hlow, -⟩ := mergeCandidate_mem h.tracked.makeRoom hk
  obtain ⟨hlt, hget⟩ := List.getElem?_eq_some_iff.mp hx
  have heq : ctx.makeRoom.pshadowOps.entries = ctx.makeRoom.pshadowOps.entries.take k ++
      x :: ctx.makeRoom.pshadowOps.entries.drop (k + 1) := by
    rw [← hget, getElem_cons_drop, take_append_drop]
  have hnodup := h.makeRoom.nodup
  rw [trackedEntries_eq hlow heq (by rw [length_take, Nat.min_eq_left (Nat.le_of_lt hlt)]),
    map_append, map_cons] at hnodup
  have hx := (nodup_cons.mp (nodup_append.mp hnodup).2.1).1
  rw [makeRoom_entries] at hx
  exact hx (mem_map.mpr ⟨y, hy, hoffset.trans hword.symm⟩)

theorem forall_ne_of_tryMerge (h : SetsOnce ctx)
    (he : e.type = .set) (htry : operationTryMergeEntry e ctx = none) :
    ∀ x ∈ ctx.trackedEntries, x.offset ≠ e.offset := by
  intro x hx hoffset
  obtain ⟨i, hi, hget⟩ := getElem_of_mem hx
  simp only [OperationContext.trackedEntries, length_drop] at hi
  have hn := h.tracked.size_le
  have hfound : (mergeCandidate e ctx).isSome := by
    refine find?_isSome.mpr ⟨ctx.pshadowOps.entries.length - ctx.mergeEntries.size + i, ?_, ?_⟩
    · exact h.tracked.mem_reverse_iff.mpr ⟨Nat.le_add_right _ _, by omega⟩
    · rw [← getElem?_drop, Option.any_eq_true]
      exact ⟨x, List.getElem?_eq_some_iff.mpr ⟨_, hget⟩, beq_iff_eq.mpr hoffset⟩
  obtain ⟨k, hk⟩ := Option.isSome_iff_exists.mp hfound
  obtain ⟨y, hy, -⟩ := getElem?_mergeCandidate hk
  obtain ⟨hlow, hlt⟩ := mergeCandidate_mem h.tracked hk
  -- the entry found is an assignment as well, so the two are merged
  have hset : y.type = .set := by
    refine h.set y (mem_of_getElem? (i := k - (ctx.pshadowOps.entries.length -
      ctx.mergeEntries.size)) ?_)
    rw [OperationContext.trackedEntries, getElem?_drop, Nat.add_sub_cancel' hlow, hy]
  have hmerged : (ctx.pshadowOps.entries[k]?).any (fun x => x.type == e.type) = true := by
    rw [hy, Option.any_some, hset, he]
    rfl
  rw [operationTryMergeEntry, hk] at htry
  dsimp only at htry
  rw [if_pos hmerged] at htry
  cases htry

theorem trackedEntries_append
    (h : Tracked ctx) (hlog : ctx'.pshadowOps.entries = ctx.pshadowOps.entries ++ [e])
    (hmerge : ctx'.mergeEntries = ctx.mergeEntries.add ctx.pshadowOps.entries.length) :
    List.Sublist ctx'.trackedEntries (ctx.trackedEntries ++ [e]) := by
  have hsize : ctx'.mergeEntries.size ≤ ctx.mergeEntries.size + 1 := by
    rw [hmerge]
    rcases Nat.lt_or_eq_of_le h.size_le_init with hlt | hfull
    · rw [MergeEntries.add_of_lt hlt, h.toWindow.size_enqueue hlt]
    · rw [hfull]
      exact (MergeEntries.tracks_add h).size_le_init.trans (Nat.le_succ _)
  have hle := h.size_le
  unfold OperationContext.trackedEntries
  rw [hlog, length_append, length_singleton, ← drop_append_of_le_length (Nat.sub_le _ _)]
  exact drop_sublist_drop_left _ (by omega)

theorem SetsOnce.addPersistent (h : SetsOnce ctx)
    (he : e.type = .set) : SetsOnce (addPersistent e ctx) := by
  have hroom := h.makeRoom
  rcases addPersistent_cases e ctx with
    ⟨htry, hlog, hmerge⟩ | ⟨k, x, log₁, log₂, hk, hoffset, htype, heq, hlength, hlog, hmerge⟩
  · have hne := forall_ne_of_tryMerge hroom he htry
    rw [← makeRoom_entries ctx] at hlog hmerge
    have hsub := trackedEntries_append hroom.tracked hlog hmerge
    refine ⟨h.tracked.addPersistent e, fun x hx => ?_, ?_⟩
    · rcases mem_append.mp (hsub.subset hx) with hx | hx
      · exact hroom.set x hx
      · exact mem_singleton.mp hx ▸ he
    · refine List.Nodup.sublist (hsub.map _) ?_
      rw [map_append, map_singleton, nodup_append]
      refine ⟨hroom.nodup, nodup_cons.mpr ⟨not_mem_nil, nodup_nil⟩, fun a ha b hb => ?_⟩
      obtain ⟨x, hx, rfl⟩ := mem_map.mp ha
      exact mem_singleton.mp hb ▸ hne x hx
  · obtain ⟨hlow, -⟩ := mergeCandidate_mem hroom.tracked hk
    rw [← makeRoom_entries] at heq
    have hold := trackedEntries_eq hlow heq hlength
    have hsame : (Memops.addPersistent e ctx).pshadowOps.entries.length =
        ctx.makeRoom.pshadowOps.entries.length := by
      rw [hlog, heq]
      simp
    have hnew : (Memops.addPersistent e ctx).trackedEntries = log₁.drop
        (ctx.makeRoom.pshadowOps.entries.length - ctx.makeRoom.mergeEntries.size) ++
          operationMerge x e :: log₂ := by
      rw [trackedEntries_eq (by rw [hsame, hmerge]; exact hlow) hlog hlength, hsame, hmerge]
    have hset := hroom.set
    have hnodup := hroom.nodup
    refine ⟨h.tracked.addPersistent e, ?_, ?_⟩
    · rw [hold, forall_mem_append, forall_mem_cons] at hset
      rw [hnew, forall_mem_append, forall_mem_cons]
      exact hset
    · rw [hold, map_append, map_cons] at hnodup
      rw [hnew, map_append, map_cons]
      exact hnodup

/-- From `ctx` to `ctx'` exactly the assignments `ws` have been added, all of them to the
persistent log. -/
structure Assigns (ctx ctx' : OperationContext) (ws : List (UInt64 × UInt64)) : Prop where
  transient : ctx'.transientOps.entries = ctx.transientOps.entries
  apply : ∀ m, applyLog ctx'.pshadowOps.entries m =
    assign ws (applyLog ctx.pshadowOps.entries m)
  persistent : ws ≠ [] ∨ ctx.pshadowOps.entries ≠ [] → ctx'.pshadowOps.entries ≠ []
  setsOnce : SetsOnce ctx'

theorem Assigns.start (ctx : OperationContext) :
    Assigns (operationStart ctx) (operationStart ctx) [] :=
  ⟨rfl, fun _ => rfl, fun h => h.resolve_left (not_not.mpr rfl), setsOnce_operationStart ctx⟩

variable {ws : List (UInt64 × UInt64)}

theorem Assigns.add {p : Pool}
    (h : Assigns ctx ctx' ws) (hvalid : p.offIsValid offset = true) (value : UInt64) :
    Assigns ctx (operationAddEntry p offset value .set ctx') (ws ++ [(offset, value)]) := by
  rw [operationAddEntry, if_pos hvalid]
  refine ⟨?_, fun m => ?_, fun _ => addPersistent_ne_nil _ _, h.setsOnce.addPersistent rfl⟩
  · rw [addPersistent_transientOps, h.transient]
  · rw [addPersistent_apply (h.setsOnce.meetsNewest _), h.apply m, assign_append]
    rfl

theorem Assigns.operationFinish {prev : OperationContext}
    (h : Assigns (operationStart prev) ctx ws) (m : Mem) : operationFinish ctx m = assign ws m := by
  have happly : applyLog ctx.pshadowOps.entries m = assign ws m := h.apply m
  unfold Memops.operationFinish OperationContext.effect OperationContext.processedTransient
  rw [h.transient]
  split
  · rename_i hnil
    rw [hnil] at happly
    exact happly
  · exact happly

/-!
## Merging of redo entries

`operation_try_merge_entry` folds a modification into an older entry of its word, which is sound if
that entry is the newest one of the word. The scan of the merge collection meets the newest entry
first as long as the collection has not dequeued anything. After that it begins at the last place of
the buffer.
-/

open Transition

/-- A call of `operation_add_typed_entry` with `LOG_PERSISTENT`. -/
def step (e : EntryVal) (ctx : OperationContext) : Option OperationContext :=
  some (addPersistent e ctx)

theorem applyLog_run {es : List EntryVal}
    (hG : Guarded step MeetsNewest es ctx) (h : run step es ctx = some ctx') (m : Mem) :
    applyLog ctx'.pshadowOps.entries m = applyLog es (applyLog ctx.pshadowOps.entries m) := by
  induction es generalizing ctx with
  | nil =>
    rw [run_nil, Option.some.injEq] at h
    rw [h, applyLog_nil]
  | cons e es ih =>
    rw [ih (hG.tail rfl) h, addPersistent_apply hG.1, applyLog_cons]

/-- The shadow log has the effect of the calls. -/
theorem merged_run {prev ctx : OperationContext} {es : List EntryVal}
    (hG : Guarded step MeetsNewest es (operationStart prev))
    (h : run step es (operationStart prev) = some ctx) (m : Mem) :
    applyLog ctx.pshadowOps.entries m = applyLog es m :=
  applyLog_run hG h m

theorem merged_run_three :
    ∃ ctx, run step [⟨64, 3, .set⟩, ⟨72, 4, .or⟩, ⟨64, 5, .set⟩]
        (operationStart operationNew) = some ctx ∧
      ctx.pshadowOps.entries.length = 2 ∧
      ∀ m, applyLog ctx.pshadowOps.entries m =
        applyLog [⟨64, 3, .set⟩, ⟨72, 4, .or⟩, ⟨64, 5, .set⟩] m :=
  ⟨_, rfl, by decide, fun m => merged_run (by decide) rfl m⟩

/-! ## A log that has grown before -/

def turns (n : Nat) : List EntryVal :=
  (List.range n).map fun i => if i % 2 = 0 then ⟨8, 5, .set⟩ else ⟨8, 0, .and⟩

def grown : OperationContext :=
  (turns 61).foldl (fun ctx e => addPersistent e ctx) (operationStart operationNew)

theorem turns_lost : ((run step (turns 66) (operationStart grown)).map fun ctx =>
    applyLog ctx.pshadowOps.entries (fun _ => 0) 8) = some 5 := by decide +kernel

/-- The 66th call is merged into the 64th entry, with an assignment behind it. -/
theorem not_merged_grown :
    ¬ ∀ ctx, run step (turns 66) (operationStart grown) = some ctx →
      ∀ m, applyLog ctx.pshadowOps.entries m = applyLog (turns 66) m := by
  intro h
  have hclear : applyLog (turns 66) (fun _ => 0) 8 = 0 := by decide +kernel
  obtain ⟨ctx, hctx, hlost⟩ := Option.map_eq_some_iff.mp turns_lost
  rw [h ctx hctx, hclear] at hlost
  cases hlost

end Memops

end Pmdk
