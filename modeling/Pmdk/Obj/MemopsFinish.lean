import Pmdk.Obj.RedoStore

/-!
# Finishing a redo operation

`operation_process` treats the persistent log in one of three ways: there is none, there is a single
entry that is applied directly, or the log is stored in the chain of the redo log. `ulog_process`
then begins with the shadow log, whose header has the capacity of the base part and leads to the
stored logs. What earlier operations have left behind the entries is kept from it by a zero offset.
The transient log is processed after that.

Two things keep transient entries from being applied: `operation_finish` calls `operation_process`
only for an operation with persistent entries, and the capacity in the header of the transient log
stays what it was at first when the log grows, so that no more than 64 entries are visited.
-/

namespace Pmdk.Redo

open Memops List

inductive OperationLogType
  | persistent
  | transient
  deriving DecidableEq

/-- A call between `operation_start` and `operation_finish`: `operation_add_entry` or
`operation_add_typed_entry`. -/
inductive Call
  | addEntry (entry : EntryVal)
  | addTypedEntry (entry : EntryVal) (logType : OperationLogType)

namespace Call

def entry : Call → EntryVal
  | .addEntry e => e
  | .addTypedEntry e _ => e

def logType (p : Pool) : Call → OperationLogType
  | .addEntry e => if p.offIsValid e.offset then .persistent else .transient
  | .addTypedEntry _ t => t

def exec (p : Pool) (ctx : OperationContext) (c : Call) : OperationContext :=
  match c.logType p with
  | .persistent => addPersistent c.entry ctx
  | .transient => addTransient c.entry ctx

end Call

def entriesOf (p : Pool) (t : OperationLogType) (cs : List Call) : List EntryVal :=
  (cs.filter fun c => c.logType p == t).map Call.entry

/-- What earlier operations have left: in the spare cacheline of the shadow log and behind it,
where only the offset of the first slot is zeroed and its value stays, and in the slots of the logs
of the vector. -/
structure Leftovers (log : RedoLog) where
  value : UInt64
  shadow : List EntryVal
  spare : CACHELINE_SIZE ≤ entryValSize * (shadow.length + 1)
  next : List (List EntryVal)
  next_capacity : next.map (entryValSize * ·.length) = log.next.map Ulog.capacity

/-- `ulog_entry_valid` on an 8-byte entry. The word `offset` of the entry is zero for the offset
zero and the type `ULOG_OPERATION_SET`. -/
def ulogEntryValid (e : EntryVal) : Bool := !(e.offset == 0 && e.type == .set)

/-- The logs of the vector after `ulog_store` has copied `copies` bytes of the shadow log into
them, from `data` on. -/
def storedNext : List EntryVal → List Nat → List (List EntryVal) → List (List EntryVal)
  | data, copyNbytes :: copies, slots :: next =>
    let n := copyNbytes / entryValSize
    (data.take n ++ slots.drop n) :: storedNext (data.drop n) copies next
  | _, _, next => next

/-- The entries that `ulog_foreach_entry` meets in a chain of logs. The first one that is not
valid ends both of its loops. -/
def ulogForeachEntry (logs : List (List EntryVal)) : List EntryVal :=
  logs.flatten.takeWhile ulogEntryValid

/-- The entries that `ulog_process` visits after `ulog_store`, beginning with the shadow log. -/
def visited (log : RedoLog) (old : Leftovers log) (entries : List EntryVal)
    (copies : List Nat) : List EntryVal :=
  let data := entries ++ ⟨0, old.value, .set⟩ :: old.shadow
  let n := log.ulogBaseNbytes / entryValSize
  ulogForeachEntry (data.take n :: storedNext (data.drop n) copies old.next)

/-- The persistent part of `operation_process`. It is `none` when `ulog_store` leaves the
vector. -/
def processPersistent (log : RedoLog) (old : Leftovers log) (ctx : OperationContext)
    (m : Mem) : Option Mem :=
  match ctx.pshadowOps.entries with
  | [] => some m
  | [e] => some (e.apply m)
  | entries =>
    (ulogStore ctx.pshadowOps.offset log).map fun (_, copies) =>
      applyLog (visited log old entries copies) m

def operationProcess (log : RedoLog) (old : Leftovers log) (ctx : OperationContext)
    (m : Mem) : Option Mem :=
  (processPersistent log old ctx m).map (applyLog ctx.processedTransient)

def operationFinish (log : RedoLog) (old : Leftovers log) (ctx : OperationContext)
    (m : Mem) : Option Mem :=
  if ctx.pshadowOps.offset ≠ 0 then operationProcess log old ctx m else some m

variable {log : RedoLog} {old : Leftovers log}

/-! ## The persistent log -/

theorem storedNext_nil (data : List EntryVal) (next : List (List EntryVal)) :
    storedNext data [] next = next := by
  cases next <;> rfl

/-- What `ulog_store` copies is in front of all that the logs of the vector held. -/
theorem flatten_storedNext {n : Nat} {next : List Ulog} {copies : List Nat}
    (hn : entryValSize ∣ n) (hstore : storeNext n next = some copies) {slots : List (List EntryVal)}
    (hslots : slots.map (entryValSize * ·.length) = next.map Ulog.capacity) (data : List EntryVal) :
    ∃ rest, (storedNext data copies slots).flatten = data.take (n / entryValSize) ++ rest := by
  induction next generalizing n copies slots data with
  | nil =>
    cases n with
    | zero =>
      rw [storeNext, Option.some.injEq] at hstore
      rw [← hstore, storedNext_nil]
      exact ⟨_, rfl⟩
    | succ n => cases hstore
  | cons u next ih =>
    cases n with
    | zero =>
      rw [storeNext, Option.some.injEq] at hstore
      rw [← hstore, storedNext_nil]
      exact ⟨_, rfl⟩
    | succ n =>
      rw [storeNext, Option.map_eq_some_iff] at hstore
      obtain ⟨copies, hrest, rfl⟩ := hstore
      obtain ⟨first, slots, rfl, hfirst, hslots⟩ := map_eq_cons_iff.mp hslots
      rw [storedNext, flatten_cons]
      by_cases hle : n + 1 ≤ u.capacity
      · rw [Nat.min_eq_left hle, Nat.sub_self, storeNext, Option.some.injEq] at hrest
        rw [Nat.min_eq_left hle, ← hrest, storedNext_nil, append_assoc]
        exact ⟨_, rfl⟩
      · -- The log is filled, so that nothing of what it held is left in it.
        have hlt := Nat.lt_of_not_le hle
        rw [Nat.min_eq_right hlt.le] at hrest ⊢
        have hdvd : entryValSize ∣ u.capacity := Dvd.intro _ hfirst
        obtain ⟨rest, hrest⟩ := ih (Nat.dvd_sub hn hdvd) hrest hslots
          (data.drop (u.capacity / entryValSize))
        have hfull : first.drop (u.capacity / entryValSize) = [] := by
          rw [drop_eq_nil_iff, ← hfirst, Nat.mul_div_cancel_left _ (by decide)]
        have hsum : (n + 1) / entryValSize =
            u.capacity / entryValSize + (n + 1 - u.capacity) / entryValSize := by
          unfold entryValSize at *
          omega
        refine ⟨rest, ?_⟩
        rw [hfull, append_nil, hrest, hsum, take_add, append_assoc]

section

variable (hbase : entryValSize ∣ log.ulogBaseNbytes)

include hbase

/-- The walk meets the entries of the operation and stops at the zero offset behind them. -/
theorem visited_eq {entries : List EntryVal} {base : Nat} {copies : List Nat}
    (hvalid : ∀ e ∈ entries, ulogEntryValid e)
    (hstore : ulogStore (entryValSize * entries.length) log = some (base, copies)) :
    visited log old entries copies = entries := by
  unfold ulogStore at hstore
  dsimp only at hstore
  generalize hbytes : cachelineAlign (entryValSize * entries.length + entryBaseSize) = nbytes
    at hstore
  have hroom : entryValSize ∣ nbytes ∧ entryValSize * (entries.length + 1) ≤ nbytes := by
    simp only [← hbytes, cachelineAlign, entryBaseSize, entryValSize]
    omega
  obtain ⟨copies, hnext, heq⟩ := Option.map_eq_some_iff.mp hstore
  obtain ⟨-, rfl⟩ := Prod.mk.inj heq
  have hbaseNbytes : entryValSize ∣ min log.ulogBaseNbytes nbytes := by
    rcases min_choice log.ulogBaseNbytes nbytes with h | h
    · rwa [h]
    · rw [h]
      exact hroom.1
  have hcopied := Nat.dvd_sub hroom.1 hbaseNbytes
  obtain ⟨rest, hrest⟩ := flatten_storedNext hcopied hnext old.next_capacity
    ((entries ++ ⟨0, old.value, .set⟩ :: old.shadow).drop (log.ulogBaseNbytes / entryValSize))
  obtain ⟨k, hk⟩ : ∃ k, log.ulogBaseNbytes / entryValSize +
      (nbytes - min log.ulogBaseNbytes nbytes) / entryValSize = entries.length + (k + 1) := by
    refine ⟨log.ulogBaseNbytes / entryValSize +
      (nbytes - min log.ulogBaseNbytes nbytes) / entryValSize - (entries.length + 1), ?_⟩
    unfold entryValSize at *
    omega
  have hzero : ¬ ulogEntryValid ⟨0, old.value, .set⟩ := by simp [ulogEntryValid]
  unfold visited ulogForeachEntry
  dsimp only
  rw [flatten_cons, hrest, ← append_assoc, ← take_add, hk, take_length_add_append, take_succ_cons,
    append_assoc, takeWhile_append_of_pos hvalid, cons_append, takeWhile_cons_of_neg hzero,
    append_nil]

theorem processPersistent_eq {ctx : OperationContext}
    (hvalid : ∀ e ∈ ctx.pshadowOps.entries, ulogEntryValid e)
    (h : Stores ctx.pshadowOps.offset log) (m : Mem) :
    processPersistent log old ctx m = some (applyLog ctx.pshadowOps.entries m) := by
  unfold processPersistent
  split
  · rename_i hnil
    rw [hnil, applyLog_nil]
  · rename_i e hone
    rw [hone]
    rfl
  · obtain ⟨base, copies, hstore, -⟩ := h
    have hvisited : visited log old ctx.pshadowOps.entries copies = ctx.pshadowOps.entries :=
      visited_eq hbase hvalid hstore
    rw [hstore, Option.map_some]
    dsimp only
    rw [hvisited]

/-- Where the redo log has room, finishing an operation is what it is without the redo log. -/
theorem operationFinish_eq {ctx : OperationContext}
    (hvalid : ∀ e ∈ ctx.pshadowOps.entries, ulogEntryValid e)
    (h : Stores ctx.pshadowOps.offset log) (m : Mem) :
    operationFinish log old ctx m = some (Memops.operationFinish ctx m) := by
  unfold operationFinish operationProcess Memops.operationFinish
  rw [processPersistent_eq hbase hvalid h]
  by_cases hnil : ctx.pshadowOps.entries = []
  · have hoffset : ctx.pshadowOps.offset = 0 := OperationLog.offset_eq_zero_iff.mpr hnil
    rw [if_pos hnil, if_neg (not_not.mpr hoffset)]
  · have hoffset : ctx.pshadowOps.offset ≠ 0 := mt OperationLog.offset_eq_zero_iff.mp hnil
    rw [if_neg hnil, if_pos hoffset, Option.map_some]
    rfl

end

/-- Thirteen entries in a base part of twelve and a log of eight, which are full of old ones. -/
theorem operationFinish_eq_thirteen : ∃ ctx, ctx.pshadowOps.entries.length = 13 ∧ ∀ m,
    operationFinish ⟨192, [⟨128, by decide, by decide⟩], 320, by decide⟩
      ⟨7, List.replicate 9 ⟨4160, 7, .set⟩, by decide, [List.replicate 8 ⟨4160, 7, .set⟩], rfl⟩
      ctx m = some (Memops.operationFinish ctx m) := by
  let ctx := (List.range 13).foldl
    (fun ctx i => addPersistent ⟨UInt64.ofNat (4160 + 8 * i), 1, .set⟩ ctx) operationNew
  have hlength : ctx.pshadowOps.entries.length = 13 := by decide +kernel
  have hvalid : ∀ e ∈ ctx.pshadowOps.entries, ulogEntryValid e := by decide +kernel
  refine ⟨ctx, hlength, operationFinish_eq (by decide) hvalid ((stores_iff_fits _ _).mpr ?_)⟩
  rw [OperationLog.offset, hlength]
  decide

/-! ## The transient log -/

theorem exec_all (p : Pool) (cs : List Call) (ctx : OperationContext) :
    (cs.foldl (Call.exec p) ctx).transientOps.entries =
        ctx.transientOps.entries ++ entriesOf p .transient cs ∧
      ((cs.foldl (Call.exec p) ctx).pshadowOps.entries = [] ↔
        ctx.pshadowOps.entries = [] ∧ entriesOf p .persistent cs = []) := by
  induction cs generalizing ctx with
  | nil => simp [entriesOf]
  | cons c cs ih =>
    obtain ⟨htransient, hpersistent⟩ := ih (Call.exec p ctx c)
    rw [foldl_cons, htransient, hpersistent]
    unfold Call.exec
    cases ht : c.logType p with
    | persistent =>
      have hne := addPersistent_ne_nil c.entry ctx
      simp [entriesOf, ht, hne]
    | transient =>
      obtain ⟨hsame, hadd⟩ := addTransient_spec c.entry ctx
      simp [entriesOf, ht, hsame, hadd]

/-- The transient entries of the calls that `operation_finish` applies. -/
def processed (p : Pool) (cs : List Call) : List EntryVal :=
  if entriesOf p .persistent cs = [] then [] else (entriesOf p .transient cs).take 64

def unprocessed (p : Pool) (cs : List Call) : List EntryVal :=
  if entriesOf p .persistent cs = [] then entriesOf p .transient cs
  else (entriesOf p .transient cs).drop 64

theorem processed_append_unprocessed (p : Pool) (cs : List Call) :
    processed p cs ++ unprocessed p cs = entriesOf p .transient cs := by
  unfold processed unprocessed
  split
  · rfl
  · exact take_append_drop _ _

theorem operationFinish_processed {p : Pool} {prev : OperationContext} {cs : List Call} {m m₁ : Mem}
    (h : processPersistent log old (cs.foldl (Call.exec p) (operationStart prev)) m = some m₁) :
    operationFinish log old (cs.foldl (Call.exec p) (operationStart prev)) m =
      some (applyLog (processed p cs) m₁) := by
  obtain ⟨htransient, hpersistent⟩ := exec_all p cs (operationStart prev)
  have hnone : (operationStart prev).pshadowOps.entries = [] := rfl
  have hstart : (operationStart prev).transientOps.entries = [] := rfl
  rw [hstart, nil_append] at htransient
  simp only [hnone, true_and] at hpersistent
  generalize cs.foldl (Call.exec p) (operationStart prev) = ctx at *
  unfold operationFinish operationProcess processed
  rw [h]
  by_cases hnil : ctx.pshadowOps.entries = []
  · have hoffset : ctx.pshadowOps.offset = 0 := OperationLog.offset_eq_zero_iff.mpr hnil
    rw [if_neg (not_not.mpr hoffset), if_pos (hpersistent.mp hnil), applyLog_nil]
    rw [processPersistent, hnil] at h
    exact h
  · have hoffset : ctx.pshadowOps.offset ≠ 0 := mt OperationLog.offset_eq_zero_iff.mp hnil
    rw [if_pos hoffset, if_neg (mt hpersistent.mpr hnil), OperationContext.processedTransient,
      htransient]
    rfl

theorem applyLog_of_forall_ne {es : List EntryVal} {a : UInt64}
    (h : ∀ e ∈ es, e.offset ≠ a) (m : Mem) : applyLog es m a = m a := by
  induction es generalizing m with
  | nil => rfl
  | cons e es ih =>
    rw [forall_mem_cons] at h
    rw [applyLog_cons, ih h.2, EntryVal.apply_of_ne h.1.symm]

/-- After `operation_finish` the transient words hold what the calls make of the memory that
the persistent part has left. -/
def Applied (p : Pool) (log : RedoLog) (old : Leftovers log) (prev : OperationContext)
    (cs : List Call) (m : Mem) : Prop :=
  ∃ m₁ m', processPersistent log old (cs.foldl (Call.exec p) (operationStart prev)) m = some m₁ ∧
    operationFinish log old (cs.foldl (Call.exec p) (operationStart prev)) m = some m' ∧
    ∀ e ∈ entriesOf p .transient cs,
      m' e.offset = applyLog (entriesOf p .transient cs) m₁ e.offset

theorem applied_iff_processed {p : Pool} {prev : OperationContext} {cs : List Call} {m m₁ : Mem}
    (h : processPersistent log old (cs.foldl (Call.exec p) (operationStart prev)) m = some m₁) :
    Applied p log old prev cs m ↔ ∀ e ∈ entriesOf p .transient cs,
      applyLog (processed p cs) m₁ e.offset =
        applyLog (entriesOf p .transient cs) m₁ e.offset := by
  have hfinish := operationFinish_processed h
  constructor
  · rintro ⟨m₂, m', hpersistent, hm', happlied⟩
    rw [h, Option.some.injEq] at hpersistent
    rw [hfinish, Option.some.injEq] at hm'
    rw [← hm', ← hpersistent] at happlied
    exact happlied
  · exact fun happlied => ⟨m₁, _, h, hfinish, happlied⟩

/-- Let `m₁` be the memory after the persistent part. The transient words hold what the calls
make of it if and only if the entries that are left out change no word after the processed
ones. -/
theorem applied_iff {p : Pool} {log : RedoLog} {old : Leftovers log} {prev : OperationContext}
    {cs : List Call} {m m₁ : Mem}
    (h : processPersistent log old (cs.foldl (Call.exec p) (operationStart prev)) m = some m₁) :
    Applied p log old prev cs m ↔ ∀ e ∈ unprocessed p cs,
      applyLog (unprocessed p cs) (applyLog (processed p cs) m₁) e.offset =
        applyLog (processed p cs) m₁ e.offset := by
  rw [applied_iff_processed h, ← processed_append_unprocessed p cs, List.forall_mem_append]
  simp only [applyLog_append]
  constructor
  · rintro ⟨-, hsame⟩ e he
    exact (hsame e he).symm
  · intro hsame
    have hword : ∀ a, applyLog (processed p cs) m₁ a =
        applyLog (unprocessed p cs) (applyLog (processed p cs) m₁) a := by
      intro a
      by_cases ha : ∃ e ∈ unprocessed p cs, e.offset = a
      · obtain ⟨e, he, rfl⟩ := ha
        exact (hsame e he).symm
      · rw [applyLog_of_forall_ne fun e he heq => ha ⟨e, he, heq⟩]
    exact ⟨fun e _ => hword e.offset, fun e _ => hword e.offset⟩

def laneLog : RedoLog := ⟨640, [], 640, Nat.le_refl _⟩

def emptyLog : Leftovers laneLog := ⟨0, List.replicate 3 ⟨0, 0, .set⟩, by decide, [], rfl⟩

def smallPool : Pool := ⟨7, 4096, 65536, 0, 0, 0, 0⟩

/-- A transient entry beside a persistent one. -/
theorem applied_iff_one :
    Applied smallPool laneLog emptyLog operationNew
      [.addEntry ⟨4160, 1, .set⟩, .addEntry ⟨80, 2, .set⟩] fun _ => 0 :=
  (applied_iff rfl).mpr (by decide)

/-- One persistent call, and `n` transient ones. -/
def manyTransient (n : Nat) : List Call :=
  .addEntry ⟨4160, 1, .set⟩ ::
    (List.range n).map fun i => .addEntry ⟨UInt64.ofNat (8 * (i + 1)), 2, .set⟩

/-- A transient entry without a persistent one, and 65 transient entries behind a persistent
one. -/
theorem not_applied :
    (¬ Applied smallPool laneLog emptyLog operationNew [.addEntry ⟨80, 2, .set⟩] fun _ => 0) ∧
      ¬ Applied smallPool laneLog emptyLog operationNew (manyTransient 65) fun _ => 0 := by
  constructor
  · intro h
    rw [applied_iff_processed rfl] at h
    exact absurd (h ⟨80, 2, .set⟩ (by decide)) (by decide)
  · intro h
    have hlog : ((manyTransient 65).foldl (Call.exec smallPool)
        (operationStart operationNew)).pshadowOps.entries = [⟨4160, 1, .set⟩] := by decide +kernel
    have hpersistent : processPersistent laneLog emptyLog
        ((manyTransient 65).foldl (Call.exec smallPool) (operationStart operationNew))
        (fun _ => 0) = some (EntryVal.apply ⟨4160, 1, .set⟩ fun _ => 0) := by
      rw [processPersistent, hlog]
    rw [applied_iff_processed hpersistent] at h
    exact absurd (h ⟨520, 2, .set⟩ (by decide +kernel)) (by decide +kernel)

end Pmdk.Redo
