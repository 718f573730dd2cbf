import Mathlib.Algebra.BigOperators.Group.List.Basic
import Pmdk.Obj.Memops

/-!
# Storing a redo log

The persistent log of an operation is a chain: a base part and the logs of the vector `next`, to
which `operation_reserve` adds logs until the chain has the wanted capacity. `ulog_store` copies the
shadow log into the chain. It rounds the number of bytes up so that a zero offset follows the last
entry, and takes the next element of the vector as long as bytes remain.

The reservation does not count the zero offset, so entries that fill a chain of whole cachelines run
over its end (`stores_iff`).
-/

namespace Pmdk.Redo

open Memops List

def cachelineAlign (n : Nat) : Nat := (n + 63) / 64 * 64

/-- `sizeof(struct ulog_entry_base)`. -/
def entryBaseSize : Nat := 8

structure Ulog where
  capacity : Nat
  pos : 0 < capacity
  aligned : CACHELINE_SIZE ∣ capacity

/-- The sum of the capacities in `ulog_capacity` and `ulog_reserve`. -/
def totalCapacity (ulogBaseNbytes : Nat) (next : List Ulog) : Nat :=
  ulogBaseNbytes + (next.map Ulog.capacity).sum

/-- The part of `struct operation_context` that describes the persistent log. -/
structure RedoLog where
  ulogBaseNbytes : Nat
  next : List Ulog
  ulogCapacity : Nat
  ulogCapacity_le : ulogCapacity ≤ totalCapacity ulogBaseNbytes next

/-- The loop of `ulog_reserve`: whether it gets to the new capacity, and the logs that it has
pushed to the vector. `answers` are the logs that `extend` obtains, after which it fails. -/
def ulogReserve (capacity newCapacity : Nat) : List Ulog → Bool × List Ulog
  | [] => (newCapacity ≤ capacity, [])
  | u :: answers =>
    if capacity < newCapacity then
      let (ok, pushed) := ulogReserve (capacity + u.capacity) newCapacity answers
      (ok, u :: pushed)
    else (true, [])

theorem totalCapacity_append (base : Nat) (next pushed : List Ulog) :
    totalCapacity base (next ++ pushed) = totalCapacity (totalCapacity base next) pushed := by
  unfold totalCapacity
  rw [map_append, sum_append, Nat.add_assoc]

theorem totalCapacity_append_le (base : Nat) (next pushed : List Ulog) :
    totalCapacity base next ≤ totalCapacity base (next ++ pushed) := by
  rw [totalCapacity_append]
  exact Nat.le_add_right _ _

/-- `operation_reserve`. A context without `extend` is one whose `extend` always fails. -/
def operationReserve (newCapacity : Nat) (answers : List Ulog) (log : RedoLog) :
    Bool × RedoLog :=
  if newCapacity ≤ log.ulogCapacity then (true, log)
  else
    let (ok, pushed) :=
      ulogReserve (totalCapacity log.ulogBaseNbytes log.next) newCapacity answers
    let next := log.next ++ pushed
    if ok then
      (true, ⟨log.ulogBaseNbytes, next, totalCapacity log.ulogBaseNbytes next, Nat.le_refl _⟩)
    else
      (false, ⟨log.ulogBaseNbytes, next, log.ulogCapacity,
        log.ulogCapacity_le.trans (totalCapacity_append_le _ _ _)⟩)

/-- The loop of `ulog_store` over the vector: the number of bytes copied into each of its
logs, or `none` when it takes an element behind the last one. -/
def storeNext : Nat → List Ulog → Option (List Nat)
  | 0, _ => some []
  | _ + 1, [] => none
  | n + 1, u :: next =>
    let copyNbytes := min (n + 1) u.capacity
    (storeNext (n + 1 - copyNbytes) next).map (copyNbytes :: ·)

/-- `ulog_store`: the number of bytes copied into the base part, and into the logs of the
vector. -/
def ulogStore (nbytes : Nat) (log : RedoLog) : Option (Nat × List Nat) :=
  let nbytes := cachelineAlign (nbytes + entryBaseSize)
  let baseNbytes := min log.ulogBaseNbytes nbytes
  (storeNext (nbytes - baseNbytes) log.next).map (baseNbytes, ·)

/-- `ulog_store` stays inside of the vector, and copies no more into a log than it holds. -/
def Stores (nbytes : Nat) (log : RedoLog) : Prop :=
  ∃ base copies, ulogStore nbytes log = some (base, copies) ∧ base ≤ log.ulogBaseNbytes ∧
    copies.length ≤ log.next.length ∧
    ∀ c ∈ copies.zip log.next, c.1 ≤ c.2.capacity

/-! ## The loop over the vector -/

theorem storeNext_isSome_iff (n : Nat) (next : List Ulog) :
    (storeNext n next).isSome ↔ n ≤ (next.map Ulog.capacity).sum := by
  induction next generalizing n with
  | nil =>
    cases n with
    | zero => simp [storeNext]
    | succ n => simp [storeNext]
  | cons u next ih =>
    cases n with
    | zero => simp [storeNext]
    | succ n =>
      rw [storeNext, Option.isSome_map, ih, map_cons, sum_cons]
      omega

theorem storeNext_le {n : Nat} {next : List Ulog} {copies : List Nat}
    (h : storeNext n next = some copies) :
    copies.length ≤ next.length ∧ ∀ c ∈ copies.zip next, c.1 ≤ c.2.capacity := by
  induction next generalizing n copies with
  | nil =>
    cases n with
    | zero => simp_all [storeNext]
    | succ n => simp [storeNext] at h
  | cons u next ih =>
    cases n with
    | zero =>
      rw [storeNext, Option.some.injEq] at h
      simp [← h]
    | succ n =>
      rw [storeNext, Option.map_eq_some_iff] at h
      obtain ⟨rest, hrest, rfl⟩ := h
      obtain ⟨hlength, hle⟩ := ih hrest
      rw [zip_cons_cons, forall_mem_cons]
      exact ⟨Nat.succ_le_succ hlength, Nat.min_le_right _ _, hle⟩

theorem stores_iff_fits (nbytes : Nat) (log : RedoLog) :
    Stores nbytes log ↔
      cachelineAlign (nbytes + entryBaseSize) ≤ totalCapacity log.ulogBaseNbytes log.next := by
  have hsome : (storeNext (cachelineAlign (nbytes + entryBaseSize) -
        min log.ulogBaseNbytes (cachelineAlign (nbytes + entryBaseSize))) log.next).isSome ↔
      cachelineAlign (nbytes + entryBaseSize) ≤ totalCapacity log.ulogBaseNbytes log.next := by
    rw [storeNext_isSome_iff, totalCapacity]
    omega
  rw [← hsome, Option.isSome_iff_exists]
  constructor
  · rintro ⟨base, copies, hstore, -⟩
    obtain ⟨copies', hcopies, -⟩ := Option.map_eq_some_iff.mp hstore
    exact ⟨copies', hcopies⟩
  · rintro ⟨copies, hcopies⟩
    obtain ⟨hlength, hle⟩ := storeNext_le hcopies
    refine ⟨min log.ulogBaseNbytes (cachelineAlign (nbytes + entryBaseSize)), copies, ?_,
      Nat.min_le_left _ _, hlength, hle⟩
    unfold ulogStore
    dsimp only
    rw [hcopies]
    rfl

/-! ## Reserved capacity -/

theorem ulogReserve_le {capacity newCapacity : Nat} {answers pushed : List Ulog}
    (h : ulogReserve capacity newCapacity answers = (true, pushed)) :
    newCapacity ≤ totalCapacity capacity pushed := by
  induction answers generalizing capacity pushed with
  | nil =>
    simp only [ulogReserve, Prod.mk.injEq, decide_eq_true_eq] at h
    rw [← h.2]
    exact h.1
  | cons u answers ih =>
    rw [ulogReserve] at h
    split at h
    · simp only [Prod.mk.injEq] at h
      obtain ⟨hok, hpushed⟩ := h
      have hrest := ih (Prod.ext hok rfl)
      rw [← hpushed, totalCapacity, map_cons, sum_cons, ← Nat.add_assoc]
      exact hrest
    · rename_i hle
      rw [Prod.mk.injEq] at h
      rw [← h.2]
      exact Nat.not_lt.mp hle

theorem operationReserve_le {newCapacity : Nat} {answers : List Ulog} {log log' : RedoLog}
    (h : operationReserve newCapacity answers log = (true, log')) :
    newCapacity ≤ log'.ulogCapacity := by
  unfold operationReserve at h
  split at h
  · rename_i hle
    rw [Prod.mk.injEq] at h
    exact h.2 ▸ hle
  · dsimp only at h
    split at h
    · rename_i hok
      have hle := ulogReserve_le (Prod.ext hok rfl)
      rw [Prod.mk.injEq] at h
      rw [← h.2]
      exact hle.trans (Nat.le_of_eq (totalCapacity_append _ _ _).symm)
    · cases h

theorem dvd_sum_capacity (next : List Ulog) : CACHELINE_SIZE ∣ (next.map Ulog.capacity).sum := by
  induction next with
  | nil => exact Nat.dvd_zero _
  | cons u next ih =>
    rw [map_cons, sum_cons]
    exact Nat.dvd_add u.aligned ih

/-- The entries of an operation that stays within its reservation fit into the chain. They are
stored safely if and only if they still do with a zero offset behind them and rounded up to
cachelines. Where the base part has whole cachelines, this is to say that they do not fill the
chain to its last byte. -/
theorem stores_iff {newCapacity : Nat} {answers : List Ulog} {log log' : RedoLog}
    {entries : List EntryVal} (hreserve : operationReserve newCapacity answers log = (true, log'))
    (hfit : entryValSize * entries.length ≤ log'.ulogCapacity) :
    newCapacity ≤ log'.ulogCapacity ∧
    (Stores (entryValSize * entries.length) log' ↔
      cachelineAlign (entryValSize * entries.length + entryBaseSize) ≤
        totalCapacity log'.ulogBaseNbytes log'.next) ∧
    (CACHELINE_SIZE ∣ log'.ulogBaseNbytes →
      (Stores (entryValSize * entries.length) log' ↔
        entryValSize * entries.length ≠ totalCapacity log'.ulogBaseNbytes log'.next)) := by
  have hle := hfit.trans log'.ulogCapacity_le
  refine ⟨operationReserve_le hreserve, stores_iff_fits _ _, fun hbase => ?_⟩
  have hdvd : CACHELINE_SIZE ∣ totalCapacity log'.ulogBaseNbytes log'.next :=
    Nat.dvd_add hbase (dvd_sum_capacity _)
  rw [stores_iff_fits]
  simp only [cachelineAlign, entryBaseSize, entryValSize, CACHELINE_SIZE] at *
  omega

/-- Eleven entries in a base part of 192 bytes. -/
theorem stores_iff_eleven : Stores (entryValSize * 11) ⟨192, [], 192, Nat.le_refl _⟩ := by
  have hreserve : operationReserve 176 [] ⟨192, [], 192, Nat.le_refl _⟩ =
      (true, ⟨192, [], 192, Nat.le_refl _⟩) := rfl
  have hlog := @stores_iff _ _ _ _ (List.replicate 11 ⟨64, 0, .set⟩) hreserve (by decide)
  exact (hlog.2.2 (by decide)).mpr (by decide)

/-- Forty entries fill the base part of the external redo log of a lane, for which no extension
has been reserved. -/
theorem not_stores_forty :
    ¬ ∀ (newCapacity : Nat) (answers : List Ulog) (log log' : RedoLog) (entries : List EntryVal),
      operationReserve newCapacity answers log = (true, log') →
        entryValSize * entries.length ≤ log'.ulogCapacity →
          Stores (entryValSize * entries.length) log' := by
  intro h
  have hstores := h 640 [] ⟨640, [], 640, Nat.le_refl _⟩ _ (List.replicate 40 ⟨64, 0, .set⟩) rfl
    (by decide)
  rw [stores_iff_fits] at hstores
  exact absurd hstores (by decide)

end Pmdk.Redo
