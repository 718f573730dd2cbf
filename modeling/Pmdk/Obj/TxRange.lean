import Mathlib.Data.List.Range
import Mathlib.Order.Interval.Set.Basic
import Pmdk.Lib.Assign
import Pmdk.Lib.Run

/-!
# Snapshots and the tree of ranges of a transaction

The part of `tx.c` that decides which bytes are restored by an abort. `tx->ranges` is a finite map
from offsets. The undo log is the list of its entries; a buffer is cut where a ulog ends, so the
room that is left in the ulogs is part of the state.

A call of `pmemobj_tx_alloc` comes with the block that `palloc_reserve` hands out. `tx_action_add`
is taken to succeed, since the code answers its failure with an abort before anything else is
changed.
-/

namespace Pmdk.TxRange

/-! ## The undo log -/

/-- A `ulog_entry_buf` of the type `ULOG_OPERATION_BUF_CPY`. -/
structure Entry where
  offset : Nat
  data : List UInt8
  deriving DecidableEq

def Entry.assigns (e : Entry) : List (Nat × UInt8) :=
  (List.range' e.offset e.data.length).zip e.data

/-- `ulog_entry_buf_create` with the same range as source and destination. -/
def bufCreate (mem : Nat → UInt8) (offset size : Nat) : Entry where
  offset := offset
  data := (List.range' offset size).map mem

/-- The undo log. `ulogs` is the room that is left in the current ulog, unless it is full, and
in each of those that follow or can still be allocated, in cache lines and less one. -/
structure Undo where
  entries : List Entry
  ulogs : List Nat
  deriving DecidableEq

/-- `operation_add_buffer`. It fails when no further ulog can be allocated. -/
def operationAddBuffer (mem : Nat → UInt8) :
    List Nat → Nat → Nat → List Entry → Undo × Bool
  | [], _, _, entries => (⟨entries, []⟩, false)
  | c :: ulogs, offset, size, entries =>
    let currSize := min (size + 24) ((c + 1) * 64)
    let dataSize := currSize - 24
    let entries := entries ++ [bufCreate mem offset dataSize]
    let left := c + 1 - (currSize + 63) / 64
    if size - dataSize = 0 then
      (⟨entries, if left = 0 then ulogs else (left - 1) :: ulogs⟩, true)
    else operationAddBuffer mem ulogs (offset + dataSize) (size - dataSize) entries

/-! ## The tree of ranges -/

/-- The fields of `struct tx_range_def` other than the offset. -/
structure Node where
  size : Nat
  flags : Nat
  deriving DecidableEq

/-- `ravl_find` with `RAVL_PREDICATE_LESS`. -/
def findLess (ranges : Nat → Option Node) : Nat → Option (Nat × Node)
  | 0 => none
  | x + 1 =>
    match ranges x with
    | some n => some (x, n)
    | none => findLess ranges x

/-- The kinds of search of `pmemobj_tx_add_common`. -/
inductive Predicate
  | less
  | lessEqual
  deriving DecidableEq

def ravlFind (ranges : Nat → Option Node) (x : Nat) : Predicate → Option (Nat × Node)
  | .less => findLess ranges x
  | .lessEqual => findLess ranges (x + 1)

/-- `ravl_emplace_copy`; `none` for `EEXIST`. -/
def ravlEmplace (ranges : Nat → Option Node) (k : Nat) (n : Node) :
    Option (Nat → Option Node) :=
  match ranges k with
  | some _ => none
  | none => some (Function.update ranges k (some n))

def ravlRemove (ranges : Nat → Option Node) (k : Nat) : Nat → Option Node :=
  Function.update ranges k none

/-- `f->size += d` on the node at `k`. -/
def growRight (ranges : Nat → Option Node) (k d : Nat) : Nat → Option Node :=
  Function.update ranges k ((ranges k).map fun n => { n with size := n.size + d })

/-- `fprev->offset -= d; fprev->size += d` on the node at `k`. -/
def growLeft (ranges : Nat → Option Node) (k d : Nat) : Nat → Option Node :=
  Function.update (Function.update ranges k none) (k - d)
    ((ranges k).map fun n => { n with size := n.size + d })

/-- `f->size += fprev->size; ravl_remove(tx->ranges, nprev)`. -/
def mergeNext (ranges : Nat → Option Node) (k kprev : Nat) : Nat → Option Node :=
  ravlRemove (growRight ranges k (((ranges kprev).map Node.size).getD 0)) kprev

/-! ## A transaction -/

/-- The elements of `tx->actions`. -/
inductive Action
  | alloc (offset : Nat)
  | free (offset : Nat)
  | value
  deriving DecidableEq

def Action.heapOffset : Action → Option Nat
  | alloc offset => some offset
  | free offset => some offset
  | value => none

structure Tx where
  ranges : Nat → Option Node
  actions : List Action
  firstSnapshot : Bool
  undo : Undo

/-- `pmemobj_tx_add_snapshot`. -/
def addSnapshot (mem : Nat → UInt8) (offset size : Nat) (tx : Tx) : Tx × Bool :=
  let actions := if tx.firstSnapshot then tx.actions ++ [.value] else tx.actions
  let (undo, ok) := operationAddBuffer mem tx.undo.ulogs offset size tx.undo.entries
  ({ tx with actions, firstSnapshot := false, undo }, ok)

/-- The first branch of `pmemobj_tx_add_common`: nothing overlaps `r` or touches it from the
left. A `FATAL` is answered with `none`. -/
def createRange (mem : Nat → UInt8) (offset size flags : Nat) (nprev : Option Nat) (tx : Tx) :
    Option (Tx × Bool) :=
  match nprev with
  | some kprev =>
    some (addSnapshot mem offset size { tx with ranges := growLeft tx.ranges kprev size })
  | none => (ravlEmplace tx.ranges offset ⟨size, flags⟩).map fun ranges =>
    addSnapshot mem offset size { tx with ranges }

/-- The second branch: the node at `k` ends at `fend` inside of `r`, or touches it. -/
def extendFound (mem : Nat → UInt8) (k fend rend : Nat) (nprev : Option Nat) (tx : Tx) :
    Tx × Bool :=
  let snapshotSize := rend - fend
  let tx := { tx with ranges := growRight tx.ranges k snapshotSize }
  let (tx, ok) :=
    if snapshotSize ≠ 0 then addSnapshot mem fend snapshotSize tx else (tx, true)
  if ok = false then (tx, false)
  else
    match nprev with
    | some kprev => ({ tx with ranges := mergeNext tx.ranges k kprev }, true)
    | none => (tx, true)

/-- The loop of `pmemobj_tx_add_common`: `size` is `r.size`, `nprev` the key of the node that
was found before. -/
def addLoop (mem : Nat → UInt8) (offset flags : Nat) :
    Nat → Nat → Predicate → Option Nat → Tx → Option (Tx × Bool)
  | 0, _, _, _, tx => some (tx, true)
  | fuel + 1, size, p, nprev, tx =>
    if size = 0 then some (tx, true) else
    let rend := offset + size
    match ravlFind tx.ranges rend p with
    | none => createRange mem offset size flags nprev tx
    | some (k, f) =>
      let fend := k + f.size
      if fend = 0 ∨ fend < offset then createRange mem offset size flags nprev tx
      else if fend ≤ rend then
        let snapshotSize := rend - fend
        let intersection := fend - max k offset
        match extendFound mem k fend rend nprev tx with
        | (tx, false) => some (tx, false)
        | (tx, true) =>
          addLoop mem offset flags fuel (size - (intersection + snapshotSize)) .less
            (some k) tx
      else
        let overlap := rend - max k offset
        addLoop mem offset flags fuel (size - overlap) .less (some k) tx

/-- `PMEMOBJ_MAX_ALLOC_SIZE`. -/
def maxAllocSize : Nat := 0x3FFDFFFC0

structure Heap where
  offset : Nat
  size : Nat
  deriving DecidableEq

/-- `pmemobj_tx_add_common` up to its errors, for which the second component is `false`. -/
def addCommon (heap : Heap) (mem : Nat → UInt8) (offset size flags : Nat) (tx : Tx) :
    Option (Tx × Bool) :=
  if size > maxAllocSize then some (tx, false)
  else if offset < heap.offset ∨ offset + size > heap.offset + heap.size then some (tx, false)
  else addLoop mem offset flags (size + 1) size .lessEqual none tx

/-- `tx_abort_set`: the entries are applied from the oldest one on. -/
def txAbortSet (entries : List Entry) (mem : Nat → UInt8) : Nat → UInt8 :=
  Assign.assign (entries.flatMap Entry.assigns) mem

/-! ## The calls -/

inductive Stage
  | work
  | onAbort
  deriving DecidableEq

structure Block where
  offset : Nat
  size : Nat
  pos : 0 < size
  deriving DecidableEq

def Block.Mem (b : Block) (a : Nat) : Prop := b.offset ≤ a ∧ a < b.offset + b.size

instance (b : Block) (a : Nat) : Decidable (b.Mem a) :=
  inferInstanceAs (Decidable (_ ∧ _))

/-- A transaction at work. `allocated` are the reservations it holds and `added` the ranges
that were added to it. -/
structure State where
  mem : Nat → UInt8
  tx : Tx
  stage : Stage
  allocated : List Block
  added : List (Nat × Nat)

def State.begin (mem : Nat → UInt8) (ulogs : List Nat) : State where
  mem := mem
  tx := { ranges := fun _ => none, actions := [], firstSnapshot := true, undo := ⟨[], ulogs⟩ }
  stage := .work
  allocated := []
  added := []

/-- `tx_abort`. -/
def State.abort (s : State) : State :=
  { s with
    mem := txAbortSet s.tx.undo.entries s.mem
    tx := { s.tx with ranges := fun _ => none, actions := [] }
    stage := .onAbort
    allocated := [] }

/-- `VEC_ERASE_BY_PTR`: the last element takes the place of the erased one. -/
def vecErase {α : Type} (v : List α) (i : Nat) : List α :=
  match v.getLast? with
  | none => v
  | some back => (v.set i back).dropLast

/-- `pmemobj_tx_free`. Cancelling the reservation of a block gives it back to the heap, and
cancelling a deferred free does nothing. -/
def State.free (offset : Nat) (s : State) : State :=
  match s.tx.ranges offset, s.tx.actions.findIdx? (·.heapOffset = some offset) with
  | some _, some i =>
    { s with
      tx := { s.tx with
        ranges := ravlRemove s.tx.ranges offset
        actions := vecErase s.tx.actions i }
      allocated := if s.tx.actions[i]? = some (.alloc offset) then
        s.allocated.filter (·.offset ≠ offset) else s.allocated }
  | _, _ => { s with tx := { s.tx with actions := s.tx.actions ++ [.free offset] } }

inductive Op
  | addRange (offset size flags : Nat)
  | alloc (block : Block) (flags : Nat) (data : Nat → UInt8)
  | free (offset : Nat)
  | store (addr : Nat) (value : UInt8)
  | abort

def step (heap : Heap) (op : Op) (s : State) : Option State :=
  if s.stage ≠ .work then none else
  match op with
  | .addRange offset size flags =>
    match addCommon heap s.mem offset size flags s.tx with
    | none => none
    | some (tx, true) => some { s with tx, added := (offset, size) :: s.added }
    | some (tx, false) => some { s with tx }.abort
  | .alloc block flags data =>
    (ravlEmplace s.tx.ranges block.offset ⟨block.size, flags⟩).map fun ranges =>
      { s with
        mem := fun a => if block.Mem a then data a else s.mem a
        tx := { s.tx with ranges, actions := s.tx.actions ++ [.alloc block.offset] }
        allocated := block :: s.allocated }
  | .free offset => some (s.free offset)
  | .store addr value => some { s with mem := Function.update s.mem addr value }
  | .abort => some s.abort

/-!
## Fusing the ranges of a transaction

Every change that `pmemobj_tx_add_common` makes to the tree replaces the nodes inside an
interval by a single node that fills it. `Extends` says what such a change means for the bytes
that the nodes cover.
-/

/-! ## Ranges that are fused -/

def covered (ranges : Nat → Option Node) : Set Nat :=
  {b | ∃ k n, ranges k = some n ∧ k ≤ b ∧ b < k + n.size}

structure Apart (ranges : Nat → Option Node) : Prop where
  pos : ∀ {k n}, ranges k = some n → 0 < n.size
  apart : ∀ {k n k' n'}, ranges k = some n → ranges k' = some n' → k < k' → k + n.size ≤ k'

/-- Every node lies inside one of the new nodes, which cover the bytes of `S` in addition. No
node begins at a byte that was covered unless one did before. -/
structure Extends (ranges ranges' : Nat → Option Node) (S : Set Nat) : Prop where
  apart : Apart ranges'
  covered_eq : covered ranges' = covered ranges ∪ S
  inside : ∀ {k n}, ranges k = some n →
    ∃ k' n', ranges' k' = some n' ∧ k' ≤ k ∧ k + n.size ≤ k' + n'.size
  starts : ∀ {b}, b ∈ covered ranges → ranges b = none → ranges' b = none

theorem Extends.refl {ranges : Nat → Option Node} (h : Apart ranges) :
    Extends ranges ranges ∅ where
  apart := h
  covered_eq := (Set.union_empty _).symm
  inside := fun hk => ⟨_, _, hk, Nat.le_refl _, Nat.le_refl _⟩
  starts := fun _ hb => hb

theorem Extends.trans {r r' r'' : Nat → Option Node} {S S' : Set Nat} (h : Extends r r' S)
    (h' : Extends r' r'' S') : Extends r r'' (S ∪ S') where
  apart := h'.apart
  covered_eq := by rw [h'.covered_eq, h.covered_eq, Set.union_assoc]
  inside := by
    intro k n hk
    obtain ⟨k', n', hk', hle, hend⟩ := h.inside hk
    obtain ⟨k'', n'', hk'', hle', hend'⟩ := h'.inside hk'
    exact ⟨k'', n'', hk'', Nat.le_trans hle' hle, Nat.le_trans hend hend'⟩
  starts := by
    intro b hb hnone
    refine h'.starts ?_ (h.starts hb hnone)
    rw [h.covered_eq]
    exact .inl hb

def fuse (ranges : Nat → Option Node) (lo hi flags : Nat) : Nat → Option Node := fun k =>
  if lo ≤ k ∧ k < hi then if k = lo then some ⟨hi - lo, flags⟩ else none else ranges k

theorem fuse_of_outside {ranges : Nat → Option Node} {lo hi flags k : Nat}
    (h : k < lo ∨ hi ≤ k) : fuse ranges lo hi flags k = ranges k :=
  if_neg (by omega)

theorem fuse_self {ranges : Nat → Option Node} {lo hi flags : Nat} (h : lo < hi) :
    fuse ranges lo hi flags lo = some ⟨hi - lo, flags⟩ := by
  rw [fuse, if_pos ⟨Nat.le_refl lo, h⟩, if_pos rfl]

theorem fuse_cases {ranges : Nat → Option Node} {lo hi flags k : Nat} {n : Node}
    (h : fuse ranges lo hi flags k = some n) :
    k = lo ∧ lo < hi ∧ n.size = hi - lo ∨ (k < lo ∨ hi ≤ k) ∧ ranges k = some n := by
  unfold fuse at h
  split at h
  · rename_i hin
    split at h
    · rename_i hk
      cases h
      exact .inl ⟨hk, by omega, rfl⟩
    · cases h
  · exact .inr ⟨by omega, h⟩

theorem extends_fuse {ranges : Nat → Option Node} (hr : Apart ranges) {lo hi : Nat}
    (flags : Nat) (hlt : lo < hi)
    (hout : ∀ {k n}, ranges k = some n →
      k + n.size ≤ lo ∨ hi ≤ k ∨ lo ≤ k ∧ k + n.size ≤ hi) :
    Extends ranges (fuse ranges lo hi flags) (Set.Ico lo hi) where
  apart := by
    constructor
    · intro k n hk
      rcases fuse_cases hk with ⟨rfl, -, hn⟩ | ⟨-, hk⟩
      · omega
      · exact hr.pos hk
    · intro k n k' n' hk hk' hkk'
      rcases fuse_cases hk with ⟨rfl, -, hn⟩ | ⟨hside, hold⟩
      · rcases fuse_cases hk' with ⟨rfl, -, -⟩ | ⟨hside', -⟩
        · omega
        · omega
      · rcases fuse_cases hk' with ⟨rfl, -, -⟩ | ⟨-, hold'⟩
        · rcases hout hold with h | h | h <;> omega
        · exact hr.apart hold hold' hkk'
  covered_eq := by
    ext b
    constructor
    · rintro ⟨k, n, hk, hle, hlt'⟩
      rcases fuse_cases hk with ⟨rfl, -, hn⟩ | ⟨-, hk⟩
      · exact .inr ⟨hle, by omega⟩
      · exact .inl ⟨k, n, hk, hle, hlt'⟩
    · rintro (⟨k, n, hk, hle, hlt'⟩ | ⟨hlo, hhi⟩)
      · by_cases hin : lo ≤ k ∧ k < hi
        · refine ⟨lo, _, fuse_self hlt, by omega, ?_⟩
          show b < lo + (hi - lo)
          rcases hout hk with h | h | h <;> omega
        · exact ⟨k, n, (fuse_of_outside (by omega)).trans hk, hle, hlt'⟩
      · exact ⟨lo, _, fuse_self hlt, hlo, by show b < lo + (hi - lo); omega⟩
  inside := by
    intro k n hk
    by_cases hin : lo ≤ k ∧ k < hi
    · refine ⟨lo, _, fuse_self hlt, hin.1, ?_⟩
      show k + n.size ≤ lo + (hi - lo)
      have := hr.pos hk
      rcases hout hk with h | h | h <;> omega
    · exact ⟨k, n, (fuse_of_outside (by omega)).trans hk, Nat.le_refl k, Nat.le_refl _⟩
  starts := by
    rintro b ⟨k, n, hk, hle, hlt'⟩ hnone
    unfold fuse
    split
    · rename_i hin
      refine if_neg fun hb => ?_
      -- the node that covers the first byte would begin there
      have hkb : k = b := by rcases hout hk with h | h | h <;> omega
      rw [hkb, hnone] at hk
      cases hk
    · exact hnone

theorem Apart.eq_none {ranges : Nat → Option Node} (hr : Apart ranges) {k j : Nat} {n : Node}
    (hk : ranges k = some n) (hlt : k < j) (hj : j < k + n.size) : ranges j = none := by
  cases hrj : ranges j with
  | none => rfl
  | some n' =>
    have := hr.apart hk hrj hlt
    omega

section Fuse

variable {ranges : Nat → Option Node} {offset size rend k : Nat} {f n : Node}

theorem ravlEmplace_eq_fuse (hsize : 0 < size) (flags : Nat)
    (hnone : ∀ j, offset ≤ j → j < offset + size → ranges j = none) :
    ravlEmplace ranges offset ⟨size, flags⟩ =
      some (fuse ranges offset (offset + size) flags) := by
  rw [ravlEmplace, hnone offset (Nat.le_refl _) (by omega)]
  refine congrArg some (funext fun j => ?_)
  rw [Function.update_apply, fuse]
  split_ifs with hj hin hin
  · rw [Nat.add_sub_cancel_left]
  · omega
  · exact hnone j hin.1 hin.2
  · rfl

theorem growLeft_eq_fuse (hr : Apart ranges) (hsize : 0 < size)
    (hn : ranges (offset + size) = some n)
    (hnone : ∀ j, offset ≤ j → j < offset + size → ranges j = none) :
    growLeft ranges (offset + size) size =
      fuse ranges offset (offset + size + n.size) n.flags := by
  refine funext fun j => ?_
  have hpos := hr.pos hn
  rw [growLeft, hn, Nat.add_sub_cancel, Function.update_apply, Function.update_apply, fuse]
  split_ifs with hj hin hend hin hin
  · rw [Option.map_some]
    congr 2
    omega
  · omega
  · rfl
  · omega
  · rcases Nat.lt_or_ge j (offset + size) with hlt | hge
    · exact hnone j hin.1 hlt
    · exact hr.eq_none hn (by omega) hin.2
  · rfl

theorem growRight_eq_fuse (hr : Apart ranges) (hk : ranges k = some f)
    (hle : k + f.size ≤ rend) (hnone : ∀ j, k < j → j < rend → ranges j = none) :
    growRight ranges k (rend - (k + f.size)) = fuse ranges k rend f.flags := by
  refine funext fun j => ?_
  have hpos := hr.pos hk
  rw [growRight, hk, Function.update_apply, fuse]
  split_ifs with hj hin hin
  · rw [Option.map_some]
    congr 2
    omega
  · omega
  · exact hnone j (by omega) hin.2
  · rfl

theorem mergeNext_fuse (hr : Apart ranges) (hlt : k < rend) (hn : ranges rend = some n)
    (flags : Nat) :
    mergeNext (fuse ranges k rend flags) k rend = fuse ranges k (rend + n.size) flags := by
  refine funext fun j => ?_
  have hpos := hr.pos hn
  have hrend : fuse ranges k rend flags rend = some n :=
    (fuse_of_outside (.inr (Nat.le_refl _))).trans hn
  rw [mergeNext, hrend, ravlRemove, growRight, fuse_self hlt, Function.update_apply,
    Function.update_apply]
  by_cases hj : j = rend
  · rw [if_pos hj, fuse, if_pos (by omega), if_neg (by omega)]
  · rw [if_neg hj]
    by_cases hjk : j = k
    · rw [if_pos hjk, fuse, if_pos (by omega), if_pos hjk, Option.map_some, Option.map_some]
      congr 2
      show rend - k + n.size = rend + n.size - k
      omega
    · rw [if_neg hjk, fuse, fuse]
      split_ifs with hin hin' hin'
      · rfl
      · omega
      · exact hr.eq_none hn (by omega) hin'.2
      · rfl

end Fuse

/-! ## Searching -/

theorem findLess_eq_some {ranges : Nat → Option Node} {x k : Nat} {n : Node}
    (h : findLess ranges x = some (k, n)) :
    ranges k = some n ∧ k < x ∧ ∀ j, k < j → j < x → ranges j = none := by
  induction x with
  | zero => cases h
  | succ x ih =>
    rw [findLess] at h
    split at h
    · rename_i n' hn'
      cases h
      exact ⟨hn', Nat.lt_succ_self _, by omega⟩
    · rename_i hnone
      obtain ⟨hk, hlt, hbetween⟩ := ih h
      refine ⟨hk, by omega, fun j hj hjx => ?_⟩
      rcases Nat.lt_succ_iff_lt_or_eq.mp hjx with hlt' | rfl
      · exact hbetween j hj hlt'
      · exact hnone

theorem findLess_eq_none {ranges : Nat → Option Node} {x : Nat}
    (h : findLess ranges x = none) : ∀ j < x, ranges j = none := by
  induction x with
  | zero => exact fun j hj => absurd hj (Nat.not_lt_zero j)
  | succ x ih =>
    rw [findLess] at h
    split at h
    · cases h
    · rename_i hnone
      intro j hj
      rcases Nat.lt_succ_iff_lt_or_eq.mp hj with hlt | rfl
      · exact ih h j hlt
      · exact hnone

end Pmdk.TxRange
