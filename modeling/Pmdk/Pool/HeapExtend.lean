import Pmdk.Obj.Extend
import Pmdk.Pool.PoolExtend

/-!
# The size of the heap and the size of the pool

`heap_extend` adds the size of the new part to the persistent size of the heap. `poolsize` is
computed from the part files, each of them rounded down to whole pages. So a heap that ends where
the pool does stays in the mapped region as long as no part has a remainder.
-/

namespace Pmdk.Poolset

open Sync (alignDown)
open Extend (pmemobjMinPart)

variable {align size : Nat} {os : ExtendAnswers} {set set' : PoolSet} {rep : Replica}

/-- The heap of an open pool: where it begins in the pool, and `*heap->sizep`. -/
structure Heap where
  set : PoolSet
  heapOffset : Nat
  sizep : Nat

/-- `heap_extend` up to its store to the size, with whether it succeeds. -/
def heapExtend (align : Nat) (os : ExtendAnswers) (size : Nat) (heap : Heap) :
    Option (Bool × Heap) :=
  match utilPoolExtend align os heap.set size pmemobjMinPart with
  | none => none
  | some e =>
    match e.addr with
    | none => some (false, { heap with set := e.set })
    | some _ => some (true, { heap with
        set := e.set
        sizep := (heap.sizep + e.size) % 2 ^ 64 })

def heapBootSize (heapSize sizep : Nat) : Except String Nat :=
  let sizep := if sizep = 0 then heapSize else sizep
  if heapSize < sizep then .error "mapped region smaller than the heap size" else .ok sizep

/-- `CTL_RUNNABLE_HANDLER(extend)`: the size that it passes to `heap_extend`. -/
def ctlExtend (argIn : Int) : Option Nat :=
  if argIn < pmemobjMinPart then none else some argIn.toNat

/-- `CTL_WRITE_HANDLER(granularity)`: the size by which the heap grows from then on. The handler
reads an `int` of its argument; this cut is left out. -/
def ctlGranularity (argIn : Int) : Option Nat :=
  if argIn ≠ 0 ∧ argIn < pmemobjMinPart then none else some argIn.toNat

/-- A call of `heap_extend` with a size that one of the handlers admits, and the answers of the
system. -/
structure Call where
  os : ExtendAnswers
  size : Nat
  admitted : ∃ argIn : Int, argIn < 2 ^ 63 ∧
    (ctlExtend argIn = some size ∨ ctlGranularity argIn = some size)

def extendStep (align : Nat) (call : Call) (heap : Heap) : Option Heap :=
  match heapExtend align call.os call.size heap with
  | some (true, heap) => some heap
  | _ => none

def Heap.Within (heap : Heap) : Prop :=
  heap.heapOffset + heap.sizep ≤ heap.set.poolsize ∧
    ∃ size, heapBootSize (heap.set.poolsize - heap.heapOffset) heap.sizep = .ok size

def StaysWithin (align : Nat) (call : Call) (heap : Heap) : Prop :=
  ∀ heap', extendStep align call heap = some heap' → heap'.Within

def PoolSet.partSize (set : PoolSet) (size : Nat) : Nat :=
  if set.resvsize < set.poolsize + size then set.resvsize - set.poolsize else size

/-- If the call succeeds, what the size of the part has beyond whole pages fits into what the pool
has behind the heap. A heap that ends where the pool does has no such room. -/
def RestFits (align : Nat) (call : Call) (heap : Heap) : Prop :=
  (extendStep align call heap).isSome = true →
    heap.set.partSize call.size % align ≤ heap.set.poolsize - (heap.heapOffset + heap.sizep)

instance (align : Nat) (call : Call) (heap : Heap) : Decidable (RestFits align call heap) :=
  inferInstanceAs (Decidable (_ → _))

theorem Call.size_lt (call : Call) : call.size < 2 ^ 63 := by
  obtain ⟨argIn, hlt, hextend | hgrow⟩ := call.admitted
  · rw [ctlExtend] at hextend
    split at hextend
    · cases hextend
    · have := Option.some.inj hextend
      omega
  · rw [ctlGranularity] at hgrow
    split at hgrow
    · cases hgrow
    · have := Option.some.inj hgrow
      omega

/-! ## A call that succeeds -/

theorem utilPoolsetAppendNewPart_inv {malloc : Nat → Bool} {effects : List Effect}
    (h : utilPoolsetAppendNewPart align malloc set size = some (true, set', effects)) :
    ∃ replica, addParts align malloc set size 0 set.replica = some (none, replica, effects) ∧
      set' = utilPoolsetSetSize align { set with
        replica := replica
        nextDirectoryId := (set.nextDirectoryId + 1) % 2 ^ 32
        nextId := (set.nextId + 1) % 2 ^ 32 } := by
  rw [utilPoolsetAppendNewPart] at h
  split at h
  · cases h
  · cases hadd : addParts align malloc set size 0 set.replica with
    | none =>
      rw [hadd] at h
      cases h
    | some added =>
      obtain ⟨failed, replica, effects'⟩ := added
      rw [hadd] at h
      cases failed with
      | none =>
        cases h
        exact ⟨replica, rfl, rfl⟩
      | some r =>
        dsimp only at h
        cases hremove : removeParts r replica with
        | none =>
          rw [hremove] at h
          cases h
        | some removed =>
          rw [hremove] at h
          cases h

theorem extendError_addr {r : Nat} {effects : List Effect} {e : Extended}
    (h : extendError align r size set effects = some e) : e.addr = none := by
  rw [extendError] at h
  cases hclean : cleanParts r (r + 1) set.replica with
  | none =>
    rw [hclean] at h
    cases h
  | some cleaned =>
    rw [hclean] at h
    cases h
    rfl

theorem openNewParts_inv {oldPoolsize addr : Nat} {effects : List Effect} {e : Extended}
    (h : openNewParts align os oldPoolsize size set effects = some e) (haddr : e.addr = some addr) :
    ∃ replica effects', openParts align 0 os oldPoolsize 0 set.replica =
        some (none, replica, effects') ∧
      e.size = size ∧ e.set = { set with replica := replica.map Replica.fdclose } := by
  rw [openNewParts] at h
  cases hopen : openParts align 0 os oldPoolsize 0 set.replica with
  | none =>
    rw [hopen] at h
    cases h
  | some opened =>
    obtain ⟨failed, replica, effects'⟩ := opened
    rw [hopen] at h
    cases failed with
    | some r =>
      rw [extendError_addr h] at haddr
      cases haddr
    | none =>
      dsimp only at h
      split at h
      · rw [extendError_addr h] at haddr
        cases haddr
      · cases h
        exact ⟨replica, effects', rfl, rfl, rfl⟩

theorem extendStep_inv {call : Call} {heap heap' : Heap}
    (h : extendStep align call heap = some heap') :
    ∃ replica replica' effects effects', addParts align call.os.malloc heap.set
        (heap.set.adjusted call.size) 0 heap.set.replica = some (none, replica, effects) ∧
      openParts align 0 call.os heap.set.poolsize 0
        (replica.map (heap.set.sizedReplica align)) = some (none, replica', effects') ∧
      heap' = { heap with
        set := { utilPoolsetSetSize align { heap.set with replica := replica } with
          replica := replica'.map Replica.fdclose
          nextDirectoryId := (heap.set.nextDirectoryId + 1) % 2 ^ 32
          nextId := (heap.set.nextId + 1) % 2 ^ 32 }
        sizep := (heap.sizep + heap.set.adjusted call.size) % 2 ^ 64 } := by
  rw [extendStep] at h
  split at h
  · rename_i heap'' hextend
    cases h
    rw [heapExtend] at hextend
    cases he : utilPoolExtend align call.os heap.set call.size pmemobjMinPart with
    | none =>
      rw [he] at hextend
      cases hextend
    | some e =>
      rw [he] at hextend
      dsimp only at hextend
      cases haddr : e.addr with
      | none =>
        rw [haddr] at hextend
        cases hextend
      | some addr =>
        rw [haddr] at hextend
        cases hextend
        rw [utilPoolExtend] at he
        split at he
        · cases he
          cases haddr
        · split at he
          · cases he
            cases haddr
          · cases happend : utilPoolsetAppendNewPart align call.os.malloc heap.set
                (heap.set.adjusted call.size) with
            | none =>
              rw [happend] at he
              cases he
            | some appended =>
              obtain ⟨ok, set', effects⟩ := appended
              rw [happend] at he
              cases ok with
              | false =>
                cases he
                cases haddr
              | true =>
                obtain ⟨replica, hadd, rfl⟩ := utilPoolsetAppendNewPart_inv happend
                obtain ⟨replica', effects', hopen, hsize, hset⟩ :=
                  openNewParts_inv he haddr
                refine ⟨replica, replica', effects, effects', hadd, hopen, ?_⟩
                rw [hset, hsize]
                rfl
  · cases h

end Pmdk.Poolset
