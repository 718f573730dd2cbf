import Pmdk.Lib.ChainHash
import Pmdk.Lib.Owners

/-!
# The object table of nvm_malloc

Named objects have slots in the tables of the chunk headers, and a hash table leads from the name to
the volatile entry. Slots that are given back wait in `slot_buffer`.

An id is the bytes of a string before its NUL.
-/

namespace Pmdk.NvMalloc

abbrev Id := List UInt8

def maxIdLength : Nat := 54

def slotBufferSize : Nat := 200

/-- `object_table_entry_t`. The place of the NVM entry is a chunk and an index in its table. -/
structure ObjectTableEntry where
  id : Id
  slot : Nat
  dataPtr : Nat
  nvmEntry : Nat × Nat
  deriving DecidableEq

/-! ## The hash table -/

/-- `hash_fn`. A `char` is signed. -/
def hashFn (str : Id) : UInt64 :=
  str.foldl (fun hash ch => (hash <<< 5) + hash + ch.toInt8.toInt64.toUInt64) 5381

/-- `equal_fn`: `strncmp` of two strings. -/
def equalFn (a b : Id) : Bool := a.take maxIdLength == b.take maxIdLength

/-- The mask that `chainhash_init` makes. -/
def chainhashMask (min : UInt64) : UInt64 :=
  let min := min - 1
  let min := min ||| (min >>> 1)
  let min := min ||| (min >>> 2)
  let min := min ||| (min >>> 4)
  let min := min ||| (min >>> 8)
  let min := min ||| (min >>> 16)
  min ||| (min >>> 32)

def otBucket (key : Id) : Nat := (hashFn key &&& chainhashMask 100).toNat

/-! ## The state -/

structure ObjectTable where
  otHashmap : ChainHash.Chains Id ObjectTableEntry
  totalSlotsAvailable : Nat
  nextNvmSlot : Nat
  slotBuffer : List Nat
  slotBufferNextIdx : Nat
  slotBufferHeadIdx : Nat
  slotBufferTailIdx : Int
  slotBufferNFree : Int
  deriving DecidableEq

/-- `ot_init`, where `more` chunks with tables are linked behind the first one. -/
def otInit (more : Nat) : ObjectTable where
  otHashmap := List.replicate ((chainhashMask 100).toNat + 1) []
  totalSlotsAvailable := 63 * (more + 1)
  nextNvmSlot := 0
  slotBuffer := List.replicate slotBufferSize 0
  slotBufferNextIdx := 0
  slotBufferHeadIdx := 0
  slotBufferTailIdx := -1
  slotBufferNFree := 0

/-! ## `ot_get`, `ot_insert`, `ot_remove` -/

def otGet (t : ObjectTable) (id : Id) : Option ObjectTableEntry :=
  ChainHash.get otBucket equalFn t.otHashmap id

/-- How `ot_insert` finds a slot; `none` if it reads outside of `slot_buffer`. -/
def otFindSlot (t : ObjectTable) : Option (Option Nat × ObjectTable) :=
  if t.slotBufferNFree ≤ 0 then
    if t.totalSlotsAvailable ≤ t.nextNvmSlot then some (none, t)
    else some (some t.nextNvmSlot, { t with nextNvmSlot := t.nextNvmSlot + 1 })
  else
    match t.slotBuffer[t.slotBufferHeadIdx]? with
    | none => none
    | some slot => some (some slot, { t with
        slotBufferNFree := t.slotBufferNFree - 1
        slotBufferHeadIdx := t.slotBufferHeadIdx + 1 })

/-- The codes of `ot_insert`, with the entry it has made. -/
inductive Inserted
  | ok (entry : ObjectTableEntry)
  | fail
  | duplicate
  deriving DecidableEq

def otInsert (t : ObjectTable) (id : Id) (dataPtr : Nat) : Option (Inserted × ObjectTable) :=
  if (otGet t id).isSome then some (.duplicate, t)
  else
    match otFindSlot t with
    | none => none
    | some (none, t) => some (.fail, t)
    | some (some slot, t) =>
      let entry : ObjectTableEntry :=
        { id := id.take maxIdLength
          slot := slot
          dataPtr := dataPtr
          nvmEntry := (slot / 63, slot % 63) }
      some (.ok entry, { t with
        otHashmap := ChainHash.set otBucket t.otHashmap entry.id entry })

def casLoop : Nat → Int → Int → Int → Option Int
  | 0, _, _, _ => none
  | fuel + 1, place, old, new => if place = old then some new else casLoop fuel place old new

/-- `ot_remove` and whether it has found the id; `none` if the loop does not come to an end or
`slot_buffer` is left. -/
def otRemove (fuel : Nat) (t : ObjectTable) (id : Id) : Option (Bool × ObjectTable) :=
  match otGet t id with
  | none => some (false, t)
  | some entry =>
    let freeSlotIdx := t.slotBufferNextIdx % slotBufferSize
    if t.slotBuffer.length ≤ freeSlotIdx then none
    else
      -- `free_slot_idx - 1` is compared as an `int64_t`, so it is -1 for 0
      match casLoop fuel t.slotBufferTailIdx ((freeSlotIdx : Int) - 1) freeSlotIdx with
      | none => none
      | some tailIdx => some (true, { t with
          otHashmap := ChainHash.del otBucket equalFn t.otHashmap id
          slotBuffer := t.slotBuffer.set freeSlotIdx entry.slot
          slotBufferNextIdx := t.slotBufferNextIdx + 1
          slotBufferTailIdx := tailIdx
          slotBufferNFree := t.slotBufferNFree + 1 })

/-! ## Runs -/

inductive OtCall
  | insert (id : Id) (dataPtr : Nat)
  | remove (id : Id)

inductive OtEvent
  | insert (id : Id) (dataPtr slot : Nat)
  | remove (id : Id)

def lastEntry : List OtEvent → Id → Option ObjectTableEntry
  | [], _ => none
  | .insert id' dataPtr slot :: log, id =>
    if id = id' then some ⟨id'.take maxIdLength, slot, dataPtr, (slot / 63, slot % 63)⟩
    else lastEntry log id
  | .remove id' :: log, id => if id = id' then none else lastEntry log id

/-- Runs from `ot_init` in which every call is as `Meets` wants it in the state it is made in. -/
inductive OtRun (more : Nat) (Meets : ObjectTable → OtCall → Prop) :
    List OtEvent → ObjectTable → Prop
  | init : OtRun more Meets [] (otInit more)
  | inserted {log t t' id dataPtr entry} : OtRun more Meets log t → Meets t (.insert id dataPtr) →
      otInsert t id dataPtr = some (.ok entry, t') →
      OtRun more Meets (.insert id dataPtr entry.slot :: log) t'
  | notInserted {log t t' id dataPtr r} : OtRun more Meets log t → Meets t (.insert id dataPtr) →
      otInsert t id dataPtr = some (r, t') → (∀ entry, r ≠ .ok entry) → OtRun more Meets log t'
  | removed {log t t' id fuel} : OtRun more Meets log t → Meets t (.remove id) →
      otRemove fuel t id = some (true, t') → OtRun more Meets (.remove id :: log) t'
  | notRemoved {log t t' id fuel} : OtRun more Meets log t → Meets t (.remove id) →
      otRemove fuel t id = some (false, t') → OtRun more Meets log t'

end Pmdk.NvMalloc
