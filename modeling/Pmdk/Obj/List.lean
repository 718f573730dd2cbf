import Pmdk.Obj.Memops

/-!
# Persistent lists of `list.c`

A `struct list_head` at offset `h` starts with `pe_first`: the pool identifier is the word at `h`
and the offset the word at `h + 8`. An object at `o` has its `struct list_entry` at `o + pe_offset`,
with the identifiers `pe_next` and `pe_prev`. Offsets wrap around, so a negative `pe_offset` is its
two's complement.

Every function reads the pool as it is and adds its modifications to an operation context. The pool
identifiers of an inserted object, and the whole entry of a new one, are written at once. Locks are
left out. `palloc_reserve` and `palloc_publish` are given by what they do.
-/

namespace Pmdk.PList

open Assign Memops

/-- The words that lists are made of: `pe_first` of a head, `pe_next` and `pe_prev` of an
object, each with a pool identifier and an offset. -/
inductive Word
  | firstUuid (head : UInt64)
  | firstOff (head : UInt64)
  | nextUuid (obj : UInt64)
  | nextOff (obj : UInt64)
  | prevUuid (obj : UInt64)
  | prevOff (obj : UInt64)
  deriving DecidableEq

def NEXT_OFF : UInt64 := 8

def PREV_OFF : UInt64 := 24

def Word.addr (peOffset : UInt64) : Word → UInt64
  | .firstUuid head => head
  | .firstOff head => head + 8
  | .nextUuid obj => obj + peOffset
  | .nextOff obj => obj + NEXT_OFF + peOffset
  | .prevUuid obj => obj + peOffset + 16
  | .prevOff obj => obj + PREV_OFF + peOffset

section

variable (p : Pool) (peOffset : UInt64) (m : Mem)

def view (w : Word) : UInt64 := m (w.addr peOffset)

/-- `list_get_dest`. The test `!!before == POBJ_LIST_DEST_HEAD` is `before`. -/
def listGetDest (head dest : UInt64) (before : Bool) : UInt64 :=
  if dest ≠ 0 then dest
  else
    let first := view peOffset m (.firstOff head)
    if first = 0 ∨ before = true then first
    else view peOffset m (.prevOff first)

def listUpdateHead (head firstOffset : UInt64) (ctx : OperationContext) : OperationContext :=
  let ctx := operationAddEntry p (Word.addr peOffset (.firstOff head)) firstOffset .set ctx
  if view peOffset m (.firstUuid head) = 0 then
    operationAddEntry p (Word.addr peOffset (.firstUuid head)) p.uuidLo .set ctx
  else ctx

def listRemoveSingle (head obj : UInt64) (ctx : OperationContext) : OperationContext :=
  let nextOff := view peOffset m (.nextOff obj)
  let prevOff := view peOffset m (.prevOff obj)
  if nextOff = obj then
    -- only one element on the list
    listUpdateHead p peOffset m head 0 ctx
  else
    let ctx := operationAddEntry p (Word.addr peOffset (.prevOff nextOff)) prevOff .set ctx
    let ctx := operationAddEntry p (Word.addr peOffset (.nextOff prevOff)) nextOff .set ctx
    if view peOffset m (.firstOff head) = obj then
      listUpdateHead p peOffset m head nextOff ctx
    else ctx

/-- `list_insert_before` returns the next and the previous offset of the new element. -/
def listInsertBefore (dest obj : UInt64) (ctx : OperationContext) :
    (UInt64 × UInt64) × OperationContext :=
  let destPrev := view peOffset m (.prevOff dest)
  let ctx := operationAddEntry p (Word.addr peOffset (.prevOff dest)) obj .set ctx
  let ctx := operationAddEntry p (Word.addr peOffset (.nextOff destPrev)) obj .set ctx
  ((dest, destPrev), ctx)

def listInsertAfter (dest obj : UInt64) (ctx : OperationContext) :
    (UInt64 × UInt64) × OperationContext :=
  let destNext := view peOffset m (.nextOff dest)
  let ctx := operationAddEntry p (Word.addr peOffset (.nextOff dest)) obj .set ctx
  let ctx := operationAddEntry p (Word.addr peOffset (.prevOff destNext)) obj .set ctx
  ((destNext, dest), ctx)

def listInsertUser (head dest : UInt64) (before : Bool) (obj : UInt64)
    (ctx : OperationContext) : (UInt64 × UInt64) × OperationContext :=
  if dest = 0 then
    -- the first element on the list, looped on itself
    ((obj, obj), listUpdateHead p peOffset m head obj ctx)
  else if before then
    let (offs, ctx) := listInsertBefore p peOffset m dest obj ctx
    if dest = view peOffset m (.firstOff head) then
      (offs, listUpdateHead p peOffset m head obj ctx)
    else (offs, ctx)
  else listInsertAfter p peOffset m dest obj ctx

def setUuid (obj : UInt64) : Mem :=
  assign [(Word.addr peOffset (.nextUuid obj), p.uuidLo),
    (Word.addr peOffset (.prevUuid obj), p.uuidLo)] m

/-- The redo log part of `list_fill_entry_redo_log`. -/
def listFillEntryRedoLog (obj nextOffset prevOffset : UInt64) (ctx : OperationContext) :
    OperationContext :=
  let ctx := operationAddEntry p (Word.addr peOffset (.nextOff obj)) nextOffset .set ctx
  operationAddEntry p (Word.addr peOffset (.prevOff obj)) prevOffset .set ctx

def listFillEntryPersist (obj nextOffset prevOffset : UInt64) : Mem :=
  assign [(Word.addr peOffset (.nextUuid obj), p.uuidLo),
    (Word.addr peOffset (.nextOff obj), nextOffset),
    (Word.addr peOffset (.prevUuid obj), p.uuidLo),
    (Word.addr peOffset (.prevOff obj), prevOffset)] m

/-- `list_set_oid_redo_log` for the identifier at `oidp` in the pool. -/
def listSetOidRedoLog (oidp objDoffset : UInt64) (oidpInited : Bool)
    (ctx : OperationContext) : OperationContext :=
  let ctx := if oidpInited = false ∨ m oidp ≠ p.uuidLo then
      operationAddEntry p oidp p.uuidLo .set ctx
    else ctx
  operationAddEntry p (oidp + 8) objDoffset .set ctx

def setOid (oidp : Option UInt64) (objDoffset : UInt64) (oidpInited : Bool)
    (ctx : OperationContext) : OperationContext :=
  match oidp with
  | none => ctx
  | some oidp => listSetOidRedoLog p m oidp objDoffset oidpInited ctx

end

/-- What `palloc_reserve` answers: the offset of the block, and what the constructor has
written to it. -/
structure Reserved where
  offset : UInt64
  construct : List (UInt64 × UInt64)

/-- The modifications of the heap metadata that `palloc_publish` adds to the operation. -/
abbrev HeapEntries := List EntryVal

/-- `palloc_publish` adds its modifications and finishes the operation. -/
def pallocPublish (p : Pool) (heap : HeapEntries) (ctx : OperationContext) (m : Mem) : Mem :=
  operationFinish
    (heap.foldl (fun ctx e => operationAddEntry p e.offset e.value e.type ctx) ctx) m

section

variable (p : Pool) (peOffset : UInt64) (prev : OperationContext) (m : Mem)

def listInsert (head dest : UInt64) (before : Bool) (oid : UInt64) : Mem :=
  let ctx := operationStart prev
  let dest := listGetDest peOffset m head dest before
  let (offs, ctx) := listInsertUser p peOffset m head dest before oid ctx
  let m := setUuid p peOffset m oid
  operationFinish (listFillEntryRedoLog p peOffset oid offs.1 offs.2 ctx) m

/-- `list_insert_new`. It fails, with nothing written, when no block can be reserved. A null
`oidp`, or one outside of the pool, leaves nothing in the redo log. -/
def listInsertNew (head dest : UInt64) (before : Bool) (reserved : Option Reserved)
    (oidp : Option UInt64) (heap : HeapEntries) : Int × Mem :=
  match reserved with
  | none => (-1, m)
  | some ⟨obj, construct⟩ =>
    let m := assign construct m
    let ctx := operationStart prev
    let dest := listGetDest peOffset m head dest before
    let (offs, ctx) := listInsertUser p peOffset m head dest before obj ctx
    let m := listFillEntryPersist p peOffset m obj offs.1 offs.2
    (0, pallocPublish p heap (setOid p m oidp obj false ctx) m)

def listRemoveFree (head oid : UInt64) (oidp : Option UInt64) (heap : HeapEntries) : Mem :=
  let ctx := operationStart prev
  let ctx := listRemoveSingle p peOffset m head oid ctx
  pallocPublish p heap (setOid p m oidp 0 true ctx) m

def listRemove (head oid : UInt64) : Mem :=
  let ctx := operationStart prev
  let ctx := listRemoveSingle p peOffset m head oid ctx
  operationFinish (listFillEntryRedoLog p peOffset oid 0 0 ctx) m

/-- `list_move`. An entry that changes its place in the object gets its pool identifiers
there. -/
def listMove (peOffsetOld headOld peOffsetNew headNew dest : UInt64) (before : Bool)
    (oid : UInt64) : Mem :=
  let ctx := operationStart prev
  let dest := listGetDest peOffsetNew m headNew dest before
  let first := view peOffsetOld m (.firstOff headOld)
  if headOld = headNew ∧ dest = oid then operationFinish ctx m
  else if headOld = headNew ∧ before = true ∧
      view peOffsetNew m (.prevOff dest) = oid then
    if first ≠ dest then operationFinish ctx m
    else operationFinish (listUpdateHead p peOffsetOld m headOld oid ctx) m
  else if headOld = headNew ∧ before = false ∧
      view peOffsetNew m (.nextOff dest) = oid then
    if first ≠ oid then operationFinish ctx m
    else
      let next := view peOffsetOld m (.nextOff oid)
      operationFinish (listUpdateHead p peOffsetOld m headOld next ctx) m
  else
    let ctx := listRemoveSingle p peOffsetOld m headOld oid ctx
    let (offs, ctx) := listInsertUser p peOffsetNew m headNew dest before oid ctx
    let m := if peOffsetNew ≠ peOffsetOld then setUuid p peOffsetNew m oid else m
    operationFinish (listFillEntryRedoLog p peOffsetNew oid offs.1 offs.2 ctx) m

end

end Pmdk.PList
