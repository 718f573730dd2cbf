import Pmdk.Obj.Chunk

/-!
# Extension of the heap

The zones of a heap, its size on the medium and the size of the mapped region, which are not the
same after a crash between the extension of the part file and the store to `*heap->sizep`.
`heap_boot`, `heap_populate_bucket` and `heap_extend` are performed by one store or persist at a
time. Nothing is allocated, and the bucket is the set of the blocks that were inserted.

A zone header is one word; `sizeIdx = 0` stands for a header without the magic number.
-/

namespace Pmdk.Extend

open Persist Chunk

/-! ## Sizes -/

/-- `sizeof(struct heap_header)`. -/
def heapHeaderSize : Nat := 1024

def chunkSize : Nat := 1024 * 256

def maxChunk : Nat := 65535 - 7

def zoneHeadersSize : Nat := 64 + 8 * maxChunk

def zoneMinSize : Nat := zoneHeadersSize + chunkSize

def zoneMaxSize : Nat := zoneHeadersSize + chunkSize * maxChunk

def pmemobjMinPart : Nat := 1024 * 1024 * 2

def heapMinSize : Nat := heapHeaderSize + zoneHeadersSize + zoneMinSize

def maxZoneLoop : Nat → Nat → Nat
  | 0, _ => 0
  | fuel + 1, size =>
    if zoneMinSize ≤ size then
      maxZoneLoop fuel (size - if size ≤ zoneMaxSize then size else zoneMaxSize) + 1
    else 0

def heapMaxZone (size : Nat) : Nat := maxZoneLoop (size / zoneMaxSize + 1) (size - heapHeaderSize)

/-- `zone_calc_size_idx`, unless an assertion fails. -/
def zoneCalcSizeIdx (zoneId maxZone heapSize : Nat) : Option Nat :=
  if maxZone = 0 then none
  else if zoneId < maxZone - 1 then some maxChunk
  else if heapSize < zoneId * zoneMaxSize then none
  else if heapSize - zoneId * zoneMaxSize < zoneHeadersSize then none
  else some ((heapSize - zoneId * zoneMaxSize - zoneHeadersSize) / chunkSize)

/-! ## State -/

structure Block where
  zone : Nat
  chunk : Nat
  size : Nat
  deriving DecidableEq

inductive Store
  | file (n : Nat)
  | size (n : Nat)
  | persistSize
  | zone (id : Nat) (m : Micro)
  deriving DecidableEq

inductive Phase
  | down
  | idle
  | updating (i : Nat)
  | walking (zone i : Nat)
  | grown
  | reusing (zone chunk : Nat)
  | aborted
  deriving DecidableEq

/-- The mapped region has `file` bytes; `sizep` and `zones` are what is in it, and the rest is
volatile, with the stores and persists that come next. -/
structure State where
  file : Nat
  sizep : Cell Nat
  zones : Nat → Zone
  nzones : Nat
  exhausted : Nat
  bucket : List Block
  phase : Phase
  todo : List Store

namespace State

def exec (s : State) : Store → State
  | .file n => { s with file := n }
  | .size n => { s with sizep := s.sizep.store n }
  | .persistSize => { s with sizep := s.sizep.persist }
  | .zone id m => { s with zones := Function.update s.zones id ((s.zones id).exec m) }

def abort (s : State) : State := { s with phase := .aborted }

def has (s : State) (zone chunk : Nat) : Bool :=
  ⟨zone, chunk, ((s.zones zone).hdr chunk).sizeIdx⟩ ∈ s.bucket

end State

def heapZoneInit (zoneId firstChunkId sizeIdx : Nat) : List Store :=
  (memblockHugeInit firstChunkId ((sizeIdx + 2 ^ 32 - firstChunkId) % 2 ^ 32) ++
    [Micro.storeSize sizeIdx, Micro.persistSize]).map (Store.zone zoneId)

namespace State

/-- `heap_zone_init`, and what comes after it. -/
def zoneInit (s : State) (zoneId firstChunkId : Nat) (next : State) : State :=
  match zoneCalcSizeIdx zoneId s.nzones s.sizep.cur with
  | none => s.abort
  | some sizeIdx =>
    if sizeIdx = firstChunkId then s.abort
    else { next with todo := heapZoneInit zoneId firstChunkId sizeIdx }

/-- `heap_free_chunk_reuse` for the block at `chunk`, with the block that it inserts. -/
def reuse (s : State) (zoneId chunk : Nat) : Block × State :=
  let z := s.zones zoneId
  let size := (z.hdr chunk).sizeIdx
  let prevIn := (prevFree z chunk).elim false (s.has zoneId)
  let nextIn := (nextFree z chunk).elim false (s.has zoneId)
  let nm := heapCoalesceHuge z chunk size prevIn nextIn
  let removed := s.bucket.filter fun b =>
    !(prevIn && b.zone = zoneId && some b.chunk = prevFree z chunk &&
        b.size = (z.hdr b.chunk).sizeIdx) &&
      !(nextIn && b.zone = zoneId && some b.chunk = nextFree z chunk &&
        b.size = (z.hdr b.chunk).sizeIdx)
  let block : Block := ⟨zoneId, nm.1, nm.2⟩
  (block, { s with
    bucket := if block ∈ removed then removed else block :: removed
    todo := (heapFreeChunkReuse z chunk size prevIn nextIn).map (Store.zone zoneId) })

def next (s : State) : Option State :=
  match s.phase with
  | .updating i =>
    -- `heap_zone_update_if_needed`
    if i < s.nzones then
      let sizeIdx := (s.zones i).sizeIdx.cur
      if sizeIdx = 0 ∨ zoneCalcSizeIdx i s.nzones s.sizep.cur = some sizeIdx then
        some { s with phase := .updating (i + 1) }
      else some (s.zoneInit i sizeIdx { s with phase := .updating (i + 1) })
    else some { s with phase := .idle }
  | .walking zone i =>
    -- `heap_reclaim_zone_garbage`
    let z := s.zones zone
    if i < z.sizeIdx.cur then
      if (z.hdr i).sizeIdx = 0 then some s.abort
      else if (z.hdr i).type = .free then
        let (block, s) := s.reuse zone i
        some { s with phase := .walking zone (block.chunk + block.size) }
      else some s.abort
    else some { s with phase := .idle }
  | .grown =>
    let nzones := heapMaxZone s.sizep.cur
    let zone := nzones - 1
    if s.nzones = nzones then
      let chunk := (s.zones zone).sizeIdx.cur
      some (s.zoneInit zone chunk { s with phase := .reusing zone chunk })
    else some (s.zoneInit zone 0 { s with nzones := nzones, phase := .idle })
  | .reusing zone chunk => some { (s.reuse zone chunk).2 with phase := .idle }
  | _ => none

end State

/-- `boot` opens the heap, and `extend` is a call for which `util_pool_extend` succeeds. -/
inductive Act
  | boot
  | populate
  | extend (size : Nat)
  | tick
  | crash (images : Nat → Nat → Header) (sizes : Nat → Nat) (sizep : Nat)

def step (a : Act) (s : State) : Option State :=
  match a with
  | .boot =>
    -- `heap_boot`
    if s.phase ≠ .down then none
    else if s.sizep.cur = 0 then some { s with
      nzones := heapMaxZone s.file
      exhausted := 0
      bucket := []
      phase := .updating 0
      todo := [.size s.file, .persistSize] }
    else if s.file < s.sizep.cur then some s
    else some { s with
      nzones := heapMaxZone s.file
      exhausted := 0
      bucket := []
      phase := .updating 0
      todo := [] }
  | .populate =>
    -- `heap_populate_bucket`
    if s.phase ≠ .idle ∨ s.todo ≠ [] then none
    else if s.exhausted = s.nzones then some s
    else
      let walking := { s with exhausted := s.exhausted + 1, phase := .walking s.exhausted 0 }
      if (s.zones s.exhausted).sizeIdx.cur = 0 then
        some (s.zoneInit s.exhausted 0 walking)
      else some walking
  | .extend size =>
    -- `heap_extend`
    if s.phase ≠ .idle ∨ s.todo ≠ [] then none
    else some { s with
      phase := .grown
      todo := [.file (s.file + size), .size (s.sizep.cur + size), .persistSize] }
  | .tick =>
    match s.todo with
    | st :: todo => some { s.exec st with todo }
    | [] => s.next
  | .crash images sizes sizep => some { s with
      sizep := .clean sizep
      zones := fun id => .ofImage (images id) (sizes id)
      bucket := []
      phase := .down
      todo := [] }

/-- The heap after `heap_init`, in a file of zeros. -/
def init (size : Nat) : State where
  file := size
  sizep := .clean size
  zones := fun _ => .ofImage (fun _ => ⟨.unknown, 0, 0⟩) 0
  nzones := 0
  exhausted := 0
  bucket := []
  phase := .down
  todo := []

end Pmdk.Extend
