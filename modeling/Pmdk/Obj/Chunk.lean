import Pmdk.Lib.Cache
import Pmdk.Lib.Run

/-!
# Chunk headers of a zone

A zone of the heap is an array of chunk headers, each of them 8 bytes. `Zone` keeps them as cells
that are written back at unknown times, together with the `size_idx` of the zone header. An
operation of `heap.c` or `memblock.c` is the list of its stores and persists in program order
(`Op.micros`), and a crash can come between any two. Footers are stored and never made persistent.

A zone has at most `MAX_CHUNK` chunks, so natural numbers stand for the 32-bit sums; the one
difference that can wrap, in `heap_get_adjacent_free_block`, is taken modulo `2 ^ 32`.
-/

namespace Pmdk.Chunk

open Persist

inductive ChunkType
  | unknown
  | footer
  | free
  | used
  | run
  | runData
  deriving DecidableEq

structure Header where
  type : ChunkType
  flags : Nat
  sizeIdx : Nat
  deriving DecidableEq

def Header.isChunk (h : Header) : Bool :=
  h.type = .free || h.type = .used || h.type = .run

inductive Micro
  | store (i : Nat) (h : Header)
  | persist (i : Nat)
  | storeSize (n : Nat)
  | persistSize
  deriving DecidableEq

structure Zone where
  headers : Nat → Cell Header
  sizeIdx : Cell Nat

namespace Zone

def hdr (z : Zone) (i : Nat) : Header := (z.headers i).cur

def set (z : Zone) (i : Nat) (c : Cell Header) : Zone :=
  { z with headers := Function.update z.headers i c }

def exec (z : Zone) : Micro → Zone
  | .store i h => z.set i ((z.headers i).store h)
  | .persist i => z.set i (z.headers i).persist
  | .storeSize n => { z with sizeIdx := z.sizeIdx.store n }
  | .persistSize => { z with sizeIdx := z.sizeIdx.persist }

/-- The headers `image` and the size may be found on the medium. -/
def MayHold (z : Zone) (image : Nat → Header) (sizeIdx : Nat) : Prop :=
  (∀ i, (z.headers i).Holds (image i)) ∧ z.sizeIdx.Holds sizeIdx

def ofImage (image : Nat → Header) (sizeIdx : Nat) : Zone :=
  ⟨fun i => Cell.clean (image i), Cell.clean sizeIdx⟩

end Zone

/-- `huge_write_footer`; a footer has the flags of its header. -/
def hugeWriteFooter (i flags sizeIdx : Nat) : List Micro :=
  if sizeIdx = 1 then [] else [.store (i + sizeIdx - 1) ⟨.footer, flags, sizeIdx⟩]

def memblockHugeInit (chunkId sizeIdx : Nat) : List Micro :=
  [.store chunkId ⟨.free, 0, sizeIdx⟩, .persist chunkId] ++ hugeWriteFooter chunkId 0 sizeIdx

/-- `heap_split_block`, for a huge block. -/
def heapSplitBlock (chunkId sizeIdx units : Nat) : List Micro :=
  memblockHugeInit chunkId units ++ memblockHugeInit (chunkId + units) (sizeIdx - units)

/-- `memblock_run_init`. The data headers are persisted together before the run header. -/
def memblockRunInit (z : Zone) (chunkId sizeIdx flags : Nat) : List Micro :=
  (List.range (sizeIdx - 1)).map (fun i => .store (chunkId + (i + 1)) ⟨.runData, 0, i + 1⟩) ++
  (List.range (sizeIdx - 1)).map (fun i => .persist (chunkId + (i + 1))) ++
  [.store chunkId ⟨.run, flags, (z.hdr chunkId).sizeIdx⟩, .persist chunkId]

/-- `huge_prep_operation_hdr`: the header, and its footer afterwards. Through a redo log the
stores come in the same order. -/
def hugePrepOperationHdr (z : Zone) (allocated : Bool) (chunkId sizeIdx : Nat) :
    List Micro :=
  [.store chunkId ⟨if allocated then .used else .free, (z.hdr chunkId).flags, sizeIdx⟩,
    .persist chunkId] ++ hugeWriteFooter chunkId 0 sizeIdx

/-- The chunk before `chunkId` as `heap_get_adjacent_free_block` finds it, from the size in the
header slot before. -/
def prevChunkId (z : Zone) (chunkId : Nat) : Nat :=
  (chunkId + 2 ^ 32 - (z.hdr (chunkId - 1)).sizeIdx) % 2 ^ 32

/-- `heap_get_adjacent_free_block` with `prev` set. -/
def prevFree (z : Zone) (chunkId : Nat) : Option Nat :=
  if chunkId = 0 then none
  else if (z.hdr (prevChunkId z chunkId)).type = .free then some (prevChunkId z chunkId)
  else none

/-- `heap_get_adjacent_free_block` with `prev` not set. -/
def nextFree (z : Zone) (chunkId : Nat) : Option Nat :=
  let next := chunkId + (z.hdr chunkId).sizeIdx
  if next = z.sizeIdx.cur then none
  else if (z.hdr next).type = .free then some next
  else none

/-- What `heap_coalesce_huge` returns for the block at `chunkId`: its first chunk and its
size. `prevIn` and `nextIn` tell whether the bucket contains the neighbour that was found. -/
def heapCoalesceHuge (z : Zone) (chunkId sizeIdx : Nat) (prevIn nextIn : Bool) :
    Nat × Nat :=
  let prev := if prevIn then prevFree z chunkId else none
  let next := if nextIn then nextFree z chunkId else none
  let prevSize := prev.elim 0 fun i => (z.hdr i).sizeIdx
  let nextSize := next.elim 0 fun i => (z.hdr i).sizeIdx
  (prev.getD chunkId, prevSize + sizeIdx + nextSize)

def heapFreeChunkReuse (z : Zone) (chunkId sizeIdx : Nat) (prevIn nextIn : Bool) :
    List Micro :=
  let nm := heapCoalesceHuge z chunkId sizeIdx prevIn nextIn
  if nm.2 ≠ sizeIdx then hugePrepOperationHdr z false nm.1 nm.2 else []

/-- `heap_run_into_free_chunk`. The coalescing reads the headers after the chunk has been
initialized. -/
def heapRunIntoFreeChunk (z : Zone) (chunkId : Nat) (prevIn nextIn : Bool) : List Micro :=
  let sizeIdx := (z.hdr chunkId).sizeIdx
  let init := memblockHugeInit chunkId sizeIdx
  init ++ heapFreeChunkReuse (init.foldl Zone.exec z) chunkId sizeIdx prevIn nextIn

/-- `heap_zone_init` for a zone that grows to `newSize` chunks. -/
def heapZoneInit (firstChunkId newSize : Nat) : List Micro :=
  memblockHugeInit firstChunkId (newSize - firstChunkId) ++ [.storeSize newSize, .persistSize]

inductive Op
  | split (chunkId units : Nat)
  | freeChunkReuse (chunkId : Nat) (prevIn nextIn : Bool)
  | runInit (chunkId flags : Nat)
  | runIntoFreeChunk (chunkId : Nat) (prevIn nextIn : Bool)
  | prepHdr (allocated : Bool) (chunkId : Nat)
  | ensureHeaderType (chunkId flag : Nat)
  | reinitChunk (chunkId : Nat)
  | zoneInit (newSize : Nat)

def Op.micros (z : Zone) : Op → List Micro
  | .split c units => heapSplitBlock c (z.hdr c).sizeIdx units
  | .freeChunkReuse c prevIn nextIn =>
    heapFreeChunkReuse z c (z.hdr c).sizeIdx prevIn nextIn
  | .runInit c flags => memblockRunInit z c (z.hdr c).sizeIdx flags
  | .runIntoFreeChunk c prevIn nextIn => heapRunIntoFreeChunk z c prevIn nextIn
  | .prepHdr allocated c => hugePrepOperationHdr z allocated c (z.hdr c).sizeIdx
  | .ensureHeaderType c flag =>
    if (z.hdr c).flags &&& flag = 0 then
      [.store c { z.hdr c with flags := (z.hdr c).flags ||| flag }, .persist c]
    else []
  | .reinitChunk c =>
    if (z.hdr c).type = .used then hugeWriteFooter c (z.hdr c).flags (z.hdr c).sizeIdx
    else []
  | .zoneInit newSize => heapZoneInit z.sizeIdx.cur newSize

inductive Act
  | call (op : Op)
  | tick
  | crash (image : Nat → Header) (sizeIdx : Nat)

structure State where
  zone : Zone
  todo : List Micro

/-- Operations follow one another. That a crash leaves an image which the medium may hold is
the guard of a run, not checked here. -/
def step : Act → State → Option State
  | .call op, s => if s.todo = [] then some ⟨s.zone, op.micros s.zone⟩ else none
  | .tick, s =>
    match s.todo with
    | [] => none
    | m :: todo => some ⟨s.zone.exec m, todo⟩
  | .crash image sizeIdx, _ => some ⟨Zone.ofImage image sizeIdx, []⟩

end Pmdk.Chunk
