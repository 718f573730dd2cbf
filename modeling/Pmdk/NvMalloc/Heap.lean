import Pmdk.Lib.Extent
import Pmdk.Lib.SizeTree

/-!
# The heap of nvm_malloc

The region of NVM is divided into chunks, and the chunks of an arena into pages. A header of 64
bytes stands at the beginning of a huge object, of a large object, of a free range of pages or
chunks, and of a run, which is a page with small objects of one size.

Memory is a map from addresses, relative to `nvm_start`, to values. A field of a header is kept at
the address of its first byte, and so is a word of the client, which is a multiple of 8. Headers are
named by their page, volatile objects by the header that they are about.
-/

namespace Pmdk.NvMalloc

/-! ## Constants -/

def blockSize : Nat := 4096

def chunkSize : Nat := 4 * 512 * 1024 * 1024

def chunkPages : Nat := chunkSize / blockSize

def headerSize : Nat := 64

def maxNvmChunks : Nat := 100 * 1024 * 1024 * 1024 / chunkSize

def initialArenas : Nat := 3

def numArenaBins : Nat := 31

def sclassSmallMax : Nat := blockSize / 2 - 64

def sclassLargeMax : Nat := chunkSize / 2 - 64

def maxLogEntries : Nat := 127

def stateInitializing : Nat := 1

def stateInitialized : Nat := 2

def statePrefree : Nat := 4

def stateFreeing : Nat := 5

def statePreactivate : Nat := 6

def stateActivating : Nat := 7

def usageFree : Nat := 1 <<< 4

def usageArena : Nat := 2 <<< 4

def usageBlock : Nat := 3 <<< 4

def usageRun : Nat := 4 <<< 4

def usageHuge : Nat := 5 <<< 4

def getUsage (s : Nat) : Nat := s &&& 240

/-! ## Memory -/

abbrev Mem := Nat → Nat

def addr (page off : Nat) : Nat := page * blockSize + off

def chunkPage (chunk : Nat) : Nat := chunk * chunkPages

/-- Offset of `n_pages` in a block header and of `n_chunks` in a huge one. -/
def offSize : Nat := 4

/-- Offset of `on` in block and huge headers. -/
def offOn : Nat := 8

def offArenaId : Nat := 40

/-- Offset of `n_bytes` in a run header. -/
def offNBytes : Nat := 2

def offRunOn : Nat := 16

def offBitmap : Nat := 48

def offBitIdx : Nat := 56

def offVersion : Nat := 60

abbrev Bitmap := Nat → Nat

namespace Bitmap

def test (b : Bitmap) (i : Nat) : Bool := (b (i / 8)).testBit (i % 8)

/-- `bitmap[i/8] |= 1 << (i%8)`. -/
def set (b : Bitmap) (i : Nat) : Bitmap :=
  Function.update b (i / 8) (b (i / 8) ||| 1 <<< (i % 8))

/-- `bitmap[i/8] &= ~(1 << (i%8))`. -/
def clear (b : Bitmap) (i : Nat) : Bitmap :=
  Function.update b (i / 8) (b (i / 8) &&& (255 ^^^ 1 <<< (i % 8)))

end Bitmap

def bitmapOf (m : Mem) (page : Nat) : Bitmap := fun j => m (addr page (offBitmap + j))

/-- What is on NVM: the chunks, and in the file `meta` the version and the log. -/
structure Nvm where
  mem : Mem
  log : Nat → Nat
  version : Nat

inductive Store
  | mem (a v : Nat)
  | setBit (page i : Nat)
  | clearBit (page i : Nat)
  | log (slot v : Nat)
  deriving DecidableEq

namespace Nvm

def put (m : Nvm) (a v : Nat) : Nvm := { m with mem := Function.update m.mem a v }

def exec (m : Nvm) : Store → Nvm
  | .mem a v => m.put a v
  | .setBit page i =>
    m.put (addr page (offBitmap + i / 8)) ((bitmapOf m.mem page).set i (i / 8))
  | .clearBit page i =>
    m.put (addr page (offBitmap + i / 8)) ((bitmapOf m.mem page).clear i (i / 8))
  | .log slot v => { m with log := Function.update m.log slot v }

end Nvm

/-! ## Volatile state -/

/-- `arena_run_t`. Its `nvm_run` is its name, and its `bin` follows from `elem_size`. -/
structure Run where
  elemSize : Nat
  nFree : Nat
  nMax : Nat
  bitmap : Bitmap

/-- `arena_bin_t`. The list `runs` is linked through the runs' `next`. -/
structure Bin where
  currentRun : Option Nat
  nFree : Nat
  runs : List Nat

/-- The heap in a session, with the runs that were created and the objects that the client has
reserved and activated. All requests of a process go to the first arena. -/
structure Heap where
  nvm : Nvm
  nextChunk : Nat
  freeChunks : SizeTree Extent
  freePageruns : SizeTree Extent
  bins : Nat → Bin
  runs : List Nat
  run : Nat → Run
  currentVersion : Nat
  nextLogEntry : Nat
  reserved : List Nat
  active : List Nat

/-- Why a call does not return: `error_and_exit`, a null pointer, a spin lock that nobody
releases, or a failed `assert`. -/
inductive Failure
  | exit
  | segv
  | hang
  | assertion
  deriving DecidableEq

/-!
## nvm_reserve

`arena_create_run` and `arena_create_block` take a page range from the tree of free ones, or a
new chunk, and cut the pages that they need off its end. A huge object is cut off the end of a
range of free chunks in the same way.
-/

def prefault (m : Mem) (chunk n : Nat) : Mem := fun a =>
  if chunk * chunkSize ≤ a ∧ a < (chunk + n) * chunkSize ∧ a % blockSize = 0 then 1 else m a

namespace Heap

def put (h : Heap) (a v : Nat) : Heap := { h with nvm := h.nvm.put a v }

/-- `activate_more_chunks`. For no chunks at all it is `posix_fallocate` that fails. -/
def activateMoreChunks (h : Heap) (nChunks : Nat) : Except Failure (Nat × Heap) :=
  if h.nextChunk + nChunks > maxNvmChunks then .error .exit
  else if nChunks = 0 then .error .exit
  else .ok (h.nextChunk,
    { h with
      nvm := { h.nvm with mem := prefault h.nvm.mem h.nextChunk nChunks }
      nextChunk := h.nextChunk + nChunks })

/-- `memset(on, 0, 2*sizeof(nvm_ptrset_t))`, for a block or huge header. -/
def clearOn (h : Heap) (page : Nat) : Heap :=
  (((h.put (addr page offOn) 0).put (addr page (offOn + 8)) 0).put (addr page (offOn + 16)) 0).put
    (addr page (offOn + 24)) 0

def arenaAddChunk (h : Heap) : Except Failure (Extent × Heap) := do
  let (chunk, h) ← h.activateMoreChunks 1
  let page := chunkPage chunk
  let h := h.put (addr page 0) (usageArena ||| stateInitializing)
  let h := h.clearOn (page + 1)
  let h := h.put (addr (page + 1) 0) (usageFree ||| stateInitialized)
  let h := h.put (addr (page + 1) offSize) (chunkPages - 1)
  let h := h.put (addr page 0) (usageArena ||| stateInitialized)
  return (⟨page + 1, chunkPages - 1⟩, h)

/-- The beginning of `arena_create_run` and `arena_create_block`. -/
def takeFreeBlock (h : Heap) (nPages : Nat) : Except Failure (Extent × Heap) :=
  match h.freePageruns.upperBound Extent.len nPages none with
  | none => h.arenaAddChunk
  | some block => .ok (block, { h with freePageruns := h.freePageruns.del block })

/-- `memset(nvm_run, 0, sizeof(nvm_run_header_t))`. -/
def clearHeader (h : Heap) (page : Nat) : Heap :=
  { h with nvm := { h.nvm with
      mem := fun a => if addr page 0 ≤ a ∧ a < addr page headerSize then 0 else h.nvm.mem a } }

def createRunHeader (h : Heap) (page nBytes : Nat) : Heap :=
  let h := h.clearHeader page
  let h := h.put (addr page 0) (usageRun ||| stateInitialized)
  let h := h.put (addr page offNBytes) nBytes
  let h := h.put (addr page offBitIdx) 65535
  h.put (addr page offVersion) h.currentVersion

/-- The block without its last pages goes back to the tree; `hdrPages` is for its header. -/
def shrinkFreeBlock (h : Heap) (block : Extent) (nPages hdrPages : Nat) : Heap :=
  let h := h.put (addr block.start offSize) hdrPages
  { h with freePageruns :=
      h.freePageruns.add Extent.len { block with len := block.len - nPages } }

def arenaCreateRun (h : Heap) (nBytes : Nat) : Except Failure (Nat × Heap) := do
  let (block, h) ← h.takeFreeBlock 1
  let page := block.start + (block.len - 1)
  let nMax := (blockSize - 64) / nBytes
  let h := { h with
    runs := page :: h.runs
    run := Function.update h.run page ⟨nBytes, nMax, nMax, fun _ => 0⟩ }
  let h := h.createRunHeader page nBytes
  return (page, if block.len > 1 then h.shrinkFreeBlock block 1 (block.len - 1) else h)

def arenaCreateBlock (h : Heap) (nPages : Nat) : Except Failure (Nat × Heap) := do
  let (block, h) ← h.takeFreeBlock nPages
  if block.len > nPages then
    let page := block.start + (block.len - nPages)
    let h := h.put (addr page 0) (usageFree ||| stateInitialized)
    let h := h.put (addr page offSize) nPages
    let h := h.put (addr page offArenaId) 0
    let hdrPages := h.nvm.mem (addr block.start offSize) - nPages
    if hdrPages = 0 then .error .assertion
    else return (page, h.shrinkFreeBlock block nPages hdrPages)
  else
    return (block.start, h)

def setBin (h : Heap) (k : Nat) (bin : Bin) : Heap :=
  { h with bins := Function.update h.bins k bin }

def setRun (h : Heap) (page : Nat) (run : Run) : Heap :=
  { h with run := Function.update h.run page run }

/-- The run from which `arena_allocate` takes a small object. -/
def selectRun (h : Heap) (nBytes : Nat) : Except Failure (Nat × Heap) :=
  let k := nBytes / 64 - 1
  let bin := h.bins k
  if bin.nFree = 0 then do
    let (page, h) ← h.arenaCreateRun nBytes
    return (page, h.setBin k
      { h.bins k with currentRun := some page, nFree := (h.bins k).nFree +
          (blockSize - 64) / nBytes })
  else
    match bin.currentRun with
    | some page => if (h.run page).nFree = 0 then popRun k bin else .ok (page, h)
    | none => popRun k bin
where
  /-- The current run is full: select another one. -/
  popRun (k : Nat) (bin : Bin) : Except Failure (Nat × Heap) :=
    match bin.runs with
    | [] => .error .segv
    | page :: runs => .ok (page, h.setBin k { bin with currentRun := some page, runs })

def slotAddr (page nBytes i : Nat) : Nat := addr page (headerSize + nBytes * i)

/-- `arena_allocate`; `none` is a null pointer. -/
def arenaAllocate (h : Heap) (nBytes : Nat) : Except Failure (Option Nat × Heap) := do
  if nBytes ≤ sclassSmallMax then
    let nBytes := nBytes / 64 * 64 + if nBytes % 64 ≠ 0 then 64 else 0
    let k := nBytes / 64 - 1
    let (page, h) ← h.selectRun nBytes
    let run := h.run page
    let slot := (List.range ((blockSize - 64) / nBytes)).find? fun i => !run.bitmap.test i
    let bitmap := match slot with
      | none => run.bitmap
      | some i => run.bitmap.set i
    let h := h.setRun page { run with bitmap, nFree := run.nFree - 1 }
    let h := h.setBin k { h.bins k with nFree := (h.bins k).nFree - 1 }
    return (slot.map fun i => slotAddr page nBytes i, h)
  else
    let nBytes := nBytes / blockSize * blockSize + if nBytes % blockSize ≠ 0 then blockSize else 0
    let (page, h) ← h.arenaCreateBlock (nBytes / blockSize)
    return (some (addr page headerSize), h)

def nvmReserveHuge (h : Heap) (nChunks : Nat) : Except Failure (Nat × Heap) := do
  let (chunk, h) ← h.activateMoreChunks nChunks
  let h := h.put (addr (chunkPage chunk) 0) (usageHuge ||| stateInitializing)
  let h := h.put (addr (chunkPage chunk) offSize) (nChunks % 2 ^ 32)
  return (chunk, h.clearOn (chunkPage chunk))

/-- The chunks of a huge object. The number of chunks is computed with 64 bits, and the tree is
searched for its lower 32 bits. -/
def reserveChunks (h : Heap) (nBytes : Nat) : Except Failure (Nat × Heap) :=
  let nChunks := (nBytes + headerSize + chunkSize) % 2 ^ 64 / chunkSize
  match h.freeChunks.upperBound Extent.len (nChunks % 2 ^ 32) none with
  | none => h.nvmReserveHuge nChunks
  | some huge =>
    let h := { h with freeChunks := h.freeChunks.del huge }
    if huge.len > nChunks then
      let chunk := huge.start + (huge.len - nChunks)
      let h := h.put (addr (chunkPage chunk) 0) (usageFree ||| stateInitialized)
      let h := h.put (addr (chunkPage chunk) offSize) nChunks
      let first := addr (chunkPage huge.start) offSize
      let h := h.put first (h.nvm.mem first - nChunks)
      let rest : Extent := { huge with len := huge.len - nChunks }
      .ok (chunk, { h with freeChunks := h.freeChunks.add Extent.len rest })
    else .ok (huge.start, h)

def nvmReserve (h : Heap) (nBytes : Nat) : Except Failure (Option Nat × Heap) := do
  if nBytes ≤ sclassLargeMax then
    h.arenaAllocate nBytes
  else
    let (chunk, h) ← h.reserveChunks nBytes
    return (some (addr (chunkPage chunk) headerSize), h)

end Heap

end Pmdk.NvMalloc
