import Pmdk.Obj.AllocClass

/-!
# Extensions of a ulog

`lane_redo_extend` and `lane_undo_extend` allocate a block and build a ulog in it. The capacity of
the ulog is rounded down from the usable size of the block, and its beginning is rounded up from the
address of the user data, each by itself.
-/

namespace Pmdk.UlogExtend

open AllocClass
open Extend (heapHeaderSize zoneMaxSize zoneHeadersSize chunkSize)

/-! ## Blocks -/

structure Pool where
  addr : Nat
  heapOffset : Nat
  addr_page : addr % 4096 = 0
  heapOffset_page : heapOffset % 4096 = 0

def Pool.chunk (pop : Pool) (zoneId chunkId : Nat) : Nat :=
  pop.addr + pop.heapOffset + heapHeaderSize + zoneMaxSize * zoneId + zoneHeadersSize +
    chunkSize * chunkId

structure Place where
  zoneId : Nat
  chunkId : Nat
  blockOff : Nat
  deriving DecidableEq

/-- `run_get_data_start`, for a run of the class at an address. -/
def runGetDataStart (c : AllocClass.Class) (run : Nat) : Nat :=
  let content := run + RUN_BASE_METADATA_SIZE
  let b := memblockRunBitmap c.sizeIdx c.unitSize c.alignment
  if c.alignment ≠ 0 then
    alignUp (content + b.size + c.headerType.size) c.alignment - c.headerType.size
  else content + b.size

def getRealData (pop : Pool) (c : AllocClass.Class) (place : Place) : Nat :=
  match c.type with
  | .huge => pop.chunk place.zoneId place.chunkId
  | .run =>
    runGetDataStart c (pop.chunk place.zoneId place.chunkId) + c.unitSize * place.blockOff

def getUserData (pop : Pool) (c : AllocClass.Class) (place : Place) : Nat :=
  getRealData pop c place + c.headerType.size

def getUserSize (c : AllocClass.Class) (sizeIdx : Nat) : Nat :=
    c.unitSize * sizeIdx - c.headerType.size

/-! ## The ulog -/

/-- `sizeof(struct ulog)`. -/
def SIZEOF_ULOG : Nat := 64

def CACHELINE_SIZE : Nat := 64

structure Extension where
  ptr : Nat
  usableSize : Nat
  ulog : Nat
  capacity : Nat
  deriving DecidableEq

/-- `lane_ulog_constructor`, with the alignment of the offset in `ulog_by_offset`. -/
def laneUlogConstructor (pop : Pool) (ptr usableSize : Nat) : Extension where
  ptr := ptr
  usableSize := usableSize
  ulog := pop.addr + alignUp (ptr - pop.addr) CACHELINE_SIZE
  capacity := alignDown (usableSize - SIZEOF_ULOG) CACHELINE_SIZE

def Extension.Inside (e : Extension) : Prop :=
  e.ulog + SIZEOF_ULOG + e.capacity ≤ e.ptr + e.usableSize

instance (e : Extension) : Decidable e.Inside := inferInstanceAs (Decidable (_ ≤ _))

/-- The log of a lane that is extended. The handler that sets `cache_size` reads an `int`. -/
inductive Log
  | redo
  | undo (cacheSize : Nat) (int : cacheSize < 2 ^ 31)

/-- `SIZEOF_ALIGNED_ULOG` of the capacity that is asked for. -/
def Log.size : Log → Nat
  | .redo => SIZEOF_ULOG + 640 + CACHELINE_SIZE
  | .undo cacheSize _ => SIZEOF_ULOG + cacheSize + CACHELINE_SIZE

/-- `lane_redo_extend` and `lane_undo_extend`. The heap has found the block at `place`. -/
def laneExtend (pop : Pool) (ac : Collection) (log : Log) (place : Place) : Option Extension :=
  (heapGetBestClass ac log.size).bind fun (c, _) =>
    (allocClassCalcSizeIdx c log.size).map fun sizeIdx =>
      laneUlogConstructor pop (getUserData pop c place) (getUserSize c sizeIdx)

/-! ## Sizes -/

theorem alignUp_line (n : Nat) : alignUp n 64 = (n + 63) / 64 * 64 := alignUp_two_pow n 6

theorem alignDown_line (n : Nat) : alignDown n 64 = n / 64 * 64 := alignDown_two_pow n 6

theorem Log.size_bounds (log : Log) : 128 ≤ log.size ∧ log.size < 2 ^ 31 + 129 := by
  unfold Log.size SIZEOF_ULOG CACHELINE_SIZE
  cases log with
  | redo =>
    dsimp only
    omega
  | undo cacheSize hint =>
    dsimp only
    omega

theorem size_le_getUserSize {c : AllocClass.Class} {log : Log} {sizeIdx : Nat}
    (h : allocClassCalcSizeIdx c log.size = some sizeIdx) : log.size ≤ getUserSize c sizeIdx := by
  unfold allocClassCalcSizeIdx at h
  dsimp only at h
  split at h
  · cases h
  · have hbounds := log.size_bounds
    have hheader := HeaderType.size_le c.headerType
    have hunits := le_units (s := log.size + c.headerType.size) c.pos (by omega)
    rw [Option.some.inj h] at hunits
    unfold getUserSize
    omega

theorem Pool.chunk_line (pop : Pool) (zoneId chunkId : Nat) :
    pop.addr ≤ pop.chunk zoneId chunkId ∧ pop.chunk zoneId chunkId % 64 = 0 := by
  have haddr := pop.addr_page
  have hheap := pop.heapOffset_page
  have hheader : heapHeaderSize % 64 = 0 := rfl
  have hheaders : zoneHeadersSize % 64 = 0 := rfl
  have hzone : zoneMaxSize * zoneId % 64 = 0 := by
    rw [Nat.mul_mod, show zoneMaxSize % 64 = 0 from rfl, Nat.zero_mul, Nat.zero_mod]
  have hchunk : chunkSize * chunkId % 64 = 0 := by
    rw [Nat.mul_mod, show chunkSize % 64 = 0 from rfl, Nat.zero_mul, Nat.zero_mod]
  unfold Pool.chunk
  omega

theorem addr_le_getUserData (pop : Pool) (c : AllocClass.Class) (place : Place) :
    pop.addr ≤ getUserData pop c place := by
  obtain ⟨hle, -⟩ := pop.chunk_line place.zoneId place.chunkId
  unfold getUserData getRealData runGetDataStart alignUp
  dsimp only
  split
  · omega
  · split
    · have hand := Nat.and_le_right (n := pop.chunk place.zoneId place.chunkId +
        RUN_BASE_METADATA_SIZE + (memblockRunBitmap c.sizeIdx c.unitSize c.alignment).size +
        c.headerType.size + c.alignment - 1) (m := c.alignment - 1)
      omega
    · omega

/-! ## Where the ulog ends -/

theorem laneUlogConstructor_inside (pop : Pool) {ptr usableSize : Nat} (hptr : pop.addr ≤ ptr)
    (husable : 128 ≤ usableSize) :
    (laneUlogConstructor pop ptr usableSize).Inside ↔
      ptr % 64 = 0 ∨ (ptr + usableSize) % 64 < ptr % 64 := by
  have haddr := pop.addr_page
  unfold Extension.Inside laneUlogConstructor CACHELINE_SIZE SIZEOF_ULOG
  dsimp only
  rw [alignUp_line, alignDown_line]
  omega

/-- An extension that is obtained from the heap, from any class and at any place, has its ulog
inside of the block if and only if the user data begins at a cacheline, or the block ends earlier in
its cacheline than the user data begins in its own. -/
theorem inside_iff {pop : Pool} {ac : Collection} {log : Log} {place : Place} {e : Extension}
    (h : laneExtend pop ac log place = some e) :
    e.Inside ↔ e.ptr % 64 = 0 ∨ (e.ptr + e.usableSize) % 64 < e.ptr % 64 := by
  obtain ⟨⟨c, ac'⟩, -, hmap⟩ := Option.bind_eq_some_iff.mp h
  obtain ⟨sizeIdx, hsizeIdx, rfl⟩ := Option.map_eq_some_iff.mp hmap
  have hsize := size_le_getUserSize hsizeIdx
  have hbounds := log.size_bounds
  exact laneUlogConstructor_inside pop (addr_le_getUserData pop c place) (by omega)

def pool : Pool := ⟨0, 4096, rfl, rfl⟩

/-- A block of the default classes that is obtained for a redo log. -/
theorem inside_iff_default :
    ∃ ac e, allocClassCollectionNew = some ac ∧
      laneExtend pool ac .redo ⟨0, 1, 5⟩ = some e ∧ e.Inside := by
  have h : (allocClassCollectionNew.any fun ac => (laneExtend pool ac .redo ⟨0, 1, 5⟩).any
      fun e => e.ptr % 64 = 0 ∨ (e.ptr + e.usableSize) % 64 < e.ptr % 64) = true := by
    decide +kernel
  obtain ⟨ac, hac, h⟩ := (Option.any_eq_true _ _).mp h
  obtain ⟨e, he, h⟩ := (Option.any_eq_true _ _).mp h
  exact ⟨ac, e, hac, he, (inside_iff he).mpr (of_decide_eq_true h)⟩

/-- The collection after the user has added a class with units of 784 bytes and compact headers, so
that a unit is what a redo log asks for with its header. -/
def userCollection : Option Collection :=
  allocClassCollectionNew.bind (ctlWriteDesc true true ⟨784, 0, 300, .compact⟩ none)

/-- The class of the user is chosen for a redo log, and in its first block the ulog reaches into the
second one. -/
theorem not_inside_user :
    ∃ ac e, userCollection = some ac ∧ laneExtend pool ac .redo ⟨0, 1, 0⟩ = some e ∧
      ¬ e.Inside := by
  have h : (userCollection.any fun ac => (laneExtend pool ac .redo ⟨0, 1, 0⟩).any
      fun e => ¬ e.Inside) = true := by
    decide +kernel
  obtain ⟨ac, hac, h⟩ := (Option.any_eq_true _ _).mp h
  obtain ⟨e, he, h⟩ := (Option.any_eq_true _ _).mp h
  exact ⟨ac, e, hac, he, of_decide_eq_true h⟩

end Pmdk.UlogExtend
