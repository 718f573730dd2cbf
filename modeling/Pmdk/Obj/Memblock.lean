import Pmdk.Obj.Bytes
import Pmdk.Obj.HeapCheck
import Pmdk.Obj.RunBitmap
import Pmdk.Obj.UlogExtend

/-!
# Memory blocks

A block of the heap is a number of chunks, or some of the units of a run. `get_user_data` is the
address of what the user sees of it, and `memblock_from_offset` finds the block again from the
offset of this address: the zone and the chunk by division, the first chunk of a run from the header
of the chunk, and the unit by division.

The chunk headers, the runs and the headers of the objects are kept apart, since none of the
functions here writes one of them by way of another.
-/

namespace Pmdk.Memblock

open Extend (chunkSize zoneMaxSize zoneHeadersSize heapHeaderSize)
open AllocClass (HeaderType RUN_BASE_METADATA_SIZE alignUp calcSizeIdx)
open HeapCheck (ChunkHeader)
open UlogExtend (Pool Place)

/-! ## The heap -/

def CHUNK_TYPE_FREE : UInt16 := 2

def CHUNK_TYPE_USED : UInt16 := 3

def CHUNK_TYPE_RUN : UInt16 := 4

def CHUNK_TYPE_RUN_DATA : UInt16 := 5

def ALLOC_HDR_SIZE_SHIFT : UInt64 := 48

def ALLOC_HDR_FLAGS_MASK : UInt64 := 0xffffffffffff

structure ZoneHeader where
  magic : UInt32
  sizeIdx : UInt32
  deriving DecidableEq

/-- `struct chunk_run`: the run header, and the words of the content. -/
structure ChunkRun where
  blockSize : Nat
  alignment : Nat
  content : Nat → BitVec 64

structure Heap extends Pool where
  zoneHeaders : Nat → ZoneHeader
  chunkHeaders : Nat → Nat → ChunkHeader
  chunkRuns : Nat → Nat → ChunkRun
  objects : Bytes

inductive MemoryBlockType
  | huge
  | run
  deriving DecidableEq

/-- `struct memory_block`, without the heap and the operations, which follow from the type. -/
structure MemoryBlock extends Place where
  sizeIdx : Nat
  headerType : HeaderType
  type : MemoryBlockType
  deriving DecidableEq

/-- `heap_get_chunk_hdr`. -/
def Heap.chunkHeader (h : Heap) (p : Place) : ChunkHeader := h.chunkHeaders p.zoneId p.chunkId

def Heap.chunkRun (h : Heap) (p : Place) : ChunkRun := h.chunkRuns p.zoneId p.chunkId

def Heap.headerType (h : Heap) (p : Place) : HeaderType :=
  if (h.chunkHeader p).flags &&& CHUNK_FLAG_COMPACT_HEADER ≠ 0 then .compact
  else if (h.chunkHeader p).flags &&& CHUNK_FLAG_HEADER_NONE ≠ 0 then .none
  else .legacy

/-! ## The operations of a block -/

/-- `run_get_bitmap`, with what is read from the chunk header and the run. -/
def Heap.runGetBitmap (h : Heap) (p : Place) : RunBitmap :=
  let run := h.chunkRun p
  Memblock.runGetBitmap {
    sizeIdx := (h.chunkHeader p).sizeIdx.toNat
    flags := (h.chunkHeader p).flags
    blockSize := run.blockSize
    alignment := run.alignment
    content := run.content }

def Heap.runGetDataStart (h : Heap) (m : MemoryBlock) : Nat :=
  let content := h.chunk m.zoneId m.chunkId + RUN_BASE_METADATA_SIZE
  let b := h.runGetBitmap m.toPlace
  if (h.chunkHeader m.toPlace).flags &&& CHUNK_FLAG_ALIGNED ≠ 0 then
    alignUp (content + b.size + m.headerType.size) (h.chunkRun m.toPlace).alignment -
      m.headerType.size
  else content + b.size

theorem Heap.runGetDataStart_blockOff (h : Heap) (m : MemoryBlock) (k : Nat) :
    h.runGetDataStart { m with blockOff := k } = h.runGetDataStart m := rfl

def Heap.runGetDataOffset (h : Heap) (m : MemoryBlock) : Nat :=
  h.runGetDataStart m - (h.chunk m.zoneId m.chunkId + RUN_BASE_METADATA_SIZE)

def Heap.blockSize (h : Heap) (m : MemoryBlock) : Nat :=
  match m.type with
  | .huge => chunkSize
  | .run => (h.chunkRun m.toPlace).blockSize

def Heap.getRealData (h : Heap) (m : MemoryBlock) : Nat :=
  match m.type with
  | .huge => h.chunk m.zoneId m.chunkId
  | .run => h.runGetDataStart m + h.blockSize m * m.blockOff

def Heap.getUserData (h : Heap) (m : MemoryBlock) : Nat := h.getRealData m + m.headerType.size

/-- `get_size` of the header of an object. -/
def Heap.getSize (h : Heap) (m : MemoryBlock) : Nat :=
  match m.headerType with
  | .legacy => (h.objects.loadWord (h.getRealData m + 8)).toNat
  | .compact => (h.objects.loadWord (h.getRealData m) &&& ALLOC_HDR_FLAGS_MASK).toNat
  | .none => h.blockSize m

def Heap.getRealSize (h : Heap) (m : MemoryBlock) : Nat :=
  if m.sizeIdx ≠ 0 then h.blockSize m * m.sizeIdx else h.getSize m

/-- `memcpy` of `n` bytes. -/
def memcpy (bytes : Bytes) (dest : Nat) (src : Nat → UInt8) (n : Nat) : Bytes :=
  fun x => if dest ≤ x ∧ x < dest + n then src (x - dest) else bytes x

/-- The headers in memory after `block_write_header`. The bytes of the copied structure that are
not set are found on the stack. -/
def Heap.writeHeader (h : Heap) (stack : Bytes) (m : MemoryBlock) (extra : UInt64)
    (flags : UInt16) : Heap :=
  let hdrp := h.getRealData m
  let size := UInt64.ofNat (h.getRealSize m)
  let shifted := flags.toUInt64 <<< ALLOC_HDR_SIZE_SHIFT
  match m.headerType with
  | .legacy =>
    let hdr := ((stack.storeWord 8 size).storeWord 56 extra).storeWord 48 shifted
    { h with objects := memcpy h.objects hdrp hdr 64 }
  | .compact =>
    let padded := (stack.storeWord 0 (size ||| shifted)).storeWord 8 extra
    let hdrSize := if hdrp % 64 = 0 ∧ 64 ≤ h.getRealSize m then 64 else 16
    { h with objects := memcpy h.objects hdrp padded hdrSize }
  | .none => h

/-! ## The block of an offset -/

def sub64 (a b : Nat) : Nat := (a + (2 ^ 64 - b % 2 ^ 64)) % 2 ^ 64

def Heap.ptrToOff (h : Heap) (ptr : Nat) : Nat := ptr - h.addr

def Heap.firstChunk (h : Heap) (zoneId chunkId : Nat) : Nat :=
  let hdr := h.chunkHeaders zoneId chunkId
  if hdr.type = CHUNK_TYPE_RUN_DATA then (chunkId + 2 ^ 32 - hdr.sizeIdx.toNat) % 2 ^ 32
  else chunkId

/-- The rest of `memblock_from_offset_opt`, when the chunk is known and the offset is one from the
first chunk of the zone. -/
def Heap.memblockFromChunk (h : Heap) (zoneId chunkId off : Nat) (size : Bool) : MemoryBlock :=
  let off := sub64 off (chunkSize * chunkId)
  let headerType := h.headerType ⟨zoneId, chunkId, 0⟩
  let off := sub64 off headerType.size
  let first : MemoryBlock := ⟨⟨zoneId, chunkId, 0⟩, 0, headerType, if off ≠ 0 then .run else .huge⟩
  let unitSize := h.blockSize first
  let blockOff :=
    if off ≠ 0 then
      sub64 (sub64 off (h.runGetDataOffset first)) RUN_BASE_METADATA_SIZE / unitSize % 2 ^ 16
    else 0
  let m := { first with blockOff := blockOff }
  { m with sizeIdx := if size then calcSizeIdx unitSize (h.getSize m) else 0 }

@[simp] theorem memblockFromChunk_zoneId (h : Heap) (zoneId chunkId off : Nat) (size : Bool) :
    (h.memblockFromChunk zoneId chunkId off size).zoneId = zoneId := rfl

@[simp] theorem memblockFromChunk_chunkId (h : Heap) (zoneId chunkId off : Nat) (size : Bool) :
    (h.memblockFromChunk zoneId chunkId off size).chunkId = chunkId := rfl

def Heap.memblockFromOffsetOpt (h : Heap) (off : Nat) (size : Bool) : MemoryBlock :=
  let off := sub64 off (h.heapOffset + heapHeaderSize)
  let zoneId := off / zoneMaxSize % 2 ^ 32
  let off := sub64 off (zoneMaxSize * zoneId + zoneHeadersSize)
  let chunkId := h.firstChunk zoneId (off / chunkSize % 2 ^ 32)
  h.memblockFromChunk zoneId chunkId off size

def Heap.memblockFromOffset (h : Heap) (off : Nat) : MemoryBlock := h.memblockFromOffsetOpt off true

/-! ## The size in a header -/

theorem memcpy_of_mem (bytes src : Bytes) {dest i n : Nat} (hi : i < n) :
    memcpy bytes dest src n (dest + i) = src i := by
  unfold memcpy
  rw [if_pos ⟨Nat.le_add_right dest i, Nat.add_lt_add_left hi dest⟩, Nat.add_sub_cancel_left]

theorem loadWord_memcpy (bytes src : Bytes) {dest i n : Nat} {w : UInt64} (hn : i + 8 ≤ n)
    (hsrc : ∀ j < 8, src (i + j) = byteOf w j) :
    (memcpy bytes dest src n).loadWord (dest + i) = w := by
  refine Bytes.loadWord_eq fun j hj => ?_
  rw [Nat.add_assoc, memcpy_of_mem bytes src (by omega)]
  exact hsrc j hj

theorem storeWord_self (bytes : Bytes) (a : Nat) (w : UInt64) {j : Nat} (hj : j < 8) :
    bytes.storeWord a w (a + j) = byteOf w j := by
  unfold Bytes.storeWord
  rw [if_pos (by omega), Nat.add_sub_cancel_left]

theorem storeWord_of_disjoint (bytes : Bytes) {a b j : Nat} (w : UInt64) (hj : j < 8)
    (hab : a + 8 ≤ b ∨ b + 8 ≤ a) : bytes.storeWord a w (b + j) = bytes (b + j) := by
  unfold Bytes.storeWord
  rw [if_neg (by omega)]

theorem or_shifted_and_mask {size : Nat} (flags : UInt16) (hsize : size < 2 ^ 48) :
    ((UInt64.ofNat size ||| flags.toUInt64 <<< ALLOC_HDR_SIZE_SHIFT) &&&
      ALLOC_HDR_FLAGS_MASK).toNat = size := by
  have hmask : ALLOC_HDR_FLAGS_MASK.toNat = 2 ^ 48 - 1 := rfl
  have hshift : ALLOC_HDR_SIZE_SHIFT.toNat % 64 = 48 := rfl
  have hcut : (flags.toNat <<< 48 % 2 ^ 64) % 2 ^ 48 = 0 := by
    rw [Nat.mod_mod_of_dvd _ (by decide), Nat.shiftLeft_eq]
    exact Nat.mul_mod_left _ _
  rw [UInt64.toNat_and, UInt64.toNat_or, UInt64.toNat_shiftLeft, hmask, hshift,
    Nat.and_two_pow_sub_one_eq_mod, Nat.or_mod_two_pow, UInt16.toNat_toUInt64, hcut, Nat.or_zero,
    UInt64.toNat_ofNat_of_lt' (Nat.lt_trans hsize (by decide)), Nat.mod_eq_of_lt hsize]

theorem getSize_writeHeader (h : Heap) (stack : Bytes) (m : MemoryBlock) (extra : UInt64)
    (flags : UInt16) (hsize : h.getRealSize m < 2 ^ 48)
    (hnone : m.headerType = .none → h.getRealSize m = h.blockSize m) :
    (h.writeHeader stack m extra flags).getSize m = h.getRealSize m := by
  unfold Heap.writeHeader Heap.getSize
  cases hheader : m.headerType with
  | legacy =>
    dsimp only
    change ((memcpy h.objects (h.getRealData m) _ 64).loadWord (h.getRealData m + 8)).toNat = _
    rw [loadWord_memcpy (w := UInt64.ofNat (h.getRealSize m)) _ _ (by decide)]
    · exact UInt64.toNat_ofNat_of_lt' (Nat.lt_trans hsize (by decide))
    · intro j hj
      rw [storeWord_of_disjoint _ _ hj (by decide), storeWord_of_disjoint _ _ hj (by decide)]
      exact storeWord_self _ _ _ hj
  | compact =>
    dsimp only
    change ((memcpy h.objects (h.getRealData m) _ _).loadWord (h.getRealData m + 0) &&&
      ALLOC_HDR_FLAGS_MASK).toNat = _
    rw [loadWord_memcpy (w := UInt64.ofNat (h.getRealSize m) |||
      flags.toUInt64 <<< ALLOC_HDR_SIZE_SHIFT) _ _ (by split <;> decide)]
    · exact or_shifted_and_mask flags hsize
    · intro j hj
      rw [storeWord_of_disjoint _ _ hj (by decide)]
      exact storeWord_self _ _ _ hj
  | none => exact (hnone hheader).symm

/-! ## Where the user data is -/

def Heap.userChunk (h : Heap) (m : MemoryBlock) : Nat :=
  (h.getUserData m - h.chunk m.zoneId m.chunkId) / chunkSize

def Heap.Backed (h : Heap) (m : MemoryBlock) : Prop :=
  m.chunkId + h.userChunk m < Extend.maxChunk ∧ (h.userChunk m = 0 ∨
    (h.chunkHeaders m.zoneId (m.chunkId + h.userChunk m)).type = CHUNK_TYPE_RUN_DATA ∧
    (h.chunkHeaders m.zoneId (m.chunkId + h.userChunk m)).sizeIdx.toNat = h.userChunk m)

instance (h : Heap) (m : MemoryBlock) : Decidable (h.Backed m) :=
  inferInstanceAs (Decidable (_ ∧ _))

/-- The fields of a block are those that `memblock_rebuild_state` finds, the block begins at a
chunk of its zone, and the memory is addressed by 64 bits. -/
structure Heap.Holds (h : Heap) (m : MemoryBlock) : Prop where
  headerType : m.headerType = h.headerType m.toPlace
  chunk_lt : m.chunkId < Extend.maxChunk
  first : (h.chunkHeader m.toPlace).type ≠ CHUNK_TYPE_RUN_DATA
  huge : m.type = .huge → m.blockOff = 0
  run : m.type = .run → 0 < (h.chunkRun m.toPlace).blockSize ∧
    ((h.chunkHeader m.toPlace).flags &&& CHUNK_FLAG_ALIGNED ≠ 0 →
      0 < (h.chunkRun m.toPlace).alignment)
  addressable : h.getUserData m < 2 ^ 64

theorem sub64_add {a b : Nat} (hlt : a + b < 2 ^ 64) : sub64 (a + b) b = a := by
  unfold sub64
  omega

variable {h : Heap} {m : MemoryBlock}

theorem Heap.Holds.content_le (hm : h.Holds m) (htype : m.type = .run) :
    h.chunk m.zoneId m.chunkId + RUN_BASE_METADATA_SIZE ≤ h.runGetDataStart m := by
  obtain ⟨-, halign⟩ := hm.run htype
  unfold Heap.runGetDataStart
  dsimp only
  split
  · rename_i hflag
    have hbounds := AllocClass.alignUp_bounds (h.chunk m.zoneId m.chunkId +
      RUN_BASE_METADATA_SIZE + (h.runGetBitmap m.toPlace).size + m.headerType.size) (halign hflag)
    omega
  · omega

theorem Heap.getUserData_run (hm : h.Holds m) (htype : m.type = .run) : h.getUserData m =
    h.chunk m.zoneId m.chunkId + (RUN_BASE_METADATA_SIZE + h.runGetDataOffset m +
      (h.chunkRun m.toPlace).blockSize * m.blockOff + m.headerType.size) := by
  have hle := hm.content_le htype
  unfold Heap.getUserData Heap.getRealData Heap.runGetDataOffset Heap.blockSize
  rw [htype]
  dsimp only
  omega

theorem Heap.getUserData_huge (htype : m.type = .huge) :
    h.getUserData m = h.chunk m.zoneId m.chunkId + m.headerType.size := by
  unfold Heap.getUserData Heap.getRealData
  rw [htype]

/-! ## From an offset back to the block -/

theorem sub64_ptrToOff {z c d : Nat} (haddr : h.chunk z c + d < 2 ^ 64) :
    sub64 (h.ptrToOff (h.chunk z c + d)) (h.heapOffset + heapHeaderSize) =
      zoneMaxSize * z + zoneHeadersSize + chunkSize * c + d := by
  unfold Heap.ptrToOff
  unfold Pool.chunk at haddr ⊢
  have hsum : h.addr + h.heapOffset + heapHeaderSize + zoneMaxSize * z + zoneHeadersSize +
      chunkSize * c + d - h.addr = zoneMaxSize * z + zoneHeadersSize + chunkSize * c + d +
        (h.heapOffset + heapHeaderSize) := by
    omega
  rw [hsum]
  exact sub64_add (by omega)

theorem zone_div {z c d : Nat} :
    (zoneMaxSize * z + zoneHeadersSize + chunkSize * c + d) / zoneMaxSize = z ↔
      c + d / chunkSize < Extend.maxChunk := by
  have hmax : Extend.maxChunk = 65528 := rfl
  have hchunk : chunkSize = 262144 := rfl
  have hheaders : zoneHeadersSize = 524288 := rfl
  have hzone : zoneMaxSize = 17178296320 := rfl
  rw [hmax, hchunk, hheaders, hzone]
  omega

theorem chunk_div {c d : Nat} : (chunkSize * c + d) / chunkSize = c + d / chunkSize :=
  Nat.mul_add_div (by decide) c d

/-- The headers lead back to the chunk of a block if and only if the chunk of its user data does. -/
theorem firstChunk_iff (hm : h.Holds m) (hlt : m.chunkId + h.userChunk m < Extend.maxChunk) :
    h.firstChunk m.zoneId (m.chunkId + h.userChunk m) = m.chunkId ↔ h.Backed m := by
  have hmax : Extend.maxChunk = 65528 := rfl
  have hsize := (h.chunkHeaders m.zoneId (m.chunkId + h.userChunk m)).sizeIdx.toNat_lt
  unfold Heap.firstChunk Heap.Backed
  dsimp only
  by_cases hdata : (h.chunkHeaders m.zoneId (m.chunkId + h.userChunk m)).type = CHUNK_TYPE_RUN_DATA
  · have hne : h.userChunk m ≠ 0 := by
      intro hzero
      rw [hzero] at hdata
      exact hm.first hdata
    simp only [hdata, if_true, true_and, hlt, hne, false_or]
    omega
  · simp only [hdata, if_false, false_and, hlt, true_and, or_false]
    omega

theorem Heap.Holds.exists_userData (hm : h.Holds m) :
    ∃ d, h.getUserData m = h.chunk m.zoneId m.chunkId + d ∧ h.userChunk m = d / chunkSize := by
  have hle : h.chunk m.zoneId m.chunkId ≤ h.getUserData m := by
    cases htype : m.type with
    | huge => rw [getUserData_huge htype]; exact Nat.le_add_right _ _
    | run => rw [getUserData_run hm htype]; exact Nat.le_add_right _ _
  exact ⟨_, (Nat.add_sub_cancel' hle).symm, rfl⟩

theorem fromOffset_zoneId (hm : h.Holds m) :
    (h.memblockFromOffset (h.ptrToOff (h.getUserData m))).zoneId = m.zoneId ↔
      m.chunkId + h.userChunk m < Extend.maxChunk := by
  obtain ⟨d, hd, hk⟩ := hm.exists_userData
  have haddr := hm.addressable
  have hzone : 2 ^ 64 ≤ 2 ^ 32 * zoneMaxSize := by decide
  unfold Heap.memblockFromOffset Heap.memblockFromOffsetOpt
  dsimp only
  rw [hd] at haddr ⊢
  rw [memblockFromChunk_zoneId, sub64_ptrToOff haddr, hk, ← zone_div (z := m.zoneId)]
  unfold Pool.chunk at haddr
  have hlt : (zoneMaxSize * m.zoneId + zoneHeadersSize + chunkSize * m.chunkId + d) / zoneMaxSize <
      2 ^ 32 :=
    (Nat.div_lt_iff_lt_mul (by decide)).mpr (Nat.lt_of_lt_of_le (by omega) hzone)
  rw [Nat.mod_eq_of_lt hlt]

theorem sub64_zone {z c d : Nat} (haddr : h.chunk z c + d < 2 ^ 64) :
    sub64 (zoneMaxSize * z + zoneHeadersSize + chunkSize * c + d)
      (zoneMaxSize * z + zoneHeadersSize) = chunkSize * c + d := by
  unfold Pool.chunk at haddr
  rw [Nat.add_assoc (zoneMaxSize * z + zoneHeadersSize), Nat.add_comm (zoneMaxSize * z + _)]
  exact sub64_add (by omega)

theorem fromOffset_eq (hm : h.Holds m) {d : Nat}
    (hd : h.getUserData m = h.chunk m.zoneId m.chunkId + d)
    (hlt : m.chunkId + h.userChunk m < Extend.maxChunk) :
    h.memblockFromOffset (h.ptrToOff (h.getUserData m)) =
      h.memblockFromChunk m.zoneId (h.firstChunk m.zoneId (m.chunkId + h.userChunk m))
        (chunkSize * m.chunkId + d) true := by
  have hk : h.userChunk m = d / chunkSize := by
    unfold Heap.userChunk
    rw [hd, Nat.add_sub_cancel_left]
  have haddr := hm.addressable
  have hzone := (fromOffset_zoneId hm).mpr hlt
  have hmax : Extend.maxChunk = 65528 := rfl
  unfold Heap.memblockFromOffset Heap.memblockFromOffsetOpt at hzone ⊢
  dsimp only at hzone ⊢
  rw [memblockFromChunk_zoneId] at hzone
  rw [hd] at haddr hzone ⊢
  rw [hzone, sub64_ptrToOff haddr, sub64_zone haddr, chunk_div, ← hk, Nat.mod_eq_of_lt (by omega)]

/-- An offset leads to the chunk of its block if and only if the chunk of its user data does. -/
theorem backed_iff (hm : h.Holds m) :
    h.Backed m ↔ (h.memblockFromOffset (h.ptrToOff (h.getUserData m))).zoneId = m.zoneId ∧
      (h.memblockFromOffset (h.ptrToOff (h.getUserData m))).chunkId = m.chunkId := by
  obtain ⟨d, hd, -⟩ := hm.exists_userData
  rw [fromOffset_zoneId hm]
  constructor
  · intro hbacked
    refine ⟨hbacked.1, ?_⟩
    rw [fromOffset_eq hm hd hbacked.1, memblockFromChunk_chunkId]
    exact (firstChunk_iff hm hbacked.1).mpr hbacked
  · rintro ⟨hlt, hchunk⟩
    rw [fromOffset_eq hm hd hlt, memblockFromChunk_chunkId] at hchunk
    exact (firstChunk_iff hm hlt).mp hchunk

theorem backed_huge (hm : h.Holds m) (htype : m.type = .huge) : h.Backed m := by
  have hheader := m.headerType.size_le
  have hzero : h.userChunk m = 0 := by
    unfold Heap.userChunk
    rw [Heap.getUserData_huge htype, Nat.add_sub_cancel_left]
    exact Nat.div_eq_of_lt (Nat.lt_of_le_of_lt hheader (by decide))
  refine ⟨?_, .inl hzero⟩
  rw [hzero]
  exact hm.chunk_lt

/-- The block that is found: the number of the unit is cut to 16 bits, and the size is taken from
the header that is there. -/
def Heap.narrowed (h : Heap) (m : MemoryBlock) : MemoryBlock :=
  let m := { m with blockOff := m.blockOff % 2 ^ 16 }
  { m with sizeIdx := calcSizeIdx (h.blockSize m) (h.getSize m) }

theorem fromChunk_huge (hm : h.Holds m) (htype : m.type = .huge) :
    h.memblockFromChunk m.zoneId m.chunkId (chunkSize * m.chunkId + m.headerType.size) true =
      h.narrowed m := by
  have haddr := hm.addressable
  rw [Heap.getUserData_huge htype] at haddr
  obtain ⟨⟨z, c, k⟩, n, headerType, type⟩ := m
  obtain rfl : type = .huge := htype
  obtain rfl : k = 0 := hm.huge rfl
  have hheader : h.headerType ⟨z, c, 0⟩ = headerType := hm.headerType.symm
  have hoff : sub64 (chunkSize * c + headerType.size) (chunkSize * c) = 0 + headerType.size := by
    unfold Pool.chunk at haddr
    dsimp only at haddr
    rw [Nat.add_comm, sub64_add (by omega), Nat.zero_add]
  have hheadersize := headerType.size_le
  unfold Heap.memblockFromChunk Heap.narrowed
  dsimp only
  rw [hheader, hoff, sub64_add (by omega), if_neg (not_not.mpr rfl), if_neg (not_not.mpr rfl),
    if_pos rfl]
  rfl

theorem fromChunk_run (hm : h.Holds m) (htype : m.type = .run) :
    h.memblockFromChunk m.zoneId m.chunkId (chunkSize * m.chunkId +
      (RUN_BASE_METADATA_SIZE + h.runGetDataOffset m +
        (h.chunkRun m.toPlace).blockSize * m.blockOff + m.headerType.size)) true =
      h.narrowed m := by
  have haddr := hm.addressable
  rw [Heap.getUserData_run hm htype] at haddr
  obtain ⟨hpos, -⟩ := hm.run htype
  obtain ⟨⟨z, c, k⟩, n, headerType, type⟩ := m
  obtain rfl : type = .run := htype
  have hheader : h.headerType ⟨z, c, 0⟩ = headerType := hm.headerType.symm
  have hstart : h.runGetDataOffset ⟨⟨z, c, 0⟩, 0, headerType, .run⟩ =
      h.runGetDataOffset ⟨⟨z, c, k⟩, n, headerType, .run⟩ := rfl
  have hsize : h.blockSize ⟨⟨z, c, 0⟩, 0, headerType, .run⟩ =
      (h.chunkRun ⟨z, c, k⟩).blockSize := rfl
  unfold Pool.chunk at haddr
  unfold Heap.memblockFromChunk Heap.narrowed
  dsimp only at haddr hpos ⊢
  rw [hheader]
  generalize hw : (h.chunkRun ⟨z, c, k⟩).blockSize = unitSize at *
  generalize hs : h.runGetDataOffset ⟨⟨z, c, k⟩, n, headerType, .run⟩ = start at *
  have hchunk : sub64 (chunkSize * c + (RUN_BASE_METADATA_SIZE + start + unitSize * k +
      headerType.size)) (chunkSize * c) =
        unitSize * k + RUN_BASE_METADATA_SIZE + start + headerType.size := by
    rw [Nat.add_comm, sub64_add (by omega)]
    omega
  have hdata : sub64 (unitSize * k + RUN_BASE_METADATA_SIZE + start + headerType.size)
      headerType.size = unitSize * k + RUN_BASE_METADATA_SIZE + start := sub64_add (by omega)
  have hne : unitSize * k + RUN_BASE_METADATA_SIZE + start ≠ 0 := by
    unfold RUN_BASE_METADATA_SIZE
    omega
  rw [hchunk, hdata, if_pos hne, if_pos hne, if_pos rfl, hstart, hsize, sub64_add (by omega),
    sub64_add (by omega), Nat.mul_div_cancel_left k hpos, ← hw]
  rfl

theorem fromOffset_of_backed (hm : h.Holds m) (hbacked : h.Backed m) :
    h.memblockFromOffset (h.ptrToOff (h.getUserData m)) = h.narrowed m := by
  have hfirst := (firstChunk_iff hm hbacked.1).mpr hbacked
  cases htype : m.type with
  | huge =>
    rw [fromOffset_eq hm (Heap.getUserData_huge htype) hbacked.1, hfirst]
    exact fromChunk_huge hm htype
  | run =>
    rw [fromOffset_eq hm (Heap.getUserData_run hm htype) hbacked.1, hfirst]
    exact fromChunk_run hm htype

end Pmdk.Memblock
