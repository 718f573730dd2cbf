import Pmdk.Obj.ClassBySize
import Pmdk.Obj.Memblock

/-!
# From the user data back to the block

`memblock_from_offset` is the inverse of `get_user_data` for the blocks of every class, as long as
the number of the first unit fits into 16 bits, to which it is cast, and the user data is in a chunk
of its run.
-/

namespace Pmdk.Memblock

open AllocClass (Offered HeaderType calcSizeIdx)
open Extend (chunkSize)

/-! ## Blocks of a class -/

structure Chunks (h : Heap) (m : MemoryBlock) : Prop where
  type : m.type = .huge
  header : (h.chunkHeader m.toPlace).type = CHUNK_TYPE_FREE ∨
    (h.chunkHeader m.toPlace).type = CHUNK_TYPE_USED
  headerType : m.headerType = h.headerType m.toPlace
  blockOff : m.blockOff = 0
  sizeIdx_pos : 1 ≤ m.sizeIdx
  inside : m.chunkId + m.sizeIdx ≤ Extend.maxChunk

structure Units (h : Heap) (c : AllocClass.Class) (m : MemoryBlock) : Prop where
  type : m.type = .run
  headerType : m.headerType = c.headerType
  header : h.chunkHeader m.toPlace = ⟨CHUNK_TYPE_RUN, c.flags, UInt32.ofNat c.sizeIdx⟩
  blockSize : (h.chunkRun m.toPlace).blockSize = c.unitSize
  alignment : (h.chunkRun m.toPlace).alignment = c.alignment
  chunk_lt : m.chunkId < Extend.maxChunk
  units : m.blockOff + m.sizeIdx ≤ c.nallocs
  sizeIdx_pos : 1 ≤ m.sizeIdx
  sizeIdx_le : m.sizeIdx ≤ 64

structure Placed (h : Heap) (c : AllocClass.Class) (m : MemoryBlock) : Prop where
  chunks : c.type = .huge → Chunks h m
  units : c.type = .run → Units h c m
  single : m.headerType = .none → m.sizeIdx = 1
  addressable : h.getUserData m < 2 ^ 64

/-- The number of the first unit fits into 16 bits, and the header of the chunk that has the user
data leads back to the run. -/
def Found (h : Heap) (m : MemoryBlock) : Prop := m.type = .run → m.blockOff < 2 ^ 16 ∧ h.Backed m

instance (h : Heap) (m : MemoryBlock) : Decidable (Found h m) :=
  inferInstanceAs (Decidable (_ → _))

variable {h : Heap} {c : AllocClass.Class} {m : MemoryBlock}

theorem headerType_of_flags {p : UlogExtend.Place} (hflags : (h.chunkHeader p).flags = c.flags) :
    h.headerType p = c.headerType := by
  unfold Heap.headerType AllocClass.Class.flags at *
  rw [hflags]
  by_cases halign : c.alignment = 0
  · rw [if_pos halign]
    cases c.headerType <;> rfl
  · rw [if_neg halign]
    cases c.headerType <;> rfl

theorem aligned_iff_flags {p : UlogExtend.Place} (hflags : (h.chunkHeader p).flags = c.flags) :
    (h.chunkHeader p).flags &&& CHUNK_FLAG_ALIGNED ≠ 0 ↔ c.alignment ≠ 0 := by
  unfold AllocClass.Class.flags at hflags
  rw [hflags]
  by_cases halign : c.alignment = 0
  · rw [if_pos halign]
    cases c.headerType <;> simp [halign] <;> decide
  · rw [if_neg halign]
    cases c.headerType <;> simp [halign] <;> decide

theorem Placed.holds (hm : Placed h c m) : h.Holds m := by
  cases htype : c.type with
  | huge =>
    obtain ⟨htype, hheader, hheaderType, hoff, hpos, hinside⟩ := hm.chunks htype
    refine ⟨hheaderType, by omega, ?_, fun _ => hoff, fun hrun => ?_, hm.addressable⟩
    · rcases hheader with hfree | hused
      · rw [hfree]; decide
      · rw [hused]; decide
    · rw [htype] at hrun
      cases hrun
  | run =>
    obtain ⟨htype, hheaderType, hheader, hsize, halign, hlt, -⟩ := hm.units htype
    have hflags : (h.chunkHeader m.toPlace).flags = c.flags := by rw [hheader]
    refine ⟨?_, hlt, ?_, fun hhuge => ?_, fun _ => ⟨?_, ?_⟩, hm.addressable⟩
    · rw [hheaderType, headerType_of_flags hflags]
    · rw [hheader]
      exact (by decide : CHUNK_TYPE_RUN ≠ CHUNK_TYPE_RUN_DATA)
    · rw [htype] at hhuge
      cases hhuge
    · rw [hsize]
      exact c.pos
    · rw [aligned_iff_flags hflags, halign]
      exact Nat.pos_of_ne_zero

theorem calcSizeIdx_mul {w k : Nat} (hw : 0 < w) (hpos : 1 ≤ k) (hlt : k < 2 ^ 32) :
    calcSizeIdx w (w * k) = k := by
  obtain ⟨k, rfl⟩ := Nat.exists_eq_add_of_le' hpos
  have hdiv : (w * (k + 1) - 1) / w = k := by
    rw [Nat.mul_add_one, Nat.add_sub_assoc hw, Nat.mul_add_div hw, Nat.div_eq_of_lt (by omega),
      Nat.add_zero]
  have hne : w * (k + 1) ≠ 0 := Nat.mul_ne_zero (Nat.pos_iff_ne_zero.mp hw) (Nat.succ_ne_zero k)
  unfold calcSizeIdx
  rw [if_neg hne, hdiv, Nat.mod_eq_of_lt hlt]

theorem writeHeader_eq (h : Heap) (stack : Bytes) (m : MemoryBlock) (extra : UInt64)
    (flags : UInt16) :
    ∃ bytes, h.writeHeader stack m extra flags = { h with objects := bytes } := by
  unfold Heap.writeHeader
  cases m.headerType with
  | legacy => exact ⟨_, rfl⟩
  | compact => exact ⟨_, rfl⟩
  | none => exact ⟨h.objects, rfl⟩

theorem Heap.Holds.objects (hm : h.Holds m) (bytes : Bytes) :
    ({ h with objects := bytes } : Heap).Holds m :=
  ⟨hm.headerType, hm.chunk_lt, hm.first, hm.huge, hm.run, hm.addressable⟩

/-- The size of a block is a multiple of what its class is made of, and fits into the header. -/
theorem Placed.size (hc : Offered c) (hm : Placed h c m) :
    0 < h.blockSize m ∧ 1 ≤ m.sizeIdx ∧ m.sizeIdx < 2 ^ 32 ∧
      h.getRealSize m = h.blockSize m * m.sizeIdx ∧ h.getRealSize m < 2 ^ 48 := by
  have hreal : 1 ≤ m.sizeIdx → h.getRealSize m = h.blockSize m * m.sizeIdx := by
    intro hpos
    rw [Heap.getRealSize, if_pos (Nat.pos_iff_ne_zero.mp hpos)]
  cases htype : c.type with
  | huge =>
    obtain ⟨htype, -, -, -, hpos, hinside⟩ := hm.chunks htype
    have hmax : Extend.maxChunk = 65528 := rfl
    have hsize : h.blockSize m = 262144 := by rw [Heap.blockSize, htype]; rfl
    rw [hreal hpos, hsize]
    omega
  | run =>
    obtain ⟨htype, -, -, hsize, -, -, -, hpos, hle⟩ := hm.units htype
    have hmax : AllocClass.PMEMOBJ_MAX_ALLOC_SIZE ≤ 2 ^ 34 := by decide
    have hblock : h.blockSize m = c.unitSize := by rw [Heap.blockSize, htype, ← hsize]
    have hmul : c.unitSize * m.sizeIdx ≤ 2 ^ 34 * 64 :=
      Nat.mul_le_mul (Nat.le_trans hc.fits.1 hmax) hle
    rw [hreal hpos, hblock]
    exact ⟨c.pos, hpos, by omega, rfl, by omega⟩

theorem narrowed_eq_iff (hw : 0 < h.blockSize m) (hpos : 1 ≤ m.sizeIdx) (hlt : m.sizeIdx < 2 ^ 32)
    (hsize : h.getSize m = h.blockSize m * m.sizeIdx) : h.narrowed m = m ↔ m.blockOff < 2 ^ 16 := by
  constructor
  · intro heq
    have hoff : m.blockOff % 2 ^ 16 = m.blockOff :=
      congrArg (fun m : MemoryBlock => m.blockOff) heq
    omega
  · intro hoff
    unfold Heap.narrowed
    dsimp only
    rw [Nat.mod_eq_of_lt hoff, hsize, calcSizeIdx_mul hw hpos hlt]

/-- The block of a class is found from its user data if and only if the number of its first unit
fits into 16 bits and the user data is in a chunk of its run. -/
theorem memblockFromOffset_iff (hc : Offered c) (hm : Placed h c m) (stack : Bytes) (extra : UInt64)
    (flags : UInt16) :
    let h' := h.writeHeader stack m extra flags
    h'.memblockFromOffset (h'.ptrToOff (h'.getUserData m)) = m ↔ Found h m := by
  obtain ⟨hpos, hone, hlt, hreal, hbound⟩ := hm.size hc
  have hsize := getSize_writeHeader h stack m extra flags hbound fun hnone => by
    rw [hreal, hm.single hnone, Nat.mul_one]
  obtain ⟨bytes, hwrite⟩ := writeHeader_eq h stack m extra flags
  have hholds := hm.holds.objects bytes
  rw [hwrite, hreal] at hsize
  have hnarrow : ({ h with objects := bytes } : Heap).narrowed m = m ↔ m.blockOff < 2 ^ 16 :=
    narrowed_eq_iff hpos hone hlt hsize
  dsimp only
  rw [hwrite]
  constructor
  · intro heq htype
    have hbacked := (backed_iff hholds).mpr ⟨by rw [heq], by rw [heq]⟩
    rw [fromOffset_of_backed hholds hbacked, hnarrow] at heq
    exact ⟨heq, hbacked⟩
  · intro hfound
    have hboth : m.blockOff < 2 ^ 16 ∧ h.Backed m := by
      cases htype : m.type with
      | huge => exact ⟨hm.holds.huge htype ▸ Nat.two_pow_pos 16, backed_huge hm.holds htype⟩
      | run => exact hfound htype
    rw [fromOffset_of_backed hholds hboth.2, hnarrow]
    exact hboth.1

/-! ## A run with many units -/

def manyUnits : AllocClass.Desc := ⟨64, 0, 70000, .compact⟩

def longRun : Heap where
  toPool := UlogExtend.pool
  zoneHeaders := fun _ => ⟨HeapCheck.ZONE_HEADER_MAGIC, 18⟩
  chunkHeaders := fun _ chunkId =>
    if chunkId = 0 then ⟨CHUNK_TYPE_RUN, CHUNK_FLAG_COMPACT_HEADER ||| CHUNK_FLAG_FLEX_BITMAP, 18⟩
    else ⟨CHUNK_TYPE_RUN_DATA, 0, UInt32.ofNat chunkId⟩
  chunkRuns := fun _ _ => ⟨64, 0, fun _ => 0⟩
  objects := fun _ => 0

def unit (k : Nat) : MemoryBlock := ⟨⟨0, 0, k⟩, 1, .compact, .run⟩

theorem getUserData_unit (k : Nat) : longRun.getUserData (unit k) = 538704 + 64 * k := by
  have hfirst : longRun.runGetDataStart (unit 0) = 538688 := by decide +kernel
  have hstart : longRun.runGetDataStart (unit k) = longRun.runGetDataStart (unit 0) :=
    longRun.runGetDataStart_blockOff (unit 0) k
  have hreal : longRun.getRealData (unit k) = longRun.runGetDataStart (unit k) + 64 * k := rfl
  have hheader : (unit k).headerType.size = 16 := rfl
  rw [Heap.getUserData, hreal, hstart, hfirst, hheader]
  omega

theorem addressable_unit {k : Nat} (hk : k < 73000) : longRun.getUserData (unit k) < 2 ^ 64 := by
  have hdata := getUserData_unit k
  omega

theorem placed_unit {k : Nat} (hk : k < 73000) : ∃ c, Offered c ∧ Placed longRun c (unit k) := by
  obtain ⟨c, hc, htype, hunit, hheader, hsize, halign, hnallocs⟩ :=
    AllocClass.exists_offered (p := manyUnits) (by decide) (by decide) (by decide)
      (fun h => absurd rfl h) (by decide)
  have hchunks : manyUnits.sizeIdx = 18 := by decide +kernel
  have hcount : (AllocClass.memblockRunBitmap manyUnits.sizeIdx manyUnits.unitSize
      manyUnits.alignment).nbits = 73583 := by decide +kernel
  have hflags : c.flags = CHUNK_FLAG_COMPACT_HEADER ||| CHUNK_FLAG_FLEX_BITMAP := by
    rw [AllocClass.Class.flags, hheader, halign]
    rfl
  have hlt : k + 1 ≤ c.nallocs := by
    rw [hnallocs, hcount]
    omega
  refine ⟨c, hc, fun hhuge => ?_, fun _ => ?_, fun hnone => ?_, ?_⟩
  · rw [htype] at hhuge
    cases hhuge
  · refine ⟨rfl, hheader.symm, ?_, hunit.symm, halign.symm, (by decide : 0 < Extend.maxChunk), hlt,
      Nat.le_refl 1, (by decide : 1 ≤ 64)⟩
    rw [hflags, hsize, hchunks]
    rfl
  · cases hnone
  · exact addressable_unit hk

/-- A unit of the run that is found again. -/
theorem memblockFromOffset_unit : ∃ c, Offered c ∧ Placed longRun c (unit 5) ∧
    let h := longRun.writeHeader (fun _ => 0) (unit 5) 7 0
    h.memblockFromOffset (h.ptrToOff (h.getUserData (unit 5))) = unit 5 := by
  obtain ⟨c, hc, hplaced⟩ := placed_unit (k := 5) (by decide)
  exact ⟨c, hc, hplaced, (memblockFromOffset_iff hc hplaced _ 7 0).mpr (by decide +kernel)⟩

/-- The unit 65536 is taken for the first one of the run. -/
theorem not_memblockFromOffset_unit : ∃ c, Offered c ∧ Placed longRun c (unit 65536) ∧
    let h := longRun.writeHeader (fun _ => 0) (unit 65536) 7 0
    h.memblockFromOffset (h.ptrToOff (h.getUserData (unit 65536))) ≠ unit 65536 := by
  obtain ⟨c, hc, hplaced⟩ := placed_unit (k := 65536) (by decide)
  refine ⟨c, hc, hplaced, fun heq => ?_⟩
  have hoff := congrArg (fun m : MemoryBlock => m.blockOff) heq
  revert hoff
  decide +kernel

end Pmdk.Memblock
