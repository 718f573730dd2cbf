import Mathlib.Data.List.Induction
import Mathlib.Data.List.Perm.Subperm
import Mathlib.Order.Bounds.Basic
import Pmdk.Lib.Bitmap
import Pmdk.Obj.AllocClass

/-!
# The bitmap of a run

`memblock_run_bitmap` for both kinds of bitmaps: the flexible one, of which
`AllocClass.memblockRunBitmap` are the number of bits and the size, and the one of 38 words that
older heaps have. `memblock_run_init` fills the bitmap of a new run, and `run_iterate_free` and
`run_calc_free` read it.

The callback of `run_iterate_free` is one that goes on, so that the blocks are the list of the
calls.
-/

namespace Pmdk.Memblock

open AllocClass (RUN_DEFAULT_SIZE)
open List
open Bitmap (lssb popcount)

def CHUNK_FLAG_COMPACT_HEADER : UInt16 := 0x0001

def CHUNK_FLAG_HEADER_NONE : UInt16 := 0x0002

def CHUNK_FLAG_ALIGNED : UInt16 := 0x0004

def CHUNK_FLAG_FLEX_BITMAP : UInt16 := 0x0008

def RUN_BITS_PER_VALUE : Nat := 64

def RUN_DEFAULT_BITMAP_VALUES : Nat := 38

def RUN_DEFAULT_BITMAP_SIZE : Nat := 8 * RUN_DEFAULT_BITMAP_VALUES

def RUN_DEFAULT_BITMAP_NBITS : Nat := RUN_BITS_PER_VALUE * RUN_DEFAULT_BITMAP_VALUES

def runDefaultSizeBytes (sizeIdx : Nat) : Nat := RUN_DEFAULT_SIZE + (sizeIdx - 1) * Extend.chunkSize

def defaultNallocsLoop (unitSize : Nat) : Nat → Nat × Nat
  | 0 => (0, min (runDefaultSizeBytes 0 / unitSize % 2 ^ 32) RUN_DEFAULT_BITMAP_NBITS)
  | 1 => (1, min (runDefaultSizeBytes 1 / unitSize % 2 ^ 32) RUN_DEFAULT_BITMAP_NBITS)
  | sizeIdx + 2 =>
    let nallocs := runDefaultSizeBytes (sizeIdx + 2) / unitSize % 2 ^ 32
    if nallocs > RUN_DEFAULT_BITMAP_NBITS then defaultNallocsLoop unitSize (sizeIdx + 1)
    else (sizeIdx + 2, nallocs)

def lessOne (alignment nallocs : Nat) : Nat :=
  if alignment = 0 then nallocs else (nallocs + 2 ^ 32 - 1) % 2 ^ 32

/-- `memblock_run_default_nallocs`: the size of the run, and the number of units. -/
def memblockRunDefaultNallocs (sizeIdx unitSize alignment : Nat) : Nat × Nat :=
  let r := defaultNallocsLoop unitSize sizeIdx
  (r.1, lessOne alignment r.2)

/-- `struct run_bitmap`, without the address of the values. -/
structure RunBitmap extends AllocClass.RunBitmap where
  nvalues : Nat
  deriving DecidableEq

def usedValues (nvalues nbits : Nat) : Nat :=
  let unusedBits := (nvalues * RUN_BITS_PER_VALUE + 2 ^ 32 - nbits) % 2 ^ 32
  (nvalues + 2 ^ 32 - unusedBits / RUN_BITS_PER_VALUE) % 2 ^ 32

/-- `memblock_run_bitmap`: the size of the run, which may become less, and its bitmap. -/
def memblockRunBitmap (sizeIdx : Nat) (flags : UInt16) (unitSize alignment : Nat) :
    Nat × RunBitmap :=
  if flags &&& CHUNK_FLAG_FLEX_BITMAP ≠ 0 then
    let b := AllocClass.memblockRunBitmap sizeIdx unitSize alignment
    (sizeIdx, { b with nvalues := usedValues (b.size / 8) b.nbits })
  else
    let r := memblockRunDefaultNallocs sizeIdx unitSize alignment
    (r.1, {
      size := RUN_DEFAULT_BITMAP_SIZE
      nbits := r.2
      nvalues := usedValues RUN_DEFAULT_BITMAP_VALUES r.2 })

structure Run where
  sizeIdx : Nat
  flags : UInt16
  blockSize : Nat
  alignment : Nat
  content : Nat → BitVec 64

def runGetBitmap (m : Run) : RunBitmap :=
  (memblockRunBitmap m.sizeIdx m.flags m.blockSize m.alignment).2

/-- `memset` of the first `n` words. -/
def memset (values : Nat → BitVec 64) (v : BitVec 64) (n : Nat) : Nat → BitVec 64 :=
  fun i => if i < n then v else values i

/-- The words of the bitmap that `memblock_run_init` writes. -/
def initValues (b : RunBitmap) (content : Nat → BitVec 64) : Nat → BitVec 64 :=
  let last := (b.nvalues + 2 ^ 32 - 1) % 2 ^ 32
  Function.update (memset (memset content (BitVec.allOnes 64) (b.size / 8)) 0 last) last
    (BitVec.allOnes 64 <<< (b.nbits % RUN_BITS_PER_VALUE))

/-- `memblock_run_init` in the chunks of `m`, which is found with the size of the run in its
chunk header. The headers of the other chunks are not part of the run. -/
def memblockRunInit (m : Run) (sizeIdx : Nat) (flags : UInt16)
    (unitSize alignment : Nat) : Run where
  sizeIdx := m.sizeIdx
  flags := flags
  blockSize := unitSize
  alignment := alignment
  content := initValues (memblockRunBitmap sizeIdx flags unitSize alignment).2 m.content

structure Block where
  blockOff : Nat
  sizeIdx : Nat
  deriving DecidableEq

/-- The loop of `run_process_bitmap_value`, with the number of bits that have been processed. -/
def processLoop (value : BitVec 64) (baseOffset : Nat) : Nat → Nat → List Block
  | 0, _ => []
  | fuel + 1, shift =>
    let shifted := value >>> shift
    if shifted = 0 then
      [⟨(baseOffset + shift) % 2 ^ 32, RUN_BITS_PER_VALUE - shift⟩]
    else if shifted = BitVec.allOnes 64 then []
    else
      let off := lssb (~~~shifted)
      let size := lssb shifted
      let shift := shift + (off + size)
      (if size ≠ 0 then [⟨(baseOffset + (shift - size)) % 2 ^ 32, size⟩] else []) ++
        if shift = RUN_BITS_PER_VALUE then [] else processLoop value baseOffset fuel shift

def runProcessBitmapValue (value : BitVec 64) (baseOffset : Nat) : List Block :=
  processLoop value baseOffset RUN_BITS_PER_VALUE 0

def runIterateFree (m : Run) : List Block :=
  (List.range (runGetBitmap m).nvalues).flatMap fun i =>
    runProcessBitmapValue (m.content i) (RUN_BITS_PER_VALUE * i % 2 ^ 32)

/-- The loop of `run_calc_free` that counts the greatest number of set bits in a row. -/
def longestLoop : Nat → BitVec 64 → Nat
  | 0, _ => 0
  | fuel + 1, value =>
    if value = 0 then 0 else longestLoop fuel (value &&& (value <<< 1)) + 1

/-- `run_calc_free` for one value, with `free_space` and `max_free_block`. -/
def calcFreeValue (value : BitVec 64) (acc : Nat × Nat) : Nat × Nat :=
  let value := ~~~value
  if value = 0 then acc
  else
    let freeInValue := popcount value
    let freeSpace := (acc.1 + freeInValue) % 2 ^ 32
    if freeInValue < acc.2 then (freeSpace, acc.2)
    else if freeInValue = RUN_BITS_PER_VALUE then (freeSpace, RUN_BITS_PER_VALUE)
    else if acc.2 = RUN_BITS_PER_VALUE then (freeSpace, acc.2)
    else
      let n := longestLoop RUN_BITS_PER_VALUE value
      (freeSpace, if n > acc.2 then n else acc.2)

def runCalcFree (m : Run) : Nat × Nat :=
  (List.range (runGetBitmap m).nvalues).foldl (fun acc i => calcFreeValue (m.content i) acc) (0, 0)

/-! ## What is read of a bitmap -/

def units (bs : List Block) : List Nat := bs.flatMap fun b => List.range' b.blockOff b.sizeIdx

@[simp] theorem units_nil : units [] = [] := rfl

@[simp] theorem units_cons (b : Block) (bs : List Block) :
    units (b :: bs) = List.range' b.blockOff b.sizeIdx ++ units bs := by
  simp [units]

@[simp] theorem units_append (bs bs' : List Block) : units (bs ++ bs') = units bs ++ units bs' := by
  simp [units]

variable {shift n : Nat} {value : BitVec 64}

/-- A turn of the loop goes over the bits from `shift` on that are the same, up to the next change,
and reports them if they are clear. -/
theorem processLoop_turn (value : BitVec 64) (hshift : shift < 64) :
    ∃ d, 0 < d ∧ shift + d ≤ 64 ∧
      (∀ j < d, value.getLsbD (shift + j) = value.getLsbD shift) ∧
      (shift + d = 64 ∨ value.getLsbD (shift + d) = !value.getLsbD shift) ∧
      ∀ baseOffset fuel, processLoop value baseOffset (fuel + 1) shift =
        (if value.getLsbD shift then [] else [⟨(baseOffset + shift) % 2 ^ 32, d⟩]) ++
          if shift + d = 64 then [] else processLoop value baseOffset fuel (shift + d) := by
  have hbit : ∀ j, (value >>> shift).getLsbD j = value.getLsbD (shift + j) :=
    fun j => BitVec.getLsbD_ushiftRight value shift j
  have hlow := hbit 0
  rw [Nat.add_zero] at hlow
  have hend : shift + (64 - shift) = 64 := Nat.add_sub_cancel' (Nat.le_of_lt hshift)
  by_cases hzero : value >>> shift = 0
  · have hclear : ∀ j, value.getLsbD (shift + j) = false := fun j => by
      rw [← hbit, hzero]
      exact BitVec.getLsbD_zero
    refine ⟨64 - shift, by omega, hend.le, fun j _ => ?_, .inl hend, fun baseOffset fuel => ?_⟩
    · rw [hclear, ← hclear 0, Nat.add_zero]
    · rw [processLoop, if_pos hzero, if_pos hend, ← Nat.add_zero shift, hclear]
      rfl
  · by_cases hones : value >>> shift = BitVec.allOnes 64
    · have hset : ∀ j < 64 - shift, value.getLsbD (shift + j) = true := fun j hj => by
        rw [← hbit, hones, BitVec.getLsbD_allOnes]
        exact decide_eq_true (by omega)
      have hfirst := hset 0 (by omega)
      rw [Nat.add_zero] at hfirst
      refine ⟨64 - shift, by omega, hend.le, fun j hj => ?_, .inl hend, fun baseOffset fuel => ?_⟩
      · rw [hset j hj, hfirst]
      · rw [processLoop, if_neg hzero, if_pos hones, if_pos hend, if_pos hfirst]
        rfl
    · cases hfirst : value.getLsbD shift with
      | true =>
        rw [hfirst] at hlow
        obtain ⟨hpos, hle, hset⟩ := Bitmap.set_run hones hlow (Nat.le_of_lt hshift)
        refine ⟨_, hpos, hle, hset, ?_, fun baseOffset fuel => ?_⟩
        · have hchange := Bitmap.getLsbD_lssb (Bitmap.not_ne_zero hones)
          rw [BitVec.getLsbD_not, hbit, Bool.and_eq_true, Bool.not_eq_true'] at hchange
          exact .inr hchange.2
        · rw [processLoop, if_neg hzero, if_neg hones, Bitmap.lssb_eq_zero hlow]
          rfl
      | false =>
        rw [hfirst] at hlow
        obtain ⟨hpos, hle, hclear⟩ := Bitmap.clear_run hzero hlow
        refine ⟨_, hpos, hle, hclear, ?_, fun baseOffset fuel => ?_⟩
        · exact .inr ((hbit _).symm.trans (Bitmap.getLsbD_lssb hzero))
        · have hoff : lssb (~~~(value >>> shift)) = 0 := by
            refine Bitmap.lssb_eq_zero ?_
            rw [BitVec.getLsbD_not, hlow]
            rfl
          rw [processLoop, if_neg hzero, if_neg hones, hoff]
          simp only [Nat.zero_add, Nat.add_sub_cancel, if_pos (Nat.ne_of_gt hpos)]
          rfl

theorem processLoop_units {baseOffset fuel : Nat}
    (hbase : baseOffset + RUN_BITS_PER_VALUE ≤ 2 ^ 32) (hshift : shift < RUN_BITS_PER_VALUE)
    (hfuel : RUN_BITS_PER_VALUE ≤ fuel + shift) :
    units (processLoop value baseOffset fuel shift) =
      (Bitmap.clearFrom value shift).map (baseOffset + ·) := by
  unfold RUN_BITS_PER_VALUE at hbase hshift hfuel
  induction fuel generalizing shift with
  | zero => omega
  | succ fuel ih =>
    obtain ⟨d, hpos, hle, hsame, -, hturn⟩ := processLoop_turn value hshift
    have hstep : units (if shift + d = 64 then [] else
        processLoop value baseOffset fuel (shift + d)) =
          (Bitmap.clearFrom value (shift + d)).map (baseOffset + ·) := by
      split
      · rename_i hend
        simp [hend, Bitmap.clearFrom]
      · exact ih (by omega) (by omega)
    rw [hturn, units_append, hstep]
    cases hfirst : value.getLsbD shift with
    | true =>
      rw [hfirst] at hsame
      rw [Bitmap.clearFrom_of_set hle hsame]
      rfl
    | false =>
      rw [hfirst] at hsame
      rw [Bitmap.clearFrom_of_clear hle hsame, map_append, List.map_add_range',
        if_neg Bool.false_ne_true, units_cons, units_nil, append_nil,
        Nat.mod_eq_of_lt (by omega)]

theorem runProcessBitmapValue_units (value : BitVec 64) {baseOffset : Nat}
    (hbase : baseOffset + RUN_BITS_PER_VALUE ≤ 2 ^ 32) :
    units (runProcessBitmapValue value baseOffset) = (Bitmap.clear value).map (baseOffset + ·) := by
  rw [← Bitmap.clearFrom_zero]
  exact processLoop_units hbase (by decide) (Nat.le_refl _)

/-- `run_iterate_free` reports the clear bits of the bitmap, in order. -/
theorem runIterateFree_units {m : Run}
    (h : RUN_BITS_PER_VALUE * (runGetBitmap m).nvalues ≤ 2 ^ 32) :
    units (runIterateFree m) = Bitmap.clearBits m.content (runGetBitmap m).nvalues := by
  unfold runIterateFree
  generalize (runGetBitmap m).nvalues = n at h
  unfold RUN_BITS_PER_VALUE at h ⊢
  induction n with
  | zero => rfl
  | succ n ih =>
    rw [range_succ, flatMap_append, units_append, ih (by omega),
      Bitmap.clearBits_succ, flatMap_singleton, Nat.mod_eq_of_lt (by omega),
      runProcessBitmapValue_units]
    unfold RUN_BITS_PER_VALUE
    omega

theorem calcFreeValue_fst (value : BitVec 64) (acc : Nat × Nat) (hacc : acc.1 < 2 ^ 32) :
    (calcFreeValue value acc).1 = (acc.1 + (Bitmap.clear value).length) % 2 ^ 32 := by
  unfold calcFreeValue
  by_cases hzero : ~~~value = 0
  · rw [if_pos hzero, Bitmap.clear_eq_nil_iff.mpr hzero, length_nil, Nat.add_zero,
      Nat.mod_eq_of_lt hacc]
  · rw [if_neg hzero, Bitmap.popcount_not]
    dsimp only
    split_ifs <;> rfl

theorem runCalcFree_fst (m : Run) : (runCalcFree m).1 =
    (Bitmap.clearBits m.content (runGetBitmap m).nvalues).length % 2 ^ 32 := by
  unfold runCalcFree
  generalize (runGetBitmap m).nvalues = n
  induction n with
  | zero => rfl
  | succ n ih =>
    rw [range_succ, foldl_append, foldl_cons, foldl_nil,
      calcFreeValue_fst _ _ (by rw [ih]; exact Nat.mod_lt _ (by decide)), ih,
      Bitmap.clearBits_succ, length_append, length_map, Nat.mod_add_mod]

/-! ## Maximal segments -/

structure ClearSegment (value : BitVec 64) (s : Nat × Nat) : Prop where
  pos : 0 < s.2
  le : s.1 + s.2 ≤ RUN_BITS_PER_VALUE
  clear : ∀ j < s.2, value.getLsbD (s.1 + j) = false
  before : s.1 = 0 ∨ value.getLsbD (s.1 - 1) = true
  after : s.1 + s.2 = RUN_BITS_PER_VALUE ∨ value.getLsbD (s.1 + s.2) = true

theorem ClearSegment.first {s : Nat × Nat} (h : ClearSegment value s) :
    value.getLsbD s.1 = false := h.clear 0 h.pos

theorem ClearSegment.eq {s t : Nat × Nat} (hs : ClearSegment value s)
    (ht : ClearSegment value t) (hle : s.1 ≤ t.1) (hlt : t.1 < s.1 + s.2) : t = s := by
  have hfirst : t.1 = s.1 := by
    rcases ht.before with hzero | hset
    · omega
    · by_contra hne
      have hclear := hs.clear (t.1 - 1 - s.1) (by omega)
      rw [show s.1 + (t.1 - 1 - s.1) = t.1 - 1 by omega, hset] at hclear
      cases hclear
  -- neither of the two ends inside of the other one
  have hends : ∀ u v : Nat × Nat, ClearSegment value u → ClearSegment value v → u.1 = v.1 →
      u.2 ≤ v.2 := fun u v hu hv heq => by
    by_contra hlt
    rcases hv.after with hend | hset
    · have := hu.le
      omega
    · have hclear := hu.clear v.2 (by omega)
      rw [heq, hset] at hclear
      cases hclear
  exact Prod.ext hfirst (Nat.le_antisymm (hends t s ht hs hfirst) (hends s t hs ht hfirst.symm))

theorem processLoop_segments (value : BitVec 64) (k : Nat) (hshift : shift < 64)
    (hk : 64 ≤ k + shift) (hstart : shift = 0 ∨ value.getLsbD (shift - 1) = !value.getLsbD shift) :
    ∃ segments : List (Nat × Nat),
      (∀ baseOffset fuel, 64 ≤ fuel + shift → processLoop value baseOffset fuel shift =
        segments.map fun s => ⟨(baseOffset + s.1) % 2 ^ 32, s.2⟩) ∧
      segments.Pairwise (fun s t => s.1 + s.2 < t.1) ∧
      ∀ s, s ∈ segments ↔ ClearSegment value s ∧ shift ≤ s.1 := by
  induction k generalizing shift with
  | zero => omega
  | succ k ih =>
    obtain ⟨d, hpos, hle, hsame, hchange, hturn⟩ := processLoop_turn value hshift
    have hrest : ∃ segments : List (Nat × Nat),
        (∀ baseOffset fuel, 64 ≤ fuel + (shift + d) → (if shift + d = 64 then [] else
            processLoop value baseOffset fuel (shift + d)) =
          segments.map fun s => ⟨(baseOffset + s.1) % 2 ^ 32, s.2⟩) ∧
        segments.Pairwise (fun s t => s.1 + s.2 < t.1) ∧
        ∀ s, s ∈ segments ↔ ClearSegment value s ∧ shift + d ≤ s.1 := by
      by_cases hend : shift + d = 64
      · refine ⟨[], fun _ _ _ => if_pos hend, .nil, fun s => ⟨fun h => absurd h not_mem_nil,
          fun ⟨hs, hge⟩ => ?_⟩⟩
        have hpos := hs.pos
        have hle : s.1 + s.2 ≤ 64 := hs.le
        omega
      · simp only [if_neg hend]
        refine ih (by omega) (by omega) (.inr ?_)
        rw [hchange.resolve_left hend, Bool.not_not, ← hsame (d - 1) (by omega)]
        congr 1
        omega
    obtain ⟨segments, hloop, hsorted, hmem⟩ := hrest
    have hnext : ∀ fuel, 64 ≤ fuel + shift → ∃ fuel', fuel = fuel' + 1 ∧
        64 ≤ fuel' + (shift + d) := fun fuel hfuel => ⟨fuel - 1, by omega, by omega⟩
    cases hfirst : value.getLsbD shift with
    | true =>
      refine ⟨segments, fun baseOffset fuel hfuel => ?_, hsorted, fun s => (hmem s).trans ?_⟩
      · obtain ⟨fuel', rfl, hfuel'⟩ := hnext fuel hfuel
        rw [hturn, hfirst, if_pos rfl, nil_append, hloop _ _ hfuel']
      · refine ⟨fun ⟨hs, hge⟩ => ⟨hs, by omega⟩, fun ⟨hs, hge⟩ => ⟨hs, ?_⟩⟩
        by_contra hlt
        have hset := hsame (s.1 - shift) (by omega)
        rw [Nat.add_sub_cancel' hge, hs.first, hfirst] at hset
        cases hset
    | false =>
      rw [hfirst] at hsame hchange
      have hseg : ClearSegment value (shift, d) :=
        ⟨hpos, hle, hsame, hstart.imp_right fun h => h.trans (by rw [hfirst]; rfl), hchange⟩
      refine ⟨(shift, d) :: segments, fun baseOffset fuel hfuel => ?_,
        pairwise_cons.mpr ⟨fun s hs => ?_, hsorted⟩, fun s => ?_⟩
      · obtain ⟨fuel', rfl, hfuel'⟩ := hnext fuel hfuel
        rw [hturn, hfirst, hloop _ _ hfuel']
        rfl
      · obtain ⟨hs, hge⟩ := (hmem s).mp hs
        have hend : shift + d ≠ 64 := fun hend => by
          have hpos := hs.pos
          have hle : s.1 + s.2 ≤ 64 := hs.le
          omega
        refine Nat.lt_of_le_of_ne hge fun heq => ?_
        have hset := hchange.resolve_left hend
        rw [heq, hs.first] at hset
        cases hset
      · rw [mem_cons, hmem]
        constructor
        · rintro (rfl | ⟨hs, hge⟩)
          · exact ⟨hseg, Nat.le_refl _⟩
          · exact ⟨hs, by omega⟩
        · rintro ⟨hs, hge⟩
          by_cases hlt : s.1 < shift + d
          · exact .inl (hseg.eq hs hge hlt)
          · exact .inr ⟨hs, Nat.le_of_not_lt hlt⟩

/-! ## The longest segment -/

/-- There are `n` set bits in a row. -/
def HasRun (value : BitVec 64) (n : Nat) : Prop :=
  ∃ off, off + n ≤ RUN_BITS_PER_VALUE ∧ ∀ j < n, value.getLsbD (off + j) = true

theorem hasRun_zero (value : BitVec 64) : HasRun value 0 :=
  ⟨0, Nat.zero_le _, fun _ hj => absurd hj (Nat.not_lt_zero _)⟩

theorem hasRun_one (h : value ≠ 0) : HasRun value 1 := by
  refine ⟨lssb value, Bitmap.lssb_lt h, fun j hj => ?_⟩
  rw [Nat.lt_one_iff.mp hj]
  exact Bitmap.getLsbD_lssb h

theorem hasRun_shift_iff (hn : 0 < n) :
    HasRun (value &&& (value <<< 1)) n ↔ HasRun value (n + 1) := by
  have hbit : ∀ i, (value &&& (value <<< 1)).getLsbD i = true ↔
      value.getLsbD i = true ∧ 0 < i ∧ value.getLsbD (i - 1) = true := fun i => by
    rw [BitVec.getLsbD_and, BitVec.getLsbD_shiftLeft, Bool.and_eq_true, Bool.and_eq_true,
      Bool.and_eq_true, Bool.not_eq_true', decide_eq_true_eq, decide_eq_false_iff_not, Nat.not_lt]
    exact and_congr_right fun hset => and_congr_left fun _ =>
      and_iff_right (BitVec.lt_of_getLsbD hset)
  constructor
  · rintro ⟨off, hle, hall⟩
    obtain ⟨-, hoff, hbefore⟩ := (hbit _).mp (hall 0 hn)
    rw [Nat.add_zero] at hoff hbefore
    refine ⟨off - 1, by omega, fun j hj => ?_⟩
    rcases Nat.eq_zero_or_pos j with rfl | hj0
    · exact hbefore
    · have hset := ((hbit _).mp (hall (j - 1) (by omega))).1
      rwa [show off - 1 + j = off + (j - 1) by omega]
  · rintro ⟨off, hle, hall⟩
    refine ⟨off + 1, by omega, fun j hj => (hbit _).mpr ⟨?_, by omega, ?_⟩⟩
    · have hset := hall (j + 1) (by omega)
      rwa [show off + 1 + j = off + (j + 1) by omega]
    · have hset := hall j (by omega)
      rwa [show off + 1 + j - 1 = off + j by omega]

/-- `n` turns leave the ends of more than `n` bits in a row. -/
theorem longestLoop_isGreatest {fuel : Nat} (hfuel : ∀ n, HasRun value n → n ≤ fuel) :
    IsGreatest {n | HasRun value n} (longestLoop fuel value) := by
  induction fuel generalizing value with
  | zero => exact ⟨hasRun_zero value, hfuel⟩
  | succ fuel ih =>
    rw [longestLoop]
    split
    · rename_i hzero
      refine ⟨hasRun_zero value, fun n ⟨off, _, hall⟩ => Nat.le_of_not_lt fun hn => ?_⟩
      have hset := hall 0 hn
      rw [hzero] at hset
      exact Bool.false_ne_true (BitVec.getLsbD_zero.symm.trans hset)
    · rename_i hzero
      obtain ⟨hhas, hmax⟩ := @ih (value &&& (value <<< 1)) fun n hn => by
        rcases Nat.eq_zero_or_pos n with rfl | hpos
        · exact Nat.zero_le _
        · exact Nat.le_of_succ_le_succ (hfuel _ ((hasRun_shift_iff hpos).mp hn))
      refine ⟨?_, fun n hn => ?_⟩
      · rcases Nat.eq_zero_or_pos (longestLoop fuel (value &&& (value <<< 1))) with heq | hpos
        · rw [heq]
          exact hasRun_one hzero
        · exact (hasRun_shift_iff hpos).mp hhas
      · cases n with
        | zero => exact Nat.zero_le _
        | succ n =>
          rcases Nat.eq_zero_or_pos n with rfl | hpos
          · exact Nat.le_add_left _ _
          · exact Nat.succ_le_succ (hmax ((hasRun_shift_iff hpos).mpr hn))

def longestClear (value : BitVec 64) : Nat := longestLoop RUN_BITS_PER_VALUE (~~~value)

theorem longestClear_isGreatest (value : BitVec 64) :
    IsGreatest {n | HasRun (~~~value) n} (longestClear value) :=
  longestLoop_isGreatest fun n ⟨off, hle, _⟩ => by omega

theorem HasRun.le_clear (h : HasRun (~~~value) n) :
    n ≤ (Bitmap.clear value).length := by
  obtain ⟨off, hle, hall⟩ := h
  have hsub : List.range' off n ⊆ Bitmap.clear value := fun i hi => by
    obtain ⟨hlo, hhi⟩ := List.mem_range'_1.mp hi
    have hset := hall (i - off) (by omega)
    rw [Nat.add_sub_cancel' hlo, BitVec.getLsbD_not, Bool.and_eq_true] at hset
    exact mem_filter.mpr ⟨mem_range.mpr (of_decide_eq_true hset.1), hset.2⟩
  have hlen := ((List.nodup_range').subperm hsub).length_le
  rwa [List.length_range'] at hlen

theorem calcFreeValue_snd (value : BitVec 64) {acc : Nat × Nat} (hacc : acc.2 ≤ 64) :
    (calcFreeValue value acc).2 = max acc.2 (longestClear value) := by
  obtain ⟨hhas, hmax⟩ := longestClear_isGreatest value
  have hle : longestClear value ≤ 64 := (Nat.le_add_left _ _).trans hhas.choose_spec.1
  have hclear := HasRun.le_clear hhas
  have hbits : RUN_BITS_PER_VALUE = 64 := rfl
  unfold calcFreeValue
  by_cases hzero : ~~~value = 0
  · rw [if_pos hzero]
    rw [Bitmap.clear_eq_nil_iff.mpr hzero, length_nil] at hclear
    omega
  · rw [if_neg hzero, Bitmap.popcount_not]
    dsimp only
    split
    · omega
    · split
      · rename_i hall
        have hfull : HasRun (~~~value) 64 := by
          refine ⟨0, Nat.le_refl _, fun j hj => ?_⟩
          have heq : Bitmap.clear value = List.range 64 :=
            filter_sublist.eq_of_length (hall.trans length_range.symm)
          have hmem : j ∈ Bitmap.clear value := heq ▸ mem_range.mpr hj
          rw [Nat.zero_add, BitVec.getLsbD_not, decide_eq_true hj]
          exact (mem_filter.mp hmem).2
        have := hmax hfull
        exact (Nat.max_eq_right (by omega)).symm.trans
          (congrArg (max acc.2) (Nat.le_antisymm ‹_› hle))
      · split
        · change acc.2 = _
          omega
        · change (if longestClear value > acc.2 then longestClear value else acc.2) = _
          split <;> omega

def calcFree (values : List (BitVec 64)) : Nat × Nat :=
  values.foldl (fun acc value => calcFreeValue value acc) (0, 0)

theorem calcFree_append_singleton (values : List (BitVec 64)) (value : BitVec 64) :
    calcFree (values ++ [value]) = calcFreeValue value (calcFree values) := by
  rw [calcFree, foldl_append]
  rfl

theorem calcFree_fst (values : List (BitVec 64)) :
    (calcFree values).1 = (values.map fun value => (Bitmap.clear value).length).sum % 2 ^ 32 := by
  induction values using List.reverseRecOn with
  | nil => rfl
  | append_singleton values value ih =>
    rw [calcFree_append_singleton, calcFreeValue_fst _ _ (ih ▸ Nat.mod_lt _ (by decide)), ih,
      map_append, sum_append, Nat.mod_add_mod]
    rfl

theorem calcFree_snd (values : List (BitVec 64)) : (calcFree values).2 ≤ 64 ∧
    IsGreatest {n | n = 0 ∨ ∃ value ∈ values, HasRun (~~~value) n} (calcFree values).2 := by
  induction values using List.reverseRecOn with
  | nil => exact ⟨Nat.zero_le _, .inl rfl, by simp [upperBounds]⟩
  | append_singleton values value ih =>
    obtain ⟨hle, hhas, hmax⟩ := ih
    obtain ⟨hlast, hmost⟩ := longestClear_isGreatest value
    have hlong : longestClear value ≤ 64 := (Nat.le_add_left _ _).trans hlast.choose_spec.1
    rw [calcFree_append_singleton, calcFreeValue_snd value hle]
    refine ⟨Nat.max_le.mpr ⟨hle, hlong⟩, ?_, ?_⟩
    · rcases Nat.le_total (longestClear value) (calcFree values).2 with h | h
      · rw [Nat.max_eq_left h]
        exact hhas.imp_right fun ⟨v, hv, hrun⟩ => ⟨v, mem_append_left _ hv, hrun⟩
      · rw [Nat.max_eq_right h]
        exact .inr ⟨value, mem_concat_self, hlast⟩
    · rintro n (rfl | ⟨v, hv, hrun⟩)
      · exact Nat.zero_le _
      · rcases mem_append.mp hv with hv | hv
        · exact le_max_of_le_left (hmax (.inr ⟨v, hv, hrun⟩))
        · rw [mem_singleton.mp hv] at hrun
          exact le_max_of_le_right (hmost hrun)

/-- Every turn of the loop that goes on processes a bit at least, and what is reported are the
maximal segments of clear bits in ascending order. `run_calc_free` counts the clear bits, in 32
bits, and finds the longest segment inside of a value. -/
theorem runScans_spec :
    (∀ value : BitVec 64,
      (∀ shift < RUN_BITS_PER_VALUE, value >>> shift ≠ 0 → value >>> shift ≠ BitVec.allOnes 64 →
        0 < lssb (~~~(value >>> shift)) + lssb (value >>> shift) ∧
          shift + (lssb (~~~(value >>> shift)) + lssb (value >>> shift)) ≤ RUN_BITS_PER_VALUE) ∧
      ∃ segments : List (Nat × Nat),
        (∀ baseOffset fuel, RUN_BITS_PER_VALUE ≤ fuel → processLoop value baseOffset fuel 0 =
          segments.map fun s => ⟨(baseOffset + s.1) % 2 ^ 32, s.2⟩) ∧
        segments.Pairwise (fun s t => s.1 + s.2 < t.1) ∧
        ∀ s, s ∈ segments ↔ ClearSegment value s) ∧
    ∀ values : List (BitVec 64),
      (calcFree values).1 = (values.map fun value => (Bitmap.clear value).length).sum % 2 ^ 32 ∧
      IsGreatest {n | n = 0 ∨ ∃ value ∈ values, HasRun (~~~value) n} (calcFree values).2 := by
  refine ⟨fun value => ⟨fun shift hshift hzero hones => ?_, ?_⟩, fun values =>
    ⟨calcFree_fst values, (calcFree_snd values).2⟩⟩
  · cases hlow : (value >>> shift).getLsbD 0 with
    | true =>
      obtain ⟨hpos, hle, -⟩ := Bitmap.set_run hones hlow (Nat.le_of_lt hshift)
      rw [Bitmap.lssb_eq_zero hlow]
      exact ⟨hpos, hle⟩
    | false =>
      obtain ⟨hpos, hle, -⟩ := Bitmap.clear_run hzero hlow
      have hoff : lssb (~~~(value >>> shift)) = 0 := by
        refine Bitmap.lssb_eq_zero ?_
        rw [BitVec.getLsbD_not, hlow]
        rfl
      rw [hoff, Nat.zero_add]
      exact ⟨hpos, hle⟩
  · obtain ⟨segments, hloop, hsorted, hmem⟩ := processLoop_segments value 64 (Nat.zero_lt_succ _)
      (Nat.le_refl _) (.inl rfl)
    exact ⟨segments, hloop, hsorted, fun s => (hmem s).trans (and_iff_left (Nat.zero_le _))⟩

/-!
## New runs

`memblock_run_init` clears the words of the bitmap but the last one, and shifts a mask into the
last one by the number of the bits that are left for it. When the number of units is a multiple
of 64 nothing is left, and the last 64 units stay set.
-/

/-! ## The size of the bitmap -/

theorem defaultNallocsLoop_le (unitSize sizeIdx : Nat) :
    (defaultNallocsLoop unitSize sizeIdx).2 ≤ RUN_DEFAULT_BITMAP_NBITS := by
  fun_induction defaultNallocsLoop unitSize sizeIdx with
  | case1 => exact Nat.min_le_right _ _
  | case2 => exact Nat.min_le_right _ _
  | case3 sizeIdx nallocs hgt ih => exact ih
  | case4 sizeIdx nallocs hle => exact Nat.le_of_not_gt hle

theorem lessOne_lt {alignment : Nat} (hn : n < 2 ^ 32) : lessOne alignment n < 2 ^ 32 := by
  unfold lessOne
  split
  · exact hn
  · exact Nat.mod_lt _ (by decide)

theorem div_le_sub_div_add (c s : Nat) {u : Nat} (hu : 0 < u) : c / u ≤ (c - s) / u + s + 1 := by
  have hs : s / u ≤ s := Nat.div_le_self s u
  rcases Nat.le_total s c with hle | hle
  · have hsplit := Nat.add_div (a := c - s) (b := s) hu
    rw [Nat.sub_add_cancel hle] at hsplit
    rw [hsplit]
    split <;> omega
  · calc
      c / u ≤ s / u := Nat.div_le_div_right hle
      _ ≤ s := hs
      _ ≤ (c - s) / u + s + 1 := Nat.le_succ_of_le (Nat.le_add_left s _)

/-- A bitmap of `w` words is padded: fewer than `2 ^ 32` of its bits are unused, unless there are
more units than bits. -/
structure Shape (b : RunBitmap) (w : Nat) : Prop where
  nbits_lt : b.nbits < 2 ^ 32
  size_eq : b.size = 8 * w
  nvalues_eq : b.nvalues = usedValues w b.nbits
  unused_lt : b.nbits ≤ 64 * w → 64 * w < 2 ^ 32 + b.nbits

theorem flex_shape (sizeIdx unitSize alignment : Nat) :
    let b := AllocClass.memblockRunBitmap sizeIdx unitSize alignment
    ∃ w, Shape { b with nvalues := usedValues (b.size / 8) b.nbits } w := by
  unfold AllocClass.memblockRunBitmap
  dsimp only
  generalize AllocClass.runContentSizeBytes sizeIdx = content
  rw [AllocClass.alignUp_eight]
  obtain ⟨n, hn⟩ : ∃ n, content / unitSize % 2 ^ 32 = n := ⟨_, rfl⟩
  obtain ⟨w, hw⟩ : ∃ w, ((n + 63) / 64 + 2 + 7) / 8 * 8 - 2 = w := ⟨_, rfl⟩
  rw [hn, hw]
  have hless : ∀ k, (if alignment = 0 then k else (k + 2 ^ 32 - 1) % 2 ^ 32) =
      lessOne alignment k := fun _ => rfl
  rw [hless]
  refine ⟨w, lessOne_lt (Nat.mod_lt _ (by decide)), Nat.mul_comm w 8, ?_, fun _ => ?_⟩
  · rw [Nat.mul_div_cancel w (by decide)]
  · -- with more than `2 ^ 32 - 512` units the ones that make room for the bitmap do not matter
    dsimp only
    by_contra hge
    rcases Nat.eq_zero_or_pos unitSize with hzero | hpos
    · rw [hzero, Nat.div_zero] at hn
      omega
    · have hdiv := div_le_sub_div_add content (w * 8) hpos
      have hmono : (content - w * 8) / unitSize ≤ content / unitSize :=
        Nat.div_le_div_right (Nat.sub_le _ _)
      unfold lessOne at hge
      split at hge <;> omega

theorem default_shape (sizeIdx unitSize alignment : Nat) :
    let r := memblockRunDefaultNallocs sizeIdx unitSize alignment
    Shape ⟨⟨r.2, RUN_DEFAULT_BITMAP_SIZE⟩, usedValues RUN_DEFAULT_BITMAP_VALUES r.2⟩
      RUN_DEFAULT_BITMAP_VALUES := by
  have hle := defaultNallocsLoop_le unitSize sizeIdx
  have hmax : RUN_DEFAULT_BITMAP_NBITS < 2 ^ 32 := by decide
  have hbits : 64 * RUN_DEFAULT_BITMAP_VALUES < 2 ^ 32 := by decide
  exact ⟨lessOne_lt (Nat.lt_of_le_of_lt hle hmax), rfl, rfl, fun _ => Nat.lt_add_right _ hbits⟩

theorem memblockRunBitmap_shape (sizeIdx : Nat) (flags : UInt16) (unitSize alignment : Nat) :
    ∃ w, Shape (memblockRunBitmap sizeIdx flags unitSize alignment).2 w := by
  unfold memblockRunBitmap
  split
  · exact flex_shape sizeIdx unitSize alignment
  · exact ⟨_, default_shape sizeIdx unitSize alignment⟩

theorem usedValues_of_le {w nbits : Nat} (hle : nbits ≤ 64 * w) (hlt : 64 * w < 2 ^ 32 + nbits)
    (hnbits : nbits < 2 ^ 32) : usedValues w nbits = (nbits + 63) / 64 := by
  unfold usedValues RUN_BITS_PER_VALUE
  dsimp only
  omega

theorem usedValues_of_lt {w nbits : Nat} (hlt : 64 * w < nbits) (hnbits : nbits < 2 ^ 32) :
    usedValues w nbits = 0 ∨ 2 ^ 31 < usedValues w nbits ∧ usedValues w nbits < 2 ^ 32 := by
  unfold usedValues RUN_BITS_PER_VALUE
  dsimp only
  omega

/-! ## The bits of a new run -/

theorem bit_initValues (b : RunBitmap) (content : Nat → BitVec 64) {k : Nat}
    (hlt : b.nvalues < 2 ^ 32) (hk : k < 64 * b.nvalues) :
    Bitmap.bit (initValues b content) k = false ↔ k < 64 * (b.nvalues - 1) + b.nbits % 64 := by
  have hlast : (b.nvalues + 2 ^ 32 - 1) % 2 ^ 32 = b.nvalues - 1 := by omega
  unfold Bitmap.bit initValues memset RUN_BITS_PER_VALUE
  rw [hlast]
  by_cases hword : k / 64 = b.nvalues - 1
  · rw [hword, Function.update_self, BitVec.getLsbD_shiftLeft, BitVec.getLsbD_allOnes]
    simp
    omega
  · have hbefore : k / 64 < b.nvalues - 1 := by omega
    rw [Function.update_of_ne hword, if_pos hbefore]
    simp
    omega

structure Fresh (m : Run) : Prop where
  covered : (runGetBitmap m).nbits ≤ 64 * (runGetBitmap m).nvalues
  clear : ∀ k < 64 * (runGetBitmap m).nvalues,
    (Bitmap.bit m.content k = false ↔ k < (runGetBitmap m).nbits)
  iterate : units (runIterateFree m) = List.range (runGetBitmap m).nbits
  free : (runCalcFree m).1 = (runGetBitmap m).nbits

def Exact (b : RunBitmap) : Prop := ¬ 64 ∣ b.nbits ∧ b.nbits ≤ 8 * b.size

instance (b : RunBitmap) : Decidable (Exact b) := inferInstanceAs (Decidable (_ ∧ _))

variable {m : Run} {flags : UInt16} {unitSize alignment : Nat}

theorem runGetBitmap_init (m : Run) (flags : UInt16) (unitSize alignment : Nat) :
    runGetBitmap (memblockRunInit m m.sizeIdx flags unitSize alignment) =
      (memblockRunBitmap m.sizeIdx flags unitSize alignment).2 := rfl

/-- A run whose clear bits are its units has room for the bits of all of them, and some of the
bits of the last word are left. -/
theorem Fresh.exact (h : Fresh (memblockRunInit m m.sizeIdx flags unitSize alignment))
    (hnbits : 1 ≤ (memblockRunBitmap m.sizeIdx flags unitSize alignment).2.nbits) :
    Exact (memblockRunBitmap m.sizeIdx flags unitSize alignment).2 := by
  obtain ⟨w, hshape⟩ := memblockRunBitmap_shape m.sizeIdx flags unitSize alignment
  have hcovered := h.covered
  have hclear := h.clear
  rw [runGetBitmap_init] at hcovered hclear
  have hcontent : (memblockRunInit m m.sizeIdx flags unitSize alignment).content =
      initValues (memblockRunBitmap m.sizeIdx flags unitSize alignment).2 m.content := rfl
  rw [hcontent] at hclear
  generalize (memblockRunBitmap m.sizeIdx flags unitSize alignment).2 = b at *
  obtain ⟨hlt, hsize, hnvalues, hunused⟩ := hshape
  have hbits := fun k hlt hk => (bit_initValues b m.content (k := k) hlt hk).symm.trans
      (hclear k hk)
  unfold Exact
  rw [hsize]
  by_cases hle : b.nbits ≤ 64 * w
  · rw [usedValues_of_le hle (hunused hle) hlt] at hnvalues
    refine ⟨fun hdvd => ?_, by omega⟩
    have hlast := hbits (b.nbits - 64) (by omega) (by omega)
    omega
  · have hused := usedValues_of_lt (Nat.lt_of_not_le hle) hlt
    have hlast := hbits b.nbits
    omega

/-- The clear bits of a new run are its units if and only if the number of units is not a
multiple of 64 and not more than the number of bits. -/
theorem memblockRunInit_fresh_iff
    (hnbits : 1 ≤ (memblockRunBitmap m.sizeIdx flags unitSize alignment).2.nbits) :
    Fresh (memblockRunInit m m.sizeIdx flags unitSize alignment) ↔
      Exact (memblockRunBitmap m.sizeIdx flags unitSize alignment).2 := by
  refine ⟨fun h => h.exact hnbits, fun h => ?_⟩
  obtain ⟨w, hshape⟩ := memblockRunBitmap_shape m.sizeIdx flags unitSize alignment
  obtain ⟨run, hrun⟩ : ∃ run, memblockRunInit m m.sizeIdx flags unitSize alignment = run := ⟨_, rfl⟩
  have hbitmap : runGetBitmap run =
      (memblockRunBitmap m.sizeIdx flags unitSize alignment).2 := by rw [← hrun]; rfl
  have hcontent : run.content = initValues (runGetBitmap run) m.content := by
    rw [hbitmap, ← hrun]
    rfl
  rw [hrun]
  rw [← hbitmap] at hnbits h hshape
  obtain ⟨hlt, hsize, hnvalues, hunused⟩ := hshape
  obtain ⟨hdvd, hle⟩ := h
  have hle : (runGetBitmap run).nbits ≤ 64 * w := by omega
  rw [usedValues_of_le hle (hunused hle) hlt] at hnvalues
  have hcovered : (runGetBitmap run).nbits ≤ 64 * (runGetBitmap run).nvalues := by omega
  have hclear : ∀ k < 64 * (runGetBitmap run).nvalues,
      (Bitmap.bit run.content k = false ↔ k < (runGetBitmap run).nbits) := by
    intro k hk
    rw [hcontent, bit_initValues _ _ (by omega) hk]
    omega
  have hbits := Bitmap.clearBits_eq_range hcovered hclear
  refine ⟨hcovered, hclear, ?_, ?_⟩
  · rw [runIterateFree_units, hbits]
    unfold RUN_BITS_PER_VALUE
    omega
  · rw [runCalcFree_fst, hbits, List.length_range, Nat.mod_eq_of_lt hlt]

def oneChunk : Run := ⟨1, 0, 0, 0, fun _ => 0⟩

/-- A run of one chunk with units of 128 bytes. -/
theorem memblockRunInit_fresh_small :
    1 ≤ (memblockRunBitmap oneChunk.sizeIdx CHUNK_FLAG_FLEX_BITMAP 128 0).2.nbits ∧
      Fresh (memblockRunInit oneChunk oneChunk.sizeIdx CHUNK_FLAG_FLEX_BITMAP 128 0) :=
  ⟨by decide, (memblockRunInit_fresh_iff (by decide)).mpr (by decide)⟩

/-- A run of one chunk with units of 4080 bytes has 64 of them, and none is free. -/
theorem not_fresh_of_full_word :
    ¬ ∀ (m : Run) (flags : UInt16) (unitSize alignment : Nat),
      1 ≤ (memblockRunBitmap m.sizeIdx flags unitSize alignment).2.nbits →
        Fresh (memblockRunInit m m.sizeIdx flags unitSize alignment) := by
  intro h
  have hnbits : 1 ≤ (memblockRunBitmap oneChunk.sizeIdx CHUNK_FLAG_FLEX_BITMAP 4080 0).2.nbits := by
    decide
  exact absurd ((h _ _ _ _ hnbits).exact hnbits) (by decide)

end Pmdk.Memblock
