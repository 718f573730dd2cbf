import Mathlib.Data.Nat.Prime.Pow
import Pmdk.Obj.RunBitmap
import Pmdk.Obj.UlogExtend

/-!
# The geometry of the classes of the user

`CTL_WRITE_HANDLER(desc)` derives the size of the runs of a new class from a descriptor, and
`alloc_class_new` the number of units that they have.
-/

namespace Pmdk.AllocClass

open Extend (chunkSize)
open UlogExtend (runGetDataStart)
open Memblock (CHUNK_FLAG_COMPACT_HEADER CHUNK_FLAG_HEADER_NONE CHUNK_FLAG_ALIGNED
  CHUNK_FLAG_FLEX_BITMAP lessOne usedValues)

def HeaderType.flag : HeaderType → UInt16
  | .legacy => 0
  | .compact => CHUNK_FLAG_COMPACT_HEADER
  | .none => CHUNK_FLAG_HEADER_NONE

def Class.flags (c : Class) : UInt16 :=
  c.headerType.flag ||| (if c.alignment = 0 then 0 else CHUNK_FLAG_ALIGNED) |||
    CHUNK_FLAG_FLEX_BITMAP

def Class.bitmap (c : Class) : Memblock.RunBitmap :=
  (Memblock.memblockRunBitmap c.sizeIdx c.flags c.unitSize c.alignment).2

def CHUNK_BASE_ALIGNMENT : Nat := 1024

/-- The number of units is what the content without the bitmap has room for, less one for an
alignment. In a run at any place the data is behind the values of the bitmap and inside of the
run, and the user data of each unit is aligned. -/
structure Class.Sound (c : Class) : Prop where
  count : c.nallocs + (if c.alignment = 0 then 0 else 1) =
    (runContentSizeBytes c.sizeIdx - c.bitmap.size) / c.unitSize
  behind : ∀ run, CHUNK_BASE_ALIGNMENT ∣ run →
    run + RUN_BASE_METADATA_SIZE + 8 * c.bitmap.nvalues ≤ runGetDataStart c run
  inside : ∀ run, CHUNK_BASE_ALIGNMENT ∣ run →
    runGetDataStart c run + c.nallocs * c.unitSize ≤ run + c.sizeIdx * chunkSize
  aligned : c.alignment ≠ 0 → ∀ run, CHUNK_BASE_ALIGNMENT ∣ run → ∀ k < c.nallocs,
    c.alignment ∣ runGetDataStart c run + k * c.unitSize + c.headerType.size

/-- The run is a chunk at least, its units can be counted in 32 bits, and when an alignment is
asked for there is room for a unit behind the bitmap; and the alignment is a power of two, unless
there is no room for a second unit. -/
def Desc.Geometric (p : Desc) : Prop :=
  1 ≤ p.sizeIdx ∧ runContentSizeBytes p.sizeIdx / p.unitSize < 2 ^ 32 ∧
    (p.alignment = 0 ∨ p.unitSize + 64 ≤ p.sizeIdx * chunkSize ∧
      (p.sizeIdx * chunkSize < 2 * p.unitSize + 64 ∨ p.alignment ∣ 2 ^ 21))

instance (p : Desc) : Decidable p.Geometric := inferInstanceAs (Decidable (_ ∧ _ ∧ _))

/-! ## The bitmap -/

theorem flags_flex (c : Class) : c.flags &&& CHUNK_FLAG_FLEX_BITMAP ≠ 0 := by
  unfold Class.flags
  cases c.headerType <;> split <;> decide

theorem bitmap_eq (c : Class) :
    c.bitmap.toRunBitmap = memblockRunBitmap c.sizeIdx c.unitSize c.alignment ∧
      c.bitmap.nvalues = usedValues (c.bitmap.size / 8) c.bitmap.nbits := by
  unfold Class.bitmap Memblock.memblockRunBitmap
  rw [if_pos (flags_flex c)]
  exact ⟨rfl, rfl⟩

variable {sizeIdx unitSize alignment : Nat}

theorem nbits_eq (sizeIdx unitSize alignment : Nat) :
    (memblockRunBitmap sizeIdx unitSize alignment).nbits =
      lessOne alignment ((runContentSizeBytes sizeIdx -
        (memblockRunBitmap sizeIdx unitSize alignment).size) / unitSize % 2 ^ 32) := rfl

/-- The bitmap has a bit for each unit that is counted without it, and less than 512 bits more;
six words are enough for the units of most runs. -/
theorem size_bounds (sizeIdx unitSize alignment : Nat) :
    ∃ w, (memblockRunBitmap sizeIdx unitSize alignment).size = 8 * w ∧
      (runContentSizeBytes sizeIdx / unitSize % 2 ^ 32 ≤ 384 → w = 6) ∧
      runContentSizeBytes sizeIdx / unitSize % 2 ^ 32 ≤ 64 * w ∧
      64 * w < runContentSizeBytes sizeIdx / unitSize % 2 ^ 32 + 512 := by
  unfold memblockRunBitmap
  dsimp only
  rw [alignUp_eight]
  generalize runContentSizeBytes sizeIdx / unitSize % 2 ^ 32 = n
  exact ⟨_, Nat.mul_comm _ 8, by omega, by omega, by omega⟩

section

variable (hs : 1 ≤ sizeIdx)

include hs

theorem content_add :
    runContentSizeBytes sizeIdx + RUN_BASE_METADATA_SIZE = sizeIdx * chunkSize := by
  obtain ⟨s, rfl⟩ := Nat.exists_eq_add_of_le' hs
  have hchunk : RUN_BASE_METADATA_SIZE ≤ chunkSize := by decide
  unfold runContentSizeBytes
  rw [Nat.add_sub_cancel, Nat.add_one_mul]
  omega

theorem le_units_iff {k : Nat} (hu : 0 < unitSize) (hk : k ≤ 2) (hk' : 1 ≤ k)
    (hq : runContentSizeBytes sizeIdx / unitSize < 2 ^ 32) :
    k ≤ (runContentSizeBytes sizeIdx - (memblockRunBitmap sizeIdx unitSize alignment).size) /
      unitSize ↔ k * unitSize + 64 ≤ sizeIdx * chunkSize := by
  obtain ⟨w, hsize, hw, hlo, hhi⟩ := size_bounds sizeIdx unitSize alignment
  rw [Nat.mod_eq_of_lt hq] at hlo hhi
  rw [Nat.le_div_iff_mul_le hu, hsize]
  have hcontent : runContentSizeBytes sizeIdx + 16 = sizeIdx * chunkSize := content_add hs
  have hmul := Nat.div_mul_le_self (runContentSizeBytes sizeIdx) unitSize
  rw [← hcontent]
  have hpos : 1 ≤ k * unitSize := Nat.mul_pos hk' hu
  by_cases hfew : runContentSizeBytes sizeIdx / unitSize ≤ 384
  · have hsix := hw (by rwa [Nat.mod_eq_of_lt hq])
    omega
  · -- with more units than that, two of them and the bitmap are less than all units
    obtain ⟨d, hd⟩ := Nat.exists_eq_add_of_le (Nat.le_of_lt (Nat.lt_of_not_le hfew))
    have htwo : k * unitSize ≤ 2 * unitSize := Nat.mul_le_mul_right unitSize hk
    have hrest : d ≤ d * unitSize := Nat.le_mul_of_pos_right d hu
    rw [hd, Nat.add_mul] at hmul
    omega

/-- With `2 ^ 32` units or more the count is wrong, and it stays below `2 ^ 32`. -/
theorem units_gt (hs' : sizeIdx ≤ 65535) (hu : 0 < unitSize)
    (hq : 2 ^ 32 ≤ runContentSizeBytes sizeIdx / unitSize) :
    2 ^ 32 < (runContentSizeBytes sizeIdx -
      (memblockRunBitmap sizeIdx unitSize alignment).size) / unitSize := by
  obtain ⟨w, hsize, -, -, hhi⟩ := size_bounds sizeIdx unitSize alignment
  have hcontent : runContentSizeBytes sizeIdx + 16 = sizeIdx * 262144 := content_add hs
  have hmul := Nat.div_mul_le_self (runContentSizeBytes sizeIdx) unitSize
  have hunit : unitSize ≤ 3 := by
    by_contra hgt
    have hfour : runContentSizeBytes sizeIdx / unitSize * 4 ≤
        runContentSizeBytes sizeIdx / unitSize * unitSize :=
      Nat.mul_le_mul_left _ (by omega)
    omega
  -- the content of whole chunks leaves too many units for the bitmap to make up for
  have hcases : unitSize = 1 ∨ unitSize = 2 ∨ unitSize = 3 := by omega
  rw [hsize]
  by_contra hle
  have hwraps : runContentSizeBytes sizeIdx / unitSize / 2 ^ 32 = 1 ∨
      runContentSizeBytes sizeIdx / unitSize / 2 ^ 32 = 2 ∨
        runContentSizeBytes sizeIdx / unitSize / 2 ^ 32 = 3 := by
    rcases hcases with rfl | rfl | rfl <;> omega
  rcases hcases with rfl | rfl | rfl <;> rcases hwraps with h | h | h <;> omega

/-- The number of units does not wrap around if and only if the first count is less than
`2 ^ 32` and a unit is left for the alignment. -/
theorem count_iff (hs' : sizeIdx ≤ 65535) (hu : 0 < unitSize) :
    (memblockRunBitmap sizeIdx unitSize alignment).nbits + (if alignment = 0 then 0 else 1) =
        (runContentSizeBytes sizeIdx - (memblockRunBitmap sizeIdx unitSize alignment).size) /
          unitSize ↔
      runContentSizeBytes sizeIdx / unitSize < 2 ^ 32 ∧
        (alignment = 0 ∨ unitSize + 64 ≤ sizeIdx * chunkSize) := by
  have hgt : 2 ^ 32 ≤ runContentSizeBytes sizeIdx / unitSize → 2 ^ 32 <
      (runContentSizeBytes sizeIdx - (memblockRunBitmap sizeIdx unitSize alignment).size) /
        unitSize := units_gt hs hs' hu
  have hone : runContentSizeBytes sizeIdx / unitSize < 2 ^ 32 →
      (1 ≤ (runContentSizeBytes sizeIdx - (memblockRunBitmap sizeIdx unitSize alignment).size) /
        unitSize ↔ 1 * unitSize + 64 ≤ sizeIdx * chunkSize) :=
    le_units_iff hs hu (by decide) (Nat.le_refl 1)
  have hmono : (runContentSizeBytes sizeIdx - (memblockRunBitmap sizeIdx unitSize alignment).size) /
      unitSize ≤ runContentSizeBytes sizeIdx / unitSize :=
    Nat.div_le_div_right (Nat.sub_le _ _)
  rw [Nat.one_mul] at hone
  rw [nbits_eq]
  generalize (runContentSizeBytes sizeIdx - (memblockRunBitmap sizeIdx unitSize alignment).size) /
    unitSize = units at *
  unfold lessOne
  by_cases hq : runContentSizeBytes sizeIdx / unitSize < 2 ^ 32
  · rw [← hone hq, Nat.mod_eq_of_lt (Nat.lt_of_le_of_lt hmono hq)]
    by_cases halign : alignment = 0
    · rw [if_pos halign, if_pos halign, Nat.add_zero]
      exact iff_of_true rfl ⟨hq, .inl halign⟩
    · rw [if_neg halign, if_neg halign]
      have hlt : units < 2 ^ 32 := Nat.lt_of_le_of_lt hmono hq
      have hcount : (units + 2 ^ 32 - 1) % 2 ^ 32 + 1 = units ↔ 1 ≤ units := by omega
      exact hcount.trans ⟨fun h => ⟨hq, .inr h⟩, fun h => h.2.resolve_left halign⟩
  · have hunits := hgt (Nat.le_of_not_lt hq)
    simp only [hq, false_and, iff_false]
    split <;> omega

theorem size_le_content :
    (memblockRunBitmap sizeIdx unitSize alignment).size ≤ runContentSizeBytes sizeIdx := by
  obtain ⟨w, hsize, -, -, hhi⟩ := size_bounds sizeIdx unitSize alignment
  have hcontent : runContentSizeBytes sizeIdx + 16 = sizeIdx * 262144 := content_add hs
  have hmod := Nat.mod_le (runContentSizeBytes sizeIdx / unitSize) (2 ^ 32)
  have hdiv := Nat.div_le_self (runContentSizeBytes sizeIdx) unitSize
  omega

end

/-! ## The data -/

theorem runGetDataStart_bounds (c : Class) (run : Nat) :
    run + RUN_BASE_METADATA_SIZE + c.bitmap.size ≤ runGetDataStart c run ∧
      runGetDataStart c run ≤ run + RUN_BASE_METADATA_SIZE + c.bitmap.size + (c.alignment - 1) := by
  rw [(bitmap_eq c).1]
  unfold runGetDataStart
  dsimp only
  generalize (memblockRunBitmap c.sizeIdx c.unitSize c.alignment).size = size
  split
  · rename_i halign
    have hbounds := alignUp_bounds (run + RUN_BASE_METADATA_SIZE + size + c.headerType.size)
      (Nat.pos_of_ne_zero halign)
    omega
  · omega

theorem runGetDataStart_add {c : Class} (halign : c.alignment ≠ 0) (run : Nat) :
    runGetDataStart c run + c.headerType.size =
      alignUp (run + RUN_BASE_METADATA_SIZE +
        (memblockRunBitmap c.sizeIdx c.unitSize c.alignment).size + c.headerType.size)
        c.alignment := by
  have hbounds := alignUp_bounds (run + RUN_BASE_METADATA_SIZE +
    (memblockRunBitmap c.sizeIdx c.unitSize c.alignment).size + c.headerType.size)
    (Nat.pos_of_ne_zero halign)
  unfold runGetDataStart
  dsimp only
  rw [if_pos halign]
  omega

/-- The runs whose user data is aligned at two places that are 2 MiB apart have an alignment that
is a power of two. -/
theorem dvd_two_mib {c : Class} (halign : c.alignment ≠ 0) (hle : c.alignment ≤ 2 ^ 21)
    (hzero : c.alignment ∣ runGetDataStart c 0 + c.headerType.size)
    (hnext : c.alignment ∣ runGetDataStart c (2 ^ 21) + c.headerType.size) :
    c.alignment ∣ 2 ^ 21 := by
  have hshift : 2 ^ 21 + RUN_BASE_METADATA_SIZE +
      (memblockRunBitmap c.sizeIdx c.unitSize c.alignment).size + c.headerType.size =
        0 + RUN_BASE_METADATA_SIZE +
          (memblockRunBitmap c.sizeIdx c.unitSize c.alignment).size + c.headerType.size +
            2 ^ 21 := by
    omega
  rw [runGetDataStart_add halign, hshift, alignUp_add_two_pow _ (Nat.pos_of_ne_zero halign) hle,
    ← runGetDataStart_add halign] at hnext
  exact (Nat.dvd_add_right hzero).mp hnext

theorem dvd_user {c : Class} (halign : c.alignment ≠ 0) (hpow : c.alignment ∣ 2 ^ 21)
    (hunit : c.alignment ∣ c.unitSize) (run k : Nat) :
    c.alignment ∣ runGetDataStart c run + k * c.unitSize + c.headerType.size := by
  obtain ⟨j, -, hj⟩ := (Nat.dvd_prime_pow Nat.prime_two).mp hpow
  have hfirst : c.alignment ∣ runGetDataStart c run + c.headerType.size := by
    rw [runGetDataStart_add halign]
    generalize run + RUN_BASE_METADATA_SIZE +
      (memblockRunBitmap c.sizeIdx c.unitSize c.alignment).size + c.headerType.size = base
    rw [hj, alignUp_two_pow]
    exact Nat.dvd_mul_left _ _
  rw [Nat.add_right_comm]
  exact Nat.dvd_add hfirst (Nat.dvd_mul_left_of_dvd hunit k)

/-! ## Sound classes -/

/-- A class as `alloc_class_new` makes it. -/
structure Class.Made (c : Class) : Prop where
  sizeIdx_le : c.sizeIdx ≤ 65535
  nallocs_eq : c.nallocs = (memblockRunBitmap c.sizeIdx c.unitSize c.alignment).nbits
  dvd : c.alignment ∣ c.unitSize ∨ c.alignment = 0
  alignment_le : c.alignment ≤ 2 ^ 21

/-- The condition of `Desc.Geometric`, for a class. -/
def Class.Geometric (c : Class) : Prop :=
  1 ≤ c.sizeIdx ∧ runContentSizeBytes c.sizeIdx / c.unitSize < 2 ^ 32 ∧
    (c.alignment = 0 ∨ c.unitSize + 64 ≤ c.sizeIdx * chunkSize ∧
      (c.sizeIdx * chunkSize < 2 * c.unitSize + 64 ∨ c.alignment ∣ 2 ^ 21))

variable {c : Class}

theorem Class.Sound.one_le (h : c.Sound) : 1 ≤ c.sizeIdx := by
  have hbehind := h.behind 0 (Nat.dvd_zero _)
  have hinside := h.inside 0 (Nat.dvd_zero _)
  refine Nat.pos_of_ne_zero fun hzero => ?_
  rw [hzero, Nat.zero_mul] at hinside
  unfold RUN_BASE_METADATA_SIZE at hbehind
  omega

theorem Class.Made.count_iff (h : c.Made) (hs : 1 ≤ c.sizeIdx) :
    c.nallocs + (if c.alignment = 0 then 0 else 1) =
        (runContentSizeBytes c.sizeIdx - c.bitmap.size) / c.unitSize ↔
      runContentSizeBytes c.sizeIdx / c.unitSize < 2 ^ 32 ∧
        (c.alignment = 0 ∨ c.unitSize + 64 ≤ c.sizeIdx * chunkSize) := by
  rw [h.nallocs_eq, (bitmap_eq c).1]
  exact AllocClass.count_iff hs h.sizeIdx_le c.pos

theorem Class.Made.nallocs_pos_iff (h : c.Made) (hs : 1 ≤ c.sizeIdx) (halign : c.alignment ≠ 0)
    (hq : runContentSizeBytes c.sizeIdx / c.unitSize < 2 ^ 32)
    (hunit : c.unitSize + 64 ≤ c.sizeIdx * chunkSize) :
    0 < c.nallocs ↔ 2 * c.unitSize + 64 ≤ c.sizeIdx * chunkSize := by
  have hcount := (h.count_iff hs).mpr ⟨hq, .inr hunit⟩
  rw [if_neg halign, (bitmap_eq c).1] at hcount
  have htwo : 2 ≤ (runContentSizeBytes c.sizeIdx -
      (memblockRunBitmap c.sizeIdx c.unitSize c.alignment).size) / c.unitSize ↔
        2 * c.unitSize + 64 ≤ c.sizeIdx * chunkSize :=
    le_units_iff hs c.pos (Nat.le_refl 2) (by decide) hq
  rw [← htwo, ← hcount]
  omega

theorem Class.Sound.geometric (hsound : c.Sound) (hmade : c.Made) : c.Geometric := by
  have hs := hsound.one_le
  obtain ⟨hq, hunit⟩ := (hmade.count_iff hs).mp hsound.count
  refine ⟨hs, hq, ?_⟩
  by_cases halign : c.alignment = 0
  · exact .inl halign
  · have hunit := hunit.resolve_left halign
    refine .inr ⟨hunit, ?_⟩
    by_cases hpos : 0 < c.nallocs
    · have hzero := hsound.aligned halign 0 (Nat.dvd_zero _) 0 hpos
      have hnext := hsound.aligned halign (2 ^ 21) (by decide) 0 hpos
      rw [Nat.zero_mul, Nat.add_zero] at hzero hnext
      exact .inr (dvd_two_mib halign hmade.alignment_le hzero hnext)
    · rw [hmade.nallocs_pos_iff hs halign hq hunit, Nat.not_le] at hpos
      exact .inl hpos

theorem nvalues_le (hmade : c.Made) (hq : runContentSizeBytes c.sizeIdx / c.unitSize < 2 ^ 32)
    (hcount : c.nallocs + (if c.alignment = 0 then 0 else 1) =
      (runContentSizeBytes c.sizeIdx - c.bitmap.size) / c.unitSize) :
    8 * c.bitmap.nvalues ≤ c.bitmap.size := by
  obtain ⟨w, hsize, -, hlo, -⟩ := size_bounds c.sizeIdx c.unitSize c.alignment
  obtain ⟨v, hshape⟩ : ∃ v, Memblock.Shape c.bitmap v :=
    Memblock.memblockRunBitmap_shape c.sizeIdx c.flags c.unitSize c.alignment
  have hmono : (runContentSizeBytes c.sizeIdx - c.bitmap.size) / c.unitSize ≤
      runContentSizeBytes c.sizeIdx / c.unitSize := Nat.div_le_div_right (Nat.sub_le _ _)
  have hnbits : c.bitmap.nbits = c.nallocs := by rw [(bitmap_eq c).1, hmade.nallocs_eq]
  rw [Nat.mod_eq_of_lt hq] at hlo
  rw [← (bitmap_eq c).1, hshape.size_eq] at hsize
  have hle : c.bitmap.nbits ≤ 64 * v := by omega
  rw [hshape.nvalues_eq, Memblock.usedValues_of_le hle (hshape.unused_lt hle) hshape.nbits_lt,
    hshape.size_eq]
  omega

theorem data_end_le (hmade : c.Made) (hs : 1 ≤ c.sizeIdx) (run : Nat)
    (hcount : c.nallocs + (if c.alignment = 0 then 0 else 1) =
      (runContentSizeBytes c.sizeIdx - c.bitmap.size) / c.unitSize) :
    runGetDataStart c run + c.nallocs * c.unitSize ≤ run + c.sizeIdx * chunkSize := by
  obtain ⟨-, hstart⟩ := runGetDataStart_bounds c run
  have hcontent : runContentSizeBytes c.sizeIdx + RUN_BASE_METADATA_SIZE =
      c.sizeIdx * chunkSize := content_add hs
  have hbitmap : c.bitmap.size ≤ runContentSizeBytes c.sizeIdx := by
    rw [(bitmap_eq c).1]
    exact size_le_content hs
  have hmul := Nat.div_mul_le_self (runContentSizeBytes c.sizeIdx - c.bitmap.size) c.unitSize
  rw [← hcount] at hmul
  by_cases halign : c.alignment = 0
  · rw [if_pos halign, Nat.add_zero] at hmul
    omega
  · have hunit : c.alignment ≤ c.unitSize :=
      Nat.le_of_dvd c.pos (hmade.dvd.resolve_right halign)
    rw [if_neg halign, Nat.add_one_mul] at hmul
    omega

theorem Class.Geometric.sound (hgeo : c.Geometric) (hmade : c.Made) : c.Sound := by
  obtain ⟨hs, hq, hunit⟩ := hgeo
  have hcount := (hmade.count_iff hs).mpr ⟨hq, hunit.imp_right And.left⟩
  have hvalues := nvalues_le hmade hq hcount
  refine ⟨hcount, fun run _ => ?_, fun run _ => data_end_le hmade hs run hcount, ?_⟩
  · obtain ⟨hstart, -⟩ := runGetDataStart_bounds c run
    omega
  · intro halign run _ k hk
    obtain ⟨hfits, hpow⟩ := hunit.resolve_left halign
    have htwo := (hmade.nallocs_pos_iff hs halign hq hfits).mp (Nat.zero_lt_of_lt hk)
    exact dvd_user halign (hpow.resolve_left (Nat.not_lt.mpr htwo))
      (hmade.dvd.resolve_right halign) run k

theorem Class.Made.sound_iff (hmade : c.Made) : c.Sound ↔ c.Geometric :=
  ⟨fun h => h.geometric hmade, fun h => h.sound hmade⟩

/-! ## The entry point -/

variable {ac : Collection}

theorem mem_downward_iff : c ∈ ac.downward ↔ some c ∈ ac.aclasses := by
  simp [Collection.downward]

variable {classId : Option Nat} {p : Desc}

variable {ac' : Collection}

theorem ctlWriteDesc_eq_some {registered buckets : Bool}
    (h : ctlWriteDesc registered buckets p classId ac = some ac') :
    (p.alignment ∣ p.unitSize ∨ p.alignment = 0) ∧ p.alignment ≤ 2 ^ 21 ∧
      ∃ id c, ac.get id = none ∧ ac' = { ac with aclasses := ac.aclasses.set id (some c) } ∧
        c.id = id ∧ c.type = .run ∧ c.unitSize = p.unitSize ∧ c.headerType = p.headerType ∧
        c.sizeIdx = p.sizeIdx ∧ c.alignment = p.alignment ∧
        c.nallocs = (memblockRunBitmap p.sizeIdx p.unitSize p.alignment).nbits := by
  unfold ctlWriteDesc at h
  split at h
  · cases h
  · split at h
    · cases h
    · rename_i hdvd
      split at h
      · cases h
      · rename_i hle
        obtain ⟨id, hslot, hnew⟩ := Option.bind_eq_some_iff.mp h
        obtain ⟨⟨c, ac''⟩, hclass, hac⟩ := Option.bind_eq_some_iff.mp hnew
        obtain ⟨hset, hclass⟩ := allocClassNew_eq_some hclass
        dsimp only at hac
        obtain ⟨-, hac⟩ := Option.ite_none_left_eq_some.mp hac
        obtain rfl := Option.some.inj hac
        have hmultiple : p.alignment ∣ p.unitSize ∨ p.alignment = 0 := by
          by_cases hzero : p.alignment = 0
          · exact .inr hzero
          · refine .inl (Nat.dvd_of_mod_eq_zero ?_)
            by_contra hmod
            exact hdvd ⟨hzero, hmod⟩
        have hfree : ac.get id = none := by
          cases classId with
          | none => exact get_findFirstFreeSlot hslot
          | some i =>
            obtain ⟨hi, hid⟩ := Option.ite_none_right_eq_some.mp hslot
            exact Option.some.inj hid ▸ hi.2
        exact ⟨hmultiple, by omega, id, c, hfree, hset, hclass⟩

theorem ctlWriteDesc_made {registered buckets : Bool}
    (h : ctlWriteDesc registered buckets p classId ac = some ac') (hc : c ∈ ac'.downward)
    (hnew : c ∉ ac.downward) : c.Made ∧ (c.Geometric ↔ p.Geometric) := by
  obtain ⟨hdvd, hle, id, d, -, rfl, -, -, hunit, -, hsizeIdx, halign, hnallocs⟩ :=
    ctlWriteDesc_eq_some h
  rw [mem_downward_iff] at hc hnew
  rcases List.mem_or_eq_of_mem_set hc with hold | hd
  · exact absurd hold hnew
  · obtain rfl := Option.some.inj hd
    refine ⟨⟨?_, ?_, ?_, ?_⟩, ?_⟩
    · rw [hsizeIdx]
      exact Nat.min_le_right _ _
    · rw [hnallocs, hsizeIdx, hunit, halign]
    · rw [halign, hunit]
      exact hdvd
    · rw [halign]
      exact hle
    · unfold Class.Geometric Desc.Geometric
      rw [hsizeIdx, hunit, halign]

/-- The class of an accepted descriptor is sound if and only if the descriptor is geometric. -/
theorem ctlWriteDesc_sound_iff {registered buckets : Bool} {p : Desc} {classId : Option Nat}
    {ac ac' : Collection} (h : ctlWriteDesc registered buckets p classId ac = some ac')
    (hc : c ∈ ac'.downward) (hnew : c ∉ ac.downward) : c.Sound ↔ p.Geometric := by
  obtain ⟨hmade, hgeo⟩ := ctlWriteDesc_made h hc hnew
  rw [hmade.sound_iff, hgeo]

def noRuns : Collection :=
  ⟨some hugeClass :: List.replicate 254 none, MAX_RUN_SIZE, []⟩

theorem ctlWriteDesc_free {slot : Nat}
    (hslot : ac.findFirstFreeSlot = some slot) (hunit : 0 < p.unitSize)
    (hmax : p.unitSize ≤ PMEMOBJ_MAX_ALLOC_SIZE) (hunits : 0 < p.unitsPerBlock)
    (hdvd : p.alignment ≠ 0 → p.alignment ∣ p.unitSize) (hle : p.alignment ≤ 2 ^ 21) :
    ∃ c ac', ctlWriteDesc true true p none ac = some ac' ∧ c ∈ ac'.downward ∧ c.id = slot ∧
      c.type = .run ∧ c.unitSize = p.unitSize ∧ c.headerType = p.headerType ∧
      c.sizeIdx = p.sizeIdx ∧ c.alignment = p.alignment ∧
      c.nallocs = (memblockRunBitmap p.sizeIdx p.unitSize p.alignment).nbits := by
  obtain ⟨hlength, -⟩ := List.findIdx?_eq_some_iff_getElem.mp hslot
  have hmod : ¬ (p.alignment ≠ 0 ∧ p.unitSize % p.alignment ≠ 0) :=
    fun h => h.2 (Nat.mod_eq_zero_of_dvd (hdvd h.1))
  unfold ctlWriteDesc
  rw [if_neg (by omega), if_neg hmod, if_neg (by omega)]
  dsimp only
  rw [hslot, Option.bind_some, allocClassNew, dif_pos ⟨rfl, hunit⟩, Option.bind_some,
    if_neg (by decide)]
  exact ⟨_, _, rfl, mem_downward_iff.mpr (List.mem_set hlength _), rfl, rfl, rfl, rfl, rfl, rfl,
    rfl⟩

theorem exists_ctlWriteDesc (hunit : 0 < p.unitSize) (hmax : p.unitSize ≤ PMEMOBJ_MAX_ALLOC_SIZE)
    (hunits : 0 < p.unitsPerBlock) (hdvd : p.alignment ∣ p.unitSize) (hle : p.alignment ≤ 2 ^ 21) :
    ∃ c ac', ctlWriteDesc true true p none noRuns = some ac' ∧ c ∈ ac'.downward ∧
      c ∉ noRuns.downward := by
  have hfree : noRuns.findFirstFreeSlot = some 1 := rfl
  obtain ⟨c, ac', hwrite, hc, hslot, -⟩ := ctlWriteDesc_free hfree hunit hmax hunits
      (fun _ => hdvd) hle
  refine ⟨c, ac', hwrite, hc, fun hmem => ?_⟩
  rw [mem_downward_iff, noRuns, List.mem_cons, List.mem_replicate] at hmem
  rcases hmem with hhuge | ⟨-, hnone⟩
  · rw [Option.some.inj hhuge] at hslot
    cases hslot
  · cases hnone

theorem ctlWriteDesc_unitSize {registered buckets : Bool}
    (h : ctlWriteDesc registered buckets p classId ac = some ac') :
    p.unitSize ≤ PMEMOBJ_MAX_ALLOC_SIZE := by
  unfold ctlWriteDesc at h
  obtain ⟨hchecks, -⟩ := Option.ite_none_left_eq_some.mp h
  omega

/-- Units of 4 KiB that are aligned to pages. -/
theorem ctlWriteDesc_sound_page :
    ∃ c ac', ctlWriteDesc true true ⟨4096, 4096, 100, .none⟩ none noRuns = some ac' ∧
      c ∈ ac'.downward ∧ c ∉ noRuns.downward ∧ c.Sound := by
  obtain ⟨c, ac', hwrite, hc, hnew⟩ := exists_ctlWriteDesc (p := ⟨4096, 4096, 100, .none⟩)
    (by decide) (by decide) (by decide) (by decide) (by decide)
  exact ⟨c, ac', hwrite, hc, hnew, (ctlWriteDesc_sound_iff hwrite hc hnew).mpr (by decide)⟩

/-- For one aligned unit that does not fit into the chunk behind the bitmap, `2 ^ 32 - 1` units
are counted. -/
theorem not_sound_of_no_unit :
    ¬ ∀ (registered buckets : Bool) (p : Desc) (classId : Option Nat) (ac ac' : Collection)
      (c : Class), ctlWriteDesc registered buckets p classId ac = some ac' →
        c ∈ ac'.downward → c ∉ ac.downward → c.Sound := by
  intro h
  obtain ⟨c, ac', hwrite, hc, hnew⟩ := exists_ctlWriteDesc (p := ⟨262112, 16, 1, .none⟩)
    (by decide) (by decide) (by decide) (by decide) (by decide)
  obtain ⟨hmade, hgeo⟩ := ctlWriteDesc_made hwrite hc hnew
  have hsound := h true true _ none noRuns ac' c hwrite hc hnew
  exact absurd (hgeo.mp (hsound.geometric hmade)) (by decide)

end Pmdk.AllocClass
