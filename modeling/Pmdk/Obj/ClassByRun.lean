import Pmdk.Obj.ClassGeometry

/-!
# The class of a run

A run that is found on the medium belongs to the class that `alloc_class_by_run` finds for it. The
key under which a class is registered is packed from its unit size, in granules of 16 bytes, its
flags and the size of its runs. Unit sizes that round alike have the same key, and the alignment
is not in it. The cuckoo table is a map here, which refuses a key that it has.
-/

namespace Pmdk.AllocClass

structure NewClass where
  id : Nat
  headerType : HeaderType
  unitSize : Nat
  alignment : Nat
  sizeIdx : Nat
  unitSize_pos : 0 < unitSize
  sizeIdx_le : sizeIdx ≤ 65535

def NewClass.make (a : NewClass) : Class where
  id := a.id
  type := .run
  unitSize := a.unitSize
  headerType := a.headerType
  sizeIdx := a.sizeIdx
  alignment := a.alignment
  nallocs := (memblockRunBitmap a.sizeIdx a.unitSize a.alignment).nbits
  pos := a.unitSize_pos

/-- `SIZE_TO_CLASS_MAP_INDEX`, with the 64-bit difference and the cast to `uint32_t`. -/
def mapIdxS (size : Nat) : Nat := (1 + (size + 2 ^ 64 - 1) % 2 ^ 64 / ALLOC_BLOCK_SIZE) % 2 ^ 32

def runClassKeyPack (mapIdxS : Nat) (flagsS : UInt16) (sizeIdxS : Nat) : Nat :=
  mapIdxS <<< 32 ||| flagsS.toNat <<< 16 ||| sizeIdxS

def runKey (unitSize : Nat) (flags : UInt16) (sizeIdx : Nat) : Nat :=
  runClassKeyPack (mapIdxS unitSize) flags (sizeIdx % 2 ^ 16)

/-- `class_map_by_unit_size`. -/
abbrev ClassMap := Nat → Option Class

def register (a : NewClass) (map : ClassMap) : Option ClassMap :=
  let k := runKey a.unitSize a.make.flags a.sizeIdx
  if (map k).isSome then none else some (Function.update map k (some a.make))

def allocClassByRun (map : ClassMap) (unitSize : Nat) (flags : UInt16) (sizeIdx : Nat) :
    Option Class :=
  map (runKey unitSize flags sizeIdx)

def registerAll (as : List NewClass) : Option ClassMap :=
  Transition.run register as fun _ => none

structure Attached (c : Class) (m : Memblock.Run) : Prop where
  unitSize : c.unitSize = m.blockSize
  alignment : m.flags &&& Memblock.CHUNK_FLAG_ALIGNED ≠ 0 → c.alignment = m.alignment
  nallocs : c.nallocs = (Memblock.runGetBitmap m).nbits

/-! ## Keys -/

theorem runClassKeyPack_eq {k : Nat} {flags : UInt16} {s : Nat} (hs : s < 2 ^ 16) :
    runClassKeyPack k flags s = k * 2 ^ 32 + flags.toNat * 2 ^ 16 + s := by
  have hflags : flags.toNat < 2 ^ 16 := flags.toNat_lt
  unfold runClassKeyPack
  rw [← Nat.shiftLeft_add_eq_or_of_lt (i := 32) (b := flags.toNat <<< 16)]
  · have hsplit : k <<< 32 + flags.toNat <<< 16 = (k * 2 ^ 16 + flags.toNat) <<< 16 := by
      simp only [Nat.shiftLeft_eq]
      omega
    rw [hsplit, ← Nat.shiftLeft_add_eq_or_of_lt hs, Nat.shiftLeft_eq]
    omega
  · rw [Nat.shiftLeft_eq]
    omega

theorem runKey_eq_iff {u u' : Nat} {flags flags' : UInt16} {s s' : Nat} (hs : s ≤ 65535)
    (hs' : s' ≤ 65535) :
    runKey u flags s = runKey u' flags' s' ↔ mapIdxS u = mapIdxS u' ∧ flags = flags' ∧ s = s' := by
  have hflags : flags.toNat < 2 ^ 16 := flags.toNat_lt
  have hflags' : flags'.toNat < 2 ^ 16 := flags'.toNat_lt
  have heq : flags = flags' ↔ flags.toNat = flags'.toNat := UInt16.toNat_inj.symm
  unfold runKey
  rw [runClassKeyPack_eq (Nat.mod_lt _ (by decide)), runClassKeyPack_eq (Nat.mod_lt _ (by decide)),
    Nat.mod_eq_of_lt (by omega), Nat.mod_eq_of_lt (by omega), heq]
  omega

/-! ## The map -/

theorem registerAll_eq_some_iff {as : List NewClass} {map : ClassMap}
    (h : registerAll as = some map) (k : Nat) (c : Class) :
    map k = some c ↔ ∃ a ∈ as, runKey a.unitSize a.make.flags a.sizeIdx = k ∧ a.make = c := by
  have hgen : ∀ (as : List NewClass) (start : ClassMap), Transition.run register as start =
      some map →
      (map k = some c ↔ start k = some c ∨
        ∃ a ∈ as, runKey a.unitSize a.make.flags a.sizeIdx = k ∧ a.make = c) := by
    intro as
    induction as with
    | nil =>
      intro start hrun
      obtain rfl := Option.some.inj hrun
      simp
    | cons a as ih =>
      intro start hrun
      obtain ⟨next, hnext, hrest⟩ := Transition.run_cons_eq_some_iff.mp hrun
      obtain ⟨hfree, hset⟩ := Option.ite_none_left_eq_some.mp hnext
      rw [Bool.not_eq_true, Option.isSome_eq_false_iff, Option.isNone_iff_eq_none] at hfree
      obtain rfl := Option.some.inj hset
      rw [ih _ hrest, List.exists_mem_cons_iff, ← or_assoc]
      refine or_congr_left ?_
      by_cases hk : k = runKey a.unitSize a.make.flags a.sizeIdx
      · subst hk
        rw [Function.update_self, hfree]
        simp
      · rw [Function.update_of_ne hk]
        simp [Ne.symm hk]
  simpa using hgen as _ h

/-! ## Runs and their classes -/

theorem flags_aligned_iff (c : Class) :
    c.flags &&& Memblock.CHUNK_FLAG_ALIGNED ≠ 0 ↔ c.alignment ≠ 0 := by
  unfold Class.flags
  by_cases h : c.alignment = 0
  · rw [if_pos h]
    cases c.headerType <;> simp [h] <;> decide
  · rw [if_neg h]
    cases c.headerType <;> simp [h] <;> decide

theorem lessOne_ne {n r : Nat} (hn : n < 2 ^ 32) (hr : r ≠ 0) : Memblock.lessOne r n ≠ n := by
  unfold Memblock.lessOne
  rw [if_neg hr]
  omega

/-- A run under the key of a class is attached to it if and only if the unit size and the
alignment are the same. -/
theorem attached_iff {a : NewClass} {m : Memblock.Run} (hflags : a.make.flags = m.flags)
    (hsize : a.sizeIdx = m.sizeIdx) :
    Attached a.make m ↔ a.unitSize = m.blockSize ∧ a.alignment = m.alignment := by
  have hflex : m.flags &&& Memblock.CHUNK_FLAG_FLEX_BITMAP ≠ 0 := hflags ▸ flags_flex a.make
  have hbits : (Memblock.runGetBitmap m).nbits =
      (memblockRunBitmap m.sizeIdx m.blockSize m.alignment).nbits := by
    unfold Memblock.runGetBitmap Memblock.memblockRunBitmap
    rw [if_pos hflex]
  have haligned : m.flags &&& Memblock.CHUNK_FLAG_ALIGNED ≠ 0 ↔ a.alignment ≠ 0 :=
    hflags ▸ flags_aligned_iff a.make
  constructor
  · intro h
    refine ⟨h.unitSize, ?_⟩
    by_cases halign : a.alignment = 0
    · have hunit : a.unitSize = m.blockSize := h.unitSize
      have hnallocs : (memblockRunBitmap a.sizeIdx a.unitSize a.alignment).nbits =
          (Memblock.runGetBitmap m).nbits := h.nallocs
      rw [hbits, hsize, hunit, halign] at hnallocs
      rw [halign]
      by_contra hne
      have hlt := Nat.mod_lt ((runContentSizeBytes m.sizeIdx -
        (memblockRunBitmap m.sizeIdx m.blockSize 0).size) / m.blockSize) (Nat.two_pow_pos 32)
      exact lessOne_ne hlt (Ne.symm hne) hnallocs.symm
    · exact h.alignment (haligned.mpr halign)
  · rintro ⟨hunit, halign⟩
    refine ⟨hunit, fun _ => halign, ?_⟩
    rw [hbits, ← hsize, ← hunit, ← halign]
    rfl

/-- The runs of a heap are attached to the right classes if and only if a class that has the flags
and the size of a run, and a unit size in the same granule, has the very unit size and alignment of
the run. -/
theorem allocClassByRun_attached_iff {as : List NewClass} {map : ClassMap}
    (hmap : registerAll as = some map) (m : Memblock.Run) (hsize : m.sizeIdx ≤ 65535) :
    (∀ c, allocClassByRun map m.blockSize m.flags m.sizeIdx = some c → Attached c m) ↔
      ∀ a ∈ as, mapIdxS a.unitSize = mapIdxS m.blockSize → a.make.flags = m.flags →
        a.sizeIdx = m.sizeIdx → a.unitSize = m.blockSize ∧ a.alignment = m.alignment := by
  unfold allocClassByRun
  constructor
  · intro h a ha hgranule hflags hsame
    refine (attached_iff hflags hsame).mp (h a.make ?_)
    rw [registerAll_eq_some_iff hmap]
    exact ⟨a, ha, (runKey_eq_iff a.sizeIdx_le hsize).mpr ⟨hgranule, hflags, hsame⟩, rfl⟩
  · intro h c hc
    obtain ⟨a, ha, hkey, rfl⟩ := (registerAll_eq_some_iff hmap _ c).mp hc
    obtain ⟨hgranule, hflags, hsame⟩ := (runKey_eq_iff a.sizeIdx_le hsize).mp hkey
    exact (attached_iff hflags hsame).mpr (h a ha hgranule hflags hsame)

def smallest : NewClass :=
  ⟨1, .compact, 128, 0, 1, Nat.succ_pos 127, Nat.succ_le_succ (Nat.zero_le 65534)⟩

def runOf (blockSize : Nat) : Memblock.Run :=
  ⟨1, smallest.make.flags, blockSize, 0, fun _ => 0⟩

/-- A run with units of 128 bytes is attached to the class that has them. -/
theorem allocClassByRun_attached_smallest :
    ∃ map, registerAll [smallest] = some map ∧
      ∀ c, allocClassByRun map 128 (runOf 128).flags 1 = some c → Attached c (runOf 128) := by
  have hmap : registerAll [smallest] = some _ := rfl
  refine ⟨_, hmap, (allocClassByRun_attached_iff hmap (runOf 128) (by decide)).mpr ?_⟩
  intro a ha _ _ _
  obtain rfl := List.mem_singleton.mp ha
  exact ⟨rfl, rfl⟩

/-- A run with units of 120 bytes, from a class of an earlier session, is taken for one with units
of 128 bytes. -/
theorem not_attached_of_granule :
    ¬ ∀ (as : List NewClass) (map : ClassMap), registerAll as = some map →
      ∀ m : Memblock.Run, m.sizeIdx ≤ 65535 →
        ∀ c, allocClassByRun map m.blockSize m.flags m.sizeIdx = some c → Attached c m := by
  intro h
  have hkey : runKey 128 smallest.make.flags 1 = runKey 120 (runOf 120).flags 1 := by decide
  obtain ⟨map, hmap⟩ : ∃ map, registerAll [smallest] = some map := ⟨_, rfl⟩
  have hfound : allocClassByRun map 120 (runOf 120).flags 1 = some smallest.make :=
    (registerAll_eq_some_iff hmap _ _).mpr ⟨smallest, List.mem_singleton_self _, hkey, rfl⟩
  have hattached := h [smallest] map hmap (runOf 120) (by decide) smallest.make hfound
  exact absurd hattached.unitSize (by decide)

end Pmdk.AllocClass
