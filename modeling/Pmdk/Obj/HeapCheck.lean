import Mathlib.Data.Set.Finite.Lattice
import Pmdk.Lib.Orbit
import Pmdk.Lib.Extent

/-!
# The check of a zone

`heap_verify_zone` goes over the chunk headers by the `size_idx` that it finds in them, up to the
`size_idx` of the zone, and both of them may be anything. What it comes to is in `walk`: the indices
of the chunk headers that it reads, and the error, if there is one.
-/

namespace Pmdk.HeapCheck

def MAX_CHUNK : Nat := 65535 - 7

def ZONE_HEADER_MAGIC : UInt32 := 0xC3F0A2D2

def CHUNK_TYPE_UNKNOWN : UInt16 := 0

def MAX_CHUNK_TYPE : UInt16 := 6

def CHUNK_FLAGS_ALL_VALID : UInt16 := 0x000F

structure ChunkHeader where
  type : UInt16
  flags : UInt16
  sizeIdx : UInt32
  deriving DecidableEq

/-- `struct zone`: the header, and what is found where the chunk headers are. -/
structure Zone where
  magic : UInt32
  sizeIdx : UInt32
  chunkHeaders : UInt32 → ChunkHeader

def heapVerifyZoneHeader (magic sizeIdx : UInt32) : Except String Unit :=
  if magic ≠ ZONE_HEADER_MAGIC then .ok ()
  else if sizeIdx = 0 then .error "heap: invalid zone size"
  else .ok ()

def heapVerifyChunkHeader (hdr : ChunkHeader) : Except String Unit :=
  if hdr.type = CHUNK_TYPE_UNKNOWN then .error "heap: invalid chunk type"
  else if hdr.type ≥ MAX_CHUNK_TYPE then .error "heap: unknown chunk type"
  else if hdr.flags &&& ~~~CHUNK_FLAGS_ALL_VALID ≠ 0 then .error "heap: invalid chunk flags"
  else .ok ()

/-- The loop of `heap_verify_zone`, and the comparison behind it. -/
def walk (zone : Zone) : Nat → UInt32 → Option (List UInt32 × Except String Unit)
  | 0, _ => none
  | fuel + 1, i =>
    if i < zone.sizeIdx then
      match heapVerifyChunkHeader (zone.chunkHeaders i) with
      | .error msg => some ([i], .error msg)
      | .ok () => (walk zone fuel (i + (zone.chunkHeaders i).sizeIdx)).map fun r =>
        (i :: r.1, r.2)
    else if i ≠ zone.sizeIdx then some ([], .error "heap: chunk sizes mismatch")
    else some ([], .ok ())

def heapVerifyZone (fuel : Nat) (zone : Zone) : Option (List UInt32 × Except String Unit) :=
  if zone.magic = 0 then some ([], .ok ())
  else if zone.magic ≠ ZONE_HEADER_MAGIC then some ([], .error "heap: invalid zone magic")
  else
    match heapVerifyZoneHeader zone.magic zone.sizeIdx with
    | .error msg => some ([], .error msg)
    | .ok () => walk zone fuel 0

def Valid (hdr : ChunkHeader) : Prop := heapVerifyChunkHeader hdr = .ok ()

instance (hdr : ChunkHeader) : Decidable (Valid hdr) :=
  decidable_of_iff ((heapVerifyChunkHeader hdr).toOption = some ()) (by
    unfold Valid
    cases heapVerifyChunkHeader hdr with
    | error msg => simp [Except.toOption]
    | ok _ => simp [Except.toOption])

/-- The headers from `i` on are valid, they have the given sizes, and these end at the size of
the zone. -/
def Tiles (zone : Zone) (i : Nat) (sizes : List Nat) : Prop :=
  Tiling.Tiles Valid (fun hdr => hdr.sizeIdx.toNat)
    (fun i => zone.chunkHeaders (UInt32.ofNat i)) i sizes zone.sizeIdx.toNat

def Walked (zone : Zone) (i : Nat) : Prop := ∃ sizes, Tiles zone i sizes

/-- The check ends, reads no chunk header behind the array, and lets an initialised zone pass if
and only if it has a size and its headers lead there. -/
def Total (zone : Zone) : Prop :=
  ∃ fuel reads ret, heapVerifyZone fuel zone = some (reads, ret) ∧
    (∀ i ∈ reads, i.toNat < MAX_CHUNK) ∧
    (zone.magic = ZONE_HEADER_MAGIC → (ret = .ok () ↔ zone.sizeIdx ≠ 0 ∧ Walked zone 0))

/-! ## The loop -/

variable {zone : Zone} {i j : UInt32} {fuel : Nat}

def next (zone : Zone) (i : UInt32) : Option UInt32 :=
  if i < zone.sizeIdx ∧ Valid (zone.chunkHeaders i) then
    some (i + (zone.chunkHeaders i).sizeIdx)
  else none

theorem next_eq_some_iff :
    next zone i = some j ↔ (i < zone.sizeIdx ∧ Valid (zone.chunkHeaders i)) ∧
      i + (zone.chunkHeaders i).sizeIdx = j := by
  simp [next]

/-- The loop comes from `i` to `j`. -/
abbrev Visits (zone : Zone) : UInt32 → UInt32 → Prop := Orbit.Reaches (next zone)

theorem walk_isSome_iff : (walk zone fuel i).isSome ↔ (Orbit.orbit (next zone) fuel i).isSome := by
  induction fuel generalizing i with
  | zero => rfl
  | succ fuel ih =>
    unfold walk
    by_cases hlt : i < zone.sizeIdx
    · rw [if_pos hlt]
      cases hvalid : heapVerifyChunkHeader (zone.chunkHeaders i) with
      | error msg =>
        have hnone : next zone i = none := by simp [next, Valid, hvalid]
        simp [Orbit.orbit_succ_of_none hnone]
      | ok _ =>
        have hsome : next zone i = some (i + (zone.chunkHeaders i).sizeIdx) :=
          next_eq_some_iff.mpr ⟨⟨hlt, hvalid⟩, rfl⟩
        rw [Orbit.orbit_succ_of_some hsome]
        simp [ih]
    · have hnone : next zone i = none := by simp [next, hlt]
      rw [if_neg hlt, Orbit.orbit_succ_of_none hnone]
      split <;> rfl

theorem walk_spec {reads : List UInt32} {ret : Except String Unit}
    (h : walk zone fuel i = some (reads, ret)) :
    (∀ j, j ∈ reads ↔ Visits zone i j ∧ j < zone.sizeIdx) ∧
      (ret = .ok () ↔ Visits zone i zone.sizeIdx) := by
  induction fuel generalizing i reads with
  | zero => cases h
  | succ fuel ih =>
    unfold walk at h
    by_cases hlt : i < zone.sizeIdx
    · rw [if_pos hlt] at h
      have hne : zone.sizeIdx ≠ i := (UInt32.ne_of_lt hlt).symm
      cases hvalid : heapVerifyChunkHeader (zone.chunkHeaders i) with
      | error msg =>
        have hnone : next zone i = none := by simp [next, Valid, hvalid]
        obtain ⟨rfl, rfl⟩ : [i] = reads ∧ Except.error msg = ret := by
          simpa [hvalid] using h
        simp only [Orbit.reaches_iff_eq_of_none hnone, List.mem_singleton]
        refine ⟨fun j => ?_, by simp [hne]⟩
        constructor
        · rintro rfl
          exact ⟨rfl, hlt⟩
        · exact And.left
      | ok _ =>
        have hsome : next zone i = some (i + (zone.chunkHeaders i).sizeIdx) :=
          next_eq_some_iff.mpr ⟨⟨hlt, hvalid⟩, rfl⟩
        rw [hvalid, Option.map_eq_some_iff] at h
        obtain ⟨⟨rest, ret'⟩, hrest, heq⟩ := h
        obtain ⟨rfl, rfl⟩ : i :: rest = reads ∧ ret' = ret := by simpa using heq
        obtain ⟨hreads, hret⟩ := ih hrest
        simp only [Orbit.reaches_iff_of_some hsome, List.mem_cons, hreads, hret, hne,
          false_or, and_true]
        intro j
        constructor
        · rintro (rfl | hj)
          · exact ⟨.inl rfl, hlt⟩
          · exact ⟨.inr hj.1, hj.2⟩
        · rintro ⟨rfl | hj, hlt'⟩
          · exact .inl rfl
          · exact .inr ⟨hj, hlt'⟩
    · have hnone : next zone i = none := by simp [next, hlt]
      rw [if_neg hlt] at h
      simp only [Orbit.reaches_iff_eq_of_none hnone]
      split at h
      · rename_i hne
        cases h
        refine ⟨fun j => ?_, by simp [hne.symm]⟩
        simp only [List.not_mem_nil, false_iff, not_and]
        rintro rfl
        exact hlt
      · rename_i heq
        rw [ne_eq, not_not] at heq
        cases h
        refine ⟨fun j => ?_, by simp [heq]⟩
        simp only [List.not_mem_nil, false_iff, not_and]
        rintro rfl
        exact hlt

/-! ## The tiling -/

theorem walked_sizeIdx : Walked zone zone.sizeIdx.toNat := ⟨[], rfl⟩

theorem Walked.le {n : Nat} (h : Walked zone n) : n ≤ zone.sizeIdx.toNat := by
  obtain ⟨sizes, htiles⟩ := h
  exact htiles.le

theorem tiles_cons_iff {n : Nat} {sizes : List Nat} :
    Tiles zone i.toNat (n :: sizes) ↔ Valid (zone.chunkHeaders i) ∧
      (zone.chunkHeaders i).sizeIdx.toNat = n ∧ 0 < n ∧ Tiles zone (i.toNat + n) sizes := by
  simp [Tiles, Tiling.Tiles]

theorem walked_iff (hlt : i < zone.sizeIdx) :
    Walked zone i.toNat ↔ Valid (zone.chunkHeaders i) ∧
      0 < (zone.chunkHeaders i).sizeIdx.toNat ∧
        Walked zone (i.toNat + (zone.chunkHeaders i).sizeIdx.toNat) := by
  constructor
  · rintro ⟨sizes, htiles⟩
    cases sizes with
    | nil => exact absurd htiles (Nat.ne_of_lt hlt)
    | cons n sizes =>
      obtain ⟨hvalid, rfl, hpos, hrest⟩ := tiles_cons_iff.mp htiles
      exact ⟨hvalid, hpos, sizes, hrest⟩
  · rintro ⟨hvalid, hpos, sizes, htiles⟩
    exact ⟨_ :: sizes, tiles_cons_iff.mpr ⟨hvalid, rfl, hpos, htiles⟩⟩

/-- The 32-bit index does not come around after the header at `i`. -/
def Unwrapped (zone : Zone) (i : UInt32) : Prop :=
  i.toNat + (zone.chunkHeaders i).sizeIdx.toNat < 2 ^ 32

theorem Unwrapped.toNat_add (h : Unwrapped zone i) :
    (i + (zone.chunkHeaders i).sizeIdx).toNat = i.toNat + (zone.chunkHeaders i).sizeIdx.toNat := by
  rw [UInt32.toNat_add]
  exact Nat.mod_eq_of_lt h

theorem Walked.next (h : Walked zone i.toNat) (hnext : next zone i = some j) :
    Unwrapped zone i ∧ Walked zone j.toNat := by
  obtain ⟨⟨hlt, -⟩, rfl⟩ := next_eq_some_iff.mp hnext
  obtain ⟨-, -, hrest⟩ := (walked_iff hlt).mp h
  have hunwrapped : Unwrapped zone i := Nat.lt_of_le_of_lt hrest.le zone.sizeIdx.toNat_lt
  rw [hunwrapped.toNat_add]
  exact ⟨hunwrapped, hrest⟩

theorem Walked.visits (h : Walked zone i.toNat) (hij : Visits zone i j) : Walked zone j.toNat := by
  induction hij with
  | refl => exact h
  | tail _ hnext ih => exact (ih.next hnext).2

theorem Walked.visits_sizeIdx (h : Walked zone i.toNat) : Visits zone i zone.sizeIdx := by
  obtain ⟨sizes, htiles⟩ := h
  induction sizes generalizing i with
  | nil =>
    obtain rfl : i = zone.sizeIdx := UInt32.toNat.inj htiles
    exact .refl
  | cons n sizes ih =>
    have hwalked : Walked zone i.toNat := ⟨n :: sizes, htiles⟩
    obtain ⟨hvalid, rfl, hpos, hrest⟩ := tiles_cons_iff.mp htiles
    have hle := Tiling.Tiles.le hrest
    have hlt : i < zone.sizeIdx := UInt32.lt_iff_toNat_lt.mpr (by omega)
    have hnext : HeapCheck.next zone i = some (i + (zone.chunkHeaders i).sizeIdx) :=
      next_eq_some_iff.mpr ⟨⟨hlt, hvalid⟩, rfl⟩
    rw [← (hwalked.next hnext).1.toNat_add] at hrest
    exact .head hnext (ih hrest)

theorem walk_of_tiles {sizes : List Nat} (h : Tiles zone i.toNat sizes) :
    ∃ reads, walk zone (sizes.length + 1) i = some (reads, .ok ()) ∧
      ∀ j ∈ reads, j.toNat < zone.sizeIdx.toNat := by
  induction sizes generalizing i with
  | nil =>
    obtain rfl : i = zone.sizeIdx := UInt32.toNat.inj h
    exact ⟨[], by simp [walk], nofun⟩
  | cons n sizes ih =>
    have hwalked : Walked zone i.toNat := ⟨n :: sizes, h⟩
    obtain ⟨hvalid, rfl, hpos, hrest⟩ := tiles_cons_iff.mp h
    have hle := Tiling.Tiles.le hrest
    have hlt : i < zone.sizeIdx := UInt32.lt_iff_toNat_lt.mpr (by omega)
    have hnext := (hwalked.next (next_eq_some_iff.mpr ⟨⟨hlt, hvalid⟩, rfl⟩)).1
    rw [← hnext.toNat_add] at hrest
    obtain ⟨reads, hreads, hinside⟩ := ih hrest
    refine ⟨i :: reads, ?_, List.forall_mem_cons.mpr ⟨hlt, hinside⟩⟩
    rw [List.length_cons, walk, if_pos hlt, hvalid, hreads]
    rfl

/-- Without a wrap-around the loop only gets to the size of the zone by a tiling. -/
theorem walked_of_visits (hsize : Visits zone i zone.sizeIdx)
    (hwrap : ∀ j k, Visits zone i j → next zone j = some k → Unwrapped zone j) :
    Walked zone i.toNat := by
  induction hsize using Relation.ReflTransGen.head_induction_on with
  | refl => exact walked_sizeIdx
  | @head i j hnext hsize ih =>
    have hunwrapped := hwrap i j .refl hnext
    have hrest := ih fun k l hk hl => hwrap k l (.head hnext hk) hl
    obtain ⟨⟨hlt, hvalid⟩, rfl⟩ := next_eq_some_iff.mp hnext
    rw [hunwrapped.toNat_add] at hrest
    by_cases hzero : (zone.chunkHeaders i).sizeIdx.toNat = 0
    · rw [hzero, Nat.add_zero] at hrest
      exact hrest
    · exact (walked_iff hlt).mpr ⟨hvalid, Nat.pos_of_ne_zero hzero, hrest⟩

/-! ## Zones that are checked as they should be -/

/-- The headers that the loop comes to are in the array, none of them leads back to itself, and
when the index comes around it does not hit the size of the zone. -/
structure Tame (zone : Zone) : Prop where
  inside : ∀ i, Visits zone 0 i → i < zone.sizeIdx → i.toNat < MAX_CHUNK
  acyclic : ∀ i, Visits zone 0 i → ∀ j, next zone i = some j → ¬ Visits zone j i
  unwrapped : Visits zone 0 zone.sizeIdx →
    ∀ i, Visits zone 0 i → ∀ j, next zone i = some j → Unwrapped zone i

theorem visits_finite (hinside : ∀ i, Visits zone 0 i → i < zone.sizeIdx → i.toNat < MAX_CHUNK) :
    {i | Visits zone 0 i}.Finite := by
  have harray : {i : UInt32 | i.toNat < MAX_CHUNK}.Finite :=
    (Set.finite_lt_nat MAX_CHUNK).preimage fun _ _ _ _ h => UInt32.toNat.inj h
  refine ((harray.image fun i => i + (zone.chunkHeaders i).sizeIdx).insert 0).subset ?_
  intro i hi
  rcases hi.cases_tail with rfl | ⟨j, hj, hnext⟩
  · exact .inl rfl
  · obtain ⟨⟨hlt, -⟩, rfl⟩ := next_eq_some_iff.mp hnext
    exact .inr ⟨j, hinside j hj hlt, rfl⟩

theorem Tame.walk_isSome (h : Tame zone) : ∃ fuel r, walk zone fuel 0 = some r := by
  obtain ⟨fuel, l, hl⟩ := Orbit.Acyclic.exists_orbit h.acyclic (visits_finite h.inside)
  have hsome : (walk zone fuel 0).isSome := by
    rw [walk_isSome_iff, hl]
    rfl
  exact ⟨fuel, Option.isSome_iff_exists.mp hsome⟩

theorem tame_of_sizeIdx_eq_zero (h : zone.sizeIdx = 0) : Tame zone := by
  have hnone : ∀ i j, next zone i ≠ some j := by
    intro i j hnext
    have hlt := (next_eq_some_iff.mp hnext).1.1
    rw [h] at hlt
    exact absurd hlt (UInt32.not_lt_zero)
  refine ⟨fun i _ hlt => ?_, fun i _ j hnext => absurd hnext (hnone i j),
    fun _ i _ j hnext => absurd hnext (hnone i j)⟩
  rw [h] at hlt
  exact absurd hlt (UInt32.not_lt_zero)

theorem zone_header_magic_ne_zero : ZONE_HEADER_MAGIC ≠ 0 := by decide

theorem heapVerifyZone_of_magic (hmagic : zone.magic = ZONE_HEADER_MAGIC)
    (hsize : zone.sizeIdx ≠ 0) (fuel : Nat) : heapVerifyZone fuel zone = walk zone fuel 0 := by
  simp [heapVerifyZone, heapVerifyZoneHeader, zone_header_magic_ne_zero, hmagic, hsize]

/-- An initialised zone with a size is checked as it should be if and only if it is tame. -/
theorem total_iff_tame (hmagic : zone.magic = ZONE_HEADER_MAGIC) (hsize : zone.sizeIdx ≠ 0) :
    Total zone ↔ Tame zone := by
  constructor
  · rintro ⟨fuel, reads, ret, hverify, hinside, hret⟩
    rw [heapVerifyZone_of_magic hmagic hsize] at hverify
    obtain ⟨hreads, hok⟩ := walk_spec hverify
    refine ⟨fun i hi hlt => hinside i ((hreads i).mpr ⟨hi, hlt⟩), ?_, ?_⟩
    · have hsome : (Orbit.orbit (next zone) fuel 0).isSome := by
        rw [← walk_isSome_iff, hverify]
        rfl
      obtain ⟨l, hl⟩ := Option.isSome_iff_exists.mp hsome
      exact Orbit.acyclic_of_orbit hl
    · intro hvisits i hi j hnext
      have hwalked := ((hret hmagic).mp (hok.mpr hvisits)).2
      exact (Walked.next (Walked.visits hwalked hi) hnext).1
  · intro h
    obtain ⟨fuel, ⟨reads, ret⟩, hwalk⟩ := h.walk_isSome
    obtain ⟨hreads, hok⟩ := walk_spec hwalk
    refine ⟨fuel, reads, ret, ?_, fun i hi => ?_, fun _ => ?_⟩
    · rw [heapVerifyZone_of_magic hmagic hsize, hwalk]
    · obtain ⟨hvisits, hlt⟩ := (hreads i).mp hi
      exact h.inside i hvisits hlt
    · rw [hok]
      constructor
      · intro hvisits
        exact ⟨hsize, walked_of_visits hvisits fun i j hi hj => h.unwrapped hvisits i hi j hj⟩
      · rintro ⟨-, hwalked⟩
        exact Walked.visits_sizeIdx hwalked

/-- `heap_verify_zone` ends, stays in the array and answers rightly if and only if the headers of
the zone, if it is initialised, are tame. -/
theorem heapVerifyZone_total_iff (zone : Zone) :
    Total zone ↔ (zone.magic = ZONE_HEADER_MAGIC → Tame zone) := by
  by_cases hmagic : zone.magic = ZONE_HEADER_MAGIC
  · by_cases hsize : zone.sizeIdx = 0
    · have htotal : Total zone := by
        refine ⟨0, [], .error "heap: invalid zone size", ?_, by simp, fun _ => ?_⟩
        · simp [heapVerifyZone, heapVerifyZoneHeader, zone_header_magic_ne_zero, hmagic, hsize]
        · simp [hsize]
      exact iff_of_true htotal fun _ => tame_of_sizeIdx_eq_zero hsize
    · rw [total_iff_tame hmagic hsize]
      simp [hmagic]
  · refine iff_of_true ?_ fun h => absurd h hmagic
    by_cases hzero : zone.magic = 0
    · exact ⟨0, [], .ok (), by simp [heapVerifyZone, hzero], by simp, fun h => absurd h hmagic⟩
    · exact ⟨0, [], .error "heap: invalid zone magic", by simp [heapVerifyZone, hzero, hmagic],
        by simp, fun h => absurd h hmagic⟩

def emptyChunk : Zone := ⟨ZONE_HEADER_MAGIC, 1, fun _ => ⟨2, 0, 0⟩⟩

/-- The check of a chunk without a size does not end. -/
theorem not_total_emptyChunk : ¬ ∀ zone, Total zone := by
  intro h
  have hmagic : emptyChunk.magic = ZONE_HEADER_MAGIC := rfl
  have htame := (total_iff_tame hmagic (by decide)).mp (h emptyChunk)
  have hnext : next emptyChunk 0 = some 0 := by decide
  exact htame.acyclic 0 .refl 0 hnext .refl

end Pmdk.HeapCheck
