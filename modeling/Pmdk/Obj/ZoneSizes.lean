import Pmdk.Obj.ExtendInv

/-!
# The zones of a heap

`heap_max_zone` counts the zones that fit into what is left of the heap after its header, and
`zone_calc_size_idx` the chunks of a zone. Every zone but the last one has `MAX_CHUNK` chunks.
-/

namespace Pmdk.Extend

def ZoneFits (heapSize id : Nat) : Prop :=
  ∃ n, zoneCalcSizeIdx id (heapMaxZone heapSize) heapSize = some n ∧ 1 ≤ n ∧ n ≤ maxChunk ∧
    heapHeaderSize + zoneEnd id n ≤ heapSize

def leftover (heapSize : Nat) : Nat := (heapSize - heapHeaderSize - zoneMinSize) % zoneMaxSize

/-- The leftover is as many chunks with the heap header as without it, and fewer than
`MAX_CHUNK`. -/
def LeftoverOk (heapSize : Nat) : Prop :=
  leftover heapSize % chunkSize + heapHeaderSize < chunkSize ∧
    leftover heapSize / chunkSize < maxChunk

instance (heapSize : Nat) : Decidable (LeftoverOk heapSize) :=
  inferInstanceAs (Decidable (_ ∧ _))

variable {heapSize : Nat}

variable {id : Nat}

theorem heapSize_eq_leftover (h : heapMaxZone heapSize = id + 1) :
    heapSize = heapHeaderSize + (id * zoneMaxSize + (zoneMinSize + leftover heapSize)) := by
  obtain ⟨hlo, hhi⟩ := heapMaxZone_bounds h
  have hpos : 0 < zoneMinSize := by decide
  rw [Nat.add_one_mul] at hhi
  have hleft : leftover heapSize = heapSize - heapHeaderSize - zoneMinSize - id * zoneMaxSize := by
    unfold leftover
    rw [Nat.mod_eq_sub, Nat.div_eq_of_lt_le (k := id), Nat.mul_comm]
    · omega
    · rw [Nat.add_one_mul]
      omega
  omega

theorem add_div_eq_of_mod_add_lt {t h c : Nat} (hlt : t % c + h < c) : (t + h) / c = t / c := by
  have hdiv := Nat.div_add_mod t c
  rw [Nat.mul_comm c] at hdiv
  refine Nat.div_eq_of_lt_le ?_ ?_
  · omega
  · rw [Nat.add_one_mul]
    omega

/-- A rest of `t` bytes is not cut at a later chunk when `h` bytes more are counted. -/
theorem add_div_mul_le_iff {t h c : Nat} (hc : 0 < c) : (t + h) / c * c ≤ t ↔ t % c + h < c := by
  have hdiv := Nat.div_add_mod t c
  rw [Nat.mul_comm c] at hdiv
  constructor
  · intro hle
    by_contra hge
    have hlt : t / c + 1 ≤ (t + h) / c := by
      rw [Nat.le_div_iff_mul_le hc, Nat.add_one_mul]
      omega
    have hmul := Nat.mul_le_mul_right c hlt
    have hmod := Nat.mod_lt t hc
    rw [Nat.add_one_mul] at hmul
    omega
  · intro hlt
    rw [add_div_eq_of_mod_add_lt hlt]
    omega

theorem zoneFits_of_lt (hid : id + 1 < heapMaxZone heapSize) : ZoneFits heapSize id := by
  have hlast : id + 1 = heapMaxZone heapSize → Room heapSize heapSize id :=
    fun h => absurd h (Nat.ne_of_lt hid)
  have hstale : (Persist.Cell.clean heapSize).stale = [] := rfl
  obtain ⟨n, hcalc, hpos, hok, -⟩ :=
    zoneCalcSizeIdx_ok hstale (Nat.le_refl _) (Nat.lt_of_succ_lt hid) hlast
  exact ⟨n, hcalc, hpos, hok.le, hok.mapped⟩

theorem zoneCalcSizeIdx_leftover (h : heapMaxZone heapSize = id + 1) :
    zoneCalcSizeIdx id (heapMaxZone heapSize) heapSize =
      some ((leftover heapSize + heapHeaderSize) / chunkSize + 1) := by
  have hsize := heapSize_eq_leftover h
  have hmin : zoneMinSize = zoneHeadersSize + chunkSize := rfl
  have hpos : 0 < chunkSize := by decide
  have hraw : heapSize - id * zoneMaxSize - zoneHeadersSize =
      leftover heapSize + heapHeaderSize + chunkSize := by omega
  rw [h, zoneCalcSizeIdx, if_neg (by omega), if_neg (by omega), if_neg (by omega),
    if_neg (by omega), hraw, Nat.add_div_right _ hpos]

/-- The last zone fits if and only if the leftover is as it should be. -/
theorem zoneFits_last_iff (h : heapMaxZone heapSize = id + 1) :
    ZoneFits heapSize id ↔ LeftoverOk heapSize := by
  have hpos : 0 < chunkSize := by decide
  have hsize := heapSize_eq_leftover h
  have hmin : zoneMinSize = zoneHeadersSize + chunkSize := rfl
  have hend : heapHeaderSize + zoneEnd id ((leftover heapSize + heapHeaderSize) / chunkSize + 1) ≤
      heapSize ↔ leftover heapSize % chunkSize + heapHeaderSize < chunkSize := by
    rw [← add_div_mul_le_iff hpos, zoneEnd, Nat.add_one_mul]
    omega
  unfold ZoneFits LeftoverOk
  rw [zoneCalcSizeIdx_leftover h]
  constructor
  · rintro ⟨n, hn, -, hle, hfits⟩
    cases hn
    have hmod := hend.mp hfits
    rw [add_div_eq_of_mod_add_lt hmod] at hle
    exact ⟨hmod, hle⟩
  · rintro ⟨hmod, hlt⟩
    refine ⟨_, rfl, Nat.succ_pos _, ?_, hend.mpr hmod⟩
    rw [add_div_eq_of_mod_add_lt hmod]
    exact hlt

/-- All the zones of a heap fit if and only if the leftover is as it should be. -/
theorem zoneFits_iff {heapSize : Nat} (hmin : heapMinSize ≤ heapSize) :
    (∀ id < heapMaxZone heapSize, ZoneFits heapSize id) ↔ LeftoverOk heapSize := by
  obtain ⟨last, hlast⟩ : ∃ last, heapMaxZone heapSize = last + 1 :=
    Nat.exists_eq_add_of_lt (heapMaxZone_pos hmin) |>.imp fun last h => by omega
  rw [← zoneFits_last_iff hlast, hlast]
  constructor
  · intro h
    exact h last (Nat.lt_succ_self last)
  · intro h id hid
    rcases Nat.lt_succ_iff_lt_or_eq.mp hid with hlt | rfl
    · exact zoneFits_of_lt (by omega)
    · exact h

/-- A heap of 8 MiB and a page. -/
theorem zoneFits_iff_page : (∀ id < heapMaxZone 8392704, ZoneFits 8392704 id) ∧
    LeftoverOk 8392704 :=
  ⟨(zoneFits_iff (by decide)).mpr (by decide), by decide⟩

/-- In a heap of 8 MiB the last chunk ends 1024 bytes behind the heap. -/
theorem zoneFits_eight_mib :
    ¬ ∀ heapSize ≥ heapMinSize, ∀ id < heapMaxZone heapSize, ZoneFits heapSize id := by
  intro h
  have hone : heapMaxZone 8388608 = 0 + 1 := by decide
  have hfits := h 8388608 (by decide) 0 (by rw [hone]; exact Nat.one_pos)
  exact absurd ((zoneFits_last_iff hone).mp hfits) (by decide)

end Pmdk.Extend
