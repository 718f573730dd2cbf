import Pmdk.Pool.Sync
import Pmdk.Pool.BadBlocksAssign

/-!
# The parts of the replicas

The assumptions about the pool set and about what was found in it, and what follows from them for
the addresses: the parts do not overlap, what is copied to a broken part is the part behind its
header, and the recalculated bad blocks of a replica are sorted.
-/

namespace Pmdk.Sync

def PoolSet.mapOffset (set : PoolSet) (p : Nat) : Nat := if p = 0 then 0 else set.hdrsize

def PoolSet.headerEnd (set : PoolSet) (p : Nat) : Nat := if p = 0 then poolHdrSize else set.hdrsize

/-- The alignment of a part that is not a device is that of every mapping, and so is that of any
part but the first one if it has a header. Every replica is large enough for the pool. -/
structure PoolSet.Mapped (set : PoolSet) (size : Nat) : Prop where
  first : ∀ r, alignDown (set.part r 0).filesize (set.part r 0).alignment =
    alignDown (set.part r 0).filesize set.mmapAlign
  other : ∀ r p, 0 < p → set.singlehdr = false → (set.part r p).alignment = set.mmapAlign
  alignment_pos : ∀ r p, 0 < (set.part r p).alignment
  fits : ∀ r, r < set.nreplicas → size ≤ set.partOffset r (set.nparts r)

/-- A bad block as it is found: aligned, and its length is an `unsigned`. -/
structure Found (alignment : Nat) (bb : BadBlock) : Prop where
  unmerged : Unmerged bb
  offset_dvd : alignment ∣ bb.offset
  length_dvd : alignment ∣ bb.length
  length_lt : bb.length < 2 ^ 32

/-- What the check has found before the bad blocks are cleared: the pool size of the replicas that
can be read, and bad blocks that are sorted and disjoint and outside of the headers. -/
structure Health.Checked (set : PoolSet) (hs : Health) (size : Nat) : Prop where
  unmarked : ∀ r p, (hs.part r p).hasBadBlocks = false
  replica_unmarked : ∀ r, (hs.replica r).hasBadBlocks = false
  consistent : ∀ r, (hs.replica r).inconsistent = false
  poolSize : ∀ r, r < set.nreplicas → hs.isReplicaBroken set r = false →
    (hs.replica r).poolSize = size
  row : ∀ r p, r < set.nreplicas → p < set.nparts r →
    Row (Found (set.part r p).alignment) (set.headerEnd p) (hs.part r p).bbs
      (set.mapOffset p + set.partSize r p)

/-! ## Addresses -/

theorem alignDown_of_dvd {x a : Nat} (h : a ∣ x) : alignDown x a = x :=
  Nat.div_mul_cancel h

theorem alignUp_of_dvd {x a : Nat} (ha : 0 < a) (h : a ∣ x) : alignUp x a = x := by
  obtain ⟨k, rfl⟩ := h
  have : (a * k + a - 1) / a = k := by
    rw [Nat.add_sub_assoc ha, Nat.mul_add_div ha, Nat.div_eq_of_lt (Nat.sub_lt ha Nat.one_pos),
      Nat.add_zero]
  rw [alignUp, this, Nat.mul_comm]

theorem alignDown_sub (x a : Nat) : alignDown (x - a) a = alignDown x a - a := by
  rw [alignDown, alignDown]
  have h := Nat.sub_mul_div x a 1
  rw [Nat.mul_one] at h
  rw [h, Nat.sub_mul, Nat.one_mul]

section

variable {set : PoolSet} {hs : Health} {size r p q b : Nat} {bb : BadBlock}

theorem PoolSet.partOffset_mono (set : PoolSet) (r : Nat) (h : p ≤ q) :
    set.partOffset r p ≤ set.partOffset r q := by
  induction q with
  | zero => exact Nat.le_zero.mp h ▸ Nat.le_refl _
  | succ q ih =>
    rcases Nat.lt_or_eq_of_le h with hlt | rfl
    · exact Nat.le_trans (ih (Nat.lt_succ_iff.mp hlt)) (Nat.le_add_right _ _)
    · exact Nat.le_refl _

theorem PoolSet.partHas_iff : set.partHas r p b = true ↔
    set.partOffset r p ≤ b ∧ b < set.partOffset r (p + 1) := by
  rw [partHas, Bool.and_eq_true, decide_eq_true_iff, decide_eq_true_iff]
  exact Iff.rfl

theorem PoolSet.partHas_unique (hp : set.partHas r p b = true) (hq : set.partHas r q b = true) :
    p = q := by
  rw [partHas_iff] at hp hq
  rcases Nat.lt_trichotomy p q with hlt | heq | hlt
  · have := set.partOffset_mono r (Nat.succ_le_of_lt hlt)
    exact absurd hq.1 (Nat.not_le.mpr (Nat.lt_of_lt_of_le hp.2 this))
  · exact heq
  · have := set.partOffset_mono r (Nat.succ_le_of_lt hlt)
    exact absurd hp.1 (Nat.not_le.mpr (Nat.lt_of_lt_of_le hq.2 this))

theorem PoolSet.exists_partHas (h : b < set.partOffset r q) :
    ∃ p, p < q ∧ set.partHas r p b = true := by
  induction q with
  | zero => exact absurd h (Nat.not_lt_zero b)
  | succ q ih =>
    by_cases hb : b < set.partOffset r q
    · obtain ⟨p, hp, hhas⟩ := ih hb
      exact ⟨p, Nat.lt_succ_of_lt hp, hhas⟩
    · exact ⟨q, Nat.lt_succ_self q, partHas_iff.mpr ⟨Nat.not_lt.mp hb, h⟩⟩

theorem PoolSet.Mapped.data (h : set.Mapped size) (hb : poolHdrSize ≤ b) :
    set.partDataOffset r p ≤ b ∧ b < set.partDataOffset r p + set.partDataLen r p ↔
      set.partHas r p b = true := by
  rw [partHas_iff, partOffset, partDataOffset, partDataLen, partSize]
  by_cases hp : p = 0
  · subst hp
    rw [if_pos rfl, if_pos rfl, if_pos rfl, h.first, partOffset]
    omega
  · rw [if_neg hp, if_neg hp, if_neg hp]
    by_cases hs : set.singlehdr = true
    · rw [if_pos hs, hdrsize, if_pos hs, Nat.sub_zero, Nat.sub_zero]
    · rw [if_neg hs, hdrsize, if_neg hs,
        h.other r p (Nat.pos_of_ne_zero hp) (Bool.not_eq_true _ ▸ hs), alignDown_sub]

/-! ## Recalculated bad blocks -/

theorem PoolSet.Mapped.hdrsize_dvd (h : set.Mapped size) (hp : 0 < p) :
    (set.part r p).alignment ∣ set.hdrsize := by
  rw [hdrsize]
  split
  · exact Nat.dvd_zero _
  · rename_i hs
    exact h.other r p hp (Bool.not_eq_true _ ▸ hs) ▸ Nat.dvd_refl _

/-- A bad block outside of the header is moved to where its part is mapped. -/
theorem recalcBadblock_eq (h : set.Mapped size) (hfound : Found (set.part r p).alignment bb)
    (hlo : set.headerEnd p ≤ bb.offset) (hpos : 0 < bb.length) :
    Health.recalcBadblock set r p bb =
      ⟨set.partOffset r p + (bb.offset - set.mapOffset p), bb.length, bb.nhealthy⟩ := by
  have hmap : (set.part r p).alignment ∣ set.mapOffset p := by
    rw [PoolSet.mapOffset]
    split
    · exact Nat.dvd_zero _
    · exact h.hdrsize_dvd (Nat.pos_of_ne_zero ‹_›)
  have hdown := alignDown_of_dvd (Nat.dvd_sub hfound.offset_dvd hmap)
  have hup := alignUp_of_dvd (h.alignment_pos r p) hfound.length_dvd
  rw [Health.recalcBadblock]
  by_cases hp : p = 0
  · subst hp
    rw [PoolSet.mapOffset, if_pos rfl] at hdown ⊢
    rw [Nat.sub_zero] at hdown
    rw [if_neg (by omega : ¬(0 < 0 ∧ 0 < set.hdrsize))]
    dsimp only
    rw [hdown, Nat.sub_self, Nat.add_zero, hup, Nat.mod_eq_of_lt hfound.length_lt, Nat.sub_zero,
      PoolSet.partOffset, Nat.zero_add, ite_self]
  · rw [PoolSet.headerEnd, if_neg hp] at hlo
    rw [PoolSet.mapOffset, if_neg hp] at hdown ⊢
    rw [if_neg (by omega : ¬bb.length + bb.offset ≤ set.hdrsize), if_pos hlo]
    have hoff : (if 0 < p ∧ 0 < set.hdrsize then (bb.offset - set.hdrsize, bb.length)
        else (bb.offset, bb.length)) = (bb.offset - set.hdrsize, bb.length) := by
      split
      · rfl
      · rw [show set.hdrsize = 0 by omega, Nat.sub_zero]
    rw [hoff]
    dsimp only
    rw [hdown, Nat.sub_self, Nat.add_zero, hup, Nat.mod_eq_of_lt hfound.length_lt]

theorem Row.move {P Q : BadBlock → Prop} {f : BadBlock → BadBlock} {bbs : List BadBlock}
    {lo hi o m : Nat} (h : Row P lo bbs hi) (hm : m ≤ lo)
    (hf : ∀ bb, lo ≤ bb.offset → 0 < bb.length → P bb →
      f bb = ⟨o + (bb.offset - m), bb.length, bb.nhealthy⟩ ∧ Q (f bb)) :
    Row Q (o + (lo - m)) (bbs.map f) (o + (hi - m)) := by
  induction bbs generalizing lo with
  | nil =>
    have : lo ≤ hi := h
    rw [List.map_nil, Row]
    omega
  | cons bb bbs ih =>
    obtain ⟨hlo, hpos, hp, hrest⟩ := h
    obtain ⟨hf₀, hq⟩ := hf bb hlo hpos hp
    have hrec := ih hrest (by omega) fun bb' hlo' => hf bb' (by omega)
    rw [List.map_cons, Row]
    refine ⟨?_, ?_, hq, ?_⟩
    · rw [hf₀]
      dsimp only
      omega
    · rw [hf₀]
      exact hpos
    · have hend : o + (bb.offset + bb.length - m) = (f bb).offset + (f bb).length := by
        rw [hf₀]
        dsimp only
        omega
      exact hend ▸ hrec

end

end Pmdk.Sync
