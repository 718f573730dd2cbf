import Pmdk.Pool.BadBlocksOverlap
import Pmdk.Pool.SyncParts

/-!
# The healthy replicas of the bad blocks

After the broken parts have been recreated only the bad blocks of the other parts are left (`Lost`).
They are merged and then cut into pieces, and each piece is to be fixed with the first replica in
which it is not lost.
-/

namespace Pmdk.Sync

open List

variable {set : PoolSet} {hs cur : Health} {size r p b : Nat} {bb : BadBlock}

def Health.Lost (set : PoolSet) (hs : Health) (r b : Nat) : Prop :=
  hs.badAt set r b = true ∧ hs.brokenAt set r b = false

def Health.recalculated (set : PoolSet) (hs : Health) (mem : Data) : Health :=
  ((hs.badblocksClear set mem).1.recreateBrokenParts set mem).1.recalcBadblocks set

variable {mem : Data}

theorem Health.Checked.marked (h : hs.Checked set size) (mem : Data) (r p : Nat) :
    ((hs.recalculated set mem).part r p).hasBadBlocks =
      (!hs.isPartBroken r p && !(hs.part r p).bbs.isEmpty) := by
  have hmark : ((hs.badblocksClear set mem).1.part r p).hasBadBlocks =
      !(hs.part r p).bbs.isEmpty := by
    simp [badblocksClear, h.unmarked r p]
  have hbroken : (hs.badblocksClear set mem).1.isPartBroken r p = hs.isPartBroken r p := rfl
  rw [recalculated, recalcBadblocks]
  dsimp only
  rw [apply_ite PartHealth.hasBadBlocks, ite_self, recreateBrokenParts]
  dsimp only
  rw [hbroken, apply_ite PartHealth.hasBadBlocks, hmark]
  cases hs.isPartBroken r p with
  | false => rfl
  | true => rfl

theorem Health.Checked.marked_bbs (h : hs.Checked set size)
    (hmark : ((hs.recalculated set mem).part r p).hasBadBlocks = true) :
    ((hs.recalculated set mem).part r p).bbs = (hs.part r p).bbs.map (recalcBadblock set r p) := by
  have hbroken : (hs.badblocksClear set mem).1.isPartBroken r p = false := by
    have := h.marked mem r p ▸ hmark
    rw [Bool.and_eq_true, Bool.not_eq_true'] at this
    exact this.1
  rw [recalculated, recalcBadblocks] at hmark ⊢
  dsimp only at hmark ⊢
  rw [apply_ite PartHealth.hasBadBlocks, ite_self] at hmark
  rw [if_pos hmark, recreateBrokenParts]
  dsimp only
  rw [hbroken]
  rfl

theorem Health.Checked.row_part (h : hs.Checked set size) (hm : set.Mapped size)
    (hr : r < set.nreplicas) (hp : p < set.nparts r) :
    Row Unmerged (set.partOffset r p) ((hs.part r p).bbs.map (recalcBadblock set r p))
      (set.partOffset r (p + 1)) := by
  have hle : set.mapOffset p ≤ set.headerEnd p := by
    rw [PoolSet.mapOffset, PoolSet.headerEnd]
    split
    · exact Nat.zero_le _
    · exact Nat.le_refl _
  have hmove := (h.row r p hr hp).move (Q := Unmerged) (o := set.partOffset r p)
    (f := recalcBadblock set r p) hle fun bb hlo hpos hfound => by
      have heq := recalcBadblock_eq hm hfound hlo hpos
      refine ⟨heq, ?_⟩
      rw [heq]
      exact hfound.unmerged
  have hend : set.partOffset r p + (set.mapOffset p + set.partSize r p - set.mapOffset p) =
      set.partOffset r (p + 1) := by
    rw [PoolSet.partOffset]
    omega
  exact hend ▸ hmove.mono_lo (Nat.le_add_right _ _)

theorem Health.Checked.covers_part (h : hs.Checked set size) (hm : set.Mapped size)
    (hr : r < set.nreplicas) (hp : p < set.nparts r) :
    Covers ((hs.part r p).bbs.map (recalcBadblock set r p)) b ↔
      set.partHas r p b = true ∧ ((hs.part r p).bbs.any fun bb =>
        bb.offset ≤ b - set.partOffset r p + (if p = 0 then 0 else set.hdrsize) &&
          b - set.partOffset r p + (if p = 0 then 0 else set.hdrsize) < bb.offset + bb.length) =
        true := by
  have hle : set.mapOffset p ≤ set.headerEnd p := by
    rw [PoolSet.mapOffset, PoolSet.headerEnd]
    split
    · exact Nat.zero_le _
    · exact Nat.le_refl _
  have hin : ∀ bb ∈ (hs.part r p).bbs,
      ((recalcBadblock set r p bb).Has b ↔ set.partOffset r p ≤ b ∧
        bb.Has (b - set.partOffset r p + set.mapOffset p)) := by
    intro bb hbb
    obtain ⟨hlo, hpos, hfound, -⟩ := (h.row r p hr hp).mem hbb
    rw [recalcBadblock_eq hm hfound hlo hpos, BadBlock.Has, BadBlock.Has]
    dsimp only
    omega
  simp only [any_eq_true, Bool.and_eq_true, decide_eq_true_iff]
  constructor
  · intro hcov
    have hb := (h.row_part hm hr hp).covers hcov
    obtain ⟨_, hmem, hhas⟩ := hcov
    obtain ⟨bb, hbb, rfl⟩ := mem_map.mp hmem
    exact ⟨PoolSet.partHas_iff.mpr hb, bb, hbb, ((hin bb hbb).mp hhas).2⟩
  · rintro ⟨hhas, bb, hbb, hb⟩
    exact ⟨_, mem_map_of_mem hbb, (hin bb hbb).mpr ⟨(PoolSet.partHas_iff.mp hhas).1, hb⟩⟩

theorem Health.brokenAt_iff : hs.brokenAt set r b = true ↔
    ∃ p, p < set.nparts r ∧ hs.isPartBroken r p = true ∧ set.partHas r p b = true := by
  simp only [brokenAt, any_eq_true, mem_range, Bool.and_eq_true]

theorem Health.Checked.bad_iff (h : hs.Checked set size) (hm : set.Mapped size) (mem : Data)
    (hr : r < set.nreplicas) :
    Bad ((hs.recalculated set mem).blocks set) r b ↔ hs.Lost set r b := by
  rw [Bad, covers_blocks hr, Lost, badAt, any_eq_true]
  constructor
  · rintro ⟨p, hp, hmark, hcov⟩
    have hmark' := h.marked mem r p ▸ hmark
    rw [Bool.and_eq_true, Bool.not_eq_true'] at hmark'
    obtain ⟨hhas, hany⟩ := (h.covers_part hm hr hp).mp (h.marked_bbs hmark ▸ hcov)
    refine ⟨⟨p, mem_range.mpr hp, Bool.and_eq_true_iff.mpr ⟨hhas, hany⟩⟩, ?_⟩
    refine Bool.eq_false_iff.mpr fun hbroken => ?_
    obtain ⟨q, -, hq, hhas'⟩ := brokenAt_iff.mp hbroken
    rw [PoolSet.partHas_unique hhas' hhas, hmark'.1] at hq
    exact Bool.false_ne_true hq
  · rintro ⟨⟨p, hp, hat⟩, hbroken⟩
    obtain ⟨hhas, hany⟩ := Bool.and_eq_true_iff.mp hat
    have hp := mem_range.mp hp
    have hpart : hs.isPartBroken r p = false := by
      refine Bool.eq_false_iff.mpr fun hpart => ?_
      rw [brokenAt_iff.mpr ⟨p, hp, hpart, hhas⟩] at hbroken
      exact Bool.false_ne_true hbroken.symm
    have hne : (hs.part r p).bbs.isEmpty = false := by
      refine Bool.eq_false_iff.mpr fun hempty => ?_
      rw [List.isEmpty_iff.mp hempty] at hany
      exact Bool.false_ne_true hany
    have hmark : ((hs.recalculated set mem).part r p).hasBadBlocks = true := by
      rw [h.marked, hpart, hne]
      rfl
    exact ⟨p, hp, hmark, h.marked_bbs hmark ▸ (h.covers_part hm hr hp).mpr ⟨hhas, hany⟩⟩

/-! ## The analysis of the overlaps -/

theorem Health.Checked.replica_marked (h : hs.Checked set size) (hp : p < set.nparts r)
    (hmark : ((hs.recalculated set mem).part r p).hasBadBlocks = true) :
    ((hs.recalculated set mem).replica r).hasBadBlocks = true := by
  have hne := h.marked mem r p ▸ hmark
  rw [Bool.and_eq_true] at hne
  have hany : ((List.range (set.nparts r)).any fun p => !(hs.part r p).bbs.isEmpty) = true :=
    any_eq_true.mpr ⟨p, mem_range.mpr hp, hne.2⟩
  change ((hs.replica r).hasBadBlocks || (List.range (set.nparts r)).any _) = true
  rw [hany, Bool.or_true]

/-- Bad blocks that are in the mappings of their parts are divided by the offsets of the parts. -/
theorem Health.exists_allDivided
    (hrow : ∀ r p, r < set.nreplicas → p < set.nparts r → (hs.part r p).hasBadBlocks = true →
      Row Unmerged (set.partOffset r p) (hs.part r p).bbs (set.partOffset r (p + 1)))
    (hmark : ∀ r p, r < set.nreplicas → p < set.nparts r → (hs.part r p).hasBadBlocks = true →
      (hs.replica r).hasBadBlocks = true) :
    ∃ hi, hs.AllDivided set hi set.partOffset :=
  ⟨(Finset.range set.nreplicas).sup fun g => set.partOffset g (set.nparts g),
    fun r hr => ⟨fun p => set.partOffset_mono r (Nat.le_succ p),
      Finset.le_sup (f := fun g => set.partOffset g (set.nparts g)) (Finset.mem_range.mpr hr),
      fun p hp => hrow r p hr hp⟩, hmark⟩

theorem Health.Checked.divided (h : hs.Checked set size) (hm : set.Mapped size) (mem : Data) :
    ∃ hi, (hs.recalculated set mem).AllDivided set hi set.partOffset :=
  exists_allDivided (fun _ _ hr hp hmark => h.marked_bbs hmark ▸ h.row_part hm hr hp)
    fun _ _ _ hp hmark => h.replica_marked hp hmark

theorem Health.Checked.overlap (h : hs.Checked set size) (hm : set.Mapped size)
    (hcheck : (hs.recalculated set mem).checkBadBlocksOverlap set = some (some cur)) :
    Assigned set ((hs.recalculated set mem).blocks set) set.nreplicas (hs.recalculated set mem)
      set.nreplicas cur := by
  obtain ⟨hi, hdiv⟩ := h.divided hm mem
  exact hdiv.assigned hcheck

end Pmdk.Sync
