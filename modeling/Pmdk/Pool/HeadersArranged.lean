import Pmdk.Lib.Ring
import Pmdk.Pool.HeadersSync

/-!
# Which arrangements of the parts are accepted

The part files of a new pool set are described again, in any order and in any replicas.
-/

namespace Pmdk.Sync

variable {α : Type*} {machine : Machine α} {set set' : PoolSet} {arr : Nat → Nat → Nat × Nat}
  {attr known : PoolAttr} {uuid : α} {ids : Nat → Nat → α} {g : Headers α}

/-- The described parts are created ones, none of them used twice: `arr i j` is the replica and the
part that part `j` of replica `i` was created as. -/
structure Arranges (set set' : PoolSet) (arr : Nat → Nat → Nat × Nat) : Prop where
  nreplicas_pos : 0 < set'.nreplicas
  slot : ∀ i j, set'.Slot i j → set.Slot (arr i j).1 (arr i j).2
  once : ∀ i j i' j', set'.Slot i j → set'.Slot i' j' → arr i j = arr i' j' → i = i' ∧ j = j'

structure Rotated (set set' : PoolSet) (arr : Nat → Nat → Nat × Nat) (k : Nat) : Prop where
  nreplicas : set'.nreplicas = set.nreplicas
  nparts : ∀ i, i < set.nreplicas → set'.nparts i = set.nparts ((i + k) % set.nreplicas)
  part : ∀ i j, i < set.nreplicas → j < set'.nparts i → arr i j = ((i + k) % set.nreplicas, j)

def Headers.arranged (g : Headers α) (arr : Nat → Nat → Nat × Nat) : Headers α :=
  { g with hdr := fun i j => g.hdr (arr i j).1 (arr i j).2 }

/-! ## From the check to a rotation -/

variable {i : Nat}

section Check

variable [DecidableEq α]

theorem Headers.hdrn_of_headerCheck {j : Nat} (h : g.headerCheck machine set known i j = true) :
    (g.hdr i (set.hdrn i j)).uuid = (g.hdr i j).nextPartUuid := by
  rw [Headers.headerCheck] at h
  simp only [Bool.and_eq_true, beq_iff_eq] at h
  exact h.1.1.1.2

theorem Headers.hdrn_of_replicaCheck (h : g.replicaCheck machine set known = true) {j : Nat}
    (hs : set.Slot i j) : (g.hdr i (set.hdrn i j)).uuid = (g.hdr i j).nextPartUuid := by
  rw [Headers.replicaCheck, List.all_eq_true] at h
  have hi := h i (List.mem_range.mpr hs.1)
  rw [Bool.and_eq_true, Bool.and_eq_true, List.all_eq_true] at hi
  exact Headers.hdrn_of_headerCheck (hi.1.1 j (List.mem_range.mpr hs.2))

theorem Headers.repn_of_replicaCheck (h : g.replicaCheck machine set known = true)
    (hi : i < set.nreplicas) : (g.hdr (set.repn i) 0).uuid = (g.hdr i 0).nextReplUuid := by
  rw [Headers.replicaCheck, List.all_eq_true] at h
  have hi := h i (List.mem_range.mpr hi)
  rw [Bool.and_eq_true, beq_iff_eq] at hi
  exact hi.2

variable (hg : g.Right machine set attr uuid ids) (hdistinct : Distinct set ids)
  (hpop : set.Populated) (hpop' : set'.Populated) (harr : Arranges set set' arr)
  (hcheck : (g.arranged arr).replicaCheck machine set' known = true)
include hg hdistinct hpop hpop' harr hcheck

/-- In a replica that is accepted a part is followed by the one that it was created before. -/
theorem Headers.Right.arr_hdrn {j : Nat} (hs : set'.Slot i j) :
    arr i (set'.hdrn i j) = ((arr i j).1, set.hdrn (arr i j).1 (arr i j).2) := by
  have hnext : set'.Slot i (set'.hdrn i j) := ⟨hs.1, hpop'.hdrn_lt⟩
  have hslot := harr.slot i j hs
  have huuid := Headers.hdrn_of_replicaCheck hcheck hs
  have hid := (hg.own _ _ (harr.slot _ _ hnext)).id
  rw [Headers.arranged] at huuid
  dsimp only at huuid
  rw [hid, (hg.parts _ _ hslot).next] at huuid
  obtain ⟨hr, hp⟩ := hdistinct _ _ _ _ (harr.slot _ _ hnext) ⟨hslot.1, hpop.hdrn_lt⟩ huuid
  exact Prod.ext hr hp

/-- The first part of a replica is followed by that of the replica that was created next. -/
theorem Headers.Right.arr_repn (hi : i < set'.nreplicas) :
    arr (set'.repn i) 0 = (set.repn (arr i 0).1, 0) := by
  have hs : set'.Slot i 0 := ⟨hi, hpop'.nhdrs_pos i⟩
  have hnext : set'.Slot (set'.repn i) 0 := ⟨PoolSet.repn_lt hi, hpop'.nhdrs_pos _⟩
  have hslot := harr.slot i 0 hs
  have huuid := Headers.repn_of_replicaCheck hcheck hi
  have hid := (hg.own _ _ (harr.slot _ _ hnext)).id
  rw [Headers.arranged] at huuid
  dsimp only at huuid
  rw [hid, (hg.repls _ _ hslot).next] at huuid
  obtain ⟨hr, hp⟩ := hdistinct _ _ _ _ (harr.slot _ _ hnext)
    ⟨PoolSet.repn_lt hslot.1, hpop.nhdrs_pos _⟩ huuid
  exact Prod.ext hr hp

theorem Headers.Right.arr_zero (hi : i < set'.nreplicas) : (arr i 0).2 = 0 := by
  have hnext := hg.arr_repn hdistinct hpop hpop' harr hcheck (PoolSet.repp_lt hi)
  rw [PoolSet.repn_repp hi] at hnext
  rw [hnext]

theorem Headers.Right.arr_parts (hi : i < set'.nreplicas) :
    set'.nhdrs i = set.nhdrs (arr i 0).1 ∧ ∀ j, j < set'.nhdrs i → arr i j = ((arr i 0).1, j) := by
  have hslot : ∀ j, j < set'.nhdrs i → set'.Slot i j := fun j hj => ⟨hi, hj⟩
  have hpos := hpop'.nhdrs_pos i
  have hreplica : ∀ j, j < set'.nhdrs i → (arr i j).1 = (arr i 0).1 := by
    intro j hj
    induction j with
    | zero => rfl
    | succ j ih =>
      have hlt := Nat.lt_of_succ_lt hj
      have hnext := hg.arr_hdrn hdistinct hpop hpop' harr hcheck (hslot j hlt)
      have hsucc : set'.hdrn i j = j + 1 := Cyclic.next_of_lt hj
      rw [hsucc] at hnext
      rw [hnext]
      exact ih hlt
  have hfirst := harr.slot i 0 (hslot 0 hpos)
  have hnext : ∀ j, j < set'.nhdrs i →
      (arr i (set'.hdrn i j)).2 = set.hdrn (arr i 0).1 (arr i j).2 := by
    intro j hj
    rw [hg.arr_hdrn hdistinct hpop hpop' harr hcheck (hslot j hj), hreplica j hj]
  have hinj : ∀ j, j < set'.nhdrs i → ∀ j', j' < set'.nhdrs i → (arr i j).2 = (arr i j').2 →
      j = j' := by
    intro j hj j' hj' heq
    refine (harr.once i j i j' (hslot j hj) (hslot j' hj') (Prod.ext ?_ heq)).2
    rw [hreplica j hj, hreplica j' hj']
  obtain ⟨hcount, hwalk⟩ := Cyclic.rotation (f := fun j => (arr i j).2) hpos hfirst.2 hnext hinj
  refine ⟨hcount, fun j hj => Prod.ext (hreplica j hj) ?_⟩
  rw [hwalk j hj, hg.arr_zero hdistinct hpop hpop' harr hcheck hi, Nat.add_zero,
    Nat.mod_eq_of_lt (hcount ▸ hj)]

theorem Headers.Right.rotated (hs : set.singlehdr = false) (hs' : set'.singlehdr = false) :
    ∃ k, Rotated set set' arr k := by
  have hslot : ∀ i, i < set'.nreplicas → set'.Slot i 0 := fun i hi => ⟨hi, hpop'.nhdrs_pos i⟩
  have hzero := fun i hi => hg.arr_zero hdistinct hpop hpop' harr hcheck (i := i) hi
  have hparts := fun i hi => hg.arr_parts hdistinct hpop hpop' harr hcheck (i := i) hi
  have hnhdrs : ∀ r, set.nhdrs r = set.nparts r :=
    fun r => if_neg (by rw [hs]; exact Bool.false_ne_true)
  have hnhdrs' : ∀ r, set'.nhdrs r = set'.nparts r :=
    fun r => if_neg (by rw [hs']; exact Bool.false_ne_true)
  have hnext : ∀ i, i < set'.nreplicas → (arr (set'.repn i) 0).1 = set.repn (arr i 0).1 :=
    fun i hi => congrArg Prod.fst (hg.arr_repn hdistinct hpop hpop' harr hcheck hi)
  have hinj : ∀ i, i < set'.nreplicas → ∀ i', i' < set'.nreplicas →
      (arr i 0).1 = (arr i' 0).1 → i = i' := by
    intro i hi i' hi' heq
    refine (harr.once i 0 i' 0 (hslot i hi) (hslot i' hi') (Prod.ext heq ?_)).1
    rw [hzero i hi, hzero i' hi']
  obtain ⟨hcount, hwalk⟩ := Cyclic.rotation (f := fun i => (arr i 0).1) harr.nreplicas_pos
    (harr.slot 0 0 (hslot 0 harr.nreplicas_pos)).1 hnext hinj
  refine ⟨(arr 0 0).1, hcount, fun i hi => ?_, fun i j hi hj => ?_⟩
  · have hi' := hcount ▸ hi
    rw [← hnhdrs', ← hnhdrs, ← hwalk i hi']
    exact (hparts i hi').1
  · have hi' := hcount ▸ hi
    rw [(hparts i hi').2 j (hnhdrs' i ▸ hj), ← hwalk i hi']

end Check

/-! ## From a rotation to the check -/

theorem Headers.Right.arranged (hg : g.Right machine set attr uuid ids) (hs : set.singlehdr = false)
    (hs' : set'.singlehdr = false) {k : Nat} (hrot : Rotated set set' arr k) :
    (g.arranged arr).Right machine set' attr uuid fun i j => ids ((i + k) % set.nreplicas) j := by
  have hfeatures : attr.hdrFeatures set' = attr.hdrFeatures set := by
    rw [PoolAttr.hdrFeatures, PoolAttr.hdrFeatures, hs, hs']
  have hnhdrs' : ∀ r, set'.nhdrs r = set'.nparts r :=
    fun r => if_neg (by rw [hs']; exact Bool.false_ne_true)
  have hnhdrs : ∀ i, i < set.nreplicas → set'.nhdrs i = set.nhdrs ((i + k) % set.nreplicas) := by
    intro i hi
    rw [hnhdrs', hrot.nparts i hi, PoolSet.nhdrs, if_neg (by rw [hs]; exact Bool.false_ne_true)]
  have hold : ∀ i j, set'.Slot i j → set.Slot ((i + k) % set.nreplicas) j ∧
      (g.arranged arr).hdr i j = g.hdr ((i + k) % set.nreplicas) j := by
    intro i j hslot
    have hi : i < set.nreplicas := hrot.nreplicas ▸ hslot.1
    refine ⟨⟨Nat.mod_lt _ (Nat.zero_lt_of_lt hi), hnhdrs i hi ▸ hslot.2⟩, ?_⟩
    have hpart := hrot.part i j hi (hnhdrs' i ▸ hslot.2)
    show g.hdr (arr i j).1 (arr i j).2 = _
    rw [hpart]
  refine ⟨fun i j hslot => ?_, fun i j hslot => ?_, fun i j hslot => ?_⟩
  · obtain ⟨hslot', heq⟩ := hold i j hslot
    have hown := hg.own _ _ hslot'
    rw [heq]
    exact ⟨hown.signature, hown.major, hown.features.trans hfeatures.symm, hown.poolset, hown.id,
      hown.arch, hown.checksum⟩
  · obtain ⟨hslot', heq⟩ := hold i j hslot
    have hi : i < set.nreplicas := hrot.nreplicas ▸ hslot.1
    have hlinks := hg.parts _ _ hslot'
    rw [heq]
    refine ⟨hlinks.prev.trans ?_, hlinks.next.trans ?_⟩
    · rw [PoolSet.hdrp, PoolSet.hdrp, hnhdrs i hi]
    · rw [PoolSet.hdrn, PoolSet.hdrn, hnhdrs i hi]
  · obtain ⟨hslot', heq⟩ := hold i j hslot
    have hi : i < set.nreplicas := hrot.nreplicas ▸ hslot.1
    have hlinks := hg.repls _ _ hslot'
    rw [heq]
    refine ⟨hlinks.prev.trans ?_, hlinks.next.trans ?_⟩
    · have hprev := Cyclic.prev_add_mod hi k
      rw [Cyclic.prev, Cyclic.prev] at hprev
      rw [PoolSet.repp, PoolSet.repp, hrot.nreplicas, hprev]
    · have hnext := Cyclic.next_add_mod (n := set.nreplicas) i k
      rw [Cyclic.next, Cyclic.next] at hnext
      rw [PoolSet.repn, PoolSet.repn, hrot.nreplicas, hnext]

/-! ## The check of an arrangement -/

/-- `util_replica_check` accepts an arrangement of the parts of a new pool set if and only if it is
a rotation of the replicas as they were created. -/
theorem Headers.replicaCheck_arranged_iff [DecidableEq α] {uuids : Nat → α} {start : Headers α}
    (hs : set.singlehdr = false) (hs' : set'.singlehdr = false) (hpop : set.Populated)
    (hpop' : set'.Populated) (hopens : attr.Opens set known)
    (hdistinct : Distinct set (start.poolCreateUuids machine set uuids attr).partUuid)
    (harr : Arranges set set' arr) :
    ((start.poolCreateUuids machine set uuids attr).arranged arr).replicaCheck machine set'
      known = true ↔ ∃ k, Rotated set set' arr k := by
  have hg := Headers.poolCreateUuids_links machine set uuids attr start
  constructor
  · intro hcheck
    exact hg.rotated hdistinct hpop hpop' harr hcheck hs hs'
  · rintro ⟨k, hrot⟩
    have hfeatures : attr.hdrFeatures set' = attr.hdrFeatures set := by
      rw [PoolAttr.hdrFeatures, PoolAttr.hdrFeatures, hs, hs']
    refine (hg.arranged hs hs' hrot).replicaCheck ?_ hpop'
    exact ⟨hopens.signature, hopens.major, hopens.major_pos, hfeatures ▸ hopens.features,
      fun _ => hopens.singlehdr hs⟩

/-- Two replicas are accepted in the other order. -/
theorem replicaCheck_arranged_swapped :
    (newReplicas.arranged fun i j => ((i + 1) % 2, j)).replicaCheck sumMachine twoReplicas
      objAttr = true := by
  have hslot : ∀ i j, twoReplicas.Slot i j → twoReplicas.Slot ((i + 1) % 2) j :=
    fun i j hs => ⟨Nat.mod_lt _ Nat.two_pos, hs.2⟩
  have honce : ∀ i j i' j', twoReplicas.Slot i j → twoReplicas.Slot i' j' →
      ((i + 1) % 2, j) = ((i' + 1) % 2, j') → i = i' ∧ j = j' := by
    intro i j i' j' hs hs' heq
    obtain ⟨hi, hj⟩ := Prod.mk.inj heq
    have hlt : i < 2 := hs.1
    have hlt' : i' < 2 := hs'.1
    exact ⟨by omega, hj⟩
  obtain ⟨-, hdistinct, -⟩ := Headers.poolCreateUuids_right sumMachine twoReplicas objAttr
    { uuid := 0
      partUuid := fun _ _ => 0
      hdr := fun _ _ => ⟨.obj, 0, ⟨0, 0, 0⟩, 0, 0, 0, 0, 0, 0, 0, 0, 0⟩
      generated := 0 } Function.injective_id
  refine (Headers.replicaCheck_arranged_iff rfl rfl (fun _ => Nat.succ_pos 1)
    (fun _ => Nat.succ_pos 1) ⟨rfl, rfl, Nat.succ_pos 4, by decide, fun _ => by decide⟩
    hdistinct ⟨Nat.two_pos, hslot, honce⟩).mpr ?_
  exact ⟨1, rfl, fun _ _ => rfl, fun _ _ _ _ => rfl⟩

end Pmdk.Sync
