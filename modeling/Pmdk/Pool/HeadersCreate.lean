import Mathlib.Data.List.Nodup
import Pmdk.Lib.Run
import Pmdk.Pool.Headers

/-!
# Headers of a new pool set

The parts get different UUIDs, as none is generated twice, and every header is linked to its
neighbours in both rings.
-/

namespace Pmdk.Sync

open Function List

variable {α : Type*} {machine : Machine α} {set : PoolSet} {r p : Nat}

def PoolSet.Populated (set : PoolSet) : Prop := ∀ r, 0 < set.nparts r

/-! ## The rings of replicas and parts -/

def PoolSet.Slot (set : PoolSet) (r p : Nat) : Prop := r < set.nreplicas ∧ p < set.nhdrs r

theorem PoolSet.mem_slots {s : Nat × Nat} : s ∈ set.slots ↔ set.Slot s.1 s.2 := by
  simp only [slots, mem_flatMap, mem_range, mem_map]
  constructor
  · rintro ⟨r, hr, p, hp, rfl⟩
    exact ⟨hr, hp⟩
  · rintro ⟨hr, hp⟩
    exact ⟨s.1, hr, s.2, hp, rfl⟩

theorem PoolSet.slots_nodup (set : PoolSet) : set.slots.Nodup := by
  refine nodup_flatMap.mpr ⟨fun r _ => ?_, ?_⟩
  · exact nodup_range.map fun p q h => (Prod.mk.inj h).2
  · refine nodup_range.imp fun {r r'} hne s hs hs' => ?_
    obtain ⟨p, -, rfl⟩ := mem_map.mp hs
    obtain ⟨q, -, heq⟩ := mem_map.mp hs'
    exact hne (Prod.mk.inj heq).1.symm

theorem PoolSet.slots_sorted (set : PoolSet) : set.slots.Pairwise fun s t => s.1 ≤ t.1 := by
  refine pairwise_flatMap.mpr ⟨fun r _ => ?_, ?_⟩
  · refine pairwise_map.mpr (pairwise_of_forall fun p q => Nat.le_refl r)
  · refine pairwise_lt_range.imp fun {r r'} hlt s hs t ht => ?_
    obtain ⟨p, -, rfl⟩ := mem_map.mp hs
    obtain ⟨q, -, rfl⟩ := mem_map.mp ht
    exact Nat.le_of_lt hlt

theorem PoolSet.Populated.nhdrs_pos (h : set.Populated) (r : Nat) : 0 < set.nhdrs r := by
  rw [nhdrs]
  split
  · exact Nat.one_pos
  · exact h r

theorem PoolSet.Populated.hdrn_lt (h : set.Populated) : set.hdrn r p < set.nhdrs r :=
  Nat.mod_lt _ (h.nhdrs_pos r)

theorem PoolSet.Populated.hdrp_lt (h : set.Populated) : set.hdrp r p < set.nhdrs r :=
  Nat.mod_lt _ (h.nhdrs_pos r)

theorem mod_pred_succ {n i : Nat} (hi : i < n) : (n + (n + i - 1) % n + 1) % n = i := by
  rcases Nat.eq_zero_or_pos i with rfl | hpos
  · have : (n + 0 - 1) % n = n - 1 := Nat.mod_eq_of_lt (by omega)
    rw [this, show n + (n - 1) + 1 = n + n by omega, Nat.add_mod_left, Nat.mod_self]
  · have : (n + i - 1) % n = i - 1 := by
      rw [show n + i - 1 = n + (i - 1) by omega, Nat.add_mod_left, Nat.mod_eq_of_lt (by omega)]
    rw [this, show n + (i - 1) + 1 = n + i by omega, Nat.add_mod_left, Nat.mod_eq_of_lt hi]

theorem mod_succ_pred {n i : Nat} (hi : i < n) : (n + (n + i + 1) % n - 1) % n = i := by
  rcases Nat.lt_or_ge (i + 1) n with hlt | hge
  · have : (n + i + 1) % n = i + 1 := by
      rw [Nat.add_assoc, Nat.add_mod_left, Nat.mod_eq_of_lt hlt]
    rw [this, show n + (i + 1) - 1 = n + i by omega, Nat.add_mod_left, Nat.mod_eq_of_lt hi]
  · have : (n + i + 1) % n = 0 := by
      rw [show n + i + 1 = n + n by omega, Nat.add_mod_left, Nat.mod_self]
    rw [this, Nat.add_zero, Nat.mod_eq_of_lt (by omega)]
    omega

theorem PoolSet.Slot.hdrn_hdrp (h : set.Slot r p) : set.hdrn r (set.hdrp r p) = p :=
  mod_pred_succ h.2

theorem PoolSet.Slot.hdrp_hdrn (h : set.Slot r p) : set.hdrp r (set.hdrn r p) = p :=
  mod_succ_pred h.2

theorem PoolSet.repn_repp (h : r < set.nreplicas) : set.repn (set.repp r) = r :=
  mod_pred_succ h

theorem PoolSet.repp_repn (h : r < set.nreplicas) : set.repp (set.repn r) = r :=
  mod_succ_pred h

theorem PoolSet.repn_lt (h : r < set.nreplicas) : set.repn r < set.nreplicas :=
  Nat.mod_lt _ (Nat.lt_of_le_of_lt (Nat.zero_le r) h)

theorem PoolSet.repp_lt (h : r < set.nreplicas) : set.repp r < set.nreplicas :=
  Nat.mod_lt _ (Nat.lt_of_le_of_lt (Nat.zero_le r) h)

theorem PoolSet.hdrp_eq (set : PoolSet) (r p : Nat) :
    (if set.singlehdr = true then 0 else set.partp r p) = set.hdrp r p := by
  rw [hdrp, nhdrs]
  split
  · exact (Nat.mod_one _).symm
  · rfl

theorem PoolSet.hdrn_eq (set : PoolSet) (r p : Nat) :
    (if set.singlehdr = true then 0 else set.partn r p) = set.hdrn r p := by
  rw [hdrn, nhdrs]
  split
  · exact (Nat.mod_one _).symm
  · rfl

/-! ## Right headers -/

def PoolAttr.hdrFeatures (attr : PoolAttr) (set : PoolSet) : Features :=
  { attr.features with
    incompat := if set.singlehdr then attr.features.incompat ||| poolFeatSinglehdr
      else attr.features.incompat }

/-- All of a header but the links; `ids` are the UUIDs of the parts. -/
structure PoolHdr.Own (machine : Machine α) (set : PoolSet) (attr : PoolAttr) (uuid : α)
    (ids : Nat → Nat → α) (r p : Nat) (hdr : PoolHdr α) : Prop where
  signature : hdr.signature = attr.signature
  major : hdr.major = attr.major
  features : hdr.features = attr.hdrFeatures set
  poolset : hdr.poolsetUuid = uuid
  id : hdr.uuid = ids r p
  arch : hdr.archFlags = machine.archFlags
  checksum : hdr.checkChecksum machine = true

structure PoolHdr.PartLinks (set : PoolSet) (ids : Nat → Nat → α) (r p : Nat) (hdr : PoolHdr α) :
    Prop where
  prev : hdr.prevPartUuid = ids r (set.hdrp r p)
  next : hdr.nextPartUuid = ids r (set.hdrn r p)

structure PoolHdr.ReplLinks (set : PoolSet) (ids : Nat → Nat → α) (r : Nat) (hdr : PoolHdr α) :
    Prop where
  prev : hdr.prevReplUuid = ids (set.repp r) 0
  next : hdr.nextReplUuid = ids (set.repn r) 0

def Distinct (set : PoolSet) (ids : Nat → Nat → α) : Prop :=
  ∀ r p q t, set.Slot r p → set.Slot q t → ids r p = ids q t → r = q ∧ p = t

structure Headers.Right (machine : Machine α) (set : PoolSet) (attr : PoolAttr) (uuid : α)
    (ids : Nat → Nat → α) (h : Headers α) : Prop where
  own : ∀ r p, set.Slot r p → (h.hdr r p).Own machine set attr uuid ids r p
  parts : ∀ r p, set.Slot r p → (h.hdr r p).PartLinks set ids r p
  repls : ∀ r p, set.Slot r p → (h.hdr r p).ReplLinks set ids r

@[simp] theorem PoolHdr.checkChecksum_insertChecksum (hdr : PoolHdr α) :
    (hdr.insertChecksum machine).checkChecksum machine = true :=
  beq_self_eq_true _

namespace Headers

variable {h : Headers α} {attr : PoolAttr} {uuids : Nat → α} {hdr : PoolHdr α} {uuid : α}
  {q t : Nat}

theorem setHdr_self : (h.setHdr r p hdr).hdr r p = hdr := by
  rw [setHdr]
  dsimp only
  rw [update_self, update_self]

theorem setHdr_of_ne (hne : ¬(q = r ∧ t = p)) : (h.setHdr r p hdr).hdr q t = h.hdr q t := by
  rw [setHdr]
  dsimp only
  by_cases hq : q = r
  · subst hq
    rw [update_self, update_of_ne fun ht => hne ⟨rfl, ht⟩]
  · rw [update_of_ne hq]

theorem setUuid_self : (h.setUuid r p uuid).partUuid r p = uuid := by
  rw [setUuid]
  dsimp only
  rw [update_self, update_self]

theorem setUuid_of_ne (hne : ¬(q = r ∧ t = p)) :
    (h.setUuid r p uuid).partUuid q t = h.partUuid q t := by
  rw [setUuid]
  dsimp only
  by_cases hq : q = r
  · subst hq
    rw [update_self, update_of_ne fun ht => hne ⟨rfl, ht⟩]
  · rw [update_of_ne hq]

/-! ## Creation -/

theorem create_self : (h.create machine set attr r p).hdr r p = PoolHdr.insertChecksum machine
    { signature := attr.signature
      major := attr.major
      features := attr.hdrFeatures set
      poolsetUuid := h.uuid
      uuid := h.partUuid r p
      prevPartUuid := h.partUuid r (set.hdrp r p)
      nextPartUuid := h.partUuid r (set.hdrn r p)
      prevReplUuid := h.partUuid (set.repp r) 0
      nextReplUuid := h.partUuid (set.repn r) 0
      crtime := machine.ctime r p
      archFlags := machine.archFlags
      checksum := 0 } := by
  rw [create, setHdr_self, ← set.hdrp_eq r p, ← set.hdrn_eq r p, apply_ite (h.partUuid r),
    apply_ite (h.partUuid r)]
  rfl

theorem create_right :
    ((h.create machine set attr r p).hdr r p).Own machine set attr h.uuid h.partUuid r p ∧
      ((h.create machine set attr r p).hdr r p).PartLinks set h.partUuid r p ∧
      ((h.create machine set attr r p).hdr r p).ReplLinks set h.partUuid r := by
  rw [create_self]
  exact ⟨⟨rfl, rfl, rfl, rfl, rfl, rfl, PoolHdr.checkChecksum_insertChecksum _⟩, ⟨rfl, rfl⟩,
    ⟨rfl, rfl⟩⟩

theorem generate_foldl (huuids : Function.Injective uuids) {l : List (Nat × Nat)} (hl : l.Nodup) :
    let h' := l.foldl (fun h s => h.generate uuids s.1 s.2) h
    h'.uuid = h.uuid ∧ h.generated ≤ h'.generated ∧
      (∀ s ∈ l, ∃ k, h.generated ≤ k ∧ k < h'.generated ∧ h'.partUuid s.1 s.2 = uuids k) ∧
      (∀ s, s ∉ l → h'.partUuid s.1 s.2 = h.partUuid s.1 s.2) ∧
      ∀ s ∈ l, ∀ s' ∈ l, h'.partUuid s.1 s.2 = h'.partUuid s'.1 s'.2 → s = s' := by
  induction l generalizing h with
  | nil =>
    exact ⟨rfl, Nat.le_refl _, fun s hs => absurd hs not_mem_nil, fun _ _ => rfl,
      fun s hs => absurd hs not_mem_nil⟩
  | cons c l ih =>
    obtain ⟨hnot, hl⟩ := nodup_cons.mp hl
    obtain ⟨huuid, hle, hids, hothers, hdistinct⟩ := ih (h := h.generate uuids c.1 c.2) hl
    have hgen : (h.generate uuids c.1 c.2).generated = h.generated + 1 := rfl
    rw [hgen] at hle hids
    have hc := hothers c hnot
    have hself : (h.generate uuids c.1 c.2).partUuid c.1 c.2 = uuids h.generated := setUuid_self
    rw [hself] at hc
    have hne : ∀ s ∈ l, (l.foldl (fun h s => h.generate uuids s.1 s.2)
        (h.generate uuids c.1 c.2)).partUuid s.1 s.2 ≠ uuids h.generated := by
      intro s hs heq
      obtain ⟨k, hk, -, hval⟩ := hids s hs
      have := huuids (hval.symm.trans heq)
      omega
    refine ⟨huuid, by rw [foldl_cons]; omega, fun s hs => ?_, fun s hs => ?_,
      fun s hs s' hs' heq => ?_⟩
    · rcases mem_cons.mp hs with rfl | hs
      · exact ⟨h.generated, Nat.le_refl _, hle, hc⟩
      · obtain ⟨k, hk, hk', hval⟩ := hids s hs
        exact ⟨k, by omega, hk', hval⟩
    · rw [mem_cons, not_or] at hs
      refine (hothers s hs.2).trans (setUuid_of_ne fun heq => hs.1 (Prod.ext heq.1 heq.2))
    · rw [foldl_cons] at heq
      rcases mem_cons.mp hs with rfl | hmem <;> rcases mem_cons.mp hs' with rfl | hmem'
      · rfl
      · exact absurd (heq.symm.trans hc) (hne s' hmem')
      · exact absurd (heq.trans hc) (hne s hmem)
      · exact hdistinct s hmem s' hmem' heq

theorem create_foldl (machine : Machine α) (set : PoolSet) (attr : PoolAttr) (h : Headers α)
    {l : List (Nat × Nat)} {s : Nat × Nat} (hs : s ∈ l) :
    let h' := l.foldl (fun h s => h.create machine set attr s.1 s.2) h
    (h'.hdr s.1 s.2).Own machine set attr h.uuid h.partUuid s.1 s.2 ∧
      (h'.hdr s.1 s.2).PartLinks set h.partUuid s.1 s.2 ∧
      (h'.hdr s.1 s.2).ReplLinks set h.partUuid s.1 := by
  refine Transition.foldl_of_mem (f := fun h c => h.create machine set attr c.1 c.2)
    (I := fun g : Headers α => g.uuid = h.uuid ∧ g.partUuid = h.partUuid)
    (Q := fun g => (g.hdr s.1 s.2).Own machine set attr h.uuid h.partUuid s.1 s.2 ∧
      (g.hdr s.1 s.2).PartLinks set h.partUuid s.1 s.2 ∧
      (g.hdr s.1 s.2).ReplLinks set h.partUuid s.1) ⟨rfl, rfl⟩
    (fun g hg _ _ => hg) (fun g hg => ?_) (fun g hg hright c _ => ?_) hs
  · obtain ⟨huuid, hids⟩ := hg
    exact huuid ▸ hids ▸ create_right
  · by_cases hc : s.1 = c.1 ∧ s.2 = c.2
    · obtain ⟨huuid, hids⟩ := hg
      rw [hc.1, hc.2]
      exact huuid ▸ hids ▸ create_right
    · have hother : (g.create machine set attr c.1 c.2).hdr s.1 s.2 = g.hdr s.1 s.2 :=
        setHdr_of_ne hc
      rw [hother]
      exact hright

theorem create_foldl_ids (machine : Machine α) (set : PoolSet) (attr : PoolAttr) (h : Headers α)
    (l : List (Nat × Nat)) :
    let h' := l.foldl (fun h s => h.create machine set attr s.1 s.2) h
    h'.uuid = h.uuid ∧ h'.partUuid = h.partUuid ∧ h'.generated = h.generated := by
  intro h'
  exact List.foldlRecOn (motive := fun g : Headers α =>
    g.uuid = h.uuid ∧ g.partUuid = h.partUuid ∧ g.generated = h.generated) l _ ⟨rfl, rfl, rfl⟩
    fun _ hg _ _ => hg

theorem poolCreateUuids_links (machine : Machine α) (set : PoolSet) (uuids : Nat → α)
    (attr : PoolAttr) (h : Headers α) :
    let h' := h.poolCreateUuids machine set uuids attr
    h'.Right machine set attr h'.uuid h'.partUuid := by
  intro h'
  let filled := set.slots.foldl (fun h s => h.generate uuids s.1 s.2)
    { h with uuid := uuids h.generated, generated := h.generated + 1 }
  obtain ⟨huuid, hpart, -⟩ := create_foldl_ids machine set attr filled set.slots
  have hcreate := fun r p (hs : set.Slot r p) => create_foldl machine set attr filled
    (PoolSet.mem_slots (s := (r, p)).mpr hs)
  refine ⟨fun r p hs => ?_, fun r p hs => ?_, fun r p hs => ?_⟩
  · exact huuid ▸ hpart ▸ (hcreate r p hs).1
  · exact hpart ▸ (hcreate r p hs).2.1
  · exact hpart ▸ (hcreate r p hs).2.2

/-- A new pool set has the right headers, its parts have different UUIDs, and none of these is
generated again. -/
theorem poolCreateUuids_right (machine : Machine α) (set : PoolSet) (attr : PoolAttr)
    (h : Headers α) (huuids : Function.Injective uuids) :
    let h' := h.poolCreateUuids machine set uuids attr
    h'.Right machine set attr h'.uuid h'.partUuid ∧ Distinct set h'.partUuid ∧
      ∀ r p k, set.Slot r p → h'.generated ≤ k → h'.partUuid r p ≠ uuids k := by
  intro h'
  obtain ⟨-, -, hids, -, hdistinct⟩ := generate_foldl (l := set.slots) huuids
    (h := { h with uuid := uuids h.generated, generated := h.generated + 1 }) set.slots_nodup
  obtain ⟨-, hpart, hgen⟩ := create_foldl_ids machine set attr
    (set.slots.foldl (fun h s => h.generate uuids s.1 s.2)
      { h with uuid := uuids h.generated, generated := h.generated + 1 }) set.slots
  refine ⟨poolCreateUuids_links machine set uuids attr h, fun r p q t hs hs' heq => ?_,
    fun r p k hs hk heq => ?_⟩
  · have heq' := hdistinct (r, p) (PoolSet.mem_slots.mpr hs) (q, t) (PoolSet.mem_slots.mpr hs')
      (hpart ▸ heq)
    exact ⟨(Prod.mk.inj heq').1, (Prod.mk.inj heq').2⟩
  · obtain ⟨j, -, hj, hval⟩ := hids (r, p) (PoolSet.mem_slots.mpr hs)
    have hjk := huuids (hval.symm.trans ((congrFun (congrFun hpart r) p).symm.trans heq))
    have hle := hgen ▸ hk
    omega

end Headers

end Pmdk.Sync
