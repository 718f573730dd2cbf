import Pmdk.Pool.HeadersFill

/-!
# Linking the headers again

The headers of the broken parts are created, and `update_uuids` goes over the two rings. Every UUID
that it writes is the right one, so a link that is right stays so, and after the turn of its replica
every link is right.
-/

namespace Pmdk.Sync

open List

variable {α : Type*} {machine : Machine α} {set : PoolSet} {hs : Health} {r p q t : Nat}
  {attr : PoolAttr} {uuids : Nat → α} {uuid : α} {ids : Nat → Nat → α} {h g : Headers α}

variable {f : PoolHdr α → PoolHdr α}

namespace Headers

structure Linking (machine : Machine α) (set : PoolSet) (attr : PoolAttr) (uuid : α)
    (ids : Nat → Nat → α) (g : Headers α) : Prop where
  poolset : g.uuid = uuid
  parts : g.partUuid = ids
  own : ∀ r p, set.Slot r p → (g.hdr r p).Own machine set attr uuid ids r p

def LinksOnly (machine : Machine α) (set : PoolSet) (attr : PoolAttr) (uuid : α)
    (ids : Nat → Nat → α) (f : PoolHdr α → PoolHdr α) : Prop :=
  ∀ r p hdr, PoolHdr.Own machine set attr uuid ids r p hdr →
    PoolHdr.Own machine set attr uuid ids r p ((f hdr).insertChecksum machine)

theorem updateHdr_hdr (g : Headers α) (r p : Nat) (f : PoolHdr α → PoolHdr α) (q t : Nat) :
    (g.updateHdr machine r p f).hdr q t =
      if q = r ∧ t = p then (f (g.hdr r p)).insertChecksum machine else g.hdr q t := by
  rw [updateHdr]
  split
  · rename_i heq
    rw [heq.1, heq.2, setHdr_self]
  · rename_i hne
    rw [setHdr_of_ne hne]

theorem Linking.updateHdr (hl : Linking machine set attr uuid ids g)
    (hf : LinksOnly machine set attr uuid ids f) :
    Linking machine set attr uuid ids (g.updateHdr machine r p f) := by
  refine ⟨hl.poolset, hl.parts, fun q t hslot => ?_⟩
  rw [updateHdr_hdr]
  split
  · rename_i heq
    obtain ⟨rfl, rfl⟩ := heq
    exact hf q t _ (hl.own q t hslot)
  · exact hl.own q t hslot

/-! ## One replica -/

theorem updateReplica_set {Q : PoolHdr α → Prop}
    (hset : ∀ hdr, Q ((f hdr).insertChecksum machine)) (hp : p < set.nhdrs r) :
    Q ((g.updateReplica machine set r f).hdr r p) := by
  rw [updateReplica]
  refine Transition.foldl_of_mem (f := fun (h : Headers α) p => h.updateHdr machine r p f)
    (I := fun _ => True) (Q := fun g => Q (g.hdr r p)) trivial (fun _ _ _ _ => trivial)
    (fun g _ => ?_) (fun g _ hq c _ => ?_) (mem_range.mpr hp)
  · rw [updateHdr_hdr, if_pos ⟨rfl, rfl⟩]
    exact hset _
  · rw [updateHdr_hdr]
    split
    · exact hset _
    · exact hq

theorem partLinks_updateHdr (h : (g.hdr q t).PartLinks set ids q t)
    (hprev : ∀ hdr, (f hdr).prevPartUuid = hdr.prevPartUuid)
    (hnext : ∀ hdr, (f hdr).nextPartUuid = hdr.nextPartUuid) :
    ((g.updateHdr machine r p f).hdr q t).PartLinks set ids q t := by
  rw [updateHdr_hdr]
  split
  · rename_i heq
    obtain ⟨rfl, rfl⟩ := heq
    exact ⟨(hprev _).trans h.prev, (hnext _).trans h.next⟩
  · exact h

theorem replLinks_updateHdr (h : (g.hdr q t).ReplLinks set ids q)
    (hprev : q = r → ∀ hdr : PoolHdr α, hdr.ReplLinks set ids q → (f hdr).ReplLinks set ids q) :
    ((g.updateHdr machine r p f).hdr q t).ReplLinks set ids q := by
  rw [updateHdr_hdr]
  split
  · rename_i heq
    obtain ⟨rfl, rfl⟩ := heq
    have hlinks := hprev rfl _ h
    exact ⟨hlinks.prev, hlinks.next⟩
  · exact h

structure Keeps (set : PoolSet) (ids : Nat → Nat → α) (g g' : Headers α) : Prop where
  parts : ∀ q t, (g.hdr q t).PartLinks set ids q t → (g'.hdr q t).PartLinks set ids q t
  repls : ∀ q t, (g.hdr q t).ReplLinks set ids q → (g'.hdr q t).ReplLinks set ids q

theorem Keeps.trans {g' g'' : Headers α} (h : Keeps set ids g g') (h' : Keeps set ids g' g'') :
    Keeps set ids g g'' :=
  ⟨fun q t hl => h'.parts q t (h.parts q t hl), fun q t hl => h'.repls q t (h.repls q t hl)⟩

theorem Linking.updateReplica
    (hl : Linking machine set attr uuid ids g) (hf : LinksOnly machine set attr uuid ids f)
    (hprev : ∀ hdr, (f hdr).prevPartUuid = hdr.prevPartUuid)
    (hnext : ∀ hdr, (f hdr).nextPartUuid = hdr.nextPartUuid)
    (hrepl : ∀ hdr : PoolHdr α, hdr.ReplLinks set ids r → (f hdr).ReplLinks set ids r) :
    Linking machine set attr uuid ids (g.updateReplica machine set r f) ∧
      Keeps set ids g (g.updateReplica machine set r f) := by
  rw [Headers.updateReplica]
  refine List.foldlRecOn (motive := fun g' : Headers α =>
    Linking machine set attr uuid ids g' ∧ Keeps set ids g g') _ _
    ⟨hl, fun _ _ h => h, fun _ _ h => h⟩ fun g' hg' p _ => ⟨hg'.1.updateHdr hf, hg'.2.trans ?_⟩
  exact ⟨fun q t h => partLinks_updateHdr h hprev hnext,
    fun q t h => replLinks_updateHdr h fun heq hdr hlinks => heq ▸ hrepl hdr (heq ▸ hlinks)⟩

/-! ## The ring of parts -/

theorem updateHdr_prevPart (g : Headers α) (r p : Nat) (f : PoolHdr α → PoolHdr α) (q t : Nat) :
    ((g.updateHdr machine r p f).hdr q t).prevPartUuid =
      if q = r ∧ t = p then (f (g.hdr r p)).prevPartUuid else (g.hdr q t).prevPartUuid := by
  rw [updateHdr_hdr, apply_ite PoolHdr.prevPartUuid]
  rfl

theorem updateHdr_nextPart (g : Headers α) (r p : Nat) (f : PoolHdr α → PoolHdr α) (q t : Nat) :
    ((g.updateHdr machine r p f).hdr q t).nextPartUuid =
      if q = r ∧ t = p then (f (g.hdr r p)).nextPartUuid else (g.hdr q t).nextPartUuid := by
  rw [updateHdr_hdr, apply_ite PoolHdr.nextPartUuid]
  rfl

section

variable (hl : Linking machine set attr uuid ids g)

include hl

theorem Linking.partLinkage (hslot : set.Slot r p) :
    let g' := g.updatePartLinkage machine set r p
    Linking machine set attr uuid ids g' ∧ Keeps set ids g g' ∧
      (g'.hdr r p).PartLinks set ids r p := by
  have hown : ∀ a b : α, LinksOnly machine set attr uuid ids
      fun hdr => { hdr with prevPartUuid := a, nextPartUuid := b } := fun a b r p hdr h =>
    ⟨h.signature, h.major, h.features, h.poolset, h.id, h.arch,
      PoolHdr.checkChecksum_insertChecksum _⟩
  have hprev : ∀ a : α, LinksOnly machine set attr uuid ids
      fun hdr => { hdr with prevPartUuid := a } := fun a r p hdr h =>
    ⟨h.signature, h.major, h.features, h.poolset, h.id, h.arch,
      PoolHdr.checkChecksum_insertChecksum _⟩
  have hnext : ∀ a : α, LinksOnly machine set attr uuid ids
      fun hdr => { hdr with nextPartUuid := a } := fun a r p hdr h =>
    ⟨h.signature, h.major, h.features, h.poolset, h.id, h.arch,
      PoolHdr.checkChecksum_insertChecksum _⟩
  -- the neighbours of the part differ from those of its header only if there is one header
  have hpartp : set.hdrn r p ≠ p → set.partp r p = set.hdrp r p := by
    intro hne
    have heq := set.hdrp_eq r p
    split at heq
    · rename_i hs
      have hp : p < 1 := by
        have := hslot.2
        rwa [PoolSet.nhdrs, if_pos hs] at this
      refine absurd ?_ hne
      rw [PoolSet.hdrn, PoolSet.nhdrs, if_pos hs, Nat.mod_one]
      omega
    · exact heq
  have hpartn : set.hdrp r p ≠ p → set.partn r p = set.hdrn r p := by
    intro hne
    have heq := set.hdrn_eq r p
    split at heq
    · rename_i hs
      have hp : p < 1 := by
        have := hslot.2
        rwa [PoolSet.nhdrs, if_pos hs] at this
      refine absurd ?_ hne
      rw [PoolSet.hdrp, PoolSet.nhdrs, if_pos hs, Nat.mod_one]
      omega
    · exact heq
  have hlinks : ∀ q t, q = r ∧ t = p ∨ (g.hdr q t).PartLinks set ids q t →
      ((g.updatePartLinkage machine set r p).hdr q t).PartLinks set ids q t := by
    intro q t hor
    rw [updatePartLinkage]
    constructor
    · rw [updateHdr_prevPart]
      split
      · rename_i heq
        obtain ⟨rfl, rfl⟩ := heq
        rw [hslot.hdrp_hdrn]
        exact congrFun (congrFun hl.parts q) p
      · rename_i hne
        rw [updateHdr_prevPart, ite_eq_right_iff.mpr fun heq => by rw [heq.1, heq.2],
          updateHdr_prevPart]
        split
        · rename_i heq
          obtain ⟨rfl, rfl⟩ := heq
          rw [← hpartp fun hc => hne ⟨rfl, hc.symm⟩]
          exact congrFun (congrFun hl.parts q) _
        · rename_i hne'
          exact (hor.resolve_left hne').prev
    · rw [updateHdr_nextPart, ite_eq_right_iff.mpr fun heq => by rw [heq.1, heq.2],
        updateHdr_nextPart]
      split
      · rename_i heq
        obtain ⟨rfl, rfl⟩ := heq
        rw [hslot.hdrn_hdrp]
        exact congrFun (congrFun hl.parts q) p
      · rename_i hne
        rw [updateHdr_nextPart]
        split
        · rename_i heq
          obtain ⟨rfl, rfl⟩ := heq
          rw [← hpartn fun hc => hne ⟨rfl, hc.symm⟩]
          exact congrFun (congrFun hl.parts q) _
        · rename_i hne'
          exact (hor.resolve_left hne').next
  refine ⟨((hl.updateHdr (hown _ _)).updateHdr (hnext _)).updateHdr (hprev _),
    ⟨fun q t h => hlinks q t (.inr h), fun q t h => ?_⟩, hlinks r p (.inl ⟨rfl, rfl⟩)⟩
  rw [updatePartLinkage]
  refine replLinks_updateHdr (replLinks_updateHdr (replLinks_updateHdr h ?_) ?_) ?_
  · exact fun _ hdr h => ⟨h.prev, h.next⟩
  · exact fun _ hdr h => ⟨h.prev, h.next⟩
  · exact fun _ hdr h => ⟨h.prev, h.next⟩

theorem Linking.partsLinkage (hr : r < set.nreplicas) :
    let g' := (List.range (set.nhdrs r)).foldl (fun h p => h.updatePartLinkage machine set r p) g
    Linking machine set attr uuid ids g' ∧ Keeps set ids g g' ∧
      ∀ p, set.Slot r p → (g'.hdr r p).PartLinks set ids r p := by
  intro g'
  have hrun : Linking machine set attr uuid ids g' ∧ Keeps set ids g g' :=
    List.foldlRecOn (motive := fun g' : Headers α =>
      Linking machine set attr uuid ids g' ∧ Keeps set ids g g') _ _
      ⟨hl, fun _ _ h => h, fun _ _ h => h⟩ fun g' hg' p hp => by
        obtain ⟨hl', hkeeps, -⟩ := hg'.1.partLinkage ⟨hr, mem_range.mp hp⟩
        exact ⟨hl', hg'.2.trans hkeeps⟩
  refine ⟨hrun.1, hrun.2, fun p hslot => ?_⟩
  refine Transition.foldl_of_mem (f := fun h p => h.updatePartLinkage machine set r p)
    (I := Linking machine set attr uuid ids)
    (Q := fun g => (g.hdr r p).PartLinks set ids r p) hl (fun g hg p hp => ?_) (fun g hg => ?_)
    (fun g hg hq p' hp' => ?_) (mem_range.mpr hslot.2)
  · exact (hg.partLinkage ⟨hr, mem_range.mp hp⟩).1
  · exact (hg.partLinkage hslot).2.2
  · exact (hg.partLinkage ⟨hr, mem_range.mp hp'⟩).2.1.parts r p hq

/-! ## The ring of replicas -/

theorem Linking.replicasLinkage (hr : r < set.nreplicas) :
    let g' := g.updateReplicasLinkage machine set r
    Linking machine set attr uuid ids g' ∧ Keeps set ids g g' ∧
      ∀ p, set.Slot r p → (g'.hdr r p).ReplLinks set ids r := by
  intro g'
  have hown : ∀ a b : α, LinksOnly machine set attr uuid ids
      fun hdr => { hdr with prevReplUuid := a, nextReplUuid := b } := fun a b r p hdr h =>
    ⟨h.signature, h.major, h.features, h.poolset, h.id, h.arch,
      PoolHdr.checkChecksum_insertChecksum _⟩
  have hprev : ∀ a : α, LinksOnly machine set attr uuid ids
      fun hdr => { hdr with prevReplUuid := a } := fun a r p hdr h =>
    ⟨h.signature, h.major, h.features, h.poolset, h.id, h.arch,
      PoolHdr.checkChecksum_insertChecksum _⟩
  have hnext : ∀ a : α, LinksOnly machine set attr uuid ids
      fun hdr => { hdr with nextReplUuid := a } := fun a r p hdr h =>
    ⟨h.signature, h.major, h.features, h.poolset, h.id, h.arch,
      PoolHdr.checkChecksum_insertChecksum _⟩
  obtain ⟨hl₁, hkeeps₁⟩ := hl.updateReplica (r := r) (hown (ids (set.repp r) 0)
    (ids (set.repn r) 0)) (fun _ => rfl) (fun _ => rfl) fun hdr _ => ⟨rfl, rfl⟩
  obtain ⟨hl₂, hkeeps₂⟩ := hl₁.updateReplica (r := set.repp r) (hnext (ids r 0)) (fun _ => rfl)
    (fun _ => rfl) fun hdr h => ⟨h.prev, by rw [PoolSet.repn_repp hr]⟩
  obtain ⟨hl₃, hkeeps₃⟩ := hl₂.updateReplica (r := set.repn r) (hprev (ids r 0)) (fun _ => rfl)
    (fun _ => rfl) fun hdr h => ⟨by rw [PoolSet.repp_repn hr], h.next⟩
  have hset : ∀ p, set.Slot r p → ((g.updateReplica machine set r fun hdr => { hdr with
      prevReplUuid := ids (set.repp r) 0
      nextReplUuid := ids (set.repn r) 0 }).hdr r p).ReplLinks set ids r := fun p hslot =>
    updateReplica_set (Q := PoolHdr.ReplLinks set ids r) (fun _ => ⟨rfl, rfl⟩) hslot.2
  have heq : g' = ((g.updateReplica machine set r fun hdr => { hdr with
      prevReplUuid := ids (set.repp r) 0
      nextReplUuid := ids (set.repn r) 0 }).updateReplica machine set (set.repp r) fun hdr =>
        { hdr with nextReplUuid := ids r 0 }).updateReplica machine set (set.repn r) fun hdr =>
          { hdr with prevReplUuid := ids r 0 } := by
    change g.updateReplicasLinkage machine set r = _
    rw [updateReplicasLinkage, hl.parts, hl₁.parts, hl₂.parts]
  rw [heq]
  exact ⟨hl₃, (hkeeps₁.trans hkeeps₂).trans hkeeps₃, fun p hslot =>
    hkeeps₃.repls r p (hkeeps₂.repls r p (hset p hslot))⟩

theorem Linking.poolsetUuids :
    Linking machine set attr uuid ids (g.updatePoolsetUuids machine set r) ∧
      Keeps set ids g (g.updatePoolsetUuids machine set r) := by
  refine hl.updateReplica (fun r p hdr h => ?_) (fun _ => rfl) (fun _ => rfl)
    fun hdr h => ⟨h.prev, h.next⟩
  exact ⟨h.signature, h.major, h.features, hl.poolset, h.id, h.arch,
    PoolHdr.checkChecksum_insertChecksum _⟩

/-! ## All replicas -/

theorem Linking.turn (hr : r < set.nreplicas) :
    let g' := g.updateUuids machine set hs r
    Linking machine set attr uuid ids g' ∧ Keeps set ids g g' ∧
      ∀ p, set.Slot r p → (g'.hdr r p).ReplLinks set ids r ∧
        (hs.isReplicaHealthy set r = false → (g'.hdr r p).PartLinks set ids r p) := by
  intro g'
  have hparts : ∃ g₁, (if hs.isReplicaHealthy set r = true then g
        else (List.range (set.nhdrs r)).foldl
          (fun h p => h.updatePartLinkage machine set r p) g) = g₁ ∧
      Linking machine set attr uuid ids g₁ ∧ Keeps set ids g g₁ ∧
        (hs.isReplicaHealthy set r = false → ∀ p, set.Slot r p →
          (g₁.hdr r p).PartLinks set ids r p) := by
    by_cases hhealthy : hs.isReplicaHealthy set r = true
    · exact ⟨g, if_pos hhealthy, hl, ⟨fun _ _ h => h, fun _ _ h => h⟩, fun hc =>
        absurd (hc.symm.trans hhealthy) Bool.false_ne_true⟩
    · obtain ⟨hl₁, hkeeps₁, hset⟩ := hl.partsLinkage hr
      exact ⟨_, if_neg hhealthy, hl₁, hkeeps₁, fun _ => hset⟩
  obtain ⟨g₁, heq, hl₁, hkeeps₁, hparts⟩ := hparts
  obtain ⟨hl₂, hkeeps₂, hrepls⟩ := hl₁.replicasLinkage hr
  obtain ⟨hl₃, hkeeps₃⟩ := hl₂.poolsetUuids (r := r)
  have hg' : g' = (g₁.updateReplicasLinkage machine set r).updatePoolsetUuids machine set r := by
    change g.updateUuids machine set hs r = _
    rw [updateUuids, heq]
  rw [hg']
  refine ⟨hl₃, (hkeeps₁.trans hkeeps₂).trans hkeeps₃, fun p hslot =>
    ⟨hkeeps₃.repls r p (hrepls p hslot), fun hhealthy => ?_⟩⟩
  exact hkeeps₃.parts r p (hkeeps₂.parts r p (hparts hhealthy p hslot))

/-- After all turns the headers are right, if those of healthy replicas were linked right. -/
theorem Linking.right
    (hhealthy : ∀ r p, set.Slot r p → hs.isReplicaHealthy set r = true →
      (g.hdr r p).PartLinks set ids r p) :
    ((List.range set.nreplicas).foldl (fun h r => h.updateUuids machine set hs r) g).Right machine
      set attr uuid ids := by
  have hrun : ∀ {Q : Headers α → Prop} {r : Nat}, r < set.nreplicas →
      (∀ g, Linking machine set attr uuid ids g → Q (g.updateUuids machine set hs r)) →
      (∀ g g', Keeps set ids g g' → Q g → Q g') →
      Q ((List.range set.nreplicas).foldl (fun h r => h.updateUuids machine set hs r) g) := by
    intro Q r hr hset hkeep
    exact Transition.foldl_of_mem (f := fun h r => h.updateUuids machine set hs r)
      (I := Linking machine set attr uuid ids) hl
      (fun g hg r hr => (hg.turn (mem_range.mp hr)).1) hset
      (fun g hg hq r hr => hkeep g _ (hg.turn (mem_range.mp hr)).2.1 hq)
      (mem_range.mpr hr)
  have hdone : Linking machine set attr uuid ids
      ((List.range set.nreplicas).foldl (fun h r => h.updateUuids machine set hs r) g) ∧
      Keeps set ids g
        ((List.range set.nreplicas).foldl (fun h r => h.updateUuids machine set hs r) g) :=
    List.foldlRecOn (motive := fun g' : Headers α =>
      Linking machine set attr uuid ids g' ∧ Keeps set ids g g') _ _
      ⟨hl, fun _ _ h => h, fun _ _ h => h⟩ fun g' hg' r hr => by
        have hturn : Linking machine set attr uuid ids (g'.updateUuids machine set hs r) ∧
            Keeps set ids g' (g'.updateUuids machine set hs r) ∧ _ :=
          hg'.1.turn (mem_range.mp hr)
        exact ⟨hturn.1, hg'.2.trans hturn.2.1⟩
  refine ⟨hdone.1.own, fun r p hslot => ?_, fun r p hslot => ?_⟩
  · by_cases hr : hs.isReplicaHealthy set r = true
    · exact hdone.2.parts r p (hhealthy r p hslot hr)
    · exact hrun hslot.1 (fun g hg => ((hg.turn hslot.1).2.2 p hslot).2 (Bool.not_eq_true _ ▸ hr))
        fun g g' hkeep hq => hkeep.parts r p hq
  · exact hrun hslot.1 (fun g hg => ((hg.turn hslot.1).2.2 p hslot).1)
      fun g g' hkeep hq => hkeep.repls r p hq

end

end Headers

end Pmdk.Sync
