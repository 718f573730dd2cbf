import Pmdk.Pool.HeadersLink
import Pmdk.Pool.SyncData

/-!
# A synchronized pool set is consistent

Any part files of a new pool set may be missing, as long as one replica is complete. After
`replica_sync` the headers are right again with the old UUIDs of the parts that were there, so the
replicas are accepted, and their data is that of the replica that was the source.
-/

namespace Pmdk.Sync

open List

variable {α : Type*} {machine : Machine α} {set : PoolSet} {hs : Health} {r p q t : Nat}
  {attr known : PoolAttr} {uuids : Nat → α} {uuid : α} {ids : Nat → Nat → α} {h g : Headers α}

/-! ## Checks -/

structure PoolAttr.Opens (set : PoolSet) (attr known : PoolAttr) : Prop where
  signature : known.signature = attr.signature
  major : known.major = attr.major
  major_pos : 0 < attr.major
  features : (attr.hdrFeatures set).incompat &&& ~~~known.features.incompat = 0
  singlehdr : set.singlehdr = false → attr.features.incompat &&& poolFeatSinglehdr = 0

theorem or_singlehdr (x : UInt32) : (x ||| poolFeatSinglehdr) &&& poolFeatSinglehdr = 1 := by
  rw [← UInt32.toBitVec_inj]
  ext i hi
  simp only [poolFeatSinglehdr, UInt32.toBitVec_and, UInt32.toBitVec_or, BitVec.getElem_and,
    BitVec.getElem_or]
  cases (UInt32.toBitVec 1)[i] with
  | true => rw [Bool.or_true, Bool.and_self]
  | false => rw [Bool.and_false]

theorem PoolAttr.Opens.options (h : attr.Opens set known) :
    Headers.checkHeaderOptions set (attr.hdrFeatures set).incompat = true := by
  rw [Headers.checkHeaderOptions, hdrFeatures]
  dsimp only
  cases hs : set.singlehdr with
  | true =>
    rw [if_pos rfl, or_singlehdr]
    rfl
  | false =>
    rw [if_neg Bool.false_ne_true, h.singlehdr hs]
    rfl

namespace Headers

variable [DecidableEq α]

theorem Right.replicaCheck (h : g.Right machine set attr uuid ids) (hopens : attr.Opens set known)
    (hpop : set.Populated) : g.replicaCheck machine set known = true := by
  rw [Headers.replicaCheck, all_eq_true]
  intro r hr
  have hr := mem_range.mp hr
  have hfirst : ∀ r, r < set.nreplicas → set.Slot r 0 := fun r hr => ⟨hr, hpop.nhdrs_pos r⟩
  have hpool := h.own 0 0 (hfirst 0 (Nat.lt_of_le_of_lt (Nat.zero_le r) hr))
  have hown := h.own r 0 (hfirst r hr)
  have hrepl := h.repls r 0 (hfirst r hr)
  rw [Bool.and_eq_true, Bool.and_eq_true, all_eq_true, beq_iff_eq, beq_iff_eq, hrepl.prev,
    hrepl.next, (h.own _ 0 (hfirst _ (PoolSet.repp_lt hr))).id,
    (h.own _ 0 (hfirst _ (PoolSet.repn_lt hr))).id]
  refine ⟨⟨fun p hp => ?_, rfl⟩, rfl⟩
  have hslot : set.Slot r p := ⟨hr, mem_range.mp hp⟩
  have hp := h.own r p hslot
  have hparts := h.parts r p hslot
  rw [headerCheck]
  simp only [Bool.and_eq_true, bne_iff_ne, beq_iff_eq, hp.signature, hp.major, hp.features,
    hp.checksum, hp.arch, hp.poolset, hpool.poolset, hparts.prev, hparts.next, hown.major,
    hown.features, (h.own r _ ⟨hr, hpop.hdrp_lt⟩).id, (h.own r _ ⟨hr, hpop.hdrn_lt⟩).id,
    hopens.signature, hopens.major, hopens.features, hopens.options, and_true]
  exact Nat.pos_iff_ne_zero.mp hopens.major_pos

end Headers

/-! ## Headers of broken parts -/

structure Health.Missing (set : PoolSet) (missing : Nat → Nat → Bool) (hs : Health) : Prop where
  broken : ∀ r p, r < set.nreplicas → p < set.nparts r → hs.isPartBroken r p = missing r p
  replica : ∀ r, (hs.replica r).broken = false
  consistent : ∀ r, (hs.replica r).inconsistent = false
  replicaBlocks : ∀ r, (hs.replica r).hasBadBlocks = false
  corrupted : ∀ r p, (hs.part r p).hasCorruptedHeader = false
  marked : ∀ r p, (hs.part r p).hasBadBlocks = false
  blocks : ∀ r p, (hs.part r p).bbs = []

namespace Headers

theorem hdr2attr_hdrFeatures {hdr : PoolHdr α} (h : hdr.Own machine set attr uuid ids r p) :
    (hdr2attr hdr).hdrFeatures set = attr.hdrFeatures set := by
  rw [hdr2attr, PoolAttr.hdrFeatures, h.features, PoolAttr.hdrFeatures]
  cases set.singlehdr with
  | true => simp only [if_true, UInt32.or_assoc, UInt32.or_self]
  | false => rfl

theorem own_hdr2attr {hdr hdr' : PoolHdr α} (h : hdr.Own machine set attr uuid ids q t)
    {ids' : Nat → Nat → α} (h' : hdr'.Own machine set (hdr2attr hdr) uuid ids' r p) :
    hdr'.Own machine set attr uuid ids' r p :=
  ⟨h'.signature.trans h.signature, h'.major.trans h.major,
    h'.features.trans (hdr2attr_hdrFeatures h), h'.poolset, h'.id, h'.arch, h'.checksum⟩

theorem nhdrs_le (hpop : set.Populated) : set.nhdrs r ≤ set.nparts r := by
  rw [PoolSet.nhdrs]
  split
  · exact hpop r
  · exact Nat.le_refl _

variable {missing : Nat → Nat → Bool}

theorem createForBrokenPart_eq (hm : hs.Missing set missing)
    (hpop : set.Populated) (hslot : set.Slot r p) (hdr : PoolHdr α) :
    g.createForBrokenPart machine set hs hdr r p =
      if missing r p then g.create machine set (hdr2attr hdr) r p else g := by
  have hp : p < set.nparts r := Nat.lt_of_lt_of_le hslot.2 (nhdrs_le hpop)
  rw [createForBrokenPart, hm.replicaBlocks, hm.corrupted, hm.broken r p hslot.1 hp]
  cases hmissing : missing r p with
  | true =>
    have hbroken : hs.isReplicaBroken set r = true := by
      rw [Health.isReplicaBroken, Bool.or_eq_true, any_eq_true]
      exact .inr ⟨p, mem_range.mpr hp, (hm.broken r p hslot.1 hp).trans hmissing⟩
    rw [hbroken]
    rfl
  | false => cases hs.isReplicaBroken set r <;> rfl

/-- After the broken headers are created, all headers are right but for links, and those that were
created have the right links as well. -/
theorem Filled.create (hm : hs.Missing set missing)
    (hpop : set.Populated) (hd : h.Damaged machine set hs attr uuids uuid ids)
    (hf : Filled set hs uuids uuid ids h set.slots g) {src : Nat} (hsrc : set.Slot src 0)
    (hunbroken : hs.isPartBroken src 0 = false) :
    let g' := set.slots.foldl (fun g' s =>
      g'.createForBrokenPart machine set hs (g.hdr src 0) s.1 s.2) g
    Linking machine set attr uuid g.partUuid g' ∧ g'.generated = g.generated ∧
      ∀ r p, set.Slot r p → missing r p = false → g'.hdr r p = g.hdr r p := by
  intro g'
  have hown := hf.hdr ▸ hd.own src 0 hsrc hunbroken
  have hstep : ∀ (k : Headers α) (c : Nat × Nat), c ∈ set.slots →
      k.createForBrokenPart machine set hs (g.hdr src 0) c.1 c.2 =
        if missing c.1 c.2 then k.create machine set (hdr2attr (g.hdr src 0)) c.1 c.2 else k :=
    fun k c hc => createForBrokenPart_eq hm hpop (PoolSet.mem_slots.mp hc) _
  have hsame : g'.uuid = g.uuid ∧ g'.partUuid = g.partUuid ∧ g'.generated = g.generated ∧
      ∀ r p, set.Slot r p → missing r p = false → g'.hdr r p = g.hdr r p := by
    refine List.foldlRecOn (motive := fun k : Headers α => k.uuid = g.uuid ∧
      k.partUuid = g.partUuid ∧ k.generated = g.generated ∧
      ∀ r p, set.Slot r p → missing r p = false → k.hdr r p = g.hdr r p) _ _
      ⟨rfl, rfl, rfl, fun _ _ _ _ => rfl⟩ fun k hk c hc => ?_
    rw [hstep k c hc]
    split
    · rename_i hmissing
      refine ⟨hk.1, hk.2.1, hk.2.2.1, fun r p hslot hnot => ?_⟩
      have hother : (k.create machine set (hdr2attr (g.hdr src 0)) c.1 c.2).hdr r p = k.hdr r p :=
        setHdr_of_ne fun heq => by
          rw [heq.1, heq.2, hmissing] at hnot
          exact Bool.false_ne_true hnot.symm
      exact hother.trans (hk.2.2.2 r p hslot hnot)
    · exact hk
  refine ⟨⟨hsame.1.trans hf.uuid, hsame.2.1, fun r p hslot => ?_⟩, hsame.2.2⟩
  cases hmissing : missing r p with
  | true =>
    refine Transition.foldl_of_mem (c := (r, p)) (f := fun (k : Headers α) (c : Nat × Nat) =>
        k.createForBrokenPart machine set hs (g.hdr src 0) c.1 c.2)
      (I := fun k : Headers α => k.uuid = uuid ∧ k.partUuid = g.partUuid)
      (Q := fun k => (k.hdr r p).Own machine set attr uuid g.partUuid r p)
      ⟨hf.uuid, rfl⟩ (fun k hk c hc => ?_) (fun k hk => ?_) (fun k hk hq c hc => ?_)
      (PoolSet.mem_slots.mpr hslot)
    · rw [hstep k c hc]
      split
      · exact hk
      · exact hk
    · rw [hstep k (r, p) (PoolSet.mem_slots.mpr hslot)]
      dsimp only
      rw [hmissing, if_pos rfl]
      exact own_hdr2attr hown (hk.1 ▸ hk.2 ▸ create_right.1)
    · rw [hstep k c hc]
      split
      · by_cases heq : r = c.1 ∧ p = c.2
        · rw [heq.1, heq.2]
          exact own_hdr2attr hown (hk.1 ▸ hk.2 ▸ create_right.1)
        · have hother : (k.create machine set (hdr2attr (g.hdr src 0)) c.1 c.2).hdr r p =
              k.hdr r p := setHdr_of_ne heq
          exact hother ▸ hq
      · exact hq
  | false =>
    have hp : p < set.nparts r := Nat.lt_of_lt_of_le hslot.2 (nhdrs_le hpop)
    have hpart := (hm.broken r p hslot.1 hp).trans hmissing
    have hold := hd.own r p hslot hpart
    rw [hsame.2.2.2 r p hslot hmissing, hf.hdr]
    exact ⟨hold.signature, hold.major, hold.features, hold.poolset,
      hold.id.trans (hf.unbroken r p hslot hpart).symm, hold.arch, hold.checksum⟩

/-! ## The whole run -/

variable [DecidableEq α]

theorem unbroken_of_healthy (hpop : set.Populated) (h : hs.isReplicaHealthy set r = true)
    (hp : p < set.nhdrs r) : hs.isPartBroken r p = false := by
  have hbroken := Health.not_broken_of_healthy h
  rw [Health.isReplicaBroken, Bool.or_eq_false_iff, any_eq_false] at hbroken
  exact Bool.not_eq_true _ ▸
    hbroken.2 p (mem_range.mpr (Nat.lt_of_lt_of_le hp (nhdrs_le hpop)))

/-- The headers are right after `replica_sync`, which does not fail; the parts that were there have
the UUIDs that they had, and all UUIDs are different. -/
theorem Damaged.sync (huuids : Function.Injective uuids)
    (hpop : set.Populated) (hm : hs.Missing set missing)
    (hd : h.Damaged machine set hs attr uuids uuid ids) {whole : Nat}
    (hwhole : whole < set.nreplicas) (hhealthy : hs.isReplicaHealthy set whole = true) :
    ∃ g ids', h.replicaSync machine set hs uuids = .ok g ∧
      g.Right machine set attr uuid ids' ∧ Distinct set ids' ∧
      ∀ r p, set.Slot r p → missing r p = false → ids' r p = ids r p := by
  rw [Headers.replicaSync]
  by_cases hpool : hs.isPoolsetHealthy set = true
  · rw [if_pos hpool]
    have hunbroken : ∀ r p, set.Slot r p → hs.isPartBroken r p = false := fun r p hslot =>
      unbroken_of_healthy hpop (all_eq_true.mp hpool r (mem_range.mpr hslot.1)) hslot.2
    exact ⟨h, ids, rfl, ⟨fun r p hs => hd.own r p hs (hunbroken r p hs),
      fun r p hs => hd.parts r p hs (hunbroken r p hs),
      fun r p hs => hd.repls r p hs (hunbroken r p hs)⟩, hd.distinct, fun _ _ _ _ => rfl⟩
  rw [if_neg hpool]
  obtain ⟨src, hfind⟩ : ∃ src, hs.findHealthyReplica set = some src :=
    Option.isSome_iff_exists.mp (find?_isSome.mpr ⟨whole, mem_range.mpr hwhole, hhealthy⟩)
  have hsrc : set.Slot src 0 :=
    ⟨mem_range.mp (mem_of_find?_eq_some hfind), hpop.nhdrs_pos src⟩
  have hunbroken := unbroken_of_healthy hpop (find?_some hfind) hsrc.2
  obtain ⟨g, hfill, hf⟩ := hd.fillStructUuids huuids hpop hsrc hunbroken
  obtain ⟨hl, -, hkeep⟩ := hf.create hm hpop hd hsrc hunbroken
  rw [hfind]
  dsimp only
  rw [hfill]
  refine ⟨_, g.partUuid, rfl, hl.right fun r p hslot hr => ?_, fun r p q t hs' ht heq => ?_,
    fun r p hslot hmissing => ?_⟩
  · have hpart := fun p hp => unbroken_of_healthy (p := p) hpop hr hp
    have hp : p < set.nparts r := Nat.lt_of_lt_of_le hslot.2 (nhdrs_le hpop)
    have hmissing := (hm.broken r p hslot.1 hp).symm.trans (hpart p hslot.2)
    have hlinks := hd.parts r p hslot (hpart p hslot.2)
    rw [hkeep r p hslot hmissing, hf.hdr]
    refine ⟨hlinks.prev.trans ?_, hlinks.next.trans ?_⟩
    · exact (hf.unbroken r _ ⟨hslot.1, hpop.hdrp_lt⟩ (hpart _ hpop.hdrp_lt)).symm
    · exact (hf.unbroken r _ ⟨hslot.1, hpop.hdrn_lt⟩ (hpart _ hpop.hdrn_lt)).symm
  · exact hf.distinct r p q t hs' ht (.inr (PoolSet.mem_slots.mpr hs'))
      (.inr (PoolSet.mem_slots.mpr ht)) heq
  · have hp : p < set.nparts r := Nat.lt_of_lt_of_le hslot.2 (nhdrs_le hpop)
    exact hf.unbroken r p hslot ((hm.broken r p hslot.1 hp).trans hmissing)

omit [DecidableEq α] in
/-- What the check finds when the parts that are there have the right headers. -/
theorem missing_of_own (hopens : attr.Opens set known) (poolSize : Nat)
    (h : ∀ r p, set.Slot r p → missing r p = false →
      (g.hdr r p).Own machine set attr uuid ids r p) :
    (checkPoolsetHealth machine set missing poolSize g).Missing set missing := by
  refine ⟨fun r p hr _ => ?_, fun _ => rfl, fun _ => rfl, fun _ => rfl, fun _ _ => rfl,
    fun _ _ => rfl, fun _ _ => rfl⟩
  rw [Health.isPartBroken, checkPoolsetHealth]
  dsimp only
  cases hthere : missing r p with
  | true => rfl
  | false =>
    by_cases hp : p < set.nhdrs r
    · have hown := h r p ⟨hr, hp⟩ hthere
      rw [hown.checksum, hown.features, hopens.options, Bool.not_true, Bool.or_self,
        Bool.and_false, Bool.or_false, Bool.or_false]
    · rw [decide_eq_false hp, Bool.false_and, Bool.or_false, Bool.or_false]

end Headers

theorem Health.Missing.checked {size : Nat}
    (hm : hs.Missing set missing) (hfirst : ∀ r, r < set.nreplicas → poolHdrSize ≤ set.partSize r 0)
    (hsize : ∀ r, (hs.replica r).poolSize = size) : hs.Checked set size := by
  refine ⟨hm.marked, hm.replicaBlocks, hm.consistent, fun r _ _ => hsize r, fun r p hr _ => ?_⟩
  rw [hm.blocks, PoolSet.headerEnd, PoolSet.mapOffset]
  by_cases hp : p = 0
  · subst hp
    rw [if_pos rfl, if_pos rfl, Nat.zero_add]
    exact hfirst r hr
  · rw [if_neg hp, if_neg hp]
    exact Nat.le_add_right _ _

theorem Health.Missing.data {size : Nat} {mem mem' : Data}
    {data : Nat → UInt8} (hm : hs.Missing set missing) (hmapped : set.Mapped size)
    (hfirst : ∀ r, r < set.nreplicas → poolHdrSize ≤ set.partSize r 0)
    (hsize : ∀ r, (hs.replica r).poolSize = size)
    (hdata : ∀ r b, r < set.nreplicas → poolHdrSize ≤ b → b < size →
      hs.brokenAt set r b = false → mem r b = data b)
    (hsync : hs.replicaSync set mem = some mem') {b : Nat} (hr : r < set.nreplicas)
    (hb : poolHdrSize ≤ b) (hb' : b < size) : mem' r b = data b := by
  have hgood := ((hm.checked hfirst hsize).allGood_iff hmapped hsync).mpr fun r b _ _ _ hlost => by
      obtain ⟨p, -, hat⟩ := any_eq_true.mp hlost.1
      rw [hm.blocks, any_nil, Bool.and_false] at hat
      exact absurd hat Bool.false_ne_true
  obtain ⟨q, hq, hunbroken, -, heq⟩ := hgood r b hr hb hb'
  exact heq.symm.trans (hdata q b hq hb hb' hunbroken)

/-- Any parts of a new pool set may be missing but those of one replica; the parts that are there
have the same data. Then `replica_sync` finds no repeated UUID; the replicas are accepted
afterwards, the parts that were there have their UUIDs, no two parts have the same one, and all
replicas have the data. -/
theorem Headers.poolCreateUuids_sync [DecidableEq α] {start new : Headers α}
    {missing : Nat → Nat → Bool} {size whole : Nat} {data : Nat → UInt8} {mem : Data}
    (huuids : Function.Injective uuids) (hpop : set.Populated) (hopens : attr.Opens set known)
    (hmapped : set.Mapped size) (hfirst : ∀ r, r < set.nreplicas → poolHdrSize ≤ set.partSize r 0)
    (hhdr : ∀ r p, set.Slot r p → missing r p = false →
      new.hdr r p = (start.poolCreateUuids machine set uuids attr).hdr r p)
    (hgen : new.generated = (start.poolCreateUuids machine set uuids attr).generated)
    (hwhole : whole < set.nreplicas) (hthere : ∀ p, p < set.nparts whole → missing whole p = false)
    (hdata : ∀ r b, r < set.nreplicas → poolHdrSize ≤ b → b < size →
      (checkPoolsetHealth machine set missing size new).brokenAt set r b = false →
        mem r b = data b) :
    ∃ g, new.replicaSync machine set (checkPoolsetHealth machine set missing size new) uuids =
        .ok g ∧
      g.replicaCheck machine set known = true ∧
      (∀ r p, set.Slot r p → missing r p = false → (g.hdr r p).uuid = (new.hdr r p).uuid) ∧
      (∀ r p q t, set.Slot r p → set.Slot q t → (g.hdr r p).uuid = (g.hdr q t).uuid →
        r = q ∧ p = t) ∧
      ∀ mem', (checkPoolsetHealth machine set missing size new).replicaSync set mem = some mem' →
        ∀ r b, r < set.nreplicas → poolHdrSize ≤ b → b < size → mem' r b = data b := by
  obtain ⟨hright, hdistinct, hfresh⟩ := poolCreateUuids_right machine set attr start huuids
  have hown := fun r p hs hnot => hhdr r p hs hnot ▸ hright.own r p hs
  have hmissing := missing_of_own hopens size hown
  have hnot : ∀ r p, set.Slot r p →
      (checkPoolsetHealth machine set missing size new).isPartBroken r p = false →
        missing r p = false := fun r p hs hunbroken =>
    (hmissing.broken r p hs.1 (Nat.lt_of_lt_of_le hs.2 (nhdrs_le hpop))).symm.trans hunbroken
  have hd : new.Damaged machine set (checkPoolsetHealth machine set missing size new) attr uuids
      (start.poolCreateUuids machine set uuids attr).uuid
      (start.poolCreateUuids machine set uuids attr).partUuid :=
    ⟨fun r p hs hu => hown r p hs (hnot r p hs hu),
      fun r p hs hu => hhdr r p hs (hnot r p hs hu) ▸ hright.parts r p hs,
      fun r p hs hu => hhdr r p hs (hnot r p hs hu) ▸ hright.repls r p hs, hdistinct,
      fun r p k hs hk => hfresh r p k hs (hgen ▸ hk)⟩
  have hhealthy : (checkPoolsetHealth machine set missing size new).isReplicaHealthy set whole =
      true := by
    rw [Health.isReplicaHealthy, Health.isReplicaConsistent, hmissing.consistent,
      hmissing.replicaBlocks, Bool.not_false, Bool.and_true, Bool.and_true, Bool.not_eq_true',
      Health.isReplicaBroken, hmissing.replica, Bool.false_or, List.any_eq_false]
    intro p hp hbroken
    have hp := List.mem_range.mp hp
    rw [hmissing.broken whole p hwhole hp, hthere p hp] at hbroken
    exact Bool.false_ne_true hbroken
  obtain ⟨g, ids', hsync, hg, hdistinct', hkeep⟩ := hd.sync huuids hpop hmissing hwhole hhealthy
  refine ⟨g, hsync, hg.replicaCheck hopens hpop, fun r p hslot hnot => ?_,
    fun r p q t hs ht heq => ?_, fun mem' hsync' r b hr hb hb' => ?_⟩
  · rw [(hg.own r p hslot).id, (hown r p hslot hnot).id, hkeep r p hslot hnot]
  · rw [(hg.own r p hs).id, (hg.own q t ht).id] at heq
    exact hdistinct' r p q t hs ht heq
  · exact hmissing.data hmapped hfirst (fun _ => rfl) hdata hsync' hr hb hb'

/-! ## Two replicas -/

def twoReplicas : PoolSet :=
  ⟨2, fun _ => 2, fun _ _ => ⟨8388608, 4096⟩, false, 4096⟩

def sumMachine : Machine Nat :=
  ⟨62, fun r p => r + p + 1, fun hdr => hdr.poolsetUuid + 3 * hdr.uuid + 5 * hdr.prevPartUuid +
    7 * hdr.nextPartUuid + 11 * hdr.prevReplUuid + 13 * hdr.nextReplUuid + hdr.crtime⟩

def objAttr : PoolAttr := ⟨.obj, 5, ⟨0, 0, 0⟩⟩

def blankHdr : PoolHdr Nat := ⟨.obj, 0, ⟨0, 0, 0⟩, 0, 0, 0, 0, 0, 0, 0, 0, 0⟩

def blankReplicas : Headers Nat := ⟨0, fun _ _ => 0, fun _ _ => blankHdr, 0⟩

def newReplicas : Headers Nat :=
  blankReplicas.poolCreateUuids sumMachine twoReplicas id objAttr

def lostReplica : Headers Nat :=
  { newReplicas with hdr := fun r p => if r = 0 then blankHdr else newReplicas.hdr r p }

def replicaMissing : Health :=
  checkPoolsetHealth sumMachine twoReplicas (fun r _ => r == 0) 16773120 lostReplica

def partMissing : Health :=
  checkPoolsetHealth sumMachine twoReplicas (fun r p => r == 0 && p == 1) 16773120 newReplicas

def mismatched : Data := fun r b => if r = 0 then 0 else b.toUInt8

theorem twoReplicas_mapped : twoReplicas.Mapped 16773120 :=
  ⟨fun _ => rfl, fun _ _ _ _ => rfl, fun _ _ => Nat.succ_pos 4095, fun _ _ =>
    (by decide : 16773120 ≤ 0 + 8388608 / 4096 * 4096 + (8388608 - 4096) / 4096 * 4096)⟩

/-- Replica 0 gets its headers, its UUIDs and its data back. -/
theorem poolCreateUuids_sync_twoReplicas : ∃ g mem',
    lostReplica.replicaCheck sumMachine twoReplicas objAttr = false ∧
    lostReplica.replicaSync sumMachine twoReplicas replicaMissing id = .ok g ∧
    g.replicaCheck sumMachine twoReplicas objAttr = true ∧
    replicaMissing.replicaSync twoReplicas mismatched = some mem' ∧ mem' 0 4097 = 1 := by
  obtain ⟨mem', hsync⟩ := Option.isSome_iff_exists.mp
    (show (replicaMissing.replicaSync twoReplicas mismatched).isSome = true by decide +kernel)
  have hopens : objAttr.Opens twoReplicas objAttr :=
    ⟨rfl, rfl, Nat.succ_pos 4, by decide, fun _ => by decide⟩
  have hdata : ∀ r b, r < twoReplicas.nreplicas → poolHdrSize ≤ b → b < 16773120 →
      replicaMissing.brokenAt twoReplicas r b = false → mismatched r b = Nat.toUInt8 b := by
    intro r b hr _ hb hunbroken
    by_cases hr : r = 0
    · subst hr
      obtain ⟨p, hp, hhas⟩ := PoolSet.exists_partHas
        (Nat.lt_of_lt_of_le hb (twoReplicas_mapped.fits 0 (by decide)))
      have hbroken : replicaMissing.brokenAt twoReplicas 0 b = true :=
        Health.brokenAt_iff.mpr ⟨p, hp, rfl, hhas⟩
      exact absurd (hunbroken.symm.trans hbroken) Bool.false_ne_true
    · exact if_neg hr
  have hhdr : ∀ r p, twoReplicas.Slot r p → (r == 0) = false → lostReplica.hdr r p =
      (blankReplicas.poolCreateUuids sumMachine twoReplicas id objAttr).hdr r p :=
    fun r p _ hnot => if_neg (beq_eq_false_iff_ne.mp hnot)
  obtain ⟨g, hok, hcheck, -, -, hsynced⟩ := Headers.poolCreateUuids_sync Function.injective_id
    (fun _ => Nat.succ_pos 1) hopens twoReplicas_mapped
    (fun _ _ => (by decide : 4096 ≤ 8388608 / 4096 * 4096)) hhdr rfl
    (by decide : 1 < twoReplicas.nreplicas) (fun _ _ => rfl) hdata
  exact ⟨g, mem', by decide +kernel, hok, hcheck, hsync,
    hsynced mem' hsync 0 4097 (by decide) (by decide) (by decide)⟩

/-- The data of the parts that are there is not compared. -/
theorem not_synced_mismatched : ∃ mem',
    newReplicas.replicaCheck sumMachine twoReplicas objAttr = true ∧
    partMissing.isReplicaHealthy twoReplicas 1 = true ∧
    (newReplicas.replicaSync sumMachine twoReplicas partMissing id).isOk = true ∧
    partMissing.replicaSync twoReplicas mismatched = some mem' ∧ mem' 0 4097 ≠ mem' 1 4097 := by
  obtain ⟨mem', hsync, hdiffers⟩ := (Option.any_eq_true _ _).mp
    (show (partMissing.replicaSync twoReplicas mismatched).any
      (fun mem' => mem' 0 4097 != mem' 1 4097) = true by decide +kernel)
  exact ⟨mem', by decide +kernel, by decide +kernel, by decide +kernel, hsync,
    bne_iff_ne.mp hdiffers⟩

end Pmdk.Sync
