import Pmdk.Pool.SyncBlocks

/-!
# What `pmempool sync` makes of the data

A byte that is lost is taken from the first replica in which it is not lost, and everything in a
broken part from the first replica that is not broken then. The first of these replicas may have a
broken part there, which has been recreated and is all zeros.
-/

namespace Pmdk

open Function List

namespace Sync

variable {set : PoolSet} {hs cur : Health} {size n r p b h : Nat} {mem mem' : Data}
  {blocks : Nat → List BadBlock} {bb : BadBlock}

/-! ## Copying pieces -/

theorem copyData_eq (mem : Data) (src dst r b : Nat) (bb : BadBlock) :
    copyData mem src dst bb.offset bb.length r b = mem r b ∨
      r = dst ∧ bb.Has b ∧ copyData mem src dst bb.offset bb.length r b = mem src b := by
  rw [copyData]
  by_cases hr : r = dst
  · subst hr
    rw [update_self]
    by_cases hb : bb.offset ≤ b ∧ b < bb.offset + bb.length
    · exact .inr ⟨rfl, hb, if_pos hb⟩
    · exact .inl (if_neg hb)
  · exact .inl (congrFun (update_of_ne hr _ _) b)

theorem copyData_of_has (mem : Data) (src dst : Nat) (hb : bb.Has b) :
    copyData mem src dst bb.offset bb.length dst b = mem src b := by
  rw [copyData, update_self]
  exact if_pos hb

theorem First.unique {bad : Nat → Nat → Prop} {h h' : Nat} (hh : First bad n b (some h))
    (hh' : First bad n b (some h')) : h = h' := by
  rcases Nat.lt_trichotomy h h' with hlt | heq | hlt
  · exact absurd (hh'.2.2 h hlt) hh.2.1
  · exact heq
  · exact absurd (hh.2.2 h' hlt) hh'.2.1

def copyPiece (mem : Data) (c : Nat × BadBlock) : Option Data :=
  c.2.nhealthy.map fun h => copyData mem h c.1 c.2.offset c.2.length

/-- Right pieces are copied from bytes that no copy changes, so every one is copied from what its
source had in the beginning. -/
theorem copyPieces {copies : List (Nat × BadBlock)}
    (hbad : ∀ c ∈ copies, ∀ b, c.2.Has b → Bad blocks c.1 b)
    (hright : ∀ c ∈ copies, ∀ b, c.2.Has b → First (Bad blocks) n b c.2.nhealthy)
    (hcopy : copies.foldlM copyPiece mem = some mem') (r b : Nat) :
    (¬(∃ c ∈ copies, c.1 = r ∧ c.2.Has b) → mem' r b = mem r b) ∧
      ((∃ c ∈ copies, c.1 = r ∧ c.2.Has b) →
        ∃ h, First (Bad blocks) n b (some h) ∧ mem' r b = mem h b) := by
  induction copies generalizing mem r with
  | nil =>
    obtain rfl := Option.some_inj.mp hcopy
    exact ⟨fun _ => rfl, fun ⟨c, hc, _⟩ => absurd hc not_mem_nil⟩
  | cons c copies ih =>
    obtain ⟨src, hsrc⟩ : ∃ src, c.2.nhealthy = some src := by
      cases hnone : c.2.nhealthy with
      | none =>
        rw [foldlM_cons, copyPiece, hnone] at hcopy
        exact absurd hcopy nofun
      | some src => exact ⟨src, rfl⟩
    rw [foldlM_cons, copyPiece, hsrc, Option.map_some] at hcopy
    have hrec := fun r => ih (fun c' hc' => hbad c' (mem_cons_of_mem c hc'))
      (fun c' hc' => hright c' (mem_cons_of_mem c hc')) hcopy r
    have hfirst : ∀ b, c.2.Has b → First (Bad blocks) n b (some src) := fun b hb =>
      hsrc ▸ hright c mem_cons_self b hb
    constructor
    · intro hnot
      rw [(hrec r).1 fun ⟨c', hc', h'⟩ => hnot ⟨c', mem_cons_of_mem c hc', h'⟩]
      rcases copyData_eq mem src c.1 r b c.2 with heq | ⟨hr, hb, -⟩
      · exact heq
      · exact absurd ⟨c, mem_cons_self, hr.symm, hb⟩ hnot
    · rintro ⟨c', hc', hr, hb⟩
      by_cases hlater : ∃ c' ∈ copies, c'.1 = r ∧ c'.2.Has b
      · obtain ⟨h, hh, heq⟩ := (hrec r).2 hlater
        refine ⟨h, hh, heq.trans ?_⟩
        -- the source of a later piece is not where this piece goes
        rcases copyData_eq mem src c.1 h b c.2 with hsame | ⟨hdst, hin, -⟩
        · exact hsame
        · exact absurd (hdst ▸ hbad c mem_cons_self b hin) hh.2.1
      · rcases mem_cons.mp hc' with rfl | hc'
        · refine ⟨src, hfirst b hb, ?_⟩
          rw [(hrec r).1 hlater, ← hr]
          exact copyData_of_has mem src c'.1 hb
        · exact absurd ⟨c', hc', hr, hb⟩ hlater

/-- The pieces that `sync_badblocks_data` copies are the bad blocks, cut into right pieces. -/
theorem Health.Assigned.mem_copies {hs : Health} (h : Assigned set blocks n hs set.nreplicas cur)
    {c : Nat × BadBlock} : c ∈ cur.badblocksCopies set ↔ c.1 < set.nreplicas ∧
      ∃ p, p < set.nparts c.1 ∧ (hs.part c.1 p).hasBadBlocks = true ∧
        c.2 ∈ (cur.part c.1 p).bbs := by
  simp only [badblocksCopies, mem_flatMap, mem_range, mem_filter, mem_map]
  constructor
  · rintro ⟨r, hr, p, ⟨hp, hmark⟩, bb, hbb, rfl⟩
    exact ⟨hr, p, hp, (h.before r p hr hp).hasBadBlocks ▸ hmark, hbb⟩
  · rintro ⟨hr, p, hp, hmark, hbb⟩
    exact ⟨c.1, hr, p, ⟨hp, (h.before c.1 p hr hp).hasBadBlocks ▸ hmark⟩, c.2, hbb, rfl⟩

/-- After the bad blocks are fixed, a lost byte is what the first replica has in which it is not
lost, and any other byte is what it was. -/
theorem Health.Checked.badblocks_fixed (h : hs.Checked set size) (hm : set.Mapped size)
    {mem₀ : Data}
    (hcur : Assigned set ((hs.recalculated set mem₀).blocks set) set.nreplicas
      (hs.recalculated set mem₀) set.nreplicas cur)
    (hdata : (cur.badblocksCopies set).foldlM copyPiece mem = some mem') (hr : r < set.nreplicas)
    (b : Nat) : (¬hs.Lost set r b → mem' r b = mem r b) ∧
      (hs.Lost set r b → ∃ h, First (hs.Lost set) set.nreplicas b (some h) ∧
        mem' r b = mem h b) := by
  have hbad : ∀ c ∈ cur.badblocksCopies set, ∀ b, c.2.Has b →
      Bad ((hs.recalculated set mem₀).blocks set) c.1 b := by
    intro c hc b hb
    obtain ⟨hr, p, hp, hmark, hbb⟩ := hcur.mem_copies.mp hc
    exact (covers_blocks hr).mpr ⟨p, hp, hmark,
      ((hcur.before c.1 p hr hp).covers b).mp ⟨c.2, hbb, hb⟩⟩
  have hright : ∀ c ∈ cur.badblocksCopies set, ∀ b, c.2.Has b →
      First (Bad ((hs.recalculated set mem₀).blocks set)) set.nreplicas b c.2.nhealthy := by
    intro c hc b hb
    obtain ⟨hr, p, hp, hmark, hbb⟩ := hcur.mem_copies.mp hc
    exact ((hcur.before c.1 p hr hp).right hmark c.2 hbb).first b hb
  have hlost : hs.Lost set r b ↔ ∃ c ∈ cur.badblocksCopies set, c.1 = r ∧ c.2.Has b := by
    rw [← h.bad_iff hm mem₀ hr, Bad, covers_blocks hr]
    constructor
    · rintro ⟨p, hp, hmark, hcov⟩
      obtain ⟨bb, hbb, hb⟩ := ((hcur.before r p hr hp).covers b).mpr hcov
      exact ⟨(r, bb), hcur.mem_copies.mpr ⟨hr, p, hp, hmark, hbb⟩, rfl, hb⟩
    · rintro ⟨c, hc, rfl, hb⟩
      obtain ⟨hr, p, hp, hmark, hbb⟩ := hcur.mem_copies.mp hc
      exact ⟨p, hp, hmark, ((hcur.before c.1 p hr hp).covers b).mp ⟨c.2, hbb, hb⟩⟩
  obtain ⟨hkeep, hcopy⟩ := copyPieces hbad hright hdata r b
  refine ⟨fun hnot => hkeep fun hc => hnot (hlost.mpr hc), fun hl => ?_⟩
  obtain ⟨src, ⟨hlt, hsrc, hprev⟩, heq⟩ := hcopy (hlost.mp hl)
  exact ⟨src, ⟨hlt, fun hl => hsrc ((h.bad_iff hm mem₀ hlt).mpr hl),
    fun g hg => (h.bad_iff hm mem₀ (Nat.lt_trans hg hlt)).mp (hprev g hg)⟩, heq⟩

/-! ## Copying the broken parts -/

def Health.copyPart (set : PoolSet) (hs : Health) (healthy poolsize r : Nat) (mem : Data)
    (p : Nat) : Data :=
  if !hs.isPartBroken r p && hs.isReplicaConsistent r then mem
  else if poolsize ≤ set.partDataOffset r p then mem
  else copyData mem healthy r (set.partDataOffset r p)
    (if poolsize < set.partDataOffset r p + set.partDataLen r p then
      poolsize - set.partDataOffset r p else set.partDataLen r p)

variable {healthy : Nat}

theorem Health.copyPart_eq (hm : set.Mapped size) (hcons : hs.isReplicaConsistent r = true)
    (hb : poolHdrSize ≤ b) (hb' : b < size) (g : Nat) :
    hs.copyPart set healthy size r mem p g b =
      if g = r ∧ hs.isPartBroken r p = true ∧ set.partHas r p b = true then mem healthy b
      else mem g b := by
  have hdata := hm.data (r := r) (p := p) hb
  rw [copyPart, hcons, Bool.and_true]
  by_cases hbroken : hs.isPartBroken r p = true
  · rw [hbroken, if_neg (by decide)]
    by_cases hoff : size ≤ set.partDataOffset r p
    · rw [if_pos hoff, if_neg fun hc => ?_]
      have := (hdata.mpr hc.2.2).1
      omega
    · have hrange : set.partDataOffset r p ≤ b ∧ b < set.partDataOffset r p +
          (if size < set.partDataOffset r p + set.partDataLen r p then
            size - set.partDataOffset r p else set.partDataLen r p) ↔
          set.partHas r p b = true := by
        rw [← hdata]
        split
        · omega
        · exact Iff.rfl
      rw [if_neg hoff, copyData]
      by_cases hg : g = r
      · subst hg
        rw [update_self]
        simp only [hrange, true_and]
      · rw [update_of_ne hg, if_neg fun hc => hg hc.1]
  · rw [Bool.not_eq_true] at hbroken
    rw [hbroken, if_pos (by decide), if_neg fun hc => Bool.false_ne_true hc.2.1]

theorem Health.copyParts_eq (hm : set.Mapped size) (hcons : hs.isReplicaConsistent r = true)
    (hb : poolHdrSize ≤ b) (hb' : b < size) (hne : healthy ≠ r) (k g : Nat) :
    (List.range k).foldl (hs.copyPart set healthy size r) mem g b =
      if g = r ∧ ∃ p, p < k ∧ hs.isPartBroken r p = true ∧ set.partHas r p b = true then
        mem healthy b else mem g b := by
  induction k generalizing g with
  | zero =>
    rw [if_neg]
    · rfl
    · rintro ⟨-, p, hp, -⟩
      exact Nat.not_lt_zero p hp
  | succ k ih =>
    rw [range_succ, foldl_append, foldl_cons, foldl_nil,
      copyPart_eq hm hcons hb hb', ih, ih, if_neg (c := healthy = r ∧ _) fun hc => hne hc.1]
    have hsucc : (∃ p, p < k + 1 ∧ hs.isPartBroken r p = true ∧ set.partHas r p b = true) ↔
        (∃ p, p < k ∧ hs.isPartBroken r p = true ∧ set.partHas r p b = true) ∨
          hs.isPartBroken r k = true ∧ set.partHas r k b = true :=
      Nat.exists_lt_succ_right
    by_cases hg : g = r
    · by_cases hlast : hs.isPartBroken r k = true ∧ set.partHas r k b = true
      · rw [if_pos ⟨hg, hlast⟩, if_pos ⟨hg, hsucc.mpr (.inr hlast)⟩]
      · rw [if_neg fun hc => hlast hc.2]
        refine if_congr (and_congr_right fun _ => ?_) rfl rfl
        rw [hsucc, or_iff_left hlast]
    · rw [if_neg fun hc => hg hc.1, if_neg fun hc => hg hc.1, if_neg fun hc => hg hc.1]

theorem Health.not_brokenAt (h : hs.isReplicaBroken set r = false) :
    hs.brokenAt set r b = false := by
  refine Bool.eq_false_iff.mpr fun hat => ?_
  obtain ⟨p, hp, hbroken, -⟩ := brokenAt_iff.mp hat
  rw [isReplicaBroken, Bool.or_eq_false_iff, any_eq_false] at h
  exact h.2 p (mem_range.mpr hp) hbroken

theorem Health.not_broken_of_healthy (h : hs.isReplicaHealthy set r = true) :
    hs.isReplicaBroken set r = false := by
  rw [isReplicaHealthy, Bool.and_eq_true, Bool.and_eq_true, Bool.not_eq_true'] at h
  exact h.1.1

def Health.copyReplica (set : PoolSet) (hs : Health) (healthy poolsize : Nat) (mem : Data)
    (r : Nat) : Data :=
  if hs.isReplicaHealthy set r then mem
  else (List.range (set.nparts r)).foldl (hs.copyPart set healthy poolsize r) mem

theorem Health.copyReplicas_eq (hm : set.Mapped size) (mem : Data)
    (hcons : ∀ r, hs.isReplicaConsistent r = true) (hb : poolHdrSize ≤ b) (hb' : b < size)
    (hhealthy : hs.isReplicaHealthy set healthy = true) (k g : Nat) :
    (List.range k).foldl (hs.copyReplica set healthy size) mem g b =
      if g < k ∧ hs.brokenAt set g b = true then mem healthy b else mem g b := by
  induction k generalizing g with
  | zero => exact (if_neg fun hc => Nat.not_lt_zero g hc.1).symm
  | succ k ih =>
    have hsource := ih healthy
    rw [if_neg fun hc => Bool.false_ne_true
      ((not_brokenAt (not_broken_of_healthy hhealthy)).symm.trans hc.2)] at hsource
    rw [range_succ, foldl_append, foldl_cons, foldl_nil, copyReplica]
    by_cases hk : hs.isReplicaHealthy set k = true
    · have hbroken : hs.brokenAt set k b = false := not_brokenAt (not_broken_of_healthy hk)
      rw [if_pos hk, ih]
      refine if_congr ⟨fun hc => ⟨by omega, hc.2⟩, fun hc => ⟨?_, hc.2⟩⟩ rfl rfl
      refine Nat.lt_of_le_of_ne (Nat.lt_succ_iff.mp hc.1) fun hgk => ?_
      rw [hgk, hbroken] at hc
      exact Bool.false_ne_true hc.2
    · have hne : healthy ≠ k := by
        rintro rfl
        exact hk hhealthy
      rw [if_neg hk, copyParts_eq hm (hcons k) hb hb' hne, hsource, ih]
      simp only [← brokenAt_iff]
      by_cases hg : g = k
      · subst hg
        by_cases hat : hs.brokenAt set g b = true
        · rw [if_pos ⟨rfl, hat⟩, if_pos ⟨Nat.lt_succ_self g, hat⟩]
        · rw [if_neg fun hc => hat hc.2, if_neg fun hc => hat hc.2, if_neg fun hc => hat hc.2]
      · rw [if_neg fun hc => hg hc.1]
        exact if_congr ⟨fun hc => ⟨by omega, hc.2⟩, fun hc => ⟨by omega, hc.2⟩⟩ rfl rfl

/-!
## Good data is kept

`pmempool sync` leaves every byte of every replica with a value that some replica had in an unbroken
part and outside of its bad blocks, unless a lost byte is taken from a replica of which the part is
broken there.
-/

def Health.Good (set : PoolSet) (hs : Health) (mem : Data) (b : Nat) (v : UInt8) : Prop :=
  ∃ r, r < set.nreplicas ∧ hs.brokenAt set r b = false ∧ hs.badAt set r b = false ∧ mem r b = v

def Health.AllGood (set : PoolSet) (hs : Health) (size : Nat) (mem mem' : Data) : Prop :=
  ∀ r b, r < set.nreplicas → poolHdrSize ≤ b → b < size → hs.Good set mem b (mem' r b)

/-- For every byte in a bad block of an unbroken part, the first replica in which it is not in one
has no broken part there, or zero is a good value. -/
def Health.GoodSources (set : PoolSet) (hs : Health) (size : Nat) (mem : Data) : Prop :=
  ∀ r b, r < set.nreplicas → poolHdrSize ≤ b → b < size → hs.Lost set r b →
    ∀ h, First (hs.Lost set) set.nreplicas b (some h) →
      hs.brokenAt set h b = false ∨ hs.Good set mem b 0

def Health.zeroed (set : PoolSet) (hs : Health) (mem : Data) : Data := fun r b =>
  if hs.brokenAt set r b then 0 else if hs.badAt set r b then 0 else mem r b

/-- The bytes before the bytes of the broken parts are copied: lost ones come from the first
replica in which they are not lost. -/
def Health.Fixed (set : PoolSet) (hs : Health) (mem mem' : Data) : Prop :=
  ∀ r b, r < set.nreplicas → hs.brokenAt set r b = false →
    (hs.badAt set r b = false ∧ mem' r b = mem r b) ∨
      (hs.Lost set r b ∧ ∃ h, First (hs.Lost set) set.nreplicas b (some h) ∧
        mem' r b = hs.zeroed set mem h b)

theorem Health.Fixed.good (hfixed : hs.Fixed set mem mem') (hsrc : hs.GoodSources set size mem)
    (hr : r < set.nreplicas) (hb : poolHdrSize ≤ b) (hb' : b < size)
    (hbroken : hs.brokenAt set r b = false) : hs.Good set mem b (mem' r b) := by
  rcases hfixed r b hr hbroken with ⟨hbad, heq⟩ | ⟨hlost, h, hfirst, heq⟩
  · exact ⟨r, hr, hbroken, hbad, heq.symm⟩
  · rw [heq, zeroed]
    rcases hsrc r b hr hb hb' hlost h hfirst with hunbroken | hzero
    · have hbad : hs.badAt set h b = false :=
        Bool.eq_false_iff.mpr fun hbad => hfirst.2.1 ⟨hbad, hunbroken⟩
      rw [hunbroken, hbad]
      exact ⟨h, hfirst.1, hunbroken, hbad, rfl⟩
    · by_cases hat : hs.brokenAt set h b = true
      · rw [if_pos hat]
        exact hzero
      · rw [Bool.not_eq_true] at hat
        have hbad : hs.badAt set h b = false :=
          Bool.eq_false_iff.mpr fun hbad => hfirst.2.1 ⟨hbad, hat⟩
        rw [hat, hbad]
        exact ⟨h, hfirst.1, hat, hbad, rfl⟩

/-! ## The whole run -/

def Health.unmarked (hs : Health) : Health :=
  { replica := fun r => { hs.replica r with hasBadBlocks := false }
    part := fun r p => { hs.part r p with hasBadBlocks := false } }

theorem Health.Assigned.brokenAt {hs : Health} {mem₀ : Data} {blocks : Nat → List BadBlock}
    (h : Assigned set blocks n (hs.recalculated set mem₀) set.nreplicas cur)
    (hr : r < set.nreplicas) : cur.unmarked.brokenAt set r b = hs.brokenAt set r b := by
  have hpart : ∀ p, p < set.nparts r →
      cur.unmarked.isPartBroken r p = hs.isPartBroken r p := by
    intro p hp
    have hsame : ((hs.recalculated set mem₀).part r p).broken = (hs.part r p).broken := by
      rw [recalculated, recalcBadblocks]
      dsimp only
      rw [apply_ite PartHealth.broken, ite_self, recreateBrokenParts]
      dsimp only
      rw [apply_ite PartHealth.broken, ite_self]
      rfl
    change ((cur.replica r).broken || (cur.part r p).broken) = _
    rw [h.replica, (h.before r p hr hp).broken, hsame]
    rfl
  rw [Bool.eq_iff_iff, brokenAt_iff, brokenAt_iff]
  exact exists_congr fun p => and_congr_right fun hp => by rw [hpart p hp]

theorem Health.Checked.header (h : hs.Checked set size) {header : Nat}
    (hfind : ((hs.badblocksClear set mem).1.findHealthyReplica set).or
      ((hs.badblocksClear set mem).1.findReplicaHealthyHeader set) = some header) :
    (hs.replica header).poolSize = size := by
  have hbroken : (hs.badblocksClear set mem).1.isReplicaBroken set header =
      hs.isReplicaBroken set header := rfl
  rcases Option.or_eq_some_iff.mp hfind with hhealthy | ⟨-, hheader⟩
  · exact h.poolSize header (mem_range.mp (mem_of_find?_eq_some hhealthy))
      (hbroken ▸ not_broken_of_healthy (find?_some hhealthy))
  · have hfound := find?_some hheader
    rw [hasHealthyHeader, Bool.and_eq_true, Bool.and_eq_true, Bool.not_eq_true'] at hfound
    exact h.poolSize header (mem_range.mp (mem_of_find?_eq_some hheader)) (hbroken ▸ hfound.1.1)

/-- A run that repairs something: all bad blocks are fixed, and then the broken parts are copied
from an unbroken replica. -/
theorem Health.Checked.sync (h : hs.Checked set size) (hm : set.Mapped size)
    (hsync : hs.replicaSync set mem = some mem')
    (hnot : (hs.badblocksClear set mem).1.isPoolsetHealthy set = false) :
    ∃ fixed healthy, hs.Fixed set mem fixed ∧ healthy < set.nreplicas ∧
      (∀ b, hs.brokenAt set healthy b = false) ∧
      ∀ r b, r < set.nreplicas → poolHdrSize ≤ b → b < size →
        mem' r b = if hs.brokenAt set r b = true then fixed healthy b else fixed r b := by
  rw [replicaSync] at hsync
  dsimp only at hsync
  rw [hnot, if_neg Bool.false_ne_true, Option.bind_eq_bind, Option.bind_eq_some_iff] at hsync
  obtain ⟨header, hheader, hsync⟩ := hsync
  rw [Option.bind_eq_bind, Option.bind_eq_some_iff] at hsync
  obtain ⟨cur, hjoin, hsync⟩ := hsync
  have hcheck : (hs.recalculated set mem).checkBadBlocksOverlap set = some (some cur) :=
    Option.join_eq_some_iff.mp hjoin
  rw [Option.bind_eq_bind, Option.bind_eq_some_iff] at hsync
  obtain ⟨⟨last, fixed⟩, hdata, hsync⟩ := hsync
  rw [badblocksData, Option.bind_eq_bind, Option.bind_eq_some_iff] at hdata
  obtain ⟨fixed', hcopies, hdata⟩ := hdata
  obtain ⟨rfl, rfl⟩ := Prod.mk.inj (Option.some_inj.mp hdata)
  dsimp only at hsync
  rw [Option.bind_eq_some_iff] at hsync
  obtain ⟨healthy, hhealthy, hsync⟩ := hsync
  have hmem' := Option.some_inj.mp hsync
  have hassigned := h.overlap hm hcheck
  have hpool : (hs.replica header).poolSize = size := h.header hheader
  have hfound : healthy < set.nreplicas ∧ cur.unmarked.isReplicaHealthy set healthy = true :=
    ⟨mem_range.mp (mem_of_find?_eq_some hhealthy), find?_some hhealthy⟩
  have hbroken : ∀ r b, r < set.nreplicas →
      cur.unmarked.brokenAt set r b = hs.brokenAt set r b := fun r b hr => hassigned.brokenAt hr
  have hcons : ∀ r, cur.unmarked.isReplicaConsistent r = true := by
    intro r
    change (!(cur.replica r).inconsistent) = true
    rw [hassigned.replica]
    exact (Bool.not_eq_true' _).mpr (h.consistent r)
  refine ⟨fixed', healthy, fun r b hr hat => ?_, hfound.1, fun b => ?_, fun r b hr hb hb' => ?_⟩
  · obtain ⟨hkeep, hcopy⟩ := h.badblocks_fixed hm hassigned hcopies hr b
    by_cases hbad : hs.badAt set r b = true
    · obtain ⟨src, hfirst, heq⟩ := hcopy ⟨hbad, hat⟩
      exact .inr ⟨⟨hbad, hat⟩, src, hfirst, heq⟩
    · rw [Bool.not_eq_true] at hbad
      refine .inl ⟨hbad, (hkeep fun hl => hbad ▸ hl.1 |> Bool.false_ne_true).trans ?_⟩
      have : hs.zeroed set mem r b = mem r b := by
        rw [zeroed, hat, hbad]
        rfl
      exact this
  · rw [← hbroken healthy b hfound.1]
    exact not_brokenAt (not_broken_of_healthy hfound.2)
  · have hcopied := copyReplicas_eq hm fixed' hcons hb hb' hfound.2 set.nreplicas r
    rw [hbroken r b hr] at hcopied
    rw [← hmem', ← if_congr (and_iff_right hr) rfl rfl, ← hcopied, ← hpool]
    rfl

theorem Health.healthy_clean (h : (hs.badblocksClear set mem).1.isPoolsetHealthy set = true)
    (hr : r < set.nreplicas) (b : Nat) :
    hs.brokenAt set r b = false ∧ hs.badAt set r b = false := by
  have hhealthy := all_eq_true.mp h r (mem_range.mpr hr)
  have hbroken := not_broken_of_healthy hhealthy
  refine ⟨not_brokenAt (show hs.isReplicaBroken set r = false from hbroken), ?_⟩
  refine Bool.eq_false_iff.mpr fun hbad => ?_
  rw [isReplicaHealthy, Bool.and_eq_true, Bool.not_eq_true'] at hhealthy
  have hnone : ((hs.replica r).hasBadBlocks ||
      (List.range (set.nparts r)).any fun p => !(hs.part r p).bbs.isEmpty) = false := hhealthy.2
  rw [Bool.or_eq_false_iff, any_eq_false] at hnone
  obtain ⟨p, hp, hat⟩ := any_eq_true.mp hbad
  obtain ⟨bb, hbb, -⟩ := any_eq_true.mp (Bool.and_eq_true_iff.mp hat).2
  have hempty := hnone.2 p hp
  rw [Bool.not_eq_true', Bool.not_eq_false, List.isEmpty_iff] at hempty
  exact not_mem_nil (hempty ▸ hbb)

/-- When the synchronization succeeds, every byte of every replica is what it was in some replica
that had not lost it, if and only if no lost byte was taken from a broken part. -/
theorem Health.Checked.allGood_iff (h : hs.Checked set size) (hm : set.Mapped size)
    (hsync : hs.replicaSync set mem = some mem') :
    hs.AllGood set size mem mem' ↔ hs.GoodSources set size mem := by
  cases hhealthy : (hs.badblocksClear set mem).1.isPoolsetHealthy set with
  | true =>
    have hclean := fun r hr b => healthy_clean (r := r) hhealthy hr b
    have hsame : (hs.badblocksClear set mem).2 = mem' := by
      rw [replicaSync] at hsync
      dsimp only at hsync
      rw [hhealthy, if_pos rfl] at hsync
      exact Option.some_inj.mp hsync
    refine iff_of_true (fun r b hr _ _ => ?_) fun r b hr _ _ hlost => ?_
    · refine ⟨r, hr, (hclean r hr b).1, (hclean r hr b).2, ?_⟩
      rw [← hsame, badblocksClear]
      dsimp only
      rw [(hclean r hr b).2, if_neg Bool.false_ne_true]
    · rw [Lost, (hclean r hr b).2] at hlost
      exact absurd hlost.1 Bool.false_ne_true
  | false =>
    obtain ⟨fixed, healthy, hfixed, hlt, hunbroken, hcopied⟩ := h.sync hm hsync hhealthy
    constructor
    · intro hgood r b hr hb hb' hlost src hfirst
      by_cases hat : hs.brokenAt set src b = true
      · refine .inr ?_
        have heq := hcopied r b hr hb hb'
        rw [hlost.2, if_neg Bool.false_ne_true] at heq
        rcases hfixed r b hr hlost.2 with ⟨hbad, -⟩ | ⟨-, src', hfirst', heq'⟩
        · exact absurd (hbad.symm.trans hlost.1) Bool.false_ne_true
        · rw [hfirst'.unique hfirst, zeroed, if_pos hat] at heq'
          have := hgood r b hr hb hb'
          rwa [heq, heq'] at this
      · exact .inl (Bool.not_eq_true _ ▸ hat)
    · intro hsrc r b hr hb hb'
      rw [hcopied r b hr hb hb']
      split
      · exact hfixed.good hsrc hlt hb hb' (hunbroken b)
      · rename_i hat
        exact hfixed.good hsrc hr hb hb' (Bool.not_eq_true _ ▸ hat)

/-! ## Three replicas -/

def threeReplicas : PoolSet :=
  ⟨3, fun _ => 1, fun _ _ => ⟨8388608, 4096⟩, false, 4096⟩

/-- The page at 8192 of replica 1 is bad, and the part of `broken` is missing. -/
def pageLost (broken : Nat) : Health :=
  ⟨fun _ => ⟨false, false, false, false, 8388608⟩,
    fun r _ => ⟨r == broken, false, false, if r = 1 then [⟨8192, 4096, none⟩] else []⟩⟩

theorem threeReplicas_mapped : threeReplicas.Mapped 8388608 :=
  ⟨fun _ => rfl, fun _ _ _ _ => rfl, fun _ _ => Nat.succ_pos 4095,
    fun _ _ => (by decide : 8388608 ≤ 0 + 8388608 / 4096 * 4096)⟩

theorem pageLost_checked (broken : Nat) : (pageLost broken).Checked threeReplicas 8388608 := by
  refine ⟨fun _ _ => rfl, fun _ => rfl, fun _ => rfl, fun _ _ _ => rfl, fun r p hr hp => ?_⟩
  obtain rfl := Nat.lt_one_iff.mp hp
  by_cases hbad : r = 1
  · subst hbad
    exact ⟨by decide, by decide, ⟨rfl, ⟨2, rfl⟩, ⟨1, rfl⟩, by decide⟩,
      (by decide : 8192 + 4096 ≤ 0 + 8388608 / 4096 * 4096)⟩
  · dsimp only [pageLost]
    rw [if_neg hbad]
    exact (by decide : 4096 ≤ 0 + 8388608 / 4096 * 4096)

/-- With a broken part in replica 2 the bad page is fixed from replica 0. -/
theorem allGood_iff_pageLost : ∃ mem',
    (pageLost 2).replicaSync threeReplicas (fun _ _ => 1) = some mem' ∧
      (pageLost 2).AllGood threeReplicas 8388608 (fun _ _ => 1) mem' := by
  have hsome : ((pageLost 2).replicaSync threeReplicas fun _ _ => 1).isSome = true := by
    decide +kernel
  obtain ⟨mem', hsync⟩ := Option.isSome_iff_exists.mp hsome
  refine ⟨mem', hsync, ((pageLost_checked 2).allGood_iff threeReplicas_mapped hsync).mpr ?_⟩
  intro r b hr hb hb' hlost h hfirst
  have hgood : (pageLost 2).badAt threeReplicas 0 b = false := by
    simp [Health.badAt, pageLost, threeReplicas]
  have hzero : h = 0 := by
    refine Nat.eq_zero_of_not_pos fun hpos => ?_
    exact Bool.false_ne_true (hgood.symm.trans (hfirst.2.2 0 hpos).1)
  exact .inl (hzero ▸ rfl)

/-- With a broken part in replica 0 the bad page of replica 1 is fixed with zeros, although replica
2 has the data, and the zeros are copied to replica 0. -/
theorem not_allGood_pageLost : ∃ (set : PoolSet) (hs : Health) (size : Nat) (mem mem' : Data),
    set.Mapped size ∧ hs.Checked set size ∧ hs.replicaSync set mem = some mem' ∧
      hs.badAt set 1 8192 = true ∧ hs.Good set mem 8192 1 ∧ mem' 1 8192 = 0 ∧ mem' 0 8192 = 0 ∧
      ¬hs.AllGood set size mem mem' := by
  have hrun : ((pageLost 0).replicaSync threeReplicas fun _ _ => 1).map
      (fun mem => (mem 1 8192, mem 0 8192)) = some (0, 0) := by
    decide +kernel
  obtain ⟨mem', hsync, hzero⟩ := Option.map_eq_some_iff.mp hrun
  obtain ⟨hzero₁, hzero₀⟩ := Prod.mk.inj hzero
  refine ⟨threeReplicas, pageLost 0, 8388608, fun _ _ => 1, mem', threeReplicas_mapped,
    pageLost_checked 0, hsync, by decide, ⟨2, by decide, by decide, by decide, rfl⟩, hzero₁,
    hzero₀, fun hall => ?_⟩
  obtain ⟨r, -, -, -, heq⟩ := hall 1 8192 (by decide) (by decide) (by decide)
  exact absurd (heq.trans hzero₁) (by decide : (1 : UInt8) ≠ 0)

end Sync

end Pmdk
