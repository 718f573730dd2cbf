import Pmdk.Pool.SyncBlocks

/-!
# From bad file ranges to bad blocks of the pool

`sync_recalc_badblocks` rewrites the bad ranges of the part files in place, relative to the
beginning of the pool. A range that ends in the first header size is skipped and stays as it is, in
every part: in part 0 that is its place in the pool, in other parts it is not.
-/

namespace Pmdk.Sync

open List

variable {set : PoolSet} {hs cur : Health} {r p a x e d lo hi : Nat} {bb : BadBlock}
  {bbs : List BadBlock}

/-! ## Rounding -/

theorem alignDown_le (x a : Nat) : alignDown x a ≤ x := Nat.div_mul_le_self x a

theorem dvd_alignDown (x a : Nat) : a ∣ alignDown x a := Nat.dvd_mul_left a _

theorem dvd_alignUp (x a : Nat) : a ∣ alignUp x a := Nat.dvd_mul_left a _

theorem le_alignUp (ha : 0 < a) : x ≤ alignUp x a := by
  have hdiv := Nat.div_add_mod (x + a - 1) a
  have hmod := Nat.mod_lt (x + a - 1) ha
  rw [Nat.mul_comm] at hdiv
  unfold alignUp
  omega

theorem alignUp_sub (h : a ∣ d) (hle : d ≤ e) : alignUp (e - d) a = alignUp e a - d := by
  obtain ⟨k, rfl⟩ := h
  have hsum : e - a * k + a - 1 = e + a - 1 - a * k := by omega
  rw [alignUp, alignUp, hsum, Nat.sub_mul_div, Nat.sub_mul, Nat.mul_comm k]

/-! ## One range -/

def mappedBeg (set : PoolSet) (p : Nat) (bb : BadBlock) : Nat := bb.offset - set.mapOffset p

def mappedEnd (set : PoolSet) (p : Nat) (bb : BadBlock) : Nat :=
  bb.offset + bb.length - set.mapOffset p

/-- The mapped bytes of a range in the pool, rounded to the alignment of the part. There is nothing
if the range is in a header that is not mapped. -/
def image (set : PoolSet) (r p : Nat) (bb : BadBlock) : Option BadBlock :=
  let offset := alignDown (mappedBeg set p bb) (set.part r p).alignment
  if mappedBeg set p bb < mappedEnd set p bb then
    some ⟨set.partOffset r p + offset,
      alignUp (mappedEnd set p bb) (set.part r p).alignment - offset, bb.nhealthy⟩
  else none

/-- A range of which `sync_recalc_badblocks` finds the image: it is not in a skipped header; in
part 0 it is aligned already, if it ends in the first header size; and the rounded length has 32
bits. -/
structure Convertible (set : PoolSet) (r p : Nat) (bb : BadBlock) : Prop where
  data : 0 < p → set.hdrsize < bb.offset + bb.length
  aligned : p = 0 → bb.offset + bb.length ≤ set.hdrsize →
    (set.part r p).alignment ∣ bb.offset ∧ (set.part r p).alignment ∣ bb.length
  length_lt : alignUp (mappedEnd set p bb) (set.part r p).alignment -
    alignDown (mappedBeg set p bb) (set.part r p).alignment < 2 ^ 32

theorem recalcBadblock_of_le (h : bb.length + bb.offset ≤ set.hdrsize) :
    Health.recalcBadblock set r p bb = bb :=
  if_pos h

theorem recalcBadblock_of_lt (h : set.hdrsize < bb.length + bb.offset) :
    Health.recalcBadblock set r p bb =
      ⟨set.partOffset r p + alignDown (mappedBeg set p bb) (set.part r p).alignment,
        (alignUp (mappedEnd set p bb) (set.part r p).alignment -
          alignDown (mappedBeg set p bb) (set.part r p).alignment) % 2 ^ 32, bb.nhealthy⟩ := by
  have hpair : (if 0 < p ∧ 0 < set.hdrsize then
      if set.hdrsize ≤ bb.offset then (bb.offset - set.hdrsize, bb.length)
      else (0, bb.length - (set.hdrsize - bb.offset))
    else (bb.offset, bb.length)) =
      (mappedBeg set p bb, mappedEnd set p bb - mappedBeg set p bb) := by
    unfold mappedBeg mappedEnd PoolSet.mapOffset
    split
    · rw [if_neg (by omega : ¬p = 0)]
      split
      · exact Prod.ext rfl (by dsimp only; omega)
      · exact Prod.ext (by dsimp only; omega) (by dsimp only; omega)
    · have hzero : (if p = 0 then 0 else set.hdrsize) = 0 := by
        split
        · rfl
        · omega
      rw [hzero]
      exact Prod.ext rfl (by dsimp only; omega)
  have hle : mappedBeg set p bb ≤ mappedEnd set p bb :=
    Nat.sub_le_sub_right (Nat.le_add_right _ _) _
  have hdown := alignDown_le (mappedBeg set p bb) (set.part r p).alignment
  have hlength : mappedEnd set p bb - mappedBeg set p bb +
      (mappedBeg set p bb - alignDown (mappedBeg set p bb) (set.part r p).alignment) =
        mappedEnd set p bb - alignDown (mappedBeg set p bb) (set.part r p).alignment := by omega
  have hup : alignUp (mappedEnd set p bb - alignDown (mappedBeg set p bb) (set.part r p).alignment)
      (set.part r p).alignment = alignUp (mappedEnd set p bb) (set.part r p).alignment -
        alignDown (mappedBeg set p bb) (set.part r p).alignment :=
    alignUp_sub (dvd_alignDown _ _) (by omega)
  unfold Health.recalcBadblock
  rw [if_neg (by omega), hpair, ← hup, ← hlength]

theorem mappedBeg_lt_mappedEnd (h : set.mapOffset p < bb.offset + bb.length)
    (hpos : 0 < bb.length) : mappedBeg set p bb < mappedEnd set p bb := by
  unfold mappedBeg mappedEnd
  omega

/-- A range that ends in the first header size stays as it is, and so does its image if the header
is mapped and the range is aligned. -/
theorem image_eq_self_iff (ha : 0 < (set.part r 0).alignment) (hpos : 0 < bb.length) :
    image set r 0 bb = some bb ↔
      (set.part r 0).alignment ∣ bb.offset ∧ (set.part r 0).alignment ∣ bb.length := by
  have hbeg : mappedBeg set 0 bb = bb.offset := Nat.sub_zero _
  have hend : mappedEnd set 0 bb = bb.offset + bb.length := Nat.sub_zero _
  have hup : bb.offset + bb.length ≤ alignUp (bb.offset + bb.length) (set.part r 0).alignment :=
    le_alignUp ha
  rw [image, if_pos (mappedBeg_lt_mappedEnd (by unfold PoolSet.mapOffset; simp; omega) hpos),
    Option.some_inj, hbeg, hend]
  constructor
  · intro heq
    have hoffset := congrArg BadBlock.offset heq
    have hlength := congrArg BadBlock.length heq
    dsimp only [PoolSet.partOffset] at hoffset hlength
    rw [Nat.zero_add] at hoffset
    have hdvd : (set.part r 0).alignment ∣ bb.offset := hoffset ▸ dvd_alignDown _ _
    have hdvd' : (set.part r 0).alignment ∣ bb.offset + bb.length := by
      have := dvd_alignUp (bb.offset + bb.length) (set.part r 0).alignment
      rwa [show alignUp (bb.offset + bb.length) (set.part r 0).alignment =
        bb.offset + bb.length by omega] at this
    exact ⟨hdvd, (Nat.dvd_add_right hdvd).mp hdvd'⟩
  · rintro ⟨hoffset, hlength⟩
    rw [alignDown_of_dvd hoffset, alignUp_of_dvd ha (Nat.dvd_add hoffset hlength),
      Nat.add_sub_cancel_left, PoolSet.partOffset, Nat.zero_add]

theorem image_eq_recalcBadblock_iff (ha : 0 < (set.part r p).alignment) (hpos : 0 < bb.length)
    (hlt : bb.length < 2 ^ 32) :
    image set r p bb = some (Health.recalcBadblock set r p bb) ↔ Convertible set r p bb := by
  by_cases hle : bb.offset + bb.length ≤ set.hdrsize
  · rw [recalcBadblock_of_le (Nat.add_comm _ _ ▸ hle)]
    by_cases hp : p = 0
    · subst hp
      rw [image_eq_self_iff ha hpos]
      constructor
      · intro hdvd
        refine ⟨fun hp => absurd hp (Nat.lt_irrefl 0), fun _ _ => hdvd, ?_⟩
        rw [mappedBeg, mappedEnd, PoolSet.mapOffset, if_pos rfl, Nat.sub_zero, Nat.sub_zero,
          alignDown_of_dvd hdvd.1, alignUp_of_dvd ha (Nat.dvd_add hdvd.1 hdvd.2)]
        omega
      · exact fun h => h.aligned rfl hle
    · have hmap : set.mapOffset p = set.hdrsize := if_neg hp
      have hnone : image set r p bb = none :=
        if_neg (by unfold mappedBeg mappedEnd; omega)
      rw [hnone]
      exact iff_of_false (Option.some_ne_none _).symm fun h => by
        have := h.data (Nat.pos_of_ne_zero hp)
        omega
  · have hle' : set.mapOffset p < bb.offset + bb.length := by
      unfold PoolSet.mapOffset
      split <;> omega
    rw [recalcBadblock_of_lt (by omega), image, if_pos (mappedBeg_lt_mappedEnd hle' hpos),
      Option.some_inj]
    constructor
    · intro heq
      have hlength := congrArg BadBlock.length heq
      dsimp only at hlength
      refine ⟨fun _ => by omega, fun _ hle'' => absurd hle'' hle, ?_⟩
      rw [hlength]
      exact Nat.mod_lt _ (by decide)
    · intro h
      rw [Nat.mod_eq_of_lt h.length_lt]

/-! ## One part -/

theorem Row.pairwise {P : BadBlock → Prop} (h : Row P lo bbs hi) :
    bbs.Pairwise fun x y => x.offset + x.length ≤ y.offset := by
  induction bbs generalizing lo with
  | nil => exact .nil
  | cons bb bbs ih =>
    exact .cons (fun y hy => (h.2.2.2.mem hy).1) (ih h.2.2.2)

theorem Row.of_pairwise {P : BadBlock → Prop} (hle : lo ≤ hi)
    (hmem : ∀ bb ∈ bbs, lo ≤ bb.offset ∧ 0 < bb.length ∧ P bb ∧ bb.offset + bb.length ≤ hi)
    (h : bbs.Pairwise fun x y => x.offset + x.length ≤ y.offset) : Row P lo bbs hi := by
  induction bbs generalizing lo with
  | nil => exact hle
  | cons bb bbs ih =>
    obtain ⟨hbefore, hrest⟩ := pairwise_cons.mp h
    obtain ⟨hlo, hpos, hp, hend⟩ := hmem bb mem_cons_self
    refine ⟨hlo, hpos, hp, ih hend (fun x hx => ?_) hrest⟩
    exact ⟨hbefore x hx, (hmem x (mem_cons_of_mem bb hx)).2⟩

theorem filterMap_eq_map_iff {f : BadBlock → BadBlock} {g : BadBlock → Option BadBlock} :
    bbs.map f = bbs.filterMap g ↔ ∀ bb ∈ bbs, g bb = some (f bb) := by
  induction bbs with
  | nil => simp
  | cons bb bbs ih =>
    rw [map_cons, forall_mem_cons, ← ih]
    cases hg : g bb with
    | none =>
      rw [filterMap_cons_none hg]
      refine iff_of_false (fun heq => ?_) fun hand => absurd hand.1 nofun
      have hlength := congrArg List.length heq
      have := length_filterMap_le g bbs
      rw [length_cons, length_map] at hlength
      omega
    | some bb' =>
      rw [filterMap_cons_some hg, List.cons.injEq, Option.some_inj]
      exact and_congr_left' eq_comm

theorem image_eq_some {bb' : BadBlock} (h : image set r p bb = some bb')
    (ha : 0 < (set.part r p).alignment) :
    bb'.offset = set.partOffset r p + alignDown (mappedBeg set p bb) (set.part r p).alignment ∧
      bb'.offset + bb'.length =
        set.partOffset r p + alignUp (mappedEnd set p bb) (set.part r p).alignment ∧
      0 < bb'.length ∧ bb'.nhealthy = bb.nhealthy := by
  unfold image at h
  dsimp only at h
  split at h
  · obtain rfl := Option.some_inj.mp h
    have hdown := alignDown_le (mappedBeg set p bb) (set.part r p).alignment
    have hup : mappedEnd set p bb ≤ alignUp (mappedEnd set p bb) (set.part r p).alignment :=
      le_alignUp ha
    exact ⟨rfl, by dsimp only; omega, by dsimp only; omega, rfl⟩
  · exact absurd h nofun

/-- The bad ranges of the part `p` of which `sync_recalc_badblocks` finds the images: they are
mapped, and no two of them are in the same aligned block. -/
structure RangesConvertible (set : PoolSet) (r p : Nat) (bbs : List BadBlock) : Prop where
  each : ∀ bb ∈ bbs, Convertible set r p bb
  mapped : ∀ bb ∈ bbs,
    alignUp (mappedEnd set p bb) (set.part r p).alignment ≤ set.partSize r p
  apart : bbs.Pairwise fun x y => alignUp (mappedEnd set p x) (set.part r p).alignment ≤
    alignDown (mappedBeg set p y) (set.part r p).alignment

theorem row_images_iff (ha : 0 < (set.part r p).alignment)
    (himage : ∀ bb ∈ bbs, image set r p bb = some (Health.recalcBadblock set r p bb))
    (hrow : ∀ bb ∈ bbs, Unmerged bb) :
    Row Unmerged (set.partOffset r p) (bbs.map (Health.recalcBadblock set r p))
        (set.partOffset r (p + 1)) ↔
      (∀ bb ∈ bbs, alignUp (mappedEnd set p bb) (set.part r p).alignment ≤ set.partSize r p) ∧
        bbs.Pairwise fun x y => alignUp (mappedEnd set p x) (set.part r p).alignment ≤
          alignDown (mappedBeg set p y) (set.part r p).alignment := by
  have hpair : (bbs.map (Health.recalcBadblock set r p)).Pairwise
      (fun x y => x.offset + x.length ≤ y.offset) ↔
        bbs.Pairwise fun x y => alignUp (mappedEnd set p x) (set.part r p).alignment ≤
          alignDown (mappedBeg set p y) (set.part r p).alignment := by
    rw [pairwise_map]
    refine List.Pairwise.iff_of_mem fun {x y} hx hy => ?_
    rw [(image_eq_some (himage x hx) ha).2.1, (image_eq_some (himage y hy) ha).1]
    exact Nat.add_le_add_iff_left
  have hend : set.partOffset r (p + 1) = set.partOffset r p + set.partSize r p := rfl
  constructor
  · intro h
    refine ⟨fun bb hbb => ?_, hpair.mp h.pairwise⟩
    have hin := (h.mem (mem_map_of_mem hbb)).2.2.2
    rw [(image_eq_some (himage bb hbb) ha).2.1, hend] at hin
    omega
  · rintro ⟨hmapped, hapart⟩
    refine .of_pairwise (set.partOffset_mono r (Nat.le_succ p)) (fun bb' hbb' => ?_)
      (hpair.mpr hapart)
    obtain ⟨bb, hbb, rfl⟩ := mem_map.mp hbb'
    obtain ⟨hoffset, hsum, hpos, hnhealthy⟩ := image_eq_some (himage bb hbb) ha
    have := hmapped bb hbb
    exact ⟨by omega, hpos, hnhealthy.trans (hrow bb hbb), by omega⟩

/-! ## All parts -/

/-- The bad ranges of the part files: sorted, disjoint and not empty, with lengths of 32 bits. The
marks are set where there are some. -/
structure Health.FileRanges (set : PoolSet) (hs : Health) : Prop where
  marked : ∀ r p, (hs.part r p).hasBadBlocks = !(hs.part r p).bbs.isEmpty
  replica : ∀ r p, r < set.nreplicas → p < set.nparts r → (hs.part r p).hasBadBlocks = true →
    (hs.replica r).hasBadBlocks = true
  row : ∀ r p, r < set.nreplicas → p < set.nparts r →
    ∃ hi, Row (fun bb => Unmerged bb ∧ bb.length < 2 ^ 32) 0 (hs.part r p).bbs hi

/-- The ranges are translated exactly: the lists hold the images, sorted and disjoint, and what is
copied to a part, for its whole bad blocks or for the pieces that the analysis of the overlaps
makes of them, is in the mapping of the part. -/
structure Health.Translated (set : PoolSet) (hs : Health) : Prop where
  images : ∀ r p, r < set.nreplicas → p < set.nparts r →
    ((hs.recalcBadblocks set).part r p).bbs = (hs.part r p).bbs.filterMap (image set r p)
  sorted : ∀ r p, r < set.nreplicas → p < set.nparts r →
    ∃ lo hi, Row Unmerged lo ((hs.recalcBadblocks set).part r p).bbs hi
  copies : ∀ cur, cur = hs.recalcBadblocks set ∨
      (hs.recalcBadblocks set).checkBadBlocksOverlap set = some (some cur) →
    ∀ r p, r < set.nreplicas → p < set.nparts r → (cur.part r p).hasBadBlocks = true →
      ∀ bb ∈ (cur.part r p).bbs,
        set.partOffset r p ≤ bb.offset ∧ bb.offset + bb.length ≤ set.partOffset r (p + 1)

theorem Health.FileRanges.recalc_bbs (h : hs.FileRanges set) :
    ((hs.recalcBadblocks set).part r p).bbs = (hs.part r p).bbs.map (recalcBadblock set r p) := by
  rw [recalcBadblocks]
  dsimp only
  by_cases hmark : (hs.part r p).hasBadBlocks = true
  · rw [if_pos hmark]
  · rw [if_neg hmark]
    rw [h.marked r p, Bool.not_eq_true, Bool.not_eq_false'] at hmark
    rw [List.isEmpty_iff.mp hmark, map_nil]

theorem Health.recalc_hasBadBlocks :
    ((hs.recalcBadblocks set).part r p).hasBadBlocks = (hs.part r p).hasBadBlocks := by
  rw [recalcBadblocks]
  dsimp only
  rw [apply_ite PartHealth.hasBadBlocks, ite_self]

theorem Health.FileRanges.images_iff (h : hs.FileRanges set)
    (halign : ∀ r p, 0 < (set.part r p).alignment) (hr : r < set.nreplicas)
    (hp : p < set.nparts r) :
    ((hs.recalcBadblocks set).part r p).bbs = (hs.part r p).bbs.filterMap (image set r p) ↔
      ∀ bb ∈ (hs.part r p).bbs, Convertible set r p bb := by
  obtain ⟨hi, hrow⟩ := h.row r p hr hp
  rw [h.recalc_bbs, filterMap_eq_map_iff]
  refine forall₂_congr fun bb hbb => ?_
  obtain ⟨-, hpos, ⟨-, hlt⟩, -⟩ := hrow.mem hbb
  exact image_eq_recalcBadblock_iff (halign r p) hpos hlt

theorem Health.FileRanges.row_iff (h : hs.FileRanges set)
    (halign : ∀ r p, 0 < (set.part r p).alignment) (hr : r < set.nreplicas) (hp : p < set.nparts r)
    (himages : ((hs.recalcBadblocks set).part r p).bbs =
      (hs.part r p).bbs.filterMap (image set r p)) :
    Row Unmerged (set.partOffset r p) ((hs.recalcBadblocks set).part r p).bbs
        (set.partOffset r (p + 1)) ↔ RangesConvertible set r p (hs.part r p).bbs := by
  obtain ⟨hi, hrow⟩ := h.row r p hr hp
  have hconv := (h.images_iff halign hr hp).mp himages
  rw [h.recalc_bbs] at himages ⊢
  rw [row_images_iff (halign r p) (filterMap_eq_map_iff.mp himages)
    fun bb hbb => (hrow.mem hbb).2.2.1.1]
  exact ⟨fun ⟨hmapped, hapart⟩ => ⟨hconv, hmapped, hapart⟩, fun h => ⟨h.mapped, h.apart⟩⟩

/-- The pieces that the analysis makes cover what was bad before, so they are in the same part. -/
theorem Health.FileRanges.pieces_mapped (h : hs.FileRanges set)
    (hrow : ∀ r p, r < set.nreplicas → p < set.nparts r → Row Unmerged (set.partOffset r p)
      ((hs.recalcBadblocks set).part r p).bbs (set.partOffset r (p + 1)))
    (hcheck : (hs.recalcBadblocks set).checkBadBlocksOverlap set = some (some cur))
    (hr : r < set.nreplicas) (hp : p < set.nparts r) (hmark : (cur.part r p).hasBadBlocks = true)
    (hbb : bb ∈ (cur.part r p).bbs) :
    set.partOffset r p ≤ bb.offset ∧ bb.offset + bb.length ≤ set.partOffset r (p + 1) := by
  obtain ⟨hi, hdiv⟩ := exists_allDivided (fun r p hr hp _ => hrow r p hr hp)
    fun r p hr hp hmark => h.replica r p hr hp (recalc_hasBadBlocks ▸ hmark)
  have hpart := (hdiv.assigned hcheck).before r p hr hp
  obtain ⟨lo, hi, hnew⟩ := hpart.row (hpart.hasBadBlocks ▸ hmark)
  have hlen := (hnew.mem hbb).2.1
  have hin : ∀ b, bb.Has b → set.partOffset r p ≤ b ∧ b < set.partOffset r (p + 1) :=
    fun b hb => (hrow r p hr hp).covers ((hpart.covers b).mp ⟨bb, hbb, hb⟩)
  have hfirst := hin bb.offset ⟨Nat.le_refl _, by omega⟩
  have hlast := hin (bb.offset + bb.length - 1) ⟨by omega, by omega⟩
  exact ⟨hfirst.1, by omega⟩

/-- `sync_recalc_badblocks` translates the ranges of all parts exactly when they can be
converted. -/
theorem recalcBadblocks_translated_iff (set : PoolSet) (hs : Health)
    (halign : ∀ r p, 0 < (set.part r p).alignment) (h : hs.FileRanges set) :
    hs.Translated set ↔ ∀ r p, r < set.nreplicas → p < set.nparts r →
      RangesConvertible set r p (hs.part r p).bbs := by
  constructor
  · intro ht r p hr hp
    refine (h.row_iff halign hr hp (ht.images r p hr hp)).mp ?_
    obtain ⟨lo, hi, hsorted⟩ := ht.sorted r p hr hp
    refine .of_pairwise (set.partOffset_mono r (Nat.le_succ p)) (fun bb hbb => ?_) hsorted.pairwise
    have hmark : ((hs.recalcBadblocks set).part r p).hasBadBlocks = true := by
      rw [Health.recalc_hasBadBlocks, h.marked r p, Bool.not_eq_true', List.isEmpty_eq_false_iff]
      rw [h.recalc_bbs] at hbb
      exact fun hnil => List.not_mem_nil (List.map_nil ▸ hnil ▸ hbb)
    obtain ⟨hlo, hend⟩ := ht.copies _ (.inl rfl) r p hr hp hmark bb hbb
    obtain ⟨-, hpos, hun, -⟩ := hsorted.mem hbb
    exact ⟨hlo, hpos, hun, hend⟩
  · intro hc
    have himages : ∀ r p, r < set.nreplicas → p < set.nparts r →
        ((hs.recalcBadblocks set).part r p).bbs = (hs.part r p).bbs.filterMap (image set r p) :=
      fun r p hr hp => (h.images_iff halign hr hp).mpr (hc r p hr hp).each
    have hrow : ∀ r p, r < set.nreplicas → p < set.nparts r → Row Unmerged (set.partOffset r p)
        ((hs.recalcBadblocks set).part r p).bbs (set.partOffset r (p + 1)) :=
      fun r p hr hp => (h.row_iff halign hr hp (himages r p hr hp)).mpr (hc r p hr hp)
    refine ⟨himages, fun r p hr hp => ⟨_, _, hrow r p hr hp⟩, ?_⟩
    rintro cur (rfl | hcheck) r p hr hp hmark bb hbb
    · have hin := (hrow r p hr hp).mem hbb
      exact ⟨hin.1, hin.2.2.2⟩
    · exact h.pieces_mapped hrow hcheck hr hp hmark hbb

def headersSet : PoolSet where
  nreplicas := 2
  nparts _ := 2
  part _ _ := ⟨16384, 4096⟩
  singlehdr := false
  mmapAlign := 4096

def withRange (bb : BadBlock) : Health where
  replica r := ⟨false, false, r = 0, false, 28672⟩
  part r p := ⟨false, r = 0 ∧ p = 1, false, if r = 0 ∧ p = 1 then [bb] else []⟩

theorem withRange_fileRanges (hun : Unmerged bb) (hpos : 0 < bb.length)
    (hlt : bb.length < 2 ^ 32) : (withRange bb).FileRanges headersSet where
  marked r p := by
    dsimp only [withRange]
    split
    · rename_i h
      exact decide_eq_true h
    · rename_i h
      exact decide_eq_false h
  replica r p _ _ hmark := decide_eq_true (of_decide_eq_true hmark).1
  row r p _ _ := by
    dsimp only [withRange]
    split
    · exact ⟨_, Nat.zero_le _, hpos, ⟨hun, hlt⟩, Nat.le_refl _⟩
    · exact ⟨0, Nat.le_refl 0⟩

/-- A range of the second page of the part is converted. -/
theorem recalcBadblocks_translated_second :
    (withRange ⟨4096, 4096, none⟩).Translated headersSet := by
  have hranges := withRange_fileRanges (show Unmerged ⟨4096, 4096, none⟩ from rfl)
    (by decide) (by decide)
  refine (recalcBadblocks_translated_iff headersSet _ (fun _ _ => Nat.succ_pos 4095)
    hranges).mpr fun r p hr hp => ?_
  dsimp only [withRange]
  split
  · rename_i h
    obtain ⟨rfl, rfl⟩ := h
    refine ⟨?_, ?_, List.pairwise_singleton _ _⟩
    · rw [List.forall_mem_singleton]
      exact ⟨fun _ => by decide, fun h => by omega, by decide⟩
    · rw [List.forall_mem_singleton]
      decide
  · exact ⟨by simp, by simp, .nil⟩

/-- A range in the header of a part that is mapped without it keeps its place, and that is in
another part. -/
theorem recalcBadblocks_header :
    (withRange ⟨0, 4096, none⟩).FileRanges headersSet ∧
      ¬(withRange ⟨0, 4096, none⟩).Translated headersSet := by
  refine ⟨withRange_fileRanges rfl (by decide) (by decide), fun h => ?_⟩
  have himages := h.images 0 1 (by decide) (by decide)
  exact absurd himages (by decide)

end Pmdk.Sync
