import Pmdk.Blk.BttFlogMap

/-!
# The zeroes of a fresh layout

For a namespace that is not known to be zeroed `write_layout` zeroes the map of each arena, at the
offset that the map has in its arena, from the beginning of the namespace on. So the map of the
first arena is zeroed, and the maps of the other ones are not.
-/

namespace Pmdk.Btt.Raw

open List

variable {b : Bttp} {l : List Placed} {p q : Placed} {m m' : Media} {r : Layout} {k : Nat}

def flogBlock (pair : Bool → Flog) : Option UInt32 :=
  (flogGetValid pair).map fun current => current.1.oldMap &&& mapEntryLbaMask

structure Placed.Holds (p : Placed) (m : Media) : Prop where
  one : ∀ pair ∈ p.pairs m, (pair false).seq ≠ 0 ∧ (pair true).seq = 0 ∨
    (pair false).seq = 0 ∧ (pair true).seq ≠ 0
  block : ∀ pair ∈ p.pairs m, ∃ lba ∈ flogBlock pair,
    p.info.externalNlba ≤ lba ∧ lba < p.info.internalNlba
  nodup : ((p.pairs m).map flogBlock).Nodup

structure Fresh (b : Bttp) (l : List Placed) (m : Media) : Prop where
  map : ∀ p ∈ l, ∀ k < p.info.externalNlba.toNat,
    mapEntryIsInitial (m.word (p.off.toNat + p.info.mapoff.toNat + 4 * k)) = true
  flogs : ∀ p ∈ l, p.Holds m
  own : ∀ p ∈ l, ∀ w ∈ arenaWrites b p,
    p.off.toNat ≤ w.off ∧ w.off + w.len ≤ p.off.toNat + p.size.toNat

/-- With two arenas, zeroes for the second one are written to the first one. -/
theorem Chain.not_fresh (h : Chain b 0 b.rawsize.toNat l) (hzeroed : b.nsIsZeroed = false)
    (hlen : 2 ≤ l.length) : ¬ Fresh b l m := by
  intro hfresh
  cases l with
  | nil => cases hlen
  | cons p l =>
    cases l with
    | nil => exact absurd hlen (show ¬ 2 ≤ 1 by decide)
    | cons q l =>
      have hql : q ∈ p :: q :: l := mem_cons_of_mem p (mem_cons_self ..)
      have hlt := b.rawsize.toNat_lt
      have hend := h.sound.inside q hql
      have hq := (h.bounds hql).1
      obtain ⟨-, -, -, hmap, -, hflogs⟩ := hq.inside (by omega)
      obtain ⟨-, -, -, -, -, hqoff, -⟩ := h
      have hmax := hq.max
      have hmem : ⟨q.info.mapoff.toNat, (bttMapSize q.info.externalNlba).toNat, fun _ => 0⟩ ∈
          arenaWrites b q := by
        unfold arenaWrites
        rw [if_neg (by rw [hzeroed]; exact Bool.false_ne_true)]
        exact mem_append_left _ (mem_append_left _ (mem_singleton_self _))
      have hown := (hfresh.own q hql _ hmem).1
      dsimp only at hown
      omega

/-! ## One arena -/

theorem Placed.Good.own (hp : p.Good b) (hoff : p.off.toNat = 0) {w : Write}
    (hw : w ∈ arenaWrites b p) :
    p.off.toNat ≤ w.off ∧ w.off + w.len ≤ p.off.toNat + p.size.toNat := by
  have hmax := hp.max
  have hin := hp.inside (by omega)
  have hinfooff := hp.areas.info
  obtain ⟨-, hflogoff, hinfo, hmap, -, hflogs⟩ := hin
  rcases mem_arenaWrites hp (by omega) hw with ⟨hle, hend⟩ | hw | ⟨heq, hlen⟩ | ⟨heq, hlen⟩
  · omega
  · obtain ⟨hle, hend⟩ := flogWrites_bounds (by omega) hw
    omega
  · omega
  · omega

theorem Placed.Good.word_map (hp : p.Good b) (hzeroed : b.nsIsZeroed = false)
    (hoff : p.off.toNat = 0) (hk : k < p.info.externalNlba.toNat) (m : Media) :
    ((arenaWrites b p).foldl Media.apply m).word (p.off.toNat + p.info.mapoff.toNat + 4 * k) =
      0 := by
  have hmax := hp.max
  obtain ⟨-, hflogoff, hinfo, hmap, hentries, hflogs⟩ := hp.inside (by omega)
  have hinfooff := hp.areas.info
  have hinfooff' : (p.off + p.info.infooff).toNat = p.off.toNat + p.info.infooff.toNat :=
    toNat_add_off (by omega)
  have hnfree : BTT_DEFAULT_NFREE.toNat = 256 := rfl
  unfold arenaWrites
  rw [if_neg (by rw [hzeroed]; exact Bool.false_ne_true), append_assoc, foldl_append,
    foldl_cons, foldl_nil]
  have havoids : ∀ w ∈ flogWrites p.info.externalNlba BTT_DEFAULT_NFREE.toNat 0
      (p.off + p.info.flogoff) ++ [⟨p.off.toNat, infoSize, p.info.sealed.word⟩,
        ⟨(p.off + p.info.infooff).toNat, infoSize, p.info.sealed.word⟩],
      w.Avoids (p.off.toNat + p.info.mapoff.toNat) (4 * p.info.externalNlba.toNat) := by
    intro w hw
    unfold Write.Avoids
    rcases mem_append.mp hw with hw | hw
    · obtain ⟨hle, hend⟩ := flogWrites_bounds (by omega) hw
      omega
    · simp only [mem_cons, not_mem_nil, or_false] at hw
      rcases hw with rfl | rfl
      · dsimp only [infoSize]
        omega
      · dsimp only [infoSize]
        omega
  rw [word_foldl_apply havoids (by omega), hoff, Nat.zero_add, Media.apply,
    Media.word_write_of_mem (by dsimp only; omega)]

theorem flogBlock_fresh {externalNlba i : UInt32} (h : externalNlba.toNat + i.toNat < 2 ^ 30) :
    flogBlock (fun e => if e then ⟨0, 0, 0, 0⟩ else freshFlog externalNlba i) =
      some (externalNlba + i) := by
  have hadd : (externalNlba + i).toNat < 2 ^ 30 := by
    rw [UInt32.toNat_add, Nat.mod_eq_of_lt (by omega)]
    exact h
  exact congrArg some (setFlags_and_mask_of_lt (by decide) hadd)

theorem Media.flogPairs_eq (m : Media) (n off : Nat) :
    m.flogPairs n off = (List.range n).map fun k => m.flogPair (off + 64 * k) := by
  induction n generalizing off with
  | zero => rfl
  | succ n ih =>
    rw [flogPairs, ih, range_succ_eq_map, map_cons, map_map]
    refine congrArg _ (map_congr_left fun k _ => ?_)
    simp only [Function.comp_apply, Nat.mul_succ]
    congr 1
    omega

theorem Placed.FlogsOn.holds (h : p.FlogsOn m) (hp : p.Good b) : p.Holds m := by
  have hext := hp.areas.externalNlba
  have hint := hp.areas.internalNlba
  have hblock : ∀ k < 256, flogBlock (fun e => if e then ⟨0, 0, 0, 0⟩ else
      freshFlog p.info.externalNlba (UInt32.ofNat k)) =
        some (p.info.externalNlba + UInt32.ofNat k) := fun k hk =>
    flogBlock_fresh (by rw [UInt32.toNat_ofNat_of_lt' (Nat.lt_trans hk (by decide))]; omega)
  have htoNat : ∀ k < 256, (p.info.externalNlba + UInt32.ofNat k).toNat =
      p.info.externalNlba.toNat + k := by
    intro k hk
    rw [UInt32.toNat_add, UInt32.toNat_ofNat_of_lt' (Nat.lt_trans hk (by decide))]
    exact Nat.mod_eq_of_lt (by omega)
  refine ⟨fun pair hpair => ?_, fun pair hpair => ?_, ?_⟩
  · obtain ⟨k, hk, rfl⟩ := mem_flogPairs hpair
    rw [h k hk]
    exact .inl ⟨show (1 : UInt32) ≠ 0 by decide, rfl⟩
  · obtain ⟨k, hk, rfl⟩ := mem_flogPairs hpair
    rw [h k hk, hblock k hk]
    refine ⟨_, rfl, ?_, ?_⟩
    · rw [UInt32.le_iff_toNat_le, htoNat k hk]
      omega
    · rw [UInt32.lt_iff_toNat_lt, htoNat k hk]
      omega
  · unfold Placed.pairs
    rw [Media.flogPairs_eq, map_map]
    refine List.Nodup.map_on (fun j hj k hk heq => ?_) nodup_range
    have hj := mem_range.mp hj
    have hk := mem_range.mp hk
    rw [Function.comp_apply, Function.comp_apply, h j hj, h k hk, hblock j hj, hblock k hk] at heq
    have hsame := congrArg UInt32.toNat (Option.some.inj heq)
    rw [htoNat j hj, htoNat k hk] at hsame
    omega

theorem Chain.loadArenas_fresh (h : Chain b 0 b.rawsize.toNat l) {nlba : UInt64}
    (hon : ∀ p ∈ l, p.InfoOn m ∧ p.FlogsOn m)
    (hload : Raw.loadArenas l.length nlba BTT_DEFAULT_NFREE m = some (r, m')) :
    ∀ x, (∀ p ∈ l, p.Outside 0 x) → m'.word x = m.word x :=
  ((h.loadArenas _ (fun _ => 0) (fun _ _ => Nat.zero_le _) (fun p hp => (hon p hp).1)
    fun p hp _ hpair => (hon p hp).2.within (takeWhile_subset _ hpair)).2 r m' hload).2

theorem Placed.Outside.zero {n x : Nat} (h : p.Outside n x) : p.Outside 0 x :=
  h.imp_right fun h => Nat.le_trans (Nat.le_add_right _ _) h

theorem Chain.fresh (h : Chain b 0 b.rawsize.toNat l) (hzeroed : b.nsIsZeroed = false)
    (hlen : l.length ≤ 1)
    (halign : 64 ∣ b.rawsize.toNat ∨ b.rawsize.toNat % 2 ^ 39 < 2 ^ 24) {nlba : UInt64}
    (hload : Raw.loadArenas l.length nlba BTT_DEFAULT_NFREE (written b l m) = some (r, m')) :
    Fresh b l m' := by
  have hon : ∀ p ∈ l, p.InfoOn (written b l m) ∧ p.FlogsOn (written b l m) := fun p hp =>
    ⟨(h.written_on m hp).1, (h.written_on m hp).2 (h.dvd_flogs halign hp)⟩
  have hword := h.loadArenas_fresh hon hload
  have hsingle : ∀ p ∈ l, l = [p] ∧ p.off.toNat = 0 := by
    intro p hp
    cases l with
    | nil => cases hp
    | cons q l =>
      have hnil : l = [] := eq_nil_of_length_eq_zero (Nat.le_zero.mp (Nat.le_of_succ_le_succ hlen))
      subst hnil
      rw [mem_singleton.mp hp]
      exact ⟨rfl, h.2.1⟩
  refine ⟨fun p hp k hk => ?_, fun p hp => ?_, fun p hp w hw => ?_⟩
  · obtain ⟨hl, hoff⟩ := hsingle p hp
    have hp := (h.bounds hp).1
    rw [hword]
    · rw [hl, written_cons]
      unfold written
      rw [flatMap_nil, foldl_nil, hp.word_map hzeroed hoff hk]
      decide
    · rw [hl]
      refine forall_mem_singleton.mpr (.inr ?_)
      omega
  · have hpairs := (h.congr (fun x hx => hword x fun q hq => (hx q hq).zero) hp).2
    have hholds := (hon p hp).2.holds (h.bounds hp).1
    exact ⟨hpairs ▸ hholds.one, hpairs ▸ hholds.block, hpairs ▸ hholds.nodup⟩
  · exact (h.bounds hp).1.own (hsingle p hp).2 hw

/-- The layout that `write_layout` leaves behind is fresh if there is one arena whose flogs begin
at a multiple of 64, and never with more arenas. -/
theorem fresh_iff_one_arena (h : writeLayout b m = some (r, m')) (hzeroed : b.nsIsZeroed = false) :
    ∃ l, layoutLoop b b.rawsize 0 = some l ∧
      (64 ∣ b.rawsize.toNat ∨ b.rawsize.toNat % 2 ^ 39 < 2 ^ 24 →
        (Fresh b l m' ↔ b.rawsize.toNat < 2 ^ 39 + 2 ^ 24)) ∧
      (2 ^ 39 + 2 ^ 24 ≤ b.rawsize.toNat → ¬ Fresh b l m') := by
  obtain ⟨hlbasize, l, hl, hload⟩ := writeLayout_eq_some h
  have hchain := chain_of_layout hlbasize hl
  have hlen := hchain.length_eq
  rw [hchain.sound.narena] at hload
  have hmany : 2 ^ 39 + 2 ^ 24 ≤ b.rawsize.toNat → ¬ Fresh b l m' := by
    refine fun hle => hchain.not_fresh hzeroed ?_
    split at hlen
    · omega
    · omega
  refine ⟨l, hl, fun halign => ⟨fun hfresh => ?_, fun hone => ?_⟩, hmany⟩
  · by_contra hge
    exact hmany (Nat.le_of_not_lt hge) hfresh
  · refine hchain.fresh hzeroed ?_ halign hload
    split at hlen
    · omega
    · omega

theorem fresh_oneArena : ∃ b l r m', b.rawsize = BTT_MIN_SIZE ∧
    writeLayout b (fun _ => 0xff) = some (r, m') ∧ layoutLoop b b.rawsize 0 = some l ∧
      Fresh b l m' := by
  generalize hb : Bttp.mk BTT_MIN_SIZE 512 ⟨0, 0, 0, 0⟩ ⟨0, 0, 0, 0⟩ false = b
  have hsome : (layoutLoop b b.rawsize 0).isSome = true := by
    rw [← hb]
    refine isSome_layoutLoop (by decide) (by decide +kernel) (fun off => ?_) 0
    rw [layoutLoop_of_lt (by decide)]
    rfl
  have hlbasize : internalLbasize b.lbasize ≠ 0 := by
    rw [← hb]
    decide
  have hrawsize : b.rawsize.toNat = 2 ^ 24 := by
    rw [← hb]
    rfl
  have hzeroed : b.nsIsZeroed = false := by rw [← hb]
  obtain ⟨l, hl⟩ := Option.isSome_iff_exists.mp hsome
  have halign : 64 ∣ b.rawsize.toNat := by
    rw [hrawsize]
    decide
  have hchain := chain_of_layout hlbasize hl
  obtain ⟨⟨r, m'⟩, h⟩ := Option.isSome_iff_exists.mp
    (hchain.isSome_writeLayout hlbasize hl (.inl halign) fun _ => 0xff)
  obtain ⟨l, hl, hiff, -⟩ := fresh_iff_one_arena h hzeroed
  exact ⟨b, l, r, m', by rw [← hb], h, hl, (hiff (.inl halign)).mpr (by rw [hrawsize]; decide)⟩

theorem word_map_second (h : Chain (twoArenas 0) 0 (twoArenas 0).rawsize.toNat [p, q]) (m : Media) :
    (written (twoArenas 0) [p, q] m).word (q.off.toNat + q.info.mapoff.toNat) =
      m.word (q.off.toNat + q.info.mapoff.toNat) := by
  obtain ⟨hpoff, hpsize, -, hqoff, hqsize, hqnlba, hmapoff, hflogoff⟩ :=
    numbers (n := 0) rfl (by decide) h
  have hp := (h.bounds (mem_cons_self ..)).1
  have hq := (h.bounds (mem_cons_of_mem p (mem_cons_self ..))).1
  have hown := fun w hw => hp.own (w := w) hpoff hw
  have hinfooff := hq.areas.info
  obtain ⟨-, hflogoff', -, hmap, -, hflogs⟩ := hq.inside (by omega)
  have havoids : ∀ w ∈ [p, q].flatMap (arenaWrites (twoArenas 0)),
      w.Avoids (q.off.toNat + q.info.mapoff.toNat) 4 := by
    intro w hw
    unfold Write.Avoids
    rw [flatMap_cons, flatMap_singleton] at hw
    rcases mem_append.mp hw with hw | hw
    · have hend := (hown w hw).2
      omega
    · rcases mem_arenaWrites hq (by omega) hw with ⟨hle, hend⟩ | hw | ⟨heq, hlen⟩ | ⟨heq, hlen⟩
      · omega
      · obtain ⟨hle, -⟩ := flogWrites_bounds (by omega) hw
        omega
      · omega
      · omega
  exact word_foldl_apply (k := 0) havoids (by decide) m

/-- The first map entry of the second arena is what has been there before. -/
theorem not_fresh_twoArenas : ∃ r m' l, writeLayout (twoArenas 0) (fun _ => 0xff) = some (r, m') ∧
    layoutLoop (twoArenas 0) (twoArenas 0).rawsize 0 = some l ∧ ¬ Fresh (twoArenas 0) l m' ∧
      ∃ p ∈ l, mapEntryIsInitial (m'.word (p.off.toNat + p.info.mapoff.toNat)) = false := by
  obtain ⟨p, q, hl, hchain⟩ := twoArenas_layout (.inl rfl)
  obtain ⟨hpoff, hpsize, -, hqoff, -, -, hmapoff, -⟩ := numbers (n := 0) rfl (by decide) hchain
  have halign : 64 ∣ (twoArenas 0).rawsize.toNat := by decide
  obtain ⟨⟨r, m'⟩, h⟩ := Option.isSome_iff_exists.mp
    (hchain.isSome_writeLayout (by decide) hl (.inl halign) fun _ => 0xff)
  have hload := (writeLayout_eq_some h).2
  obtain ⟨l, hl', hload⟩ := hload
  cases hl.symm.trans hl'
  rw [hchain.sound.narena] at hload
  have hword := hchain.loadArenas_fresh (fun i hi => ⟨(hchain.written_on _ hi).1,
    (hchain.written_on _ hi).2 (hchain.dvd_flogs (.inl halign) hi)⟩) hload
      (q.off.toNat + q.info.mapoff.toNat) (by
        have hp := (hchain.bounds (List.mem_cons_self ..)).1.inside (by omega)
        obtain ⟨-, -, -, hmap, -, hflogs⟩ := hp
        unfold Placed.Outside
        refine List.forall_mem_cons.mpr ⟨?_, List.forall_mem_singleton.mpr ?_⟩
        · omega
        · omega)
  rw [word_map_second hchain] at hword
  refine ⟨r, m', [p, q], h, hl, hchain.not_fresh rfl (Nat.le_refl 2), q,
    List.mem_cons_of_mem p (List.mem_cons_self ..), ?_⟩
  rw [hword]
  change mapEntryIsInitial (Checksum.le32 0xff 0xff 0xff 0xff) = false
  decide

end Pmdk.Btt.Raw
