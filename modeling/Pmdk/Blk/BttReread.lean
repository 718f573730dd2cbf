import Mathlib.Algebra.Order.BigOperators.Group.List
import Pmdk.Blk.BttReplay

/-!
# Reading a layout twice

`write_layout` ends with `read_arenas`, which may already recover flogs, namely those that it finds
where it has not written any. The next `read_layout` finds the same arenas if the recovery has not
left the maps.
-/

namespace Pmdk.Btt.Raw

open List

variable {b : Bttp} {l : List Placed} {p q : Placed} {m m' : Media} {r : Layout} {nlba : UInt64}

structure Sound (b : Bttp) (l : List Placed) : Prop where
  narena : narena b.rawsize = l.length
  exact : ∀ p ∈ l, Exact p.size.toNat b.lbasize.toNat p.info
  internalNlba : ∀ p ∈ l, p.info.internalNlba.toNat < 2 ^ 30
  externalNlba : ∀ p ∈ l, p.info.externalNlba.toNat + p.info.nfree.toNat = p.info.internalNlba.toNat
  areas : ∀ p ∈ l, (areas p.info).Pairwise (fun x y => x.1 + x.2 ≤ y.1) ∧
    ∀ x ∈ areas p.info, x.1 + x.2 ≤ p.size.toNat
  arenas : l.Pairwise fun p q => p.off.toNat + p.size.toNat ≤ q.off.toNat
  inside : ∀ p ∈ l, p.off.toNat + p.size.toNat ≤ b.rawsize.toNat

theorem Chain.sound (h : Chain b 0 b.rawsize.toNat l) : Sound b l where
  narena := by rw [narena_eq, h.length_eq]
  exact p hp := (h.bounds hp).1.exact
  internalNlba p hp := (h.bounds hp).1.areas.internalNlba
  externalNlba p hp := by
    rw [(h.bounds hp).1.exact.nfree]
    exact (h.bounds hp).1.areas.externalNlba
  areas p hp := (h.bounds hp).1.pairwise_areas
  arenas := h.pairwise
  inside p hp := by
    have hend := (h.bounds hp).2.2
    rwa [Nat.zero_add] at hend

/-! ## Between the arenas -/

def Placed.room (p : Placed) : Nat := (bttMapSize p.info.externalNlba).toNat / 4

theorem Placed.room_le (p : Placed) : 4 * p.room ≤ (bttMapSize p.info.externalNlba).toNat :=
  Nat.mul_div_le _ _

theorem Sound.apart (h : Sound b l) (hp : p ∈ l) (hq : q ∈ l) :
    p = q ∨ p.off.toNat + p.size.toNat ≤ q.off.toNat ∨ q.off.toNat + q.size.toNat ≤ p.off.toNat :=
  List.Pairwise.forall_of_forall_of_flip (R := fun p q : Placed => p = q ∨
      p.off.toNat + p.size.toNat ≤ q.off.toNat ∨ q.off.toNat + q.size.toNat ≤ p.off.toNat)
    (fun _ _ => .inl rfl) (h.arenas.imp fun h => .inr (.inl h)) (h.arenas.imp fun h => .inr
        (.inr h))
    hp hq

/-- No map reaches an info block at the beginning of an arena, or flogs. -/
theorem Chain.outside (h : Chain b 0 b.rawsize.toNat l) (hp : p ∈ l) (hq : q ∈ l) {x : Nat}
    (hx : p.off.toNat ≤ x ∧ x + 4 ≤ p.off.toNat + 4096 ∨ p.off.toNat + p.info.flogoff.toNat ≤ x ∧
        x + 4 ≤ p.off.toNat + p.info.flogoff.toNat + 256 * 64) :
    q.Outside q.room x := by
  have hlt := b.rawsize.toNat_lt
  have hroom := q.room_le
  have hends := h.sound.inside
  obtain ⟨-, -, hinfo, hmap, -, hflogs⟩ :=
    (h.bounds hp).1.inside (Nat.lt_of_le_of_lt (hends p hp) hlt)
  obtain ⟨-, -, hinfo', hmap', -, hflogs'⟩ :=
    (h.bounds hq).1.inside (Nat.lt_of_le_of_lt (hends q hq) hlt)
  unfold Placed.Outside
  rcases h.sound.apart hp hq with rfl | hle | hle
  · omega
  · omega
  · omega

theorem Chain.congr (h : Chain b 0 b.rawsize.toNat l)
    (hm : ∀ x, (∀ q ∈ l, q.Outside q.room x) → m'.word x = m.word x) (hp : p ∈ l) :
    (p.InfoOn m → p.InfoOn m') ∧ p.pairs m' = p.pairs m := by
  constructor
  · intro hon k hk
    rw [hm _ fun q hq => h.outside hp hq (.inl (by omega)), hon k hk]
  · have hpairs : ∀ n off, p.off.toNat + p.info.flogoff.toNat ≤ off →
        off + 64 * n ≤ p.off.toNat + p.info.flogoff.toNat + 256 * 64 →
          m'.flogPairs n off = m.flogPairs n off := by
      intro n
      induction n with
      | zero => exact fun _ _ _ => rfl
      | succ n ih =>
        intro off hle hend
        have hpair : m'.flogPair off = m.flogPair off :=
          flogPair_congr fun k hk => hm _ fun q hq => h.outside hp hq (.inr (by omega))
        rw [Media.flogPairs, Media.flogPairs, hpair, ih _ (by omega) (by omega)]
    exact hpairs 256 _ (Nat.le_refl _) (Nat.le_refl _)

/-! ## Loading -/

variable {pair : Bool → Flog}

theorem Chain.loadArenas (h : Chain b 0 b.rawsize.toNat l) (nlba : UInt64) (bound : Placed → Nat)
    (hbound : ∀ p ∈ l, 4 * bound p ≤ (bttMapSize p.info.externalNlba).toNat)
    (hon : ∀ p ∈ l, p.InfoOn m)
    (hwithin : ∀ p ∈ l, ∀ pair ∈ (p.pairs m).takeWhile (Accepts nlba), Within (bound p) pair) :
    ((Raw.loadArenas l.length nlba BTT_DEFAULT_NFREE m).isSome = true ↔
        ∀ p ∈ l, (p.pairs m).all (Accepts nlba) = true) ∧
      ∀ r m', Raw.loadArenas l.length nlba BTT_DEFAULT_NFREE m = some (r, m') →
        r = ⟨l.length, nlba, BTT_DEFAULT_NFREE, l.map fun p => p.raw m⟩ ∧
          ∀ x, (∀ p ∈ l, p.Outside (bound p) x) → m'.word x = m.word x := by
  have hlt : 0 + b.rawsize.toNat < 2 ^ 64 := by
    rw [Nat.zero_add]
    exact b.rawsize.toNat_lt
  obtain ⟨hok, harenas, hmedia⟩ := h.readArenas hlt hbound (s := ⟨true, [], [], m⟩) hon hwithin
  rw [show UInt64.ofNat 0 = 0 from rfl] at hok harenas hmedia
  dsimp only at hok harenas hmedia
  rw [Bool.true_and] at hok
  unfold Raw.loadArenas
  dsimp only
  rw [hok] at harenas ⊢
  by_cases hall : (l.all fun p => (p.pairs m).all (Accepts nlba)) = true
  · rw [if_pos hall]
    refine ⟨⟨fun _ => all_eq_true.mp hall, fun _ => rfl⟩, fun r m' heq => ?_⟩
    cases heq
    rw [harenas hall, nil_append]
    exact ⟨rfl, hmedia⟩
  · rw [if_neg hall]
    refine ⟨⟨fun hsome => ?_, fun hacc => absurd (all_eq_true.mpr hacc) hall⟩, fun r m' heq => ?_⟩
    · cases hsome
    · cases heq

theorem Chain.loadArenas_again (h : Chain b 0 b.rawsize.toNat l) (hon : ∀ p ∈ l, p.InfoOn m)
    (hwithin : ∀ p ∈ l, ∀ pair ∈ (p.pairs m).takeWhile (Accepts nlba), Within p.room pair)
    (hload : Raw.loadArenas l.length nlba BTT_DEFAULT_NFREE m = some (r, m')) :
    (∀ p ∈ l, p.InfoOn m') ∧
      ∃ m'', Raw.loadArenas l.length nlba BTT_DEFAULT_NFREE m' = some (r, m'') := by
  obtain ⟨hsome, hresult⟩ := h.loadArenas nlba Placed.room (fun p _ => p.room_le) hon hwithin
  obtain ⟨hr, hmedia⟩ := hresult r m' hload
  have hon' : ∀ p ∈ l, p.InfoOn m' := fun p hp => (h.congr hmedia hp).1 (hon p hp)
  have hpairs : ∀ p ∈ l, p.pairs m' = p.pairs m := fun p hp => (h.congr hmedia hp).2
  obtain ⟨hsome', hresult'⟩ := h.loadArenas nlba Placed.room (fun p _ => p.room_le) hon'
    (fun p hp => by
      rw [hpairs p hp]
      exact hwithin p hp)
  have hacc : ∀ p ∈ l, (p.pairs m').all (Accepts nlba) = true := by
    intro p hp
    rw [hpairs p hp]
    exact hsome.mp (by rw [hload]; rfl) p hp
  obtain ⟨⟨r', m''⟩, hload'⟩ := Option.isSome_iff_exists.mp (hsome'.mpr hacc)
  have hraw : (l.map fun p => p.raw m') = l.map fun p => p.raw m :=
    map_congr_left fun p hp => by
      unfold Placed.raw
      rw [hpairs p hp]
  rw [(hresult' r' m'' hload').1, hraw, ← hr] at hload'
  exact ⟨hon', m'', hload'⟩

/-! ## Writing and reading -/

theorem writeLayout_eq_some (h : writeLayout b m = some (r, m')) :
    internalLbasize b.lbasize ≠ 0 ∧ ∃ l, layoutLoop b b.rawsize 0 = some l ∧
      loadArenas (narena b.rawsize) (totalNlba (l.map Placed.info)) BTT_DEFAULT_NFREE
        (written b l m) = some (r, m') := by
  unfold writeLayout at h
  by_cases hlbasize : internalLbasize b.lbasize = 0
  · rw [if_pos hlbasize] at h
    cases h
  · rw [if_neg hlbasize] at h
    obtain ⟨l, hl, hload⟩ := Option.bind_eq_some_iff.mp h
    exact ⟨hlbasize, l, hl, hload⟩

theorem chain_of_layout (hlbasize : internalLbasize b.lbasize ≠ 0)
    (hl : layoutLoop b b.rawsize 0 = some l) : Chain b 0 b.rawsize.toNat l := by
  have hlt : (0 : UInt64).toNat + b.rawsize.toNat < 2 ^ 64 := by
    rw [show (0 : UInt64).toNat = 0 from rfl, Nat.zero_add]
    exact b.rawsize.toNat_lt
  exact chain_layoutLoop hlbasize hl hlt

theorem mem_flogPairs {m : Media} {n off : Nat}
    (h : pair ∈ m.flogPairs n off) : ∃ k < n, pair = m.flogPair (off + 64 * k) := by
  induction n generalizing off with
  | zero => cases h
  | succ n ih =>
    rcases mem_cons.mp h with rfl | h
    · exact ⟨0, Nat.succ_pos n, rfl⟩
    · obtain ⟨k, hk, rfl⟩ := ih h
      exact ⟨k + 1, Nat.succ_lt_succ hk, by congr 1; omega⟩

theorem toRecover_fresh (externalNlba i : UInt32) :
    toRecover (fun e => if e then ⟨0, 0, 0, 0⟩ else freshFlog externalNlba i) = none :=
  if_pos rfl

theorem Placed.FlogsOn.within (h : p.FlogsOn m) {n : Nat}
    (hpair : pair ∈ p.pairs m) : Within n pair := by
  obtain ⟨k, hk, rfl⟩ := mem_flogPairs hpair
  intro lba hlba
  rw [h k hk, toRecover_fresh] at hlba
  cases hlba

theorem Placed.FlogsOn.accepts (h : p.FlogsOn m) (hnlba : 256 ≤ nlba.toNat) :
    (p.pairs m).all (Accepts nlba) = true := by
  rw [all_eq_true]
  intro pair hpair
  obtain ⟨k, hk, rfl⟩ := mem_flogPairs hpair
  have hlba : (UInt32.ofNat k).toUInt64.toNat = k := by
    rw [UInt32.toNat_toUInt64]
    exact UInt32.toNat_ofNat_of_lt' (Nat.lt_trans hk (by decide))
  rw [h k hk]
  refine decide_eq_true ⟨UInt64.lt_iff_toNat_lt.mpr ?_, UInt64.lt_iff_toNat_lt.mpr ?_⟩
  · change (UInt32.ofNat k).toUInt64.toNat < nlba.toNat
    omega
  · exact Nat.lt_of_lt_of_le (show (0 : UInt32).toUInt64.toNat < 256 by decide) hnlba

theorem toNat_foldl_nlba {infos : List BttInfo} {nlba : UInt64}
    (h : nlba.toNat + (infos.map fun info => info.externalNlba.toNat).sum < 2 ^ 64) :
    (infos.foldl (fun nlba info => nlba + info.externalNlba.toUInt64) nlba).toNat =
      nlba.toNat + (infos.map fun info => info.externalNlba.toNat).sum := by
  induction infos generalizing nlba with
  | nil => rfl
  | cons info infos ih =>
    rw [map_cons, sum_cons] at h ⊢
    have hadd : (nlba + info.externalNlba.toUInt64).toNat =
        nlba.toNat + info.externalNlba.toNat := by
      rw [toNat_add_off, UInt32.toNat_toUInt64]
      rw [UInt32.toNat_toUInt64]
      omega
    rw [foldl_cons, ih (by omega), hadd, Nat.add_assoc]

theorem Chain.sum_le {off rawsize : Nat} (h : Chain b off rawsize l)
    (hend : off + rawsize < 2 ^ 64) : (l.map fun p => p.info.externalNlba.toNat).sum ≤ rawsize := by
  induction l generalizing off rawsize with
  | nil => exact Nat.zero_le _
  | cons p l ih =>
    have hbig := h.le_of_ne_nil
    obtain ⟨hgood, hoff, hsize, -, hrest⟩ := h
    obtain ⟨-, -, -, hmap, hentries, hflogs⟩ := hgood.inside (by omega)
    rw [map_cons, sum_cons]
    by_cases hl : l = []
    · subst hl
      rw [map_nil, sum_nil]
      omega
    · have hbig := hbig hl
      have hle := ih hrest (by omega)
      omega

theorem Chain.toNat_totalNlba (h : Chain b 0 b.rawsize.toNat l) :
    (totalNlba (l.map Placed.info)).toNat = (l.map fun p => p.info.externalNlba.toNat).sum := by
  have hlt := b.rawsize.toNat_lt
  have hle := h.sum_le (by omega)
  have hzero : (0 : UInt64).toNat = 0 := rfl
  have hmap : ((l.map Placed.info).map fun info => info.externalNlba.toNat) =
      l.map fun p => p.info.externalNlba.toNat := map_map ..
  unfold totalNlba
  rw [toNat_foldl_nlba, hmap, hzero, Nat.zero_add]
  rw [hmap, hzero]
  omega

theorem Chain.place {off rawsize : Nat} (h : Chain b off rawsize l) (hp : p ∈ l) :
    2 ^ 39 ∣ p.off.toNat - off ∧ (p.size.toNat = 2 ^ 39 ∨
      p.size.toNat = rawsize % 2 ^ 39 ∧ 2 ^ 24 ≤ rawsize % 2 ^ 39) := by
  induction l generalizing off rawsize with
  | nil => cases hp
  | cons q l ih =>
    obtain ⟨hgood, hoff, hsize, -, hrest⟩ := h
    have hmin := hgood.min
    rcases mem_cons.mp hp with rfl | hp
    · refine ⟨⟨0, by omega⟩, ?_⟩
      omega
    · obtain ⟨hdvd, hsize'⟩ := ih hrest hp
      have hle := (hrest.bounds hp).2
      have hmin' := (hrest.bounds hp).1.min
      have hmod : (rawsize - 2 ^ 39) % 2 ^ 39 = rawsize % 2 ^ 39 :=
        (Nat.mod_eq_sub_mod (by omega)).symm
      rw [hmod] at hsize'
      refine ⟨?_, hsize'⟩
      omega

def Bttp.Rereadable (b : Bttp) : Prop :=
  64 ∣ b.rawsize.toNat ∨ b.rawsize.toNat % 2 ^ 39 < 2 ^ 24 ∨ b.rawsize.toNat < 2 ^ 39

theorem Chain.dvd_flogs (h : Chain b 0 b.rawsize.toNat l)
    (halign : 64 ∣ b.rawsize.toNat ∨ b.rawsize.toNat % 2 ^ 39 < 2 ^ 24) (hp : p ∈ l) :
    64 ∣ p.off.toNat + p.info.flogoff.toNat := by
  obtain ⟨hdvd, hsize⟩ := h.place hp
  have hend := h.sound.inside p hp
  have hlt := b.rawsize.toNat_lt
  obtain ⟨-, -, -, -, -, hflogs⟩ := (h.bounds hp).1.inside (by omega)
  have hmax := (h.bounds hp).1.max
  omega

theorem Chain.written_on (h : Chain b 0 b.rawsize.toNat l) (m : Media) (hp : p ∈ l) :
    p.InfoOn (written b l m) ∧
      (64 ∣ p.off.toNat + p.info.flogoff.toNat → p.FlogsOn (written b l m)) := by
  have hlt := b.rawsize.toNat_lt
  obtain ⟨hinfo, hflogs⟩ := h.readBack (by omega) (.inl rfl) m hp
  exact ⟨hinfo, fun halign k hk => hflogs k hk fun _ => halign⟩

/-- A layout whose flogs begin at multiples of 64 is written whatever the namespace contains. -/
theorem Chain.isSome_writeLayout (h : Chain b 0 b.rawsize.toNat l)
    (hlbasize : internalLbasize b.lbasize ≠ 0) (hl : layoutLoop b b.rawsize 0 = some l)
    (halign : 64 ∣ b.rawsize.toNat ∨ b.rawsize.toNat % 2 ^ 39 < 2 ^ 24) (m : Media) :
    (writeLayout b m).isSome = true := by
  have hflogs : ∀ p ∈ l, p.FlogsOn (written b l m) := fun p hp =>
    (h.written_on m hp).2 (h.dvd_flogs halign hp)
  obtain ⟨hiff, -⟩ := h.loadArenas (m := written b l m) (totalNlba (l.map Placed.info)) (fun _ => 0)
    (fun _ _ => Nat.zero_le _)
    (fun p hp => (h.written_on m hp).1)
    fun p hp pair hpair => (hflogs p hp).within (takeWhile_subset _ hpair)
  unfold writeLayout
  rw [if_neg hlbasize, hl, Option.bind_eq_bind, Option.bind_some, h.sound.narena]
  refine hiff.mpr fun p hp => (hflogs p hp).accepts ?_
  have hmem : p.info.externalNlba.toNat ≤ (l.map fun p => p.info.externalNlba.toNat).sum :=
    single_le_sum (fun _ _ => Nat.zero_le _) _ (mem_map.mpr ⟨p, hp, rfl⟩)
  have hext := (h.bounds hp).1.exact.externalNlba
  have hint := (h.bounds hp).1.internalNlba
  rw [h.toNat_totalNlba]
  omega

theorem lt_of_accepts (h : Accepts nlba pair = true) {lba : UInt32}
    (hlba : lba ∈ toRecover pair) : lba.toNat < nlba.toNat := by
  unfold Accepts at h
  rw [decide_eq_true_eq, UInt64.lt_iff_toNat_lt, UInt64.lt_iff_toNat_lt, UInt32.toNat_toUInt64,
    UInt32.toNat_toUInt64] at h
  unfold toRecover flogGetValid at hlba
  split at hlba
  · cases hlba
  · rename_i current _ hvalid
    split at hlba
    · cases hlba
    · cases hlba
      split at hvalid
      · cases hvalid
      · split at hvalid
        · cases hvalid
          exact h.2
        · split at hvalid
          · cases hvalid
            exact h.1
          · split at hvalid
            · cases hvalid
              exact h.2
            · cases hvalid
              exact h.1

theorem Chain.within (h : Chain b 0 b.rawsize.toNat l) (hread : b.Rereadable) (m : Media)
    (hp : p ∈ l) : ∀ pair ∈ (p.pairs (written b l m)).takeWhile
      (Accepts (totalNlba (l.map Placed.info))), Within p.room pair := by
  intro pair hpair
  have hmem : pair ∈ p.pairs (written b l m) := takeWhile_subset _ hpair
  have hflogs := (h.written_on m hp).2
  rcases hread with halign | halign | hone
  · exact (hflogs (h.dvd_flogs (.inl halign) hp)).within hmem
  · exact (hflogs (h.dvd_flogs (.inr halign) hp)).within hmem
  · have hlen := h.length_eq
    have hend := h.sound.inside p hp
    obtain ⟨-, -, -, -, hentries, -⟩ :=
      (h.bounds hp).1.inside (Nat.lt_of_le_of_lt hend b.rawsize.toNat_lt)
    intro lba hlba
    have hlt := lt_of_accepts (all_eq_true.mp all_takeWhile pair hpair) hlba
    cases l with
    | nil => cases hp
    | cons q t =>
      have ht : t = [] := by
        refine eq_nil_of_length_eq_zero ?_
        rw [length_cons] at hlen
        split at hlen
        · omega
        · omega
      subst ht
      rw [mem_singleton.mp hp] at hentries ⊢
      have hnlba : (totalNlba [q.info]).toNat = q.info.externalNlba.toNat := by
        unfold totalNlba
        rw [foldl_cons, foldl_nil, UInt64.zero_add, UInt32.toNat_toUInt64]
      rw [map_singleton, hnlba] at hlt
      unfold Placed.room
      omega

/-- The calculations of a layout are sound, and the next `read_layout` finds the same. -/
theorem reread {r : Layout} {m' : Media} (h : writeLayout b m = some (r, m')) :
    ∃ l, layoutLoop b b.rawsize 0 = some l ∧ Sound b l ∧
      (b.Rereadable → ∃ m'', readLayout b m' = some (r, m'')) := by
  obtain ⟨hlbasize, l, hl, hload⟩ := writeLayout_eq_some h
  have hchain := chain_of_layout hlbasize hl
  refine ⟨l, hl, hchain.sound, fun hread => ?_⟩
  rw [hchain.sound.narena] at hload
  obtain ⟨hon, m'', hload'⟩ := hchain.loadArenas_again
    (fun p hp => (hchain.written_on m hp).1) (fun p hp => hchain.within hread m hp) hload
  refine ⟨m'', ?_⟩
  unfold readLayout
  rw [hchain.readParams hon]
  exact hload'

end Pmdk.Btt.Raw
