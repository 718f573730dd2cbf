import Pmdk.Blk.BttRaw

/-!
# Reading back what was written

The writes of `write_layout` for an arena stay inside of the arena, but for the zeroes of the map,
which are written at the offset of the map from the beginning of the namespace. Neither reaches an
info block, or the flogs of another arena.
-/

namespace Pmdk.Btt

open List

namespace Raw

def Write.Avoids (w : Write) (x len : Nat) : Prop := x + len ≤ w.off ∨ w.off + w.len ≤ x

variable {b : Bttp} {l : List Placed} {off rawsize : Nat} {p q : Placed} {m m' : Media}
  {ws : List Write} {x len : Nat}

variable {w : Write}

theorem word_foldl_apply (h : ∀ w ∈ ws, w.Avoids x len) {k : Nat} (hk : 4 * k + 4 ≤ len)
    (m : Media) : (ws.foldl Media.apply m).word (x + 4 * k) = m.word (x + 4 * k) := by
  induction ws generalizing m with
  | nil => rfl
  | cons w ws ih =>
    rw [forall_mem_cons] at h
    rw [foldl_cons, ih h.2, Media.apply, Media.word_write_of_disjoint]
    have havoids := h.1
    unfold Write.Avoids at havoids
    omega

theorem flogPair_congr {y : Nat} (h : ∀ k < 8, m.word (x + 4 * k) = m'.word (y + 4 * k)) :
    m.flogPair x = m'.flogPair y := by
  funext e
  have h0 := h 0 (by decide)
  have h1 := h 1 (by decide)
  have h2 := h 2 (by decide)
  have h3 := h 3 (by decide)
  have h4 := h 4 (by decide)
  have h5 := h 5 (by decide)
  have h6 := h 6 (by decide)
  have h7 := h 7 (by decide)
  cases e with
  | false =>
    simp only [Media.flogPair, Media.flog]
    exact congr (congr (congrArg₂ Flog.mk h0 h1) h2) h3
  | true =>
    simp only [Media.flogPair, Media.flog]
    exact congr (congr (congrArg₂ Flog.mk h4 h5) h6) h7

theorem flogPair_foldl_apply (h : ∀ w ∈ ws, w.Avoids x 32) (m : Media) :
    (ws.foldl Media.apply m).flogPair x = m.flogPair x :=
  flogPair_congr fun _ hk => word_foldl_apply h (by omega) m

/-! ## Flogs -/

def freshFlog (externalNlba i : UInt32) : Flog :=
  ⟨i, (externalNlba + i) ||| mapEntryZero, (externalNlba + i) ||| mapEntryZero, 1⟩

variable {externalNlba i : UInt32} {n k : Nat} {o : UInt64}

theorem toNat_next (ho : o.toNat + 128 < 2 ^ 64) :
    (o + 16).toNat = o.toNat + 16 ∧
      (roundup (o + 16 + 16) 64).toNat = Btt.roundup (o.toNat + 32) 64 := by
  have hsixteen : (16 : UInt64).toNat = 16 := rfl
  have halign : (64 : UInt64).toNat = 64 := rfl
  have hfirst : (o + 16).toNat = o.toNat + 16 := by
    rw [UInt64.toNat_add]
    exact Nat.mod_eq_of_lt (by omega)
  have hsecond : (o + 16 + 16).toNat = o.toNat + 32 := by
    rw [UInt64.toNat_add, hfirst]
    exact Nat.mod_eq_of_lt (by omega)
  refine ⟨hfirst, ?_⟩
  rw [toNat_roundup (by decide) (by omega), hsecond]
  rfl

theorem mem_flogWrites (halign : 64 ∣ o.toNat) (ho : o.toNat + 64 * n + 64 < 2 ^ 64)
    (hw : w ∈ flogWrites externalNlba n i o) :
    w.len = 16 ∧ ∃ k < n, w.off = o.toNat + 64 * k ∨ w.off = o.toNat + 64 * k + 16 := by
  induction n generalizing i o with
  | zero => cases hw
  | succ n ih =>
    obtain ⟨hfirst, hnext⟩ := toNat_next (o := o) (by omega)
    have hround : Btt.roundup (o.toNat + 32) 64 = o.toNat + 64 := by
      unfold Btt.roundup
      omega
    rw [hround] at hnext
    rcases mem_cons.mp hw with rfl | hw
    · exact ⟨rfl, 0, Nat.succ_pos n, .inl rfl⟩
    · rcases mem_cons.mp hw with rfl | hw
      · exact ⟨rfl, 0, Nat.succ_pos n, .inr hfirst⟩
      · obtain ⟨hlen, k, hk, hoff⟩ := ih (by omega) (by omega) hw
        refine ⟨hlen, k + 1, Nat.succ_lt_succ hk, ?_⟩
        rw [hnext] at hoff
        omega

theorem mem_flogWrites_succ (ho : o.toNat + 64 * n + 192 < 2 ^ 64)
    (hw : w ∈ flogWrites externalNlba (n + 1) i o) :
    w.len = 16 ∧ (w.off = o.toNat ∨ w.off = o.toNat + 16 ∨
      ∃ k < n, w.off = Btt.roundup (o.toNat + 32) 64 + 64 * k ∨
        w.off = Btt.roundup (o.toNat + 32) 64 + 64 * k + 16) := by
  obtain ⟨hfirst, hnext⟩ := toNat_next (o := o) (by omega)
  rcases mem_cons.mp hw with rfl | hw
  · exact ⟨rfl, .inl rfl⟩
  · rcases mem_cons.mp hw with rfl | hw
    · exact ⟨rfl, .inr (.inl hfirst)⟩
    · have hround : Btt.roundup (o.toNat + 32) 64 = (o.toNat + 32 + 63) / 64 * 64 := rfl
      rw [← hnext]
      obtain ⟨hlen, hoff⟩ := mem_flogWrites (by omega) (by omega) hw
      exact ⟨hlen, .inr (.inr hoff)⟩

theorem flogWrites_bounds (ho : o.toNat + 64 * n + 128 < 2 ^ 64)
    (hw : w ∈ flogWrites externalNlba n i o) :
    o.toNat ≤ w.off ∧ w.off + w.len ≤ o.toNat + 64 * n := by
  cases n with
  | zero => cases hw
  | succ n =>
    have hround : Btt.roundup (o.toNat + 32) 64 = (o.toNat + 32 + 63) / 64 * 64 := rfl
    obtain ⟨hlen, hoff | hoff | ⟨k, hk, hoff⟩⟩ := mem_flogWrites_succ (by omega) hw
    · omega
    · omega
    · omega

theorem flogPair_write (m : Media) (x : Nat) (flog : Flog) :
    ((m.write x 16 (flogWord flog)).write (x + 16) 16 fun _ => 0).flogPair x =
      fun e => if e then ⟨0, 0, 0, 0⟩ else flog := by
  generalize hm : (m.write x 16 (flogWord flog)).write (x + 16) 16 (fun _ => 0) = m'
  have hflog : ∀ k < 4, m'.word (x + 4 * k) = flogWord flog k := by
    intro k hk
    rw [← hm, Media.word_write_of_disjoint (by omega), Media.word_write_of_mem (by omega)]
  have hzero : ∀ k < 4, m'.word (x + 16 + 4 * k) = 0 := by
    intro k hk
    rw [← hm, Media.word_write_of_mem (by omega)]
  funext e
  cases e with
  | false =>
    simp only [Media.flogPair, Media.flog]
    exact congr (congr (congrArg₂ Flog.mk (hflog 0 (by decide)) (hflog 1 (by decide)))
      (hflog 2 (by decide))) (hflog 3 (by decide))
  | true =>
    simp only [Media.flogPair, Media.flog]
    exact congr (congr (congrArg₂ Flog.mk (hzero 0 (by decide)) (hzero 1 (by decide)))
      (hzero 2 (by decide))) (hzero 3 (by decide))

/-- The flogs are found where they were written, and the first pair in any case. -/
theorem flogPair_flogWrites (halign : k ≠ 0 → 64 ∣ o.toNat) (ho : o.toNat + 64 * n + 128 < 2 ^ 64)
    (hk : k < n) (m : Media) :
    ((flogWrites externalNlba n i o).foldl Media.apply m).flogPair (o.toNat + 64 * k) =
      fun e => if e then ⟨0, 0, 0, 0⟩ else freshFlog externalNlba (i + UInt32.ofNat k) := by
  induction n generalizing i o k m with
  | zero => cases hk
  | succ n ih =>
    obtain ⟨hfirst, hnext⟩ := toNat_next (o := o) (by omega)
    have hround : Btt.roundup (o.toNat + 32) 64 = (o.toNat + 32 + 63) / 64 * 64 := rfl
    rw [hround] at hnext
    rw [flogWrites, foldl_cons, foldl_cons]
    cases k with
    | zero =>
      rw [Nat.mul_zero, Nat.add_zero, flogPair_foldl_apply]
      · unfold Media.apply
        rw [hfirst, flogPair_write]
        have hzero : i + UInt32.ofNat 0 = i := UInt32.add_zero i
        rw [hzero]
        rfl
      · intro w hw
        obtain ⟨-, k, -, hoff⟩ := mem_flogWrites (by omega) (by omega) hw
        left
        omega
    | succ k =>
      have halign := halign (Nat.succ_ne_zero k)
      have hplace : o.toNat + 64 * (k + 1) = (roundup (o + 16 + 16) 64).toNat + 64 * k := by omega
      have hnum : i + UInt32.ofNat (k + 1) = i + 1 + UInt32.ofNat k := by
        rw [UInt32.ofNat_add, UInt32.add_comm (UInt32.ofNat k), ← UInt32.add_assoc]
        rfl
      rw [hplace, hnum]
      exact ih (fun _ => by omega) (by omega) (Nat.lt_of_succ_lt_succ hk) _

/-! ## Arenas -/

theorem toNat_add_off {x y : UInt64} (h : x.toNat + y.toNat < 2 ^ 64) :
    (x + y).toNat = x.toNat + y.toNat := by
  rw [UInt64.toNat_add]
  exact Nat.mod_eq_of_lt h

theorem mem_arenaWrites (hp : p.Good b) (hend : p.off.toNat + p.size.toNat < 2 ^ 64)
    (hw : w ∈ arenaWrites b p) :
    (p.info.mapoff.toNat ≤ w.off ∧ w.off + w.len ≤ p.info.flogoff.toNat) ∨
      w ∈ flogWrites p.info.externalNlba 256 0 (p.off + p.info.flogoff) ∨
      (w.off = p.off.toNat ∧ w.len = 4096) ∨
        (w.off = p.off.toNat + p.info.infooff.toNat ∧ w.len = 4096) := by
  have hareas := hp.areas
  have hinfo := hareas.info
  have hmap := hareas.map
  have hinfooff : (p.off + p.info.infooff).toNat = p.off.toNat + p.info.infooff.toNat :=
    toNat_add_off (by omega)
  unfold arenaWrites at hw
  rcases mem_append.mp hw with hw | hw
  · rcases mem_append.mp hw with hw | hw
    · left
      split at hw
      · cases hw
      · rw [mem_singleton.mp hw]
        exact ⟨Nat.le_refl _, hmap.le⟩
    · exact .inr (.inl hw)
  · right; right
    simp only [mem_cons, not_mem_nil, or_false] at hw
    rcases hw with rfl | rfl
    · exact .inl ⟨rfl, rfl⟩
    · exact .inr ⟨hinfooff, rfl⟩

/-- The arena behind another one does not reach its info block or its flogs. -/
theorem arenaWrites_avoids (hp : p.Good b) (hq : q.Good b) (hfull : p.size.toNat = 2 ^ 39)
    (hoff : p.off.toNat = 0 ∨ 2 ^ 39 ≤ p.off.toNat) (hpq : p.off.toNat + 2 ^ 39 ≤ q.off.toNat)
    (hend : q.off.toNat + q.size.toNat < 2 ^ 64) (hw : w ∈ arenaWrites b q) :
    w.Avoids p.off.toNat 4096 ∧ w.Avoids (p.off.toNat + p.info.flogoff.toNat) (256 * 64) := by
  obtain ⟨-, -, -, hdata, -, hmap, hflogs, hinfo⟩ := hp.areas
  obtain ⟨-, -, -, hdata', -, hmap', hflogs', hinfo'⟩ := hq.areas
  have hmax := hq.max
  have hflogoff : (q.off + q.info.flogoff).toNat = q.off.toNat + q.info.flogoff.toNat :=
    toNat_add_off (by omega)
  unfold Write.Avoids
  rcases mem_arenaWrites hq hend hw with ⟨hle, hlt⟩ | hw | ⟨heq, hlen⟩ | ⟨heq, hlen⟩
  · omega
  · obtain ⟨hle, hlt⟩ := flogWrites_bounds (by omega) hw
    omega
  · omega
  · omega

theorem word_arenaWrites (hp : p.Good b) (hend : p.off.toNat + p.size.toNat < 2 ^ 64) (m : Media)
    (hk : k < 1024) : ((arenaWrites b p).foldl Media.apply m).word (p.off.toNat + 4 * k) =
      p.info.sealed.word k := by
  obtain ⟨-, -, -, hdata, -, hmap, hflogs, hinfo⟩ := hp.areas
  have hinfooff : (p.off + p.info.infooff).toNat = p.off.toNat + p.info.infooff.toNat :=
    toNat_add_off (by omega)
  unfold arenaWrites
  rw [foldl_append, foldl_cons, foldl_cons, foldl_nil]
  unfold Media.apply infoSize
  rw [Media.word_write_of_disjoint (by dsimp only; omega),
    Media.word_write_of_mem (by dsimp only; omega)]

theorem flogPair_arenaWrites (hp : p.Good b) (hend : p.off.toNat + p.size.toNat < 2 ^ 64)
    (halign : k ≠ 0 → 64 ∣ p.off.toNat + p.info.flogoff.toNat) (m : Media) (hk : k < 256) :
    ((arenaWrites b p).foldl Media.apply m).flogPair (p.off.toNat + p.info.flogoff.toNat + 64 * k) =
      fun e => if e then ⟨0, 0, 0, 0⟩ else freshFlog p.info.externalNlba (UInt32.ofNat k) := by
  obtain ⟨-, -, -, hdata, -, hmap, hflogs, hinfo⟩ := hp.areas
  have hflogoff : (p.off + p.info.flogoff).toNat = p.off.toNat + p.info.flogoff.toNat :=
    toNat_add_off (by omega)
  have hinfooff : (p.off + p.info.infooff).toNat = p.off.toNat + p.info.infooff.toNat :=
    toNat_add_off (by omega)
  have hnfree : BTT_DEFAULT_NFREE.toNat = 256 := rfl
  unfold arenaWrites
  rw [foldl_append, foldl_append, flogPair_foldl_apply, ← hflogoff,
    flogPair_flogWrites (by rw [hflogoff]; exact halign) (by omega) (by omega), UInt32.zero_add]
  intro w hw
  unfold Write.Avoids
  simp only [mem_cons, not_mem_nil, or_false] at hw
  rcases hw with rfl | rfl
  · dsimp only [infoSize]
    omega
  · dsimp only [infoSize]
    omega

theorem written_cons (b : Bttp) (p : Placed) (l : List Placed) (m : Media) :
    written b (p :: l) m = written b l ((arenaWrites b p).foldl Media.apply m) := by
  unfold written
  rw [flatMap_cons, foldl_append]

/-- What is read at the arenas after all of them have been written. -/
theorem Chain.readBack (h : Chain b off rawsize l) (hend : off + rawsize < 2 ^ 64)
    (hoff : off = 0 ∨ 2 ^ 39 ≤ off) (m : Media) (hp : p ∈ l) :
    (∀ k < 1024, (written b l m).word (p.off.toNat + 4 * k) = p.info.sealed.word k) ∧
      (∀ k < 256, (k ≠ 0 → 64 ∣ p.off.toNat + p.info.flogoff.toNat) →
        (written b l m).flogPair (p.off.toNat + p.info.flogoff.toNat + 64 * k) =
          fun e => if e then ⟨0, 0, 0, 0⟩ else freshFlog p.info.externalNlba (UInt32.ofNat k)) := by
  induction l generalizing off rawsize m with
  | nil => cases hp
  | cons q l ih =>
    rw [written_cons]
    obtain ⟨hgood, hq, hsize, -, hrest⟩ := h
    rcases mem_cons.mp hp with rfl | hp
    · have havoids : ∀ w ∈ l.flatMap (arenaWrites b), w.Avoids p.off.toNat 4096 ∧
          w.Avoids (p.off.toNat + p.info.flogoff.toNat) (256 * 64) := by
        intro w hw
        obtain ⟨q, hql, hw⟩ := mem_flatMap.mp hw
        obtain ⟨hq', hle, hlt⟩ := hrest.bounds hql
        have hmin := hq'.min
        exact arenaWrites_avoids hgood hq' (by omega) (by omega) (by omega) (by omega) hw
      constructor
      · intro k hk
        unfold written
        rw [word_foldl_apply (fun w hw => (havoids w hw).1) (by omega),
          word_arenaWrites hgood (by omega) m hk]
      · intro k hk halign
        unfold written
        rw [flogPair_foldl_apply, flogPair_arenaWrites hgood (by omega) halign m hk]
        intro w hw
        have havoid := (havoids w hw).2
        unfold Write.Avoids at havoid ⊢
        omega
    · have hmin := (hrest.bounds hp).1.min
      have hle := (hrest.bounds hp).2
      exact ih hrest (by omega) (by omega) _ hp

/-!
## Reading a fresh layout

`read_layout` finds the info blocks that are at the arenas of a layout, and calls `read_arenas` with
the numbers that `write_layout` has calculated. If the flogs are found as they were written, then
`read_arenas` neither reads nor writes a map entry.
-/

def Placed.InfoOn (p : Placed) (m : Media) : Prop :=
  ∀ k < 1024, m.word (p.off.toNat + 4 * k) = p.info.sealed.word k

def Placed.FlogsOn (p : Placed) (m : Media) : Prop :=
  ∀ k < 256, m.flogPair (p.off.toNat + p.info.flogoff.toNat + 64 * k) =
    fun e => if e then ⟨0, 0, 0, 0⟩ else freshFlog p.info.externalNlba (UInt32.ofNat k)

theorem Placed.InfoOn.ofWords (h : p.InfoOn m) :
    BttInfo.ofWords (m.words p.off.toNat) = p.info.sealed := by
  rw [← p.info.sealed.ofWords_word]
  have hword : ∀ k < 1024, m.words p.off.toNat k = p.info.sealed.word k := h
  simp [BttInfo.ofWords, hword]

/-! ## Info blocks -/

theorem Placed.Good.checkInfo (hp : p.Good b) (hon : p.InfoOn m)
    (hnext : p.info.nextoff = 0 ∨ p.info.nextoff = BTT_MAX_ARENA) :
    checkInfo b m p.off = .ok p.info.sealed := by
  have hmajor : p.info.major ≠ 0 := by
    rw [hp.major]
    decide
  have hread := readInfo_sealed (w := m.words p.off.toNat) hon hp.sig hmajor
  have hnlba : p.info.externalNlba ≠ 0 := by
    intro hzero
    have hext := hp.exact.externalNlba
    have hint := hp.internalNlba
    rw [hzero, show (0 : UInt32).toNat = 0 from rfl] at hext
    omega
  have hnfree : p.info.nfree ≠ 0 := by
    rw [hp.nfree]
    decide
  rw [hp.parentUuid] at hread
  unfold Raw.checkInfo
  rw [hread]
  dsimp only [BttInfo.sealed]
  rw [if_neg (not_not_intro hp.externalLbasize), if_neg hnfree, if_neg hnlba, if_neg]
  rintro ⟨hzero, hmax⟩
  exact hnext.elim hzero hmax

theorem Chain.nextoff (h : Chain b off rawsize (p :: l)) :
    p.info.nextoff = if l = [] then 0 else BTT_MAX_ARENA := by
  obtain ⟨-, -, -, hnext, -⟩ := h
  refine UInt64.toNat_inj.mp ?_
  rw [hnext]
  by_cases hl : l = []
  · rw [if_pos hl, if_pos hl]
    rfl
  · rw [if_neg hl, if_neg hl]
    rfl

theorem Chain.le_of_ne_nil (h : Chain b off rawsize (p :: l)) (hl : l ≠ []) :
    2 ^ 39 + 2 ^ 24 ≤ rawsize := by
  obtain ⟨-, -, -, -, hrest⟩ := h
  cases l with
  | nil => exact absurd rfl hl
  | cons q l =>
    obtain ⟨hq, -, hsize, -⟩ := hrest
    have hmin := hq.min
    omega

theorem Chain.readInfos (h : Chain b off rawsize l) (check : UInt64 → Except Found BttInfo)
    (hcheck : ∀ p ∈ l, (p.info.nextoff = 0 ∨ p.info.nextoff = BTT_MAX_ARENA) →
      check p.off = .ok p.info.sealed) (hend : off + rawsize < 2 ^ 64) :
    readInfos check (UInt64.ofNat rawsize) (UInt64.ofNat off) =
      .infos (l.map fun p => p.info.sealed) := by
  have hmin : BTT_MIN_SIZE.toNat = 2 ^ 24 := rfl
  have hmax : BTT_MAX_ARENA.toNat = 2 ^ 39 := rfl
  have hzero : ¬ BTT_MAX_ARENA = 0 := by decide
  have hword : UInt64.size = 2 ^ 64 := rfl
  have hsize : (UInt64.ofNat rawsize).toNat = rawsize := UInt64.toNat_ofNat_of_lt' (by omega)
  induction l generalizing off rawsize with
  | nil =>
    have hlt : rawsize < 2 ^ 24 := h
    rw [Raw.readInfos, if_neg]
    · rfl
    · rw [ge_iff_le, UInt64.le_iff_toNat_le, hsize, hmin]
      omega
  | cons p l ih =>
    have hnext := h.nextoff
    have hbig := h.le_of_ne_nil
    obtain ⟨hgood, hoff, hp, -, hrest⟩ := h
    have hge := hgood.min
    have hplace : UInt64.ofNat off = p.off := by
      rw [← hoff]
      exact UInt64.ofNat_toNat
    rw [Raw.readInfos, if_pos, hplace]
    · by_cases hl : l = []
      · rw [if_pos hl] at hnext
        rw [hcheck p (mem_cons_self ..) (.inl hnext)]
        dsimp only [BttInfo.sealed]
        rw [dif_pos hnext, hl]
        rfl
      · rw [if_neg hl] at hnext
        have hbig := hbig hl
        have hleft : UInt64.ofNat rawsize - BTT_MAX_ARENA = UInt64.ofNat (rawsize - 2 ^ 39) := by
          refine UInt64.toNat_inj.mp ?_
          rw [toNat_sub (by omega), hsize, hmax, UInt64.toNat_ofNat_of_lt' (by omega)]
        have hoff' : p.off + BTT_MAX_ARENA = UInt64.ofNat (off + 2 ^ 39) := by
          rw [← hplace, UInt64.ofNat_add, ← hmax, UInt64.ofNat_toNat]
        have hsealed : p.info.sealed.nextoff = BTT_MAX_ARENA := hnext
        rw [hcheck p (mem_cons_self ..) (.inr hnext)]
        dsimp only
        rw [hsealed, dif_neg hzero, dif_neg, hleft, hoff', ih hrest]
        · rfl
        · exact fun q hq => hcheck q (mem_cons_of_mem p hq)
        · omega
        · exact UInt64.toNat_ofNat_of_lt' (by omega)
        · rw [gt_iff_lt, UInt64.lt_iff_toNat_lt, hsize, hmax]
          omega
    · rw [ge_iff_le, UInt64.le_iff_toNat_le, hsize, hmin]
      omega

theorem foldl_nfree {infos : List BttInfo} (h : ∀ info ∈ infos, info.nfree = BTT_DEFAULT_NFREE)
    {nfree : UInt32} (hnfree : BTT_DEFAULT_NFREE ≤ nfree) :
    BTT_DEFAULT_NFREE ≤ infos.foldl
      (fun nfree info => if info.nfree < nfree then info.nfree else nfree) nfree := by
  induction infos generalizing nfree with
  | nil => exact hnfree
  | cons info infos ih =>
    rw [forall_mem_cons] at h
    rw [foldl_cons, h.1]
    refine ih h.2 ?_
    split
    · exact UInt32.le_refl _
    · exact hnfree

theorem totalNlba_sealed (l : List Placed) :
    totalNlba (l.map fun p => p.info.sealed) = totalNlba (l.map Placed.info) := by
  unfold totalNlba
  rw [foldl_map, foldl_map]
  rfl

theorem Chain.readParams (h : Chain b 0 b.rawsize.toNat l) (hon : ∀ p ∈ l, p.InfoOn m) :
    readParams b m = some (l.length, totalNlba (l.map Placed.info), BTT_DEFAULT_NFREE) := by
  have hlt := b.rawsize.toNat_lt
  have hfound := h.readInfos (Raw.checkInfo b m)
    (fun p hp => (h.bounds hp).1.checkInfo (hon p hp)) (by omega)
  rw [UInt64.ofNat_toNat] at hfound
  unfold Raw.readParams
  rw [show (0 : UInt64) = UInt64.ofNat 0 from rfl, hfound]
  dsimp only
  rw [length_map, totalNlba_sealed, if_neg]
  refine UInt32.not_lt.mpr (foldl_nfree (fun info hinfo => ?_) (by decide))
  obtain ⟨p, hp, rfl⟩ := mem_map.mp hinfo
  exact (h.bounds hp).1.nfree

end Raw

end Pmdk.Btt
