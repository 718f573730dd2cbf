import Pmdk.Blk.BttReadBack

/-!
# Recovery of the flogs

What `read_arenas` does to an arena depends on the pairs of flogs that are at the arena when the
call begins, as long as the recovery of a pair writes to the map only. Which entry of the map that
is depends on the block number of the flog, whose product with the size of an entry has 32 bits.
-/

namespace Pmdk.Btt.Raw

open List

/-! ## Pairs -/

def Accepts (nlba : UInt64) (pair : Bool → Flog) : Bool :=
  (pair false).lba.toUInt64 < nlba ∧ (pair true).lba.toUInt64 < nlba

def toRecover (pair : Bool → Flog) : Option UInt32 :=
  match flogGetValid pair with
  | none => none
  | some (current, _) => if current.oldMap = current.newMap then none else some current.lba

def pairFlags (flags : UInt32) (pair : Bool → Flog) : UInt32 :=
  match flogGetValid pair with
  | none => flags ||| infoFlagError
  | some _ => flags

def pairRuntime (pair : Bool → Flog) : FlogRuntime :=
  match flogGetValid pair with
  | none => .zeroed
  | some (current, next) => ⟨current, next⟩

def entryOff (mapoff : UInt64) (lba : UInt32) : Nat := (mapoff + (4 * lba).toUInt64).toNat

/-- The map entry that is read for a pair is one of the first `n`. -/
def Within (n : Nat) (pair : Bool → Flog) : Prop :=
  ∀ lba ∈ toRecover pair, lba.toNat % 2 ^ 30 < n

instance (n : Nat) (pair : Bool → Flog) : Decidable (Within n pair) :=
  @Option.decidableForallMem UInt32 (fun lba => lba.toNat % 2 ^ 30 < n) _ (toRecover pair)

variable {nlba mapoff flogOff : UInt64} {flags : UInt32} {m m' : Media} {n N : Nat}
  {pair : Bool → Flog}

theorem entryOff_eq (mapoff : UInt64) (lba : UInt32) :
    entryOff mapoff lba = (mapoff.toNat + 4 * (lba.toNat % 2 ^ 30)) % 2 ^ 64 := by
  have hfour : (4 : UInt32).toNat = 4 := rfl
  unfold entryOff
  rw [UInt64.toNat_add, UInt32.toNat_toUInt64, UInt32.toNat_mul, hfour]
  omega

theorem entryOff_mem (h : mapoff.toNat + 4 * N ≤ 2 ^ 64) (lba : UInt32) :
    (∃ k < N, entryOff mapoff lba = mapoff.toNat + 4 * k) ↔ lba.toNat % 2 ^ 30 < N := by
  rw [entryOff_eq]
  constructor
  · rintro ⟨k, hk, heq⟩
    omega
  · exact fun hlt => ⟨lba.toNat % 2 ^ 30, hlt, Nat.mod_eq_of_lt (by omega)⟩

theorem readFlogPair_of_not (h : ¬ Accepts nlba (m.flogPair flogOff.toNat) = true) :
    readFlogPair nlba m mapoff flags flogOff = none := by
  unfold Accepts at h
  rw [decide_eq_true_eq, not_and_or, UInt64.not_lt, UInt64.not_lt] at h
  unfold readFlogPair
  dsimp only
  by_cases hzero : flogOff = 0
  · rw [if_pos hzero]
  · rw [if_neg hzero]
    rcases h with h | h
    · rw [if_pos h]
    · rw [if_pos h, ite_self]

theorem readFlogPair_of (mapoff : UInt64) (flags : UInt32) (hoff : flogOff ≠ 0)
    (h : Accepts nlba (m.flogPair flogOff.toNat) = true) :
    ∃ writes, readFlogPair nlba m mapoff flags flogOff =
        some ⟨pairFlags flags (m.flogPair flogOff.toNat), pairRuntime (m.flogPair flogOff.toNat),
          ((toRecover (m.flogPair flogOff.toNat)).map (entryOff mapoff)).toList, writes⟩ ∧
      ∀ w ∈ writes, ∃ lba ∈ toRecover (m.flogPair flogOff.toNat),
        w.off = entryOff mapoff lba ∧ w.len = 4 := by
  unfold Accepts at h
  rw [decide_eq_true_eq] at h
  unfold readFlogPair pairFlags pairRuntime toRecover
  dsimp only
  rw [if_neg hoff, if_neg (UInt64.not_le.mpr h.1), if_neg (UInt64.not_le.mpr h.2)]
  cases hvalid : flogGetValid (m.flogPair flogOff.toNat) with
  | none => exact ⟨[], rfl, fun _ hw => absurd hw not_mem_nil⟩
  | some current =>
    dsimp only
    by_cases heq : current.1.oldMap = current.1.newMap
    · rw [if_pos heq, if_pos heq]
      exact ⟨[], rfl, fun _ hw => absurd hw not_mem_nil⟩
    · rw [if_neg heq, if_neg heq]
      refine ⟨_, rfl, fun w hw => ⟨current.1.lba, rfl, ?_⟩⟩
      rw [mem_ite_nil_right, mem_singleton] at hw
      rw [hw.2]
      exact ⟨rfl, rfl⟩

/-! ## Flogs -/

def Media.flogPairs (m : Media) : Nat → Nat → List (Bool → Flog)
  | 0, _ => []
  | n + 1, off => m.flogPair off :: m.flogPairs n (off + 64)

def Keeps (m m' : Media) (x y : Nat) : Prop := ∀ z, z + 4 ≤ x ∨ y ≤ z → m'.word z = m.word z

variable {x y off : Nat}

theorem Keeps.refl (m : Media) (x y : Nat) : Keeps m m x y := fun _ _ => rfl

theorem Keeps.trans {m'' : Media} (h : Keeps m m' x y) (h' : Keeps m' m'' x y) :
    Keeps m m'' x y :=
  fun z hz => (h' z hz).trans (h z hz)

theorem Keeps.flogPairs (h : Keeps m m' x y) (hy : y ≤ off) :
    m'.flogPairs n off = m.flogPairs n off := by
  induction n generalizing off with
  | zero => rfl
  | succ n ih =>
    have hpair : m'.flogPair off = m.flogPair off :=
      flogPair_congr fun k _ => h _ (by omega)
    rw [Media.flogPairs, Media.flogPairs, hpair, ih (by omega)]

theorem keeps_writes {ws : List Write} (hmap : mapoff.toNat + 4 * N ≤ 2 ^ 64)
    (hwithin : Within N pair)
    (hws : ∀ w ∈ ws, ∃ lba ∈ toRecover pair, w.off = entryOff mapoff lba ∧ w.len = 4) :
    Keeps m (ws.foldl Media.apply m) mapoff.toNat (mapoff.toNat + 4 * N) := by
  intro z hz
  have havoids : ∀ w ∈ ws, w.Avoids z 4 := by
    intro w hw
    obtain ⟨lba, hlba, hoff, hlen⟩ := hws w hw
    obtain ⟨k, hk, heq⟩ := (entryOff_mem hmap lba).mpr (hwithin lba hlba)
    unfold Write.Avoids
    omega
  exact word_foldl_apply (k := 0) havoids (by omega) m

theorem readFlogs_of_within (nlba mapoff flogOff : UInt64) {s : FlogsRead}
    (hpos : 0 < flogOff.toNat)
    (hmap : mapoff.toNat + 4 * N ≤ flogOff.toNat) (hend : flogOff.toNat + 64 * n < 2 ^ 64)
    (h : ∀ pair ∈ (s.media.flogPairs n flogOff.toNat).takeWhile (Accepts nlba), Within N pair) :
    (readFlogs nlba mapoff n flogOff s).ok =
        (s.ok && (s.media.flogPairs n flogOff.toNat).all (Accepts nlba)) ∧
      ((readFlogs nlba mapoff n flogOff s).ok = true →
        (readFlogs nlba mapoff n flogOff s).flags =
            (s.media.flogPairs n flogOff.toNat).foldl pairFlags s.flags ∧
          (readFlogs nlba mapoff n flogOff s).flogs =
            s.flogs ++ (s.media.flogPairs n flogOff.toNat).map pairRuntime) ∧
      Keeps s.media (readFlogs nlba mapoff n flogOff s).media mapoff.toNat
        (mapoff.toNat + 4 * N) := by
  induction n generalizing flogOff s with
  | zero =>
    rw [readFlogs, Media.flogPairs]
    refine ⟨(Bool.and_true _).symm, fun _ => ⟨rfl, ?_⟩, Keeps.refl _ _ _⟩
    rw [map_nil, append_nil]
  | succ n ih =>
    have hnext : (flogOff + 64).toNat = flogOff.toNat + 64 := toNat_add_off (y := 64) (by
      have hstep : (64 : UInt64).toNat = 64 := rfl
      omega)
    have hne : flogOff ≠ 0 := by
      rintro rfl
      exact absurd hpos (by decide)
    rw [Media.flogPairs] at h ⊢
    by_cases hacc : Accepts nlba (s.media.flogPair flogOff.toNat) = true
    · obtain ⟨ws, hread, hws⟩ := readFlogPair_of mapoff s.flags hne hacc
      rw [takeWhile_cons_of_pos hacc, forall_mem_cons] at h
      have hkeeps := keeps_writes (m := s.media) (by omega) h.1 hws
      have hpairs : (ws.foldl Media.apply s.media).flogPairs n (flogOff.toNat + 64) =
          s.media.flogPairs n (flogOff.toNat + 64) := hkeeps.flogPairs (by omega)
      rw [readFlogs, hread]
      dsimp only
      rw [all_cons, hacc, Bool.true_and, foldl_cons, map_cons]
      obtain ⟨hok, hstate, hmedia⟩ := ih (flogOff + 64) (s := {
          ok := s.ok
          flags := pairFlags s.flags (s.media.flogPair flogOff.toNat)
          flogs := s.flogs ++ [pairRuntime (s.media.flogPair flogOff.toNat)]
          accessed := s.accessed ++
            ((toRecover (s.media.flogPair flogOff.toNat)).map (entryOff mapoff)).toList ++
              ws.map Write.off
          media := ws.foldl Media.apply s.media })
        (by omega) (by omega) (by omega) (by rw [hnext, hpairs]; exact h.2)
      rw [hnext, hpairs] at hok hstate
      refine ⟨hok, fun htrue => ?_, hkeeps.trans hmedia⟩
      obtain ⟨hflags, hflogs⟩ := hstate htrue
      refine ⟨hflags, ?_⟩
      rw [hflogs, append_assoc]
      rfl
    · rw [readFlogs, readFlogPair_of_not hacc]
      refine ⟨?_, fun htrue => ?_, Keeps.refl _ _ _⟩
      · rw [all_cons, Bool.eq_false_iff.mpr hacc, Bool.false_and, Bool.and_false]
      · cases htrue

/-! ## Arenas -/

variable {b : Bttp} {l : List Placed} {rawsize : Nat} {p q : Placed}

def Placed.pairs (p : Placed) (m : Media) : List (Bool → Flog) :=
  m.flogPairs 256 (p.off.toNat + p.info.flogoff.toNat)

/-- What `read_arena` finds out about an arena with an info block as it has been written. -/
def Placed.raw (p : Placed) (m : Media) : RawArena where
  flags := (p.pairs m).foldl pairFlags p.info.flags
  externalNlba := p.info.externalNlba
  internalLbasize := p.info.internalLbasize
  internalNlba := p.info.internalNlba
  startoff := p.off
  dataoff := p.off + p.info.dataoff
  mapoff := p.off + p.info.mapoff
  flogoff := p.off + p.info.flogoff
  nextoff := p.off + p.info.nextoff
  flogs := (p.pairs m).map pairRuntime

/-- The range of the first `n` map entries of an arena is not written. -/
def Placed.Outside (p : Placed) (n x : Nat) : Prop :=
  x + 4 ≤ p.off.toNat + p.info.mapoff.toNat ∨ p.off.toNat + p.info.mapoff.toNat + 4 * n ≤ x

structure Placed.Inside (p : Placed) : Prop where
  mapoff : (p.off + p.info.mapoff).toNat = p.off.toNat + p.info.mapoff.toNat
  flogoff : (p.off + p.info.flogoff).toNat = p.off.toNat + p.info.flogoff.toNat
  info : 4096 ≤ p.info.mapoff.toNat
  map : p.info.mapoff.toNat + (bttMapSize p.info.externalNlba).toNat = p.info.flogoff.toNat
  entries : 4 * p.info.externalNlba.toNat ≤ (bttMapSize p.info.externalNlba).toNat
  flogs : p.info.flogoff.toNat + 256 * 64 + 4096 = p.size.toNat

theorem Placed.Good.inside (hp : p.Good b) (hend : p.off.toNat + p.size.toNat < 2 ^ 64) :
    p.Inside := by
  obtain ⟨-, -, -, hdata, hmapsize, hmap, hflogs, hinfo⟩ := hp.areas
  have hround := @le_roundup (p.info.externalNlba.toNat * 4) 4096 (by decide)
  rw [← hmapsize] at hround
  exact ⟨toNat_add_off (by omega), toNat_add_off (by omega), by omega, hmap, by omega, by omega⟩

theorem Placed.InfoOn.keeps (hon : q.InfoOn m) (h : Keeps m m' x y)
    (hy : y ≤ q.off.toNat) : q.InfoOn m' := by
  intro k hk
  rw [h _ (.inr (by omega)), hon k hk]

theorem Placed.pairs_keeps (q : Placed) (h : Keeps m m' x y)
    (hy : y ≤ q.off.toNat + q.info.flogoff.toNat) : q.pairs m' = q.pairs m :=
  h.flogPairs hy

variable {s : ArenasRead}

/-- `read_arena` of an arena whose accepted pairs stay within the map. -/
theorem Placed.Good.readArena (hp : p.Good b) (nlba : UInt64)
    (hend : p.off.toNat + p.size.toNat < 2 ^ 64)
    (hon : p.InfoOn m) (hN : 4 * N ≤ (bttMapSize p.info.externalNlba).toNat)
    (h : ∀ pair ∈ (p.pairs m).takeWhile (Accepts nlba), Within N pair) :
    (Raw.readArena nlba BTT_DEFAULT_NFREE m p.off).2.ok = (p.pairs m).all (Accepts nlba) ∧
      ((Raw.readArena nlba BTT_DEFAULT_NFREE m p.off).2.ok = true →
        (Raw.readArena nlba BTT_DEFAULT_NFREE m p.off).1 = p.raw m) ∧
      Keeps m (Raw.readArena nlba BTT_DEFAULT_NFREE m p.off).2.media
        (p.off.toNat + p.info.mapoff.toNat) (p.off.toNat + p.info.mapoff.toNat + 4 * N) := by
  obtain ⟨hmapoff, hflogoff, hinfo, hmap, hentries, hflogs⟩ := hp.inside hend
  have hnfree : BTT_DEFAULT_NFREE.toNat = 256 := rfl
  unfold Placed.pairs at h ⊢
  rw [← hflogoff] at h ⊢
  have hread := readFlogs_of_within nlba (p.off + p.info.mapoff) (p.off + p.info.flogoff) (N := N)
    (s := ⟨true, p.info.flags, [], [], m⟩) (by omega) (by omega) (by omega) h
  unfold Raw.readArena
  rw [hon.ofWords, hnfree]
  dsimp only [BttInfo.sealed] at hread ⊢
  rw [hmapoff, Bool.true_and] at hread
  refine ⟨hread.1, fun hok => ?_, hread.2.2⟩
  obtain ⟨hflags, hflogs⟩ := hread.2.1 hok
  unfold Placed.raw Placed.pairs
  rw [hflags, hflogs, ← hflogoff, nil_append]

variable {r : RawArena × FlogsRead}

theorem readArenas_of_ok {nfree : UInt32} {arenaOff : UInt64}
    (hr : readArena nlba nfree s.media arenaOff = r)
    (hok : r.2.ok = true) (n : Nat) : readArenas nlba nfree (n + 1) arenaOff s =
      readArenas nlba nfree n r.1.nextoff
        ⟨s.ok, s.arenas ++ [r.1], s.accessed ++ [r.2.accessed], r.2.media⟩ := by
  rw [readArenas, hr]
  exact if_pos hok

theorem readArenas_of_not {nfree : UInt32} {arenaOff : UInt64}
    (hr : readArena nlba nfree s.media arenaOff = r)
    (hok : r.2.ok = false) (n : Nat) : readArenas nlba nfree (n + 1) arenaOff s =
      ⟨false, s.arenas, s.accessed ++ [r.2.accessed], r.2.media⟩ := by
  rw [readArenas, hr]
  exact if_neg (by rw [hok]; exact Bool.false_ne_true)

theorem Chain.raw_nextoff (h : Chain b off rawsize (p :: l)) (hl : l ≠ []) (m : Media) :
    (p.raw m).nextoff = UInt64.ofNat (off + 2 ^ 39) := by
  have hmax : BTT_MAX_ARENA = UInt64.ofNat (2 ^ 39) := rfl
  have hoff : p.off = UInt64.ofNat off := by
    rw [← h.2.1]
    exact UInt64.ofNat_toNat.symm
  change p.off + p.info.nextoff = _
  rw [h.nextoff, if_neg hl, hoff, hmax, UInt64.ofNat_add]

theorem Chain.map_le (h : Chain b off rawsize (p :: l)) (hend : off + rawsize < 2 ^ 64)
    (hN : 4 * N ≤ (bttMapSize p.info.externalNlba).toNat) (hq : q ∈ l) :
    p.off.toNat + p.info.mapoff.toNat + 4 * N ≤ q.off.toNat := by
  obtain ⟨hgood, hoff, hsize, -, hrest⟩ := h
  have hle := (hrest.bounds hq).2.1
  have hmax := hgood.max
  obtain ⟨-, -, -, hmap, -, hflogs⟩ := hgood.inside (by omega)
  omega

/-- `read_arenas` of a layout whose accepted pairs stay within the maps. The bounds `bound` may
leave out the bytes that are added to the maps, or not. -/
theorem Chain.readArenas (h : Chain b off rawsize l) (hend : off + rawsize < 2 ^ 64)
    {bound : Placed → Nat} (hbound : ∀ p ∈ l, 4 * bound p ≤ (bttMapSize p.info.externalNlba).toNat)
    (hon : ∀ p ∈ l, p.InfoOn s.media)
    (hwithin : ∀ p ∈ l, ∀ pair ∈ (p.pairs s.media).takeWhile (Accepts nlba),
      Within (bound p) pair) :
    let t := Raw.readArenas nlba BTT_DEFAULT_NFREE l.length (UInt64.ofNat off) s
    t.ok = (s.ok && l.all fun p => (p.pairs s.media).all (Accepts nlba)) ∧
      (t.ok = true → t.arenas = s.arenas ++ l.map fun p => p.raw s.media) ∧
      ∀ x, (∀ p ∈ l, p.Outside (bound p) x) → t.media.word x = s.media.word x := by
  induction l generalizing off rawsize s with
  | nil =>
    refine ⟨(Bool.and_true _).symm, fun _ => ?_, fun _ _ => rfl⟩
    rw [map_nil, append_nil]
    rfl
  | cons p l ih =>
    have hnext := h.raw_nextoff (m := s.media)
    have hbig := h.le_of_ne_nil
    rw [forall_mem_cons] at hbound hon hwithin
    have hlater := fun q hq => h.map_le (q := q) hend hbound.1 hq
    obtain ⟨hgood, hoff, hsize, -, hrest⟩ := h
    have hmin := hgood.min
    obtain ⟨hok, harena, hkeeps⟩ :=
      hgood.readArena nlba (by omega) hon.1 hbound.1 hwithin.1
    have hplace : UInt64.ofNat off = p.off := by
      rw [← hoff]
      exact UInt64.ofNat_toNat
    have hpairs : ∀ q ∈ l, q.pairs (Raw.readArena nlba BTT_DEFAULT_NFREE s.media p.off).2.media =
        q.pairs s.media := fun q hq => q.pairs_keeps hkeeps (by have hle := hlater q hq; omega)
    rw [length_cons, hplace]
    dsimp only
    by_cases hall : (p.pairs s.media).all (Accepts nlba) = true
    · rw [hall] at hok
      rw [readArenas_of_ok rfl hok, harena hok, all_cons, hall, Bool.true_and, map_cons]
      by_cases hl : l = []
      · subst hl
        refine ⟨(Bool.and_true _).symm, fun _ => rfl, fun x hx => ?_⟩
        exact hkeeps x (hx p (mem_cons_self ..))
      · have hbig := hbig hl
        have hmapped : (l.map fun q => q.raw (Raw.readArena nlba BTT_DEFAULT_NFREE s.media
            p.off).2.media) = l.map fun q => q.raw s.media :=
          map_congr_left fun q hq => by
            unfold Placed.raw
            rw [hpairs q hq]
        have hacc : (l.all fun q => (q.pairs (Raw.readArena nlba BTT_DEFAULT_NFREE s.media
            p.off).2.media).all (Accepts nlba)) =
              l.all fun q => (q.pairs s.media).all (Accepts nlba) := by
          rw [Bool.eq_iff_iff, all_eq_true, all_eq_true]
          exact forall₂_congr fun q hq => by rw [hpairs q hq]
        obtain ⟨htrue, harenas, hmedia⟩ := ih hrest (by omega) hbound.2 (s := {
            ok := s.ok
            arenas := s.arenas ++ [p.raw s.media]
            accessed := s.accessed ++
              [(Raw.readArena nlba BTT_DEFAULT_NFREE s.media p.off).2.accessed]
            media := (Raw.readArena nlba BTT_DEFAULT_NFREE s.media p.off).2.media })
          (fun q hq => (hon.2 q hq).keeps hkeeps (hlater q hq))
          (fun q hq => by
            dsimp only
            rw [hpairs q hq]
            exact hwithin.2 q hq)
        dsimp only at htrue harenas hmedia
        rw [hacc] at htrue
        rw [hmapped] at harenas
        rw [hnext hl]
        refine ⟨htrue, fun hdone => ?_, fun x hx => ?_⟩
        · rw [harenas hdone, append_assoc]
          rfl
        · rw [forall_mem_cons] at hx
          rw [hmedia x hx.2, hkeeps x hx.1]
    · rw [Bool.eq_false_iff.mpr hall] at hok
      rw [readArenas_of_not rfl hok]
      refine ⟨?_, fun htrue => ?_, fun x hx => ?_⟩
      · rw [all_cons, Bool.eq_false_iff.mpr hall, Bool.false_and, Bool.and_false]
      · cases htrue
      · exact hkeeps x (hx p (mem_cons_self ..))

end Pmdk.Btt.Raw
