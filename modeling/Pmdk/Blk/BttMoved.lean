import Pmdk.Blk.BttReread

/-!
# Flogs that are not where they are read

Two arenas, the second of which has a size that is not a multiple of 64. The flogs of the second
arena but for the first one are written 32 bytes in front of the places where they are read, and
what has been there before is taken for flogs.
-/

namespace Pmdk.Btt.Raw

open List

/-! ## Two arenas -/

def twoArenas (extra : UInt64) : Bttp :=
  ⟨549772591104 + extra, 512, ⟨0, 0, 0, 0⟩, ⟨0, 0, 0, 0⟩, false⟩

theorem isSome_layoutLoop {b : Bttp} {rawsize : UInt64} (h : rawsize ≥ BTT_MIN_SIZE)
    (hinfo : (bttInfoSetParams b.info b.lbasize (internalLbasize b.lbasize) BTT_DEFAULT_NFREE
      (arenaRawsize rawsize)).isSome = true)
    (hrest : ∀ off, (layoutLoop b (rawsize - arenaRawsize rawsize) off).isSome = true)
    (off : UInt64) : (layoutLoop b rawsize off).isSome = true := by
  obtain ⟨info, hinfo⟩ := Option.isSome_iff_exists.mp hinfo
  obtain ⟨rest, hrest⟩ := Option.isSome_iff_exists.mp (hrest (off +
    (bttInfoSetOffs info (arenaRawsize rawsize) (rawsize - arenaRawsize rawsize)).nextoff))
  rw [layoutLoop, dif_pos h, hinfo, Option.bind_eq_bind, Option.bind_some]
  dsimp only
  rw [hrest]
  rfl

theorem twoArenas_layout {extra : UInt64} (h : extra = 0 ∨ extra = 32) :
    ∃ p q, layoutLoop (twoArenas extra) (twoArenas extra).rawsize 0 = some [p, q] ∧
      Chain (twoArenas extra) 0 (twoArenas extra).rawsize.toNat [p, q] := by
  have hsome : ∀ off,
      (layoutLoop (twoArenas extra) (twoArenas extra).rawsize off).isSome = true := by
    rcases h with rfl | rfl
    · refine isSome_layoutLoop (by decide) (by decide +kernel) ?_
      refine isSome_layoutLoop (by decide) (by decide +kernel) fun off => ?_
      rw [layoutLoop_of_lt (by decide)]
      rfl
    · refine isSome_layoutLoop (by decide) (by decide +kernel) ?_
      refine isSome_layoutLoop (by decide) (by decide +kernel) fun off => ?_
      rw [layoutLoop_of_lt (by decide)]
      rfl
  obtain ⟨l, hl⟩ := Option.isSome_iff_exists.mp (hsome 0)
  have hlbasize : internalLbasize (twoArenas extra).lbasize ≠ 0 := by
    change internalLbasize 512 ≠ 0
    decide
  have hchain := chain_of_layout hlbasize hl
  have hlen := hchain.length_eq
  have htwo : l.length = 2 := by
    rcases h with rfl | rfl
    · exact hlen
    · exact hlen
  obtain ⟨p, q, rfl⟩ := length_eq_two.mp htwo
  exact ⟨p, q, hl, hchain⟩

structure Numbers (extra : Nat) (p q : Placed) : Prop where
  poff : p.off.toNat = 0
  psize : p.size.toNat = 2 ^ 39
  pnlba : p.info.externalNlba.toNat = 1065417932
  qoff : q.off.toNat = 2 ^ 39
  qsize : q.size.toNat = 2 ^ 24 + extra
  qnlba : q.info.externalNlba.toNat = 32202
  mapoff : q.info.mapoff.toNat = 16625664 + extra
  flogoff : q.info.flogoff.toNat = 16756736 + extra

theorem numbers {extra : UInt64} {n : Nat} {p q : Placed} (hextra : extra.toNat = n) (hn : n ≤ 32)
    (h : Chain (twoArenas extra) 0 (twoArenas extra).rawsize.toNat [p, q]) : Numbers n p q := by
  have hR : (twoArenas extra).rawsize.toNat = 2 ^ 39 + 2 ^ 24 + extra.toNat := by
    have hsize : (549772591104 : UInt64).toNat = 2 ^ 39 + 2 ^ 24 := rfl
    rw [← hsize]
    exact toNat_add_off (by omega)
  have hlbasize : Btt.roundup (max (twoArenas extra).lbasize.toNat 512) 256 = 512 := by
    change Btt.roundup (max 512 512) 256 = 512
    decide
  obtain ⟨hp, hpoff, hpsize, -, hq, hqoff, hqsize, -, -⟩ := h
  obtain ⟨-, hlb, hint, hext, -, -, -, -⟩ := hp.exact
  obtain ⟨-, hlb', hint', hext', -, -, hflog', hmap'⟩ := hq.exact
  have hround : Btt.roundup (32202 * 4) 4096 = 131072 := by decide
  rw [hlbasize] at hlb hlb'
  rw [hlb] at hint
  rw [hlb'] at hint'
  have hqnlba : q.info.externalNlba.toNat = 32202 := by omega
  rw [hqnlba, hround] at hmap'
  exact ⟨hpoff, by omega, by omega, by omega, by omega, hqnlba, by omega, by omega⟩

/-! ## A flog that has not been written -/

def strayFlog : Flog := ⟨32768, 32768 ||| mapEntryNormal, 0xffffffff, 1⟩

/-- The content of the namespace before `write_layout`. -/
def strayMedia : Media :=
  (Media.write (fun _ => 0) 549772570720 16 (flogWord strayFlog)).write (549772570720 + 16) 16
    fun _ => 0

theorem strayMedia_word {x : Nat} (h : x + 4 ≤ 549772570720 ∨ 549772570720 + 32 ≤ x) :
    strayMedia.word x = 0 := by
  unfold strayMedia
  rw [Media.word_write_of_disjoint (by omega), Media.word_write_of_disjoint (by omega)]
  change Checksum.le32 0 0 0 0 = 0
  decide

theorem strayMedia_flogPair {x : Nat} (h : x + 32 ≤ 549772570720 ∨ 549772570720 + 32 ≤ x) :
    strayMedia.flogPair x = fun _ => ⟨0, 0, 0, 0⟩ := by
  have hword : ∀ k < 8, strayMedia.word (x + 4 * k) = 0 := fun k hk => strayMedia_word (by omega)
  funext e
  cases e with
  | false =>
    exact congr (congr (congrArg₂ Flog.mk (hword 0 (by decide)) (hword 1 (by decide)))
      (hword 2 (by decide))) (hword 3 (by decide))
  | true =>
    exact congr (congr (congrArg₂ Flog.mk (hword 4 (by decide)) (hword 5 (by decide)))
      (hword 6 (by decide))) (hword 7 (by decide))

/-- Behind the first flog nothing is written where the flogs of the second arena are read. -/
theorem flogPair_moved {p q : Placed}
    (h : Chain (twoArenas 32) 0 (twoArenas 32).rawsize.toNat [p, q]) (m : Media) {k : Nat}
    (hk : k ≠ 0) (hlt : k < 256) : (written (twoArenas 32) [p, q] m).flogPair
      (549772570656 + 64 * k) = m.flogPair (549772570656 + 64 * k) := by
  obtain ⟨hpoff, hpsize, -, hqoff, hqsize, -, -, hflogoff⟩ := numbers (n := 32) rfl (by decide) h
  have hp := (h.bounds (mem_cons_self ..)).1
  obtain ⟨-, -, -, -, -, hmap, hflogs, hinfo⟩ := hp.areas
  have hq := (h.bounds (mem_cons_of_mem p (mem_cons_self ..))).1
  obtain ⟨-, -, -, -, -, hmap', hflogs', hinfo'⟩ := hq.areas
  have hoff : (p.off + p.info.flogoff).toNat = p.off.toNat + p.info.flogoff.toNat :=
    toNat_add_off (by omega)
  have hoff' : (q.off + q.info.flogoff).toNat = 549772570656 := by
    rw [toNat_add_off (by omega)]
    omega
  have hround : Btt.roundup (549772570656 + 32) 64 = 549772570688 := by decide
  unfold written
  refine flogPair_foldl_apply (fun w hw => ?_) m
  obtain ⟨r, hr, hw⟩ := mem_flatMap.mp hw
  unfold Write.Avoids
  rcases mem_cons.mp hr with heq | hr
  · rw [heq] at hw
    rcases mem_arenaWrites hp (by omega) hw with ⟨hle, hend⟩ | hw | ⟨heq, hlen⟩ | ⟨heq, hlen⟩
    · omega
    · obtain ⟨hle, hend⟩ := flogWrites_bounds (by omega) hw
      omega
    · omega
    · omega
  · rw [mem_singleton.mp hr] at hw
    rcases mem_arenaWrites hq (by omega) hw with ⟨hle, hend⟩ | hw | ⟨heq, hlen⟩ | ⟨heq, hlen⟩
    · omega
    · obtain ⟨hlen, hplace⟩ := mem_flogWrites_succ (n := 255) (by omega) hw
      rw [hoff', hround] at hplace
      omega
    · omega
    · omega

theorem readFlogs_stray {nlba mapoff flogOff : UInt64} {s : FlogsRead} (externalNlba : UInt32)
    (hnlba : 32768 < nlba.toNat) (hmapoff : mapoff.toNat + 131072 = 549772570656)
    (hflogOff : flogOff.toNat = 549772570656) (hok : s.ok = true)
    (hfirst : s.media.flogPair 549772570656 =
      fun e => if e then ⟨0, 0, 0, 0⟩ else freshFlog externalNlba 0)
    (hsecond : s.media.flogPair 549772570720 = fun e => if e then ⟨0, 0, 0, 0⟩ else strayFlog)
    (hrest : ∀ k < 254, s.media.flogPair (549772570784 + 64 * k) = fun _ => ⟨0, 0, 0, 0⟩) :
    (readFlogs nlba mapoff 256 flogOff s).ok = true ∧
      (readFlogs nlba mapoff 256 flogOff s).media.word 549772570656 = 0xffffffff ∧
        ∀ x, x + 4 ≤ mapoff.toNat →
          (readFlogs nlba mapoff 256 flogOff s).media.word x = s.media.word x := by
  have hstep : (64 : UInt64).toNat = 64 := rfl
  have hnext : (flogOff + 64).toNat = 549772570720 := by
    rw [toNat_add_off (by omega)]
    omega
  have hthird : (flogOff + 64 + 64).toNat = 549772570784 := by
    rw [toNat_add_off (by omega)]
    omega
  have hentry : entryOff mapoff 32768 = 549772570656 := by
    have hlba : (32768 : UInt32).toNat = 32768 := rfl
    rw [entryOff_eq, hlba]
    omega
  have hzero : s.media.word 549772570656 = 0 :=
    congrArg (fun pair : Bool → Flog => (pair false).lba) hfirst
  -- the first pair
  have hne : flogOff ≠ 0 := by
    rintro rfl
    cases hflogOff
  have hacc : Accepts nlba (s.media.flogPair flogOff.toNat) = true := by
    rw [hflogOff, hfirst]
    exact decide_eq_true ⟨UInt64.lt_iff_toNat_lt.mpr (Nat.zero_lt_of_lt hnlba),
      UInt64.lt_iff_toNat_lt.mpr (Nat.zero_lt_of_lt hnlba)⟩
  obtain ⟨ws, hread, hws⟩ := readFlogPair_of mapoff s.flags hne hacc
  have hnil : ws = [] := by
    refine eq_nil_iff_forall_not_mem.mpr fun w hw => ?_
    obtain ⟨lba, hlba, -⟩ := hws w hw
    rw [hflogOff, hfirst, toRecover_fresh] at hlba
    cases hlba
  -- the second pair
  have hread' : ∀ flags, readFlogPair nlba s.media mapoff flags (flogOff + 64) =
      some ⟨flags, ⟨strayFlog, true⟩, [549772570656],
        [⟨549772570656, 4, fun _ => 0xffffffff⟩]⟩ := by
    intro flags
    have hoff : flogOff + 64 ≠ 0 := by
      intro heq
      rw [heq] at hnext
      cases hnext
    have hlba : ¬ strayFlog.lba.toUInt64 ≥ nlba := by
      rw [ge_iff_le, UInt64.not_le, UInt64.lt_iff_toNat_lt]
      exact hnlba
    have hlba' : ¬ (0 : UInt32).toUInt64 ≥ nlba := by
      rw [ge_iff_le, UInt64.not_le, UInt64.lt_iff_toNat_lt]
      exact Nat.zero_lt_of_lt hnlba
    have hvalid : flogGetValid (fun e => if e then ⟨0, 0, 0, 0⟩ else strayFlog) =
        some (strayFlog, true) := rfl
    have hold : strayFlog.oldMap ≠ strayFlog.newMap := by decide
    have hplace : (mapoff + (4 * strayFlog.lba).toUInt64).toNat = 549772570656 := hentry
    unfold readFlogPair
    rw [hnext, hsecond]
    simp only [Bool.false_eq_true, ↓reduceIte]
    rw [if_neg hoff, if_neg hlba, if_neg hlba', hvalid]
    dsimp only
    rw [if_neg hold, hplace, hzero, if_pos (by decide)]
    rfl
  rw [show 256 = 254 + 1 + 1 from rfl, readFlogs, hread, hnil]
  dsimp only
  rw [foldl_nil, readFlogs, hread']
  dsimp only
  rw [foldl_cons, foldl_nil]
  -- the other pairs
  have hword : ∀ x, x + 4 ≤ 549772570656 ∨ 549772570656 + 4 ≤ x →
      (s.media.apply ⟨549772570656, 4, fun _ => 0xffffffff⟩).word x = s.media.word x :=
    fun x hx => Media.word_write_of_disjoint hx
  have hpairs : ∀ pair ∈ (s.media.apply ⟨549772570656, 4, fun _ => 0xffffffff⟩).flogPairs 254
      549772570784, pair = fun _ => ⟨0, 0, 0, 0⟩ := by
    intro pair hpair
    obtain ⟨k, hk, rfl⟩ := mem_flogPairs hpair
    rw [← hrest k hk]
    exact flogPair_congr fun j _ => hword _ (by omega)
  rw [← hthird] at hpairs
  obtain ⟨hdone, -, hkeeps⟩ := readFlogs_of_within nlba mapoff (flogOff + 64 + 64) (N := 0)
    (n := 254) (s := {
      ok := s.ok
      flags := pairFlags s.flags (s.media.flogPair flogOff.toNat)
      flogs := s.flogs ++ [pairRuntime (s.media.flogPair flogOff.toNat)] ++ [⟨strayFlog, true⟩]
      accessed := s.accessed ++
        ((toRecover (s.media.flogPair flogOff.toNat)).map (entryOff mapoff)).toList ++
          [].map Write.off ++ [549772570656] ++ [549772570656]
      media := s.media.apply ⟨549772570656, 4, fun _ => 0xffffffff⟩ })
    (by omega) (by omega) (by omega) (fun pair hpair lba hlba => by
      rw [hpairs pair (takeWhile_subset _ hpair)] at hlba
      cases hlba)
  dsimp only at hdone hkeeps
  refine ⟨?_, ?_, fun x hx => ?_⟩
  · refine hdone.trans ?_
    rw [hok, Bool.true_and, all_eq_true]
    intro pair hpair
    rw [hpairs pair hpair]
    exact decide_eq_true ⟨UInt64.lt_iff_toNat_lt.mpr (Nat.zero_lt_of_lt hnlba),
      UInt64.lt_iff_toNat_lt.mpr (Nat.zero_lt_of_lt hnlba)⟩
  · refine (hkeeps 549772570656 (.inr (by omega))).trans ?_
    exact Media.word_write_of_mem (k := 0) (Nat.le_refl _)
  · exact (hkeeps x (.inl hx)).trans (hword x (.inl (by omega)))

section Stray

variable {p q : Placed} {nlba : UInt64} {m : Media}

theorem readFlogs_second (h : Chain (twoArenas 32) 0 (twoArenas 32).rawsize.toNat [p, q])
    (hnlba : 32768 < nlba.toNat)
    (hm : ∀ x, 2 ^ 39 ≤ x → m.word x = (written (twoArenas 32) [p, q] strayMedia).word x) :
    (readFlogs nlba (q.off + q.info.mapoff) 256 (q.off + q.info.flogoff)
        ⟨true, q.info.flags, [], [], m⟩).ok = true ∧
      (readFlogs nlba (q.off + q.info.mapoff) 256 (q.off + q.info.flogoff)
        ⟨true, q.info.flags, [], [], m⟩).media.word 549772570656 = 0xffffffff ∧
      ∀ x, x + 4 ≤ (q.off + q.info.mapoff).toNat →
        (readFlogs nlba (q.off + q.info.mapoff) 256 (q.off + q.info.flogoff)
          ⟨true, q.info.flags, [], [], m⟩).media.word x = m.word x := by
  obtain ⟨-, -, -, hqoff, hqsize, -, hmapoff, hflogoff⟩ := numbers (n := 32) rfl (by decide) h
  have hql : q ∈ [p, q] := mem_cons_of_mem p (mem_cons_self ..)
  have hlt : 0 + (twoArenas 32).rawsize.toNat < 2 ^ 64 := by decide
  obtain ⟨hmap, hflog, -, -, -, -⟩ := (h.bounds hql).1.inside (by omega)
  have hfirst := (h.readBack hlt (.inl rfl) strayMedia hql).2 0 (by decide) fun h => absurd rfl h
  have hbehind := fun k hk hlt => flogPair_moved h strayMedia (k := k) hk hlt
  rw [Nat.mul_zero, Nat.add_zero, hqoff, hflogoff] at hfirst
  have hkept : ∀ k < 256, m.flogPair (549772570656 + 64 * k) =
      (written (twoArenas 32) [p, q] strayMedia).flogPair (549772570656 + 64 * k) :=
    fun k _ => flogPair_congr fun _ _ => hm _ (by omega)
  refine readFlogs_stray q.info.externalNlba hnlba (by omega) (by omega) rfl
    ((hkept 0 (by decide)).trans hfirst)
    ((hkept 1 (by decide)).trans ((hbehind 1 (by decide) (by decide)).trans
      (flogPair_write _ 549772570720 strayFlog))) fun k hk => ?_
  have hplace : 549772570784 + 64 * k = 549772570656 + 64 * (k + 2) := by omega
  dsimp only
  rw [hplace, hkept _ (by omega), hbehind _ (by omega) (by omega), strayMedia_flogPair (by omega)]

theorem loadArenas_two {nfree : UInt32} {r t : RawArena × FlogsRead}
    (hr : readArena nlba nfree m 0 = r) (hrok : r.2.ok = true)
    (ht : readArena nlba nfree r.2.media r.1.nextoff = t) (htok : t.2.ok = true) :
    loadArenas 2 nlba nfree m = some (⟨2, nlba, nfree, [r.1, t.1]⟩, t.2.media) := by
  have hfirst := readArenas_of_ok (s := ⟨true, [], [], m⟩) hr hrok 1
  have hsecond := readArenas_of_ok (s := ⟨true, [r.1], [r.2.accessed], r.2.media⟩) ht htok 0
  unfold loadArenas
  rw [hfirst.trans hsecond]
  rfl

/-- `write_layout` accepts the flogs, and writes over the first one of the second arena. -/
theorem loadArenas_stray (nlba : UInt64)
    (h : Chain (twoArenas 32) 0 (twoArenas 32).rawsize.toNat [p, q]) (hnlba : 32768 < nlba.toNat) :
    ∃ r m', loadArenas 2 nlba BTT_DEFAULT_NFREE (written (twoArenas 32) [p, q] strayMedia) =
        some (r, m') ∧ (∀ i ∈ [p, q], i.InfoOn m') ∧ p.FlogsOn m' ∧
      m'.word 549772570656 = 0xffffffff := by
  obtain ⟨hpoff, hpsize, -, hqoff, hqsize, -, hmapoff, hflogoff⟩ := numbers (n := 32) rfl
      (by decide) h
  have hpl : p ∈ [p, q] := mem_cons_self ..
  have hql : q ∈ [p, q] := mem_cons_of_mem p (mem_cons_self ..)
  have hp := (h.bounds hpl).1
  obtain ⟨-, -, hinfo, hmap, -, hflogs⟩ := hp.inside (by omega)
  obtain ⟨hmapoff', -, hinfo', -, -, -⟩ := (h.bounds hql).1.inside (by omega)
  obtain ⟨hpon, hpflogs⟩ := h.written_on strayMedia hpl
  obtain ⟨hqon, -⟩ := h.written_on strayMedia hql
  have hpflogs := hpflogs (by omega)
  have hnext : p.off + p.info.nextoff = q.off := by
    refine UInt64.toNat_inj.mp ?_
    rw [h.nextoff, if_neg (cons_ne_nil q []), toNat_add_off, hpoff, hqoff]
    · rfl
    · rw [hpoff]
      decide
  have hsecond := fun m => readFlogs_second (m := m) h hnlba
  generalize written (twoArenas 32) [p, q] strayMedia = W at *
  -- the first arena
  obtain ⟨hok, hraw, hkeeps⟩ := hp.readArena nlba (N := 0) (by omega) hpon (by omega)
    fun pair hpair => hpflogs.within (takeWhile_subset _ hpair)
  rw [hpflogs.accepts (by omega)] at hok
  have hraw := hraw hok
  rw [hpoff] at hkeeps
  rw [show p.off = 0 from UInt64.toNat_inj.mp hpoff] at hok hraw hkeeps
  -- the second arena
  generalize hr : readArena nlba BTT_DEFAULT_NFREE W 0 = r at hok hraw hkeeps
  have hqon' : q.InfoOn r.2.media := hqon.keeps hkeeps (by omega)
  obtain ⟨hsok, hover, hbefore⟩ := hsecond r.2.media fun x hx => hkeeps x (.inr (by omega))
  have hread : readArena nlba BTT_DEFAULT_NFREE r.2.media r.1.nextoff =
      ((readArena nlba BTT_DEFAULT_NFREE r.2.media q.off).1,
        readFlogs nlba (q.off + q.info.mapoff) 256 (q.off + q.info.flogoff)
          ⟨true, q.info.flags, [], [], r.2.media⟩) := by
    rw [hraw, show (p.raw W).nextoff = q.off from hnext]
    unfold readArena
    rw [hqon'.ofWords]
    rfl
  generalize readFlogs nlba (q.off + q.info.mapoff) 256 (q.off + q.info.flogoff)
    ⟨true, q.info.flags, [], [], r.2.media⟩ = t at hsok hover hbefore hread
  have hpon' : p.InfoOn t.media := by
    intro k hk
    rw [hbefore _ (by omega), hkeeps _ (.inl (by omega)), hpon k hk]
  have hqon'' : q.InfoOn t.media := by
    intro k hk
    rw [hbefore _ (by omega), hqon' k hk]
  refine ⟨_, t.media, loadArenas_two hr hok hread hsok,
    forall_mem_cons.mpr ⟨hpon', forall_mem_singleton.mpr hqon''⟩, fun k hk => ?_, hover⟩
  rw [← hpflogs k hk]
  exact flogPair_congr fun j hj => by
    rw [hbefore _ (by omega), hkeeps _ (.inr (by omega))]

theorem loadArenas_over (h : Chain (twoArenas 32) 0 (twoArenas 32).rawsize.toNat [p, q])
    (hlt : nlba.toNat < 2 ^ 32 - 1) (hon : ∀ i ∈ [p, q], i.InfoOn m) (hflogs : p.FlogsOn m)
    (hover : m.word 549772570656 = 0xffffffff) : loadArenas 2 nlba BTT_DEFAULT_NFREE m = none := by
  obtain ⟨-, -, -, hqoff, -, -, -, hflogoff⟩ := numbers (n := 32) rfl (by decide) h
  have hpair : q.pairs m = m.flogPair 549772570656 :: m.flogPairs 255 (549772570656 + 64) := by
    unfold Placed.pairs
    rw [hqoff, hflogoff]
    rfl
  have hrefused : ¬ Accepts nlba (m.flogPair 549772570656) = true := by
    have hlba : (m.flogPair 549772570656 false).lba = 0xffffffff := hover
    unfold Accepts
    rw [decide_eq_true_eq, hlba, UInt64.lt_iff_toNat_lt, UInt32.toNat_toUInt64]
    exact fun hacc => absurd (Nat.lt_trans hacc.1 hlt) (by decide)
  obtain ⟨hiff, -⟩ := h.loadArenas (m := m) nlba (fun _ => 0)
    (fun _ _ => Nat.zero_le _) hon (fun i hi => by
      rcases mem_cons.mp hi with heq | hi
      · rw [heq]
        exact fun pair hpair => hflogs.within (takeWhile_subset _ hpair)
      · rw [mem_singleton.mp hi, hpair, takeWhile_cons_of_neg hrefused]
        exact fun _ hpair => absurd hpair not_mem_nil)
  refine Option.not_isSome_iff_eq_none.mp fun hsome => hrefused ?_
  have hall := hiff.mp hsome q (mem_cons_of_mem p (mem_cons_self ..))
  rw [hpair, all_cons, Bool.and_eq_true] at hall
  exact hall.1

end Stray

theorem reread_twoArenas : ∃ r m' m'', writeLayout (twoArenas 0) (fun _ => 0) = some (r, m') ∧
    readLayout (twoArenas 0) m' = some (r, m'') := by
  obtain ⟨p, q, hl, hchain⟩ := twoArenas_layout (.inl rfl)
  have halign : 64 ∣ (twoArenas 0).rawsize.toNat := by decide
  obtain ⟨⟨r, m'⟩, h⟩ := Option.isSome_iff_exists.mp
    (hchain.isSome_writeLayout (by decide) hl (.inl halign) fun _ => 0)
  obtain ⟨l, -, -, hread⟩ := reread h
  obtain ⟨m'', hread⟩ := hread (.inl halign)
  exact ⟨r, m', m'', h, hread⟩

/-- `write_layout` succeeds, and the next `read_layout` fails. -/
theorem not_reread : ∃ r m', writeLayout (twoArenas 32) strayMedia = some (r, m') ∧
    readLayout (twoArenas 32) m' = none := by
  obtain ⟨p, q, hl, hchain⟩ := twoArenas_layout (.inr rfl)
  obtain ⟨-, -, hpnlba, -, -, hqnlba, -, -⟩ := numbers (n := 32) rfl (by decide) hchain
  have hnlba : (totalNlba ([p, q].map Placed.info)).toNat = 1065417932 + 32202 := by
    rw [hchain.toNat_totalNlba, List.map_cons, List.map_singleton, List.sum_cons,
      List.sum_singleton, hpnlba, hqnlba]
  have hnarena : narena (twoArenas 32).rawsize = 2 := hchain.sound.narena
  have hlbasize : ¬ internalLbasize (twoArenas 32).lbasize = 0 := by decide
  obtain ⟨r, m', hload, hon, hflogs, hover⟩ :=
    loadArenas_stray (totalNlba ([p, q].map Placed.info)) hchain (by omega)
  refine ⟨r, m', ?_, ?_⟩
  · unfold writeLayout
    rw [if_neg hlbasize, hl, Option.bind_eq_bind, Option.bind_some, hnarena]
    exact hload
  · unfold readLayout
    rw [hchain.readParams hon]
    exact loadArenas_over hchain (by omega) hon hflogs hover

end Pmdk.Btt.Raw
