import Pmdk.Blk.BttMoved

/-!
# Where the recovery accesses the map

`read_flog_pair` checks the block number of a flog against the number of blocks of the namespace,
and uses it for the map of the arena.
-/

namespace Pmdk.Btt.Raw

open List

variable {b : Bttp} {l : List Placed} {off rawsize : Nat} {p : Placed} {m : Media}
  {nlba mapoff flogOff : UInt64} {n N : Nat}

def Placed.InMap (p : Placed) (x : Nat) : Prop :=
  ∃ k < p.info.externalNlba.toNat, x = p.off.toNat + p.info.mapoff.toNat + 4 * k

def Stays (l : List Placed) (xss : List (List Nat)) : Prop :=
  ∀ (a : Nat) (xs : List Nat), xss[a]? = some xs → ∃ p : Placed, l[a]? = some p ∧ ∀ x ∈ xs,
      p.InMap x

def candidates (l : List Placed) (m : Media) : List (UInt32 × (Bool → Flog)) :=
  l.flatMap fun p => (p.pairs m).map fun pair => (p.info.externalNlba, pair)

def Local (nlba : UInt64) (cs : List (UInt32 × (Bool → Flog))) : Prop :=
  ∀ c ∈ cs.takeWhile fun c => Accepts nlba c.2, Within c.1.toNat c.2

theorem stays_nil (l : List Placed) : Stays l [] := by
  intro a xs h
  cases h

theorem stays_cons {xs : List Nat} {xss : List (List Nat)} :
    Stays (p :: l) (xs :: xss) ↔ (∀ x ∈ xs, p.InMap x) ∧ Stays l xss := by
  constructor
  · intro h
    refine ⟨?_, fun a ys hys => h (a + 1) ys hys⟩
    obtain ⟨q, hq, hin⟩ := h 0 xs rfl
    cases hq
    exact hin
  · rintro ⟨hin, h⟩ a ys hys
    cases a with
    | zero =>
      cases hys
      exact ⟨p, rfl, hin⟩
    | succ a => exact h a ys hys

/-! ## Flogs -/

theorem within_iff {pair : Bool → Flog} {ws : List Write} {xs : List Nat}
    (hmap : mapoff.toNat + 4 * N ≤ 2 ^ 64)
    (hws : ∀ w ∈ ws, ∃ lba ∈ toRecover pair, w.off = entryOff mapoff lba ∧ w.len = 4) :
    (∀ x ∈ xs ++ ((toRecover pair).map (entryOff mapoff)).toList ++ ws.map Write.off,
        ∃ k < N, x = mapoff.toNat + 4 * k) ↔
      (∀ x ∈ xs, ∃ k < N, x = mapoff.toNat + 4 * k) ∧ Within N pair := by
  rw [forall_mem_append, forall_mem_append]
  constructor
  · rintro ⟨⟨hxs, hread⟩, -⟩
    refine ⟨hxs, fun lba hlba => (entryOff_mem hmap lba).mp (hread _ ?_)⟩
    rw [Option.mem_toList]
    exact Option.mem_map_of_mem _ hlba
  · rintro ⟨hxs, hwithin⟩
    refine ⟨⟨hxs, fun x hx => ?_⟩, fun x hx => ?_⟩
    · obtain ⟨lba, hlba, rfl⟩ := Option.mem_map.mp (Option.mem_toList.mp hx)
      exact (entryOff_mem hmap lba).mpr (hwithin lba hlba)
    · obtain ⟨w, hw, rfl⟩ := mem_map.mp hx
      obtain ⟨lba, hlba, hoff, -⟩ := hws w hw
      rw [hoff]
      exact (entryOff_mem hmap lba).mpr (hwithin lba hlba)

theorem readFlogs_inside (nlba mapoff flogOff : UInt64) {s : FlogsRead} (hpos : 0 < flogOff.toNat)
    (hmap : mapoff.toNat + 4 * N ≤ flogOff.toNat) (hend : flogOff.toNat + 64 * n < 2 ^ 64) :
    (∀ x ∈ (readFlogs nlba mapoff n flogOff s).accessed, ∃ k < N, x = mapoff.toNat + 4 * k) ↔
      (∀ x ∈ s.accessed, ∃ k < N, x = mapoff.toNat + 4 * k) ∧
        ∀ pair ∈ (s.media.flogPairs n flogOff.toNat).takeWhile (Accepts nlba), Within N pair := by
  induction n generalizing flogOff s with
  | zero =>
    rw [readFlogs, Media.flogPairs, takeWhile_nil]
    exact (and_iff_left fun _ h => absurd h not_mem_nil).symm
  | succ n ih =>
    have hnext : (flogOff + 64).toNat = flogOff.toNat + 64 := toNat_add_off (y := 64) (by
      have hstep : (64 : UInt64).toNat = 64 := rfl
      omega)
    have hne : flogOff ≠ 0 := by
      rintro rfl
      exact absurd hpos (by decide)
    rw [Media.flogPairs]
    by_cases hacc : Accepts nlba (s.media.flogPair flogOff.toNat) = true
    · obtain ⟨ws, hread, hws⟩ := readFlogPair_of mapoff s.flags hne hacc
      rw [takeWhile_cons_of_pos hacc, forall_mem_cons, readFlogs, hread]
      dsimp only
      rw [ih (flogOff + 64) (by omega) (by omega) (by omega)]
      dsimp only
      rw [within_iff (by omega) hws, and_assoc]
      refine and_congr_right fun _ => and_congr_right fun hwithin => ?_
      have hkeeps := keeps_writes (m := s.media) (by omega) hwithin hws
      rw [hnext, hkeeps.flogPairs (by omega)]
    · rw [takeWhile_cons_of_neg hacc, readFlogs, readFlogPair_of_not hacc]
      exact (and_iff_left fun _ h => absurd h not_mem_nil).symm

/-! ## Arenas -/

theorem local_append {nlba : UInt64} {cs ds : List (UInt32 × (Bool → Flog))} :
    Local nlba (cs ++ ds) ↔
      Local nlba cs ∧ ((cs.all fun c => Accepts nlba c.2) = true → Local nlba ds) := by
  induction cs with
  | nil =>
    have hnil : Local nlba [] := fun _ h => absurd h not_mem_nil
    simp [hnil]
  | cons c cs ih =>
    unfold Local at ih ⊢
    rw [cons_append, all_cons]
    by_cases hc : Accepts nlba c.2 = true
    · simp only [takeWhile_cons, hc, if_true, Bool.true_and]
      rw [forall_mem_cons, forall_mem_cons, ih, and_assoc]
    · simp [hc]

theorem readArenas_accessed {nfree : UInt32} (n : Nat) (arenaOff : UInt64) (s : ArenasRead) :
    (readArenas nlba nfree n arenaOff s).accessed =
      s.accessed ++ (readArenas nlba nfree n arenaOff { s with accessed := [] }).accessed := by
  induction n generalizing arenaOff s with
  | zero => exact (append_nil _).symm
  | succ n ih =>
    generalize hr : readArena nlba nfree s.media arenaOff = r
    cases hok : r.2.ok with
    | true =>
      have hlong := ih r.1.nextoff
        ⟨s.ok, s.arenas ++ [r.1], s.accessed ++ [r.2.accessed], r.2.media⟩
      have hshort := ih r.1.nextoff ⟨s.ok, s.arenas ++ [r.1], [r.2.accessed], r.2.media⟩
      rw [readArenas_of_ok hr hok, readArenas_of_ok (s := { s with accessed := [] }) hr hok,
        hlong, append_assoc]
      exact congrArg (s.accessed ++ ·) hshort.symm
    | false =>
      rw [readArenas_of_not hr hok, readArenas_of_not (s := { s with accessed := [] }) hr hok]
      rfl

theorem Placed.Good.readArena_inside (hp : p.Good b) (nlba : UInt64)
    (hend : p.off.toNat + p.size.toNat < 2 ^ 64) (hon : p.InfoOn m) :
    (∀ x ∈ (Raw.readArena nlba BTT_DEFAULT_NFREE m p.off).2.accessed, p.InMap x) ↔
      ∀ pair ∈ (p.pairs m).takeWhile (Accepts nlba), Within p.info.externalNlba.toNat pair := by
  obtain ⟨hmapoff, hflogoff, hinfo, hmap, hentries, hflogs⟩ := hp.inside hend
  have hnfree : BTT_DEFAULT_NFREE.toNat = 256 := rfl
  have hread := readFlogs_inside nlba (p.off + p.info.mapoff)
    (p.off + p.info.flogoff) (n := 256) (N := p.info.externalNlba.toNat)
    (s := ⟨true, p.info.flags, [], [], m⟩) (by omega) (by omega) (by omega)
  unfold Placed.pairs Placed.InMap
  rw [hmapoff, hflogoff] at hread
  unfold Raw.readArena
  rw [hon.ofWords, hnfree]
  exact hread.trans (and_iff_right fun _ h => absurd h not_mem_nil)

theorem local_map {externalNlba : UInt32} {pairs : List (Bool → Flog)} :
    Local nlba (pairs.map fun pair => (externalNlba, pair)) ↔
      ∀ pair ∈ pairs.takeWhile (Accepts nlba), Within externalNlba.toNat pair := by
  unfold Local
  rw [takeWhile_map]
  exact forall_mem_map

theorem Chain.stays (h : Chain b off rawsize l) (hend : off + rawsize < 2 ^ 64) {s : ArenasRead}
    (hon : ∀ p ∈ l, p.InfoOn s.media) (hempty : s.accessed = []) :
    Stays l (Raw.readArenas nlba BTT_DEFAULT_NFREE l.length (UInt64.ofNat off) s).accessed ↔
      Local nlba (candidates l s.media) := by
  induction l generalizing off rawsize s with
  | nil =>
    refine iff_of_true ?_ fun _ h => absurd h not_mem_nil
    rw [length_nil, Raw.readArenas, hempty]
    exact stays_nil []
  | cons p l ih =>
    have hnext := h.raw_nextoff (m := s.media)
    have hbig := h.le_of_ne_nil
    have hfits : 4 * p.info.externalNlba.toNat ≤ (bttMapSize p.info.externalNlba).toNat := by
      obtain ⟨-, -, hend⟩ := h.bounds (mem_cons_self ..)
      exact (h.1.inside (by omega)).entries
    have hlater := fun q hq => h.map_le (q := q) hend hfits hq
    obtain ⟨hgood, hoff, hsize, -, hrest⟩ := h
    rw [forall_mem_cons] at hon
    have hmin := hgood.min
    have hplace : UInt64.ofNat off = p.off := by
      rw [← hoff]
      exact UInt64.ofNat_toNat
    have hinside := hgood.readArena_inside nlba (by omega) hon.1
    have hcands : candidates (p :: l) s.media =
        ((p.pairs s.media).map fun pair => (p.info.externalNlba, pair)) ++
          candidates l s.media := flatMap_cons
    rw [hcands, local_append, local_map, all_map, length_cons, hplace]
    -- what the first arena accesses comes first
    have hsplit : ∃ xss, (Raw.readArenas nlba BTT_DEFAULT_NFREE (l.length + 1) p.off s).accessed =
        (Raw.readArena nlba BTT_DEFAULT_NFREE s.media p.off).2.accessed :: xss ∧
          ((∀ pair ∈ (p.pairs s.media).takeWhile (Accepts nlba),
            Within p.info.externalNlba.toNat pair) → (Stays l xss ↔
              (((p.pairs s.media).all (Accepts nlba)) = true →
                Local nlba (candidates l s.media)))) := by
      have hread := fun hwithin => hgood.readArena nlba (by omega) hon.1 hfits hwithin
      generalize hr : Raw.readArena nlba BTT_DEFAULT_NFREE s.media p.off = r at hread
      cases hok : r.2.ok with
      | false =>
        refine ⟨[], ?_, fun hwithin => iff_of_true (stays_nil l) fun hall => ?_⟩
        · rw [readArenas_of_not hr hok, hempty]
          rfl
        · rw [← (hread hwithin).1, hok] at hall
          cases hall
      | true =>
        refine ⟨(Raw.readArenas nlba BTT_DEFAULT_NFREE l.length r.1.nextoff
          ⟨s.ok, s.arenas ++ [r.1], [], r.2.media⟩).accessed, ?_, fun hwithin => ?_⟩
        · rw [readArenas_of_ok hr hok, readArenas_accessed, hempty]
          rfl
        · obtain ⟨hall, hraw, hkeeps⟩ := hread hwithin
          rw [← hall, hok]
          by_cases hl : l = []
          · subst hl
            exact iff_of_true (stays_nil []) fun _ _ h => absurd h not_mem_nil
          · have hbig := hbig hl
            have hpairs : candidates l r.2.media = candidates l s.media :=
              flatMap_congr fun q hq => by
                rw [q.pairs_keeps hkeeps (Nat.le_trans (hlater q hq) (Nat.le_add_right _ _))]
            have hstays := ih hrest (by omega) (s := ⟨s.ok, s.arenas ++ [r.1], [], r.2.media⟩)
              (fun q hq => (hon.2 q hq).keeps hkeeps (hlater q hq)) rfl
            dsimp only at hstays
            rw [hpairs] at hstays
            rw [hraw hok, hnext hl, ← hraw hok, hstays]
            exact ⟨fun hlocal _ => hlocal, fun hlocal => hlocal rfl⟩
    obtain ⟨xss, hxss, hrest⟩ := hsplit
    rw [hxss, stays_cons, hinside]
    exact and_congr_right hrest

/-- `read_layout` accesses the maps of the arenas only, if and only if the flogs are local. -/
theorem stays_iff (hlbasize : internalLbasize b.lbasize ≠ 0)
    (hl : layoutLoop b b.rawsize 0 = some l) (hon : ∀ p ∈ l, p.InfoOn m) :
    Stays l (accesses b m) ↔ Local (totalNlba (l.map Placed.info)) (candidates l m) := by
  have hchain := chain_of_layout hlbasize hl
  have hlt : 0 + b.rawsize.toNat < 2 ^ 64 := by
    rw [Nat.zero_add]
    exact b.rawsize.toNat_lt
  unfold accesses
  rw [hchain.readParams hon]
  exact hchain.stays hlt (s := ⟨true, [], [], m⟩) hon rfl

theorem stays_written : ∃ l, layoutLoop (twoArenas 0) (twoArenas 0).rawsize 0 = some l ∧
    (Stays l (accesses (twoArenas 0) (written (twoArenas 0) l fun _ => 0)) ↔
      Local (totalNlba (l.map Placed.info))
        (candidates l (written (twoArenas 0) l fun _ => 0))) := by
  obtain ⟨p, q, hl, hchain⟩ := twoArenas_layout (.inl rfl)
  exact ⟨[p, q], hl, stays_iff (by decide) hl fun p hp => (hchain.written_on _ hp).1⟩

/-- A flog of the second arena with a block that only the first one has. -/
theorem not_stays_stray : ∃ l m, layoutLoop (twoArenas 0) (twoArenas 0).rawsize 0 = some l ∧
    (∀ p ∈ l, p.InfoOn m) ∧ ¬ Stays l (accesses (twoArenas 0) m) := by
  obtain ⟨p, q, hl, hchain⟩ := twoArenas_layout (.inl rfl)
  obtain ⟨hpoff, hpsize, hpnlba, hqoff, -, hqnlba, -, hflogoff⟩ :=
    numbers (n := 0) rfl (by decide) hchain
  have hpl : p ∈ [p, q] := List.mem_cons_self ..
  have hql : q ∈ [p, q] := List.mem_cons_of_mem p (List.mem_cons_self ..)
  have hdvd : 64 ∣ (twoArenas 0).rawsize.toNat := by decide
  obtain ⟨-, -, -, -, -, hend⟩ := (hchain.bounds hpl).1.inside (by omega)
  have hflogs := (hchain.written_on (fun _ => 0) hpl).2 (hchain.dvd_flogs (.inl hdvd) hpl)
  have hon := fun i hi => (hchain.written_on (p := i) (fun _ => 0) hi).1
  generalize written (twoArenas 0) [p, q] (fun _ => 0) = W at hflogs hon
  have hword : ∀ x, x + 4 ≤ 2 ^ 39 + 16756736 → ((W.write (2 ^ 39 + 16756736) 16
      (flogWord strayFlog)).write (2 ^ 39 + 16756736 + 16) 16 fun _ => 0).word x = W.word x :=
    fun x hx => by
      rw [Media.word_write_of_disjoint (by omega), Media.word_write_of_disjoint (by omega)]
  have hstray := flogPair_write W (2 ^ 39 + 16756736) strayFlog
  generalize (W.write (2 ^ 39 + 16756736) 16 (flogWord strayFlog)).write
    (2 ^ 39 + 16756736 + 16) 16 (fun _ => 0) = m at hword hstray
  have hon' : ∀ i ∈ [p, q], i.InfoOn m := by
    refine List.forall_mem_cons.mpr ⟨fun k hk => ?_, List.forall_mem_singleton.mpr fun k hk => ?_⟩
    · rw [hword _ (by omega), hon p hpl k hk]
    · rw [hword _ (by omega), hon q hql k hk]
  refine ⟨[p, q], m, hl, hon', fun hstays => ?_⟩
  have hlocal := (stays_iff (by decide) hl hon').mp hstays
  have hnlba : 32768 < (totalNlba ([p, q].map Placed.info)).toNat := by
    rw [hchain.toNat_totalNlba, List.map_cons, List.map_singleton, List.sum_cons,
      List.sum_singleton, hpnlba, hqnlba]
    decide
  generalize totalNlba ([p, q].map Placed.info) = nlba at hlocal hnlba
  -- the flogs of the first arena are accepted, and then the stray one is
  have hall : (p.pairs m).all (Accepts nlba) = true := by
    have hpairs : p.FlogsOn m := fun k hk => by
      rw [← hflogs k hk]
      exact flogPair_congr fun j hj => hword _ (by omega)
    exact hpairs.accepts (by omega)
  have hacc : Accepts nlba (fun e => if e then ⟨0, 0, 0, 0⟩ else strayFlog) = true :=
    decide_eq_true ⟨UInt64.lt_iff_toNat_lt.mpr hnlba,
      UInt64.lt_iff_toNat_lt.mpr (Nat.zero_lt_of_lt hnlba)⟩
  have hpair : q.pairs m = (fun e => if e then ⟨0, 0, 0, 0⟩ else strayFlog) ::
      m.flogPairs 255 (2 ^ 39 + 16756736 + 64) := by
    unfold Placed.pairs
    rw [hqoff, hflogoff, ← hstray]
    rfl
  have hcands : candidates [p, q] m = ((p.pairs m).map fun pair => (p.info.externalNlba, pair)) ++
      (q.pairs m).map fun pair => (q.info.externalNlba, pair) := by
    unfold candidates
    rw [List.flatMap_cons, List.flatMap_singleton]
  rw [hcands, local_append, local_map, List.all_map] at hlocal
  have hsecond := local_map.mp (hlocal.2 hall)
  rw [hpair, List.takeWhile_cons_of_pos hacc, hqnlba] at hsecond
  have hwithin := hsecond _ (List.mem_cons_self ..) 32768 rfl
  revert hwithin
  decide

end Pmdk.Btt.Raw
