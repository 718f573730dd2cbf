import Pmdk.Blk.BttTracking

/-!
# Every read returns what its LBA held

Each step keeps `Tracked`. When a map entry is written the register of its LBA takes the new
contents; no other step changes what is read through the map, because the only block that is
written belongs to the lane that writes it.
-/

namespace Pmdk.Btt

open Function

variable {lbasize : Nat} {nfree nlba : Nat}

variable {l : Nat}

section Steps

variable {look : Nat → Option (Nat × UInt32)} {s s' : Shared lbasize} {x x' : Registers lbasize}
  {own own' : Nat → Nat ⊕ UInt32 → UInt32} {lane : Nat}

theorem setRtt_rtt_of_ne (s : Shared lbasize) (a : Nat) (entry : UInt32)
    (hl : l ≠ lane) (a' : Nat) : (s.setRtt a lane entry).rtt a' l = s.rtt a' l := by
  unfold Shared.setRtt
  by_cases ha : a' = a
  · simp [ha, hl]
  · simp [ha]

theorem Shared.Tracked.local (h : s.Tracked nfree nlba look own x) (hup : s'.Up nfree nlba own')
    (hframe : Frame nfree lane s s') (hns : s'.ns = s.ns)
    (hrtt : ∀ a l, l ≠ lane → s'.rtt a l = s.rtt a l) (hlater : ∀ l, l ≠ lane → x.Later look l x')
    (hcontent : x'.content = x.content) (hpc : (s'.pc lane).Tracks look s' x' lane)
    (hread : ∀ a i e buf copied, s'.pc lane ≠ .readData a i e buf copied)
    (hwrite : ∀ a r, (s'.pc lane).PastScan a r → (s.pc lane).PastScan a r) :
    s'.Tracked nfree nlba look own' x' := by
  refine h.step hup hframe hlater hrtt (fun _ _ _ _ _ => ?_) ?_
    (h.protect.step hframe.pc (fun _ _ _ => ?_) ?_ ?_) hpc
  · rw [hns]
  · intro lba a i hlook
    rw [hns, hcontent]
    exact h.contents lba a i hlook
  · rw [hns]
  · exact fun a i e buf copied heq => absurd heq (hread a i e buf copied)
  · intro r a i e buf copied _ hr hpast
    rw [hns]
    exact h.protect r a i e buf copied hr lane (hwrite a r hpast)

/-! ## Calls and returns -/

theorem Registers.Later.of_ne (hreading : x'.reading l = x.reading l)
    (hcontent : x'.content = x.content) (hwriting : x'.writing l = x.writing l) :
    x.Later look l x' := by
  refine ⟨fun a i hreads => ?_, fun c hsaw => ?_, hwriting⟩
  · obtain ⟨lba, seen, hlook, hseen, hmem⟩ := hreads
    exact ⟨lba, seen, hlook, hreading.trans hseen, hcontent ▸ hmem⟩
  · obtain ⟨lba, seen, hseen, hmem⟩ := hsaw
    exact ⟨lba, seen, hreading.trans hseen, hmem⟩

theorem Registers.call_content (x : Registers lbasize) (lane : Nat) (c : Call lbasize) :
    (x.call nlba lane c).content = x.content := by
  cases c with
  | read lba =>
    rw [Registers.call]
    split
    · rfl
    · rfl
  | _ => rfl

theorem Registers.later_call (x : Registers lbasize) (c : Call lbasize)
    (hl : l ≠ lane) : x.Later look l (x.call nlba lane c) := by
  refine .of_ne ?_ (x.call_content lane c) ?_
  · cases c with
    | read lba =>
      rw [Registers.call]
      split
      · exact update_of_ne hl ..
      · rfl
    | _ => rfl
  · cases c with
    | read lba =>
      rw [Registers.call]
      split
      · rfl
      · rfl
    | _ => exact update_of_ne hl ..

theorem Shared.Tracked.begin (h : s.Tracked nfree nlba look own x) (c : Call lbasize) :
    (c.begin (handleOf nfree nlba s.ns) lane).Tracks look s (x.call nlba lane c) lane := by
  have hwrites : ∀ {lba a i}, (handleOf nfree nlba s.ns).lookup lba = some (a, i) →
      ∀ {content}, c.stores = some (lba, content) →
        (x.call nlba lane c).writing lane = c.stores →
        (x.call nlba lane c).Writes look lane a i content :=
    fun hlookup _ hstores hcall => ⟨_, (h.lookup _).symm.trans hlookup, hcall.trans hstores⟩
  cases c with
  | read lba =>
    rw [Call.begin]
    split
    · trivial
    · rename_i a i hlookup
      have hlba : lba < nlba := by
        by_contra hnot
        rw [lookup_of_nlba_le s.ns (Nat.le_of_not_lt hnot)] at hlookup
        cases hlookup
      refine ⟨lba, {x.content lba}, (h.lookup lba).symm.trans hlookup, ?_, ?_⟩
      · rw [Registers.call, if_pos hlba]
        exact update_self ..
      · rw [x.call_content]
        rfl
  | write lba buf =>
    rw [Call.begin]
    split
    · trivial
    · rename_i hlookup
      split
      · trivial
      · exact hwrites hlookup rfl (update_self ..)
  | setZero lba =>
    rw [Call.begin]
    split
    · trivial
    · rename_i hlookup
      split
      · trivial
      · exact hwrites hlookup rfl (update_self ..)
  | setError lba =>
    rw [Call.begin]
    split
    · trivial
    · rename_i hlookup
      split
      · trivial
      · exact hwrites hlookup rfl (update_self ..)

theorem begin_ne_readData (c : Call lbasize) (b : Handle) (a : Nat) (i e : UInt32)
    (buf : Block lbasize) (copied : Fin lbasize → Bool) :
    c.begin b lane ≠ .readData a i e buf copied := by
  cases c with
  | _ => grind [Call.begin]

theorem not_pastScan_begin (c : Call lbasize) (b : Handle) (a r : Nat) :
    ¬ (c.begin b lane).PastScan a r := by
  cases c with
  | _ => grind [Call.begin, Pc.PastScan]

theorem Shared.Tracked.call (h : s.Tracked nfree nlba look own x) (hidle : s.pc lane = .idle)
    (hlane : lane < nlane nfree s.maxlane) (c : Call lbasize) :
    (s.setPc lane (c.begin (handleOf nfree nlba s.ns) lane)).Tracked nfree nlba look own
      (x.call nlba lane c) := by
  refine h.local (h.up.call hidle hlane c) (Frame.setPc s lane _) rfl (fun _ _ _ => rfl)
    (fun l hl => x.later_call c hl) (x.call_content lane c) ?_ ?_ ?_
  · rw [setPc_pc_self]
    exact (h.begin c).frame (.refl look lane _) (fun _ => rfl) fun _ _ _ => rfl
  · rw [setPc_pc_self]
    exact begin_ne_readData c _
  · rw [setPc_pc_self]
    exact fun a r hpast => absurd hpast (not_pastScan_begin c _ a r)

theorem eq_of_copied {copied : Fin lbasize → Bool} {buf data : Block lbasize}
    (hcopied : ∀ j, copied j = true) (h : ∀ j, copied j = true → buf j = data j) : buf = data :=
  funext fun j => h j (hcopied j)

section

variable (h : s.Tracked nfree nlba look own x)

include h

theorem Shared.Tracked.ret {content : Content lbasize} (hstep : s.ret lane content = some s') :
    x.Saw lane content ∧ s'.Tracked nfree nlba look own
      { x with reading := update x.reading lane none } := by
  have htracks := h.pc lane
  have hlater : ∀ l, l ≠ lane →
      x.Later look l { x with reading := update x.reading lane none } :=
    fun l hl => .of_ne (update_of_ne hl ..) rfl rfl
  unfold Shared.ret at hstep
  split at hstep
  case h_1 a i entry hpc =>
    rw [hpc] at htracks
    split at hstep
    · rename_i hcontent
      cases hstep
      refine ⟨?_, h.local (h.up.setPc (hpc ▸ rfl) trivial) (Frame.setPc s lane _) rfl
        (fun _ _ _ => rfl) hlater rfl ?_ ?_ ?_⟩
      · rcases hcontent with ⟨herror, rfl⟩ | ⟨herror, hzero, rfl⟩
        · exact htracks.2.1 herror
        · exact htracks.2.2 herror hzero
      · rw [setPc_pc_self]
        trivial
      · rw [setPc_pc_self]
        exact fun _ _ _ _ _ heq => nomatch heq
      · rw [setPc_pc_self]
        exact fun _ _ hpast => hpast.elim
    · cases hstep
  case h_2 a i entry buf copied hpc =>
    rw [hpc] at htracks
    split at hstep
    · rename_i hcopied
      cases hstep
      have hpc' : (s.setRtt a lane mapEntryError).pc lane = .readData a i entry buf copied := hpc
      refine ⟨?_, h.local ((h.up.setRtt a lane mapEntryError).setPc (hpc' ▸ rfl) trivial)
        ((Frame.setRtt s lane a lane mapEntryError).trans (Frame.setPc _ lane _)) rfl ?_ hlater
        rfl ?_ ?_ ?_⟩
      · obtain ⟨-, -, -, hsaw, hbuf⟩ := htracks
        rw [hcopied.2, eq_of_copied hcopied.1 hbuf]
        exact hsaw
      · intro a' l hl
        exact setRtt_rtt_of_ne s a mapEntryError hl a'
      · rw [setPc_pc_self]
        trivial
      · rw [setPc_pc_self]
        exact fun _ _ _ _ _ heq => nomatch heq
      · rw [setPc_pc_self]
        exact fun _ _ hpast => hpast.elim
    · cases hstep
  case h_3 => cases hstep

/-! ## The only block that is written -/

theorem Shared.Tracked.uses_ne {a : Nat} {i : UInt32} (hat : s.At nfree nlba lane a i)
    (hpast : ∀ r, r < nlane nfree s.maxlane → (s.pc lane).PastScan a r) (hl : l ≠ lane) {b : UInt32}
    (huses : (s.pc l).Uses a b) : b ≠ block (s.ns.arena a) (.inl lane) := by
  have hok := h.up.pc l
  have howned := h.up.owned a hat.arena
  have hlane := AtLba.lane_lt_nfree hat
  have hfree : ∀ {f : UInt32}, l < nfree → f = freeEntry (s.ns.arena a) l →
      f &&& mapEntryLbaMask ≠ block (s.ns.arena a) (.inl lane) := by
    intro f hlt hf heq
    rw [hf, freeEntry_and_mask, ← howned.lane l hlt, ← howned.lane lane hlane] at heq
    exact hl (Sum.inl.inj (howned.injOn (show Sum.inl l ∈ owners nfree _ from hlt)
      (show Sum.inl lane ∈ owners nfree _ from hlane) heq))
  cases hpc : s.pc l with
  | readData a' i' e buf copied =>
    rw [hpc] at hok huses
    obtain ⟨rfl, rfl⟩ := huses
    exact (h.protect l a' i' e buf copied hpc lane (hpast l hok.lane_lt)).symm
  | writeData a' i' f buf copied =>
    rw [hpc] at hok huses
    obtain ⟨rfl, rfl⟩ := huses
    exact hfree (AtLba.lane_lt_nfree hok.1) hok.2
  | mapLock a' i' job =>
    cases job with
    | write f =>
      rw [hpc] at hok huses
      obtain ⟨rfl, rfl⟩ := huses
      exact hfree (AtLba.lane_lt_nfree hok.1) hok.2
    | setf f =>
      rw [hpc] at huses
      exact huses.elim
  | mapRead a' i' job =>
    cases job with
    | write f =>
      rw [hpc] at hok huses
      obtain ⟨rfl, rfl⟩ := huses
      exact hfree (AtLba.lane_lt_nfree hok.1) hok.2.1
    | setf f =>
      rw [hpc] at huses
      exact huses.elim
  | flogHead a' i' f old =>
    rw [hpc] at hok huses
    obtain ⟨rfl, rfl⟩ := huses
    exact hfree (AtLba.lane_lt_nfree hok.1) hok.2.1
  | flogTail a' i' f old =>
    rw [hpc] at hok huses
    obtain ⟨rfl, rfl⟩ := huses
    exact hfree (AtLba.lane_lt_nfree hok.1) hok.2.1
  | mapWrite a' i' job e =>
    cases job with
    | write f =>
      rw [hpc] at hok huses
      obtain ⟨rfl, rfl⟩ := huses
      obtain ⟨hat', -, hlba, hnew⟩ := hok
      -- the block is already the one of its LBA
      have hmem : l ∈ s.ahead a' := by
        show (s.pc l).aheadIn = some a'
        rw [hpc]
        rfl
      have hown := (howned.ahead l hmem).new
      rw [hlba, hnew] at hown
      intro heq
      rw [← hown, ← howned.lane lane hlane] at heq
      cases howned.injOn (show Sum.inr i' ∈ owners nfree _ from hat'.external)
        (show Sum.inl lane ∈ owners nfree _ from hlane) heq
    | setf f =>
      rw [hpc] at huses
      exact huses.elim
  | _ =>
    rw [hpc] at huses
    exact huses.elim

theorem Shared.Tracked.lookup_spec {lba a : Nat} {i : UInt32} (hlook : look lba = some (a, i)) :
    a < s.ns.narena ∧ i < (s.ns.arena a).info.externalNlba ∧
      ∀ lba', look lba' = some (a, i) → lba' = lba := by
  have hlt : ∀ {k}, look k = some (a, i) → k < nlba := by
    intro k hk
    by_contra hnot
    rw [← h.lookup, lookup_of_nlba_le s.ns (Nat.le_of_not_lt hnot)] at hk
    cases hk
  obtain ⟨a', i', hlookup, ha, hi, -, huniq⟩ := h.up.intact.lookup (hlt hlook)
  rw [h.lookup, hlook, Option.some.injEq, Prod.mk.injEq] at hlookup
  obtain ⟨rfl, rfl⟩ := hlookup
  exact ⟨ha, hi, fun lba' hlba' => huniq lba' (hlt hlba') ((h.lookup lba').trans hlba')⟩

theorem Shared.Tracked.byte {j : Fin lbasize}
    (hstep : s.byte lane j = some s') : ∃ own', s'.Tracked nfree nlba look own' x := by
  obtain ⟨own', hup⟩ := h.up.byte hstep
  have hok := h.up.pc lane
  have htracks := h.pc lane
  unfold Shared.byte at hstep
  split at hstep
  case h_1 a i e buf copied hpc =>
    rw [hpc] at htracks hok
    obtain ⟨hreads, hrtt, hnormal, hsaw, hbuf⟩ := htracks
    cases hstep
    refine ⟨own, h.setPc (h.up.setPc (hpc ▸ rfl) hok) ⟨hreads, hrtt, hnormal, hsaw, ?_⟩ ?_ ?_⟩
    · intro k hk
      by_cases hkj : k = j
      · rw [hkj, update_self]
      · rw [update_of_ne hkj] at hk ⊢
        exact hbuf k hk
    · intro a' i' e' buf' copied' heq l _ hpast
      cases heq
      exact h.protect lane a i e buf copied hpc l hpast
    · exact fun _ _ _ _ _ _ _ _ hpast => hpast.elim
  case h_2 a i f buf copied hpc =>
    rw [hpc] at htracks hok
    obtain ⟨hat, hf⟩ := hok
    cases hstep
    have hmask : f &&& mapEntryLbaMask = block (s.ns.arena a) (.inl lane) := by
      rw [hf, freeEntry_and_mask]
    have hnot : lane ∉ s.ahead a := by
      intro hmem
      have hahead : (s.pc lane).aheadIn = some a := hmem
      rw [hpc] at hahead
      cases hahead
    have hpast : ∀ r, (s.pc lane).PastScan a r := by
      intro r
      rw [hpc]
      rfl
    obtain ⟨m, hm⟩ : ∃ m, (s.ns.arena a).setData (f &&& mapEntryLbaMask)
      (update ((s.ns.arena a).data (f &&& mapEntryLbaMask)) j (buf j)) = m := ⟨_, rfl⟩
    have hdata : m.data (f &&& mapEntryLbaMask) =
        update ((s.ns.arena a).data (f &&& mapEntryLbaMask)) j (buf j) := by
      rw [← hm]
      exact update_self ..
    have hns : s.ns.modify a (fun m => m.setData (f &&& mapEntryLbaMask)
        (update (m.data (f &&& mapEntryLbaMask)) j (buf j))) = s.ns.setArena a m := by
      rw [← hm]
      rfl
    rw [hns] at hup ⊢
    have hframe : Frame nfree lane s (({ s with ns := s.ns.setArena a m }).setPc lane
        (.writeData a i f buf (update copied j true))) :=
      (Frame.setArena s lane s.handle (hm ▸ rfl) (fun _ _ => hm ▸ rfl)
        fun _ _ _ _ => hm ▸ rfl).trans (Frame.setPc _ lane _)
    have hblock : ∀ a' l, block ((s.ns.setArena a m).arena a') (.inl l) =
        block (s.ns.arena a') (.inl l) := by
      intro a' l
      rw [setArena_arena]
      split
      · rename_i ha
        rw [ha, ← hm]
        rfl
      · rfl
    refine ⟨own', h.step hup hframe (fun l _ => .refl look l x) (fun _ _ _ => rfl) ?_ ?_
      (h.protect.step hframe.pc (fun a' l _ => hblock a' l) ?_ ?_) ?_⟩
    · intro a' b l hl huses
      show ((s.ns.setArena a m).arena a').data b = _
      rw [setArena_arena]
      split
      · rename_i ha
        subst ha
        have hne := h.uses_ne hat (fun r _ => hpast r) hl huses
        rw [← hm]
        exact update_of_ne (hmask.symm ▸ hne) ..
      · rfl
    · intro lba a' i' hlook
      rw [← h.contents lba a' i' hlook]
      show contentAt ((s.ns.setArena a m).arena a') i' = _
      rw [setArena_arena]
      split
      · rename_i ha
        subst ha
        rw [← hm, hmask]
        exact contentAt_setData ((h.up.owned a' hat.arena).mapEntry_ne_lane
          (AtLba.lane_lt_nfree hat) hnot (h.lookup_spec hlook).2.1) _
      · rfl
    · rw [setPc_pc_self]
      exact fun _ _ _ _ _ heq => nomatch heq
    · intro r a' i' e buf' copied' _ hr hpast'
      rw [setPc_pc_self] at hpast'
      cases hpast'
      refine ne_of_eq_of_ne (hblock a lane) ?_
      exact h.protect r a i' e buf' copied' hr lane (hpast r)
    · rw [setPc_pc_self]
      refine ⟨htracks.1, fun k hk => ?_⟩
      show ((s.ns.setArena a m).arena a).data _ k = _
      rw [setArena_arena, if_pos rfl, hdata]
      by_cases hkj : k = j
      · rw [hkj, update_self]
      · rw [update_of_ne hkj] at hk ⊢
        exact htracks.2 k hk
  case h_3 => cases hstep

end

/-! ## Map entries -/

theorem Registers.store_content (x : Registers lbasize) (lba : Nat) (c : Content lbasize)
    (k : Nat) : (x.store lba c).content k = if k = lba then c else x.content k :=
  update_apply ..

theorem Registers.store_reading {k lba : Nat} {seen : Set (Content lbasize)}
    {c : Content lbasize} (h : x.reading l = some (k, seen)) :
    (x.store lba c).reading l = some (k, if k = lba then insert c seen else seen) :=
  congrArg (Option.map fun r : Nat × Set (Content lbasize) =>
    (r.1, if r.1 = lba then insert c r.2 else r.2)) h

theorem Registers.later_store (x : Registers lbasize) (lba : Nat) (c : Content lbasize) (l : Nat) :
    x.Later look l (x.store lba c) := by
  refine ⟨fun a i hreads => ?_, fun d hsaw => ?_, rfl⟩
  · obtain ⟨k, seen, hlook, hseen, hmem⟩ := hreads
    refine ⟨k, _, hlook, store_reading hseen, ?_⟩
    rw [store_content]
    split
    · exact Set.mem_insert c seen
    · exact hmem
  · obtain ⟨k, seen, hseen, hmem⟩ := hsaw
    refine ⟨k, _, store_reading hseen, ?_⟩
    split
    · exact Set.mem_insert_of_mem c hmem
    · exact hmem

section

variable (h : s.Tracked nfree nlba look own x)

include h

theorem Shared.Tracked.writes {a : Nat} {i e : UInt32}
    {job : Job} (hpc : s.pc lane = .mapWrite a i job e) :
    x.Writes look lane a i (readEntry (s.ns.arena a) e) := by
  have htracks := h.pc lane
  have hok := h.up.pc lane
  rw [hpc] at htracks hok
  cases job with
  | write f =>
    rw [readEntry_normal _ htracks.2]
    exact htracks.1
  | setf f =>
    obtain ⟨hwrites, hflags⟩ := htracks
    rcases hok.2.2.1 with rfl | rfl
    · rw [readEntry_zero _ hflags]
      exact hwrites
    · rw [readEntry_error _ hflags]
      exact hwrites

theorem Shared.Tracked.commit
    (hstep : s.commit lane = some s') : ∃ lba c own', x.writing lane = some (lba, c) ∧
      s'.Tracked nfree nlba look own' (x.store lba c) := by
  obtain ⟨own', hup⟩ := h.up.commit hstep
  unfold Shared.commit at hstep
  split at hstep
  case h_1 a i job e hpc =>
    cases hstep
    obtain ⟨lba, hlook, hwriting⟩ := h.writes hpc
    have hok := h.up.pc lane
    rw [hpc] at hok
    have hlock : s.Holds nfree lane a i := by
      cases job with
      | write f => exact hok.2.1
      | setf f => exact hok.2.1
    have hframe : Frame nfree lane s ((s.exec (.map a i e)).setPc lane (.mapUnlock a i)) := by
      refine (Frame.setArena s lane s.handle (m := (s.ns.arena a).setMap i e) rfl
        (fun _ _ => rfl) fun j l hl hlock' => ?_).trans (Frame.setPc _ lane _)
      rw [setMap_map, if_neg (hlock.ne hl hlock')]
    have harena : ∀ a', ((s.exec (.map a i e)).ns.arena a') =
        if a' = a then (s.ns.arena a).setMap i e else s.ns.arena a' :=
      exec_map_arena s.ns a i e
    have hdata : ∀ a', ((s.exec (.map a i e)).ns.arena a').data = (s.ns.arena a').data := by
      intro a'
      rw [harena]
      split
      · rename_i ha
        rw [ha]
        rfl
      · rfl
    have hblock : ∀ a' l, block ((s.exec (.map a i e)).ns.arena a') (.inl l) =
        block (s.ns.arena a') (.inl l) := by
      intro a' l
      rw [harena]
      split
      · rename_i ha
        rw [ha]
        rfl
      · rfl
    refine ⟨lba, _, own', hwriting, h.step hup hframe (fun l _ => x.later_store lba _ l)
      (fun _ _ _ => rfl) (fun a' b _ _ _ => congrFun (hdata a') b) ?_
      (h.protect.step hframe.pc (fun a' l _ => hblock a' l) ?_ ?_) ?_⟩
    · intro lba' a' i' hlook'
      show contentAt ((s.exec (.map a i e)).ns.arena a') i' = _
      rw [harena]
      by_cases hlba : lba' = lba
      · rw [hlba, hlook, Option.some.injEq, Prod.mk.injEq] at hlook'
        obtain ⟨rfl, rfl⟩ := hlook'
        rw [if_pos rfl, contentAt_setMap, Registers.store_content, if_pos hlba]
      · rw [Registers.store_content, if_neg hlba, ← h.contents lba' a' i' hlook']
        split
        · rename_i ha
          subst ha
          refine contentAt_setMap_of_ne _ (fun hi => hlba ?_) e
          rw [hi] at hlook'
          exact (h.lookup_spec hlook).2.2 lba' hlook'
        · rfl
    · rw [setPc_pc_self]
      exact fun _ _ _ _ _ heq => nomatch heq
    · rw [setPc_pc_self]
      exact fun _ _ _ _ _ _ _ _ hpast => hpast.elim
    · rw [setPc_pc_self]
      trivial
  case h_2 => cases hstep

/-! ## Steps without a choice -/

theorem Shared.Tracked.setFlog {a : Nat} {next : Bool}
    {g : Flog} {handle : Option Handle} {pc : Pc lbasize}
    (hs' : ({ s with
        ns := s.ns.setArena a ((s.ns.arena a).setFlog lane next g)
        handle := handle }).setPc lane pc = s')
    (hup : s'.Up nfree nlba own') (hpc : pc.Tracks look s x lane)
    (hread : ∀ a i e buf copied, pc ≠ .readData a i e buf copied)
    (hwrite : ∀ a' r, pc.PastScan a' r → (s.pc lane).PastScan a' r ∧
      block (s'.ns.arena a') (.inl lane) = block (s.ns.arena a') (.inl lane)) :
    s'.Tracked nfree nlba look own' x := by
  obtain ⟨m, hm⟩ : ∃ m, (s.ns.arena a).setFlog lane next g = m := ⟨_, rfl⟩
  have hflog : ∀ l, l ≠ lane → m.flog l = (s.ns.arena a).flog l := by
    intro l hl
    rw [← hm, setFlog_flog, if_neg hl]
  have hdata : m.data = (s.ns.arena a).data := hm ▸ rfl
  have hmap : m.map = (s.ns.arena a).map := hm ▸ rfl
  rw [hm] at hs'
  subst hs'
  have hframe : Frame nfree lane s
      (({ s with ns := s.ns.setArena a m, handle := handle }).setPc lane pc) :=
    (Frame.setArena s lane handle (hm ▸ rfl) hflog fun _ _ _ _ => congrFun hmap _).trans
      (Frame.setPc _ lane _)
  have hdatas : ∀ a', ((s.ns.setArena a m).arena a').data = (s.ns.arena a').data := by
    intro a'
    rw [setArena_arena]
    split
    · rename_i ha
      rw [hdata, ha]
    · rfl
  refine h.step hup hframe (fun l _ => .refl look l x) (fun _ _ _ => rfl)
    (fun a' b _ _ _ => congrFun (hdatas a') b) ?_
    (h.protect.step hframe.pc (fun a' l hl => ?_) ?_ ?_) ?_
  · intro lba a' i hlook
    rw [← h.contents lba a' i hlook]
    show contentAt ((s.ns.setArena a m).arena a') i = _
    rw [setArena_arena]
    split
    · rename_i ha
      rw [ha, contentAt, contentAt, readEntry, readEntry, hmap, hdata]
    · rfl
  · exact congrArg (·.flog.oldMap &&& mapEntryLbaMask) (current_congr (hframe.flog a' l hl))
  · rw [setPc_pc_self]
    exact fun a i e buf copied heq => absurd heq (hread a i e buf copied)
  · intro r a' i e buf copied _ hr hpast
    rw [setPc_pc_self] at hpast
    obtain ⟨hpast', hblock⟩ := hwrite a' r hpast
    exact ne_of_eq_of_ne hblock (h.protect r a' i e buf copied hr lane hpast')
  · rw [setPc_pc_self]
    exact hpc.frame (.refl look lane x) (fun _ => rfl) fun a' b _ => congrFun (hdatas a') b

theorem Shared.Tracked.act (hstep : s.act (handleOf nfree nlba s.ns) lane = some s') :
    ∃ own', s'.Tracked nfree nlba look own' x := by
  obtain ⟨own', hup⟩ := h.up.act hstep
  have hok := h.up.pc lane
  have htracks := h.pc lane
  unfold Shared.act at hstep
  split at hstep
  case h_1 a i hpc =>
    rw [hpc] at hok htracks
    cases hstep
    exact ⟨own, h.leave (h.up.setPc (hpc ▸ rfl) hok) (h.readLoop htracks)
      (fun _ _ _ _ _ heq => nomatch heq) fun _ _ hpast => hpast⟩
  case h_2 a i entry hpc =>
    rw [hpc] at htracks
    split at hstep
    · cases hstep
    · rename_i hnormal
      cases hstep
      refine ⟨own', h.local hup ((Frame.setRtt s lane a lane entry).trans (Frame.setPc _ lane _))
        rfl (fun a' l hl => setRtt_rtt_of_ne s a entry hl a') (fun l _ => .refl look l x) rfl
        ?_ ?_ ?_⟩
      · rw [setPc_pc_self]
        refine ⟨htracks.1, ?_, isNormal_of_not hnormal⟩
        show update s.rtt a _ a lane = entry
        rw [update_self, update_self]
      · rw [setPc_pc_self]
        exact fun _ _ _ _ _ heq => nomatch heq
      · rw [setPc_pc_self]
        exact fun _ _ hpast => hpast.elim
  case h_3 a i entry hpc =>
    rw [hpc] at hok htracks
    obtain ⟨hreads, hrtt, hnormal⟩ := htracks
    split at hstep
    · rename_i hmap
      cases hstep
      refine ⟨own, h.setPc (h.up.setPc (hpc ▸ rfl) hok) ⟨hreads, hrtt, hnormal, ?_, ?_⟩ ?_ ?_⟩
      · rw [← readEntry_normal _ hnormal]
        nth_rewrite 1 [hmap]
        exact h.saw hreads
      · exact fun _ hcopied => nomatch hcopied
      · intro a' i' e buf copied heq l _ hpast
        cases heq
        exact h.protects hok hnormal hmap hpast
      · exact fun _ _ _ _ _ _ _ _ hpast => hpast.elim
    · cases hstep
      exact ⟨own, h.leave (h.up.setPc (hpc ▸ rfl) hok) (h.readLoop hreads)
        (fun _ _ _ _ _ heq => nomatch heq) fun _ _ hpast => hpast⟩
  case h_4 a i f buf n hpc =>
    rw [hpc] at hok htracks
    split at hstep
    · split at hstep
      · cases hstep
        exact ⟨own, h⟩
      · rename_i hrtt
        cases hstep
        refine ⟨own, h.setPc (h.up.setPc (hpc ▸ rfl) hok) htracks
          (fun _ _ _ _ _ heq => nomatch heq) fun r a' i' e buf' copied hr hreader hpast => ?_⟩
        obtain ⟨rfl, hlt⟩ := hpast
        by_cases hrn : r = n
        · -- the entry of this reader is the one that was just looked at
          have hreads := h.pc r
          rw [hreader] at hreads
          intro heq
          refine hrtt ?_
          rw [← hrn, hreads.2.1, hreads.2.2.1.eq_or, ← heq, hok.2]
          rfl
        · refine h.protect r a i' e buf' copied hreader lane ?_
          rw [hpc]
          exact ⟨rfl, by omega⟩
    · rename_i hn
      cases hstep
      refine ⟨own, h.setPc (h.up.setPc (hpc ▸ rfl) hok) ⟨htracks, fun _ hc => nomatch hc⟩
        (fun _ _ _ _ _ heq => nomatch heq) fun r a' i' e buf' copied hr hreader hpast => ?_⟩
      cases hpast
      have hreads := h.up.pc r
      rw [hreader] at hreads
      refine h.protect r a i' e buf' copied hreader lane ?_
      rw [hpc]
      exact ⟨rfl, Nat.lt_of_lt_of_le hreads.lane_lt (Nat.le_of_not_lt hn)⟩
  case h_5 a i f buf copied hpc =>
    rw [hpc] at hok htracks
    split at hstep
    · rename_i hcopied
      cases hstep
      refine ⟨own, h.keep (h.up.setPc (hpc ▸ rfl) hok) ?_ (fun _ _ _ _ _ heq => nomatch heq)
        fun a' r hpast => ?_⟩
      · have hdata := eq_of_copied hcopied htracks.2
        rw [← hdata] at htracks
        exact htracks.1
      · rw [hpc]
        exact hpast
    · cases hstep
  case h_6 a i job hpc =>
    rw [hpc] at htracks
    split at hstep
    · rename_i hfree
      cases hstep
      refine ⟨own', h.local hup ((Frame.setLock s lane a _ (some lane) ?_).trans
        (Frame.setPc _ lane _)) rfl (fun _ _ _ => rfl) (fun l _ => .refl look l x) rfl ?_ ?_ ?_⟩
      · intro l _ hlock
        cases hfree.symm.trans hlock
      · rw [setPc_pc_self]
        exact htracks
      · rw [setPc_pc_self]
        exact fun _ _ _ _ _ heq => nomatch heq
      · rw [setPc_pc_self, hpc]
        cases job with
        | write f => exact fun _ _ hpast => hpast
        | setf f => exact fun _ _ hpast => hpast
    · cases hstep
  case h_7 a i job hpc =>
    rw [hpc] at hok htracks
    split at hstep
    · cases hstep
      refine ⟨own, h.keep (h.up.setPc (hpc ▸ rfl) ⟨hok.1, hok.2.1, hok.2.2, rfl⟩) htracks
        (fun _ _ _ _ _ heq => nomatch heq) fun a' r hpast => ?_⟩
      rw [hpc]
      exact hpast
    · rename_i f
      dsimp only at hstep
      split at hstep
      · cases hstep
        exact ⟨own, h.leave (h.up.setPc (hpc ▸ rfl) ⟨hok.1, hok.2.2⟩) trivial
          (fun _ _ _ _ _ heq => nomatch heq) fun _ _ hpast => hpast⟩
      · cases hstep
        refine ⟨own, h.leave (h.up.setPc (hpc ▸ rfl) ⟨hok.1, hok.2.2, hok.2.1, rfl⟩)
          ⟨htracks, setFlags_and_not_mask _ ?_⟩ (fun _ _ _ _ _ heq => nomatch heq)
          fun _ _ hpast => hpast⟩
        have hflag : IsFlag f := hok.2.1
        rcases hflag with rfl | rfl
        · decide
        · decide
  case h_8 a i f old hpc =>
    rw [hpc] at hok htracks
    dsimp only at hstep
    rw [Shared.At.flogs hok.1] at hstep
    cases hstep
    refine ⟨own', h.setFlog rfl hup htracks (fun _ _ _ _ _ heq => nomatch heq) fun a' r hpast => ?_⟩
    cases hpast
    have hok' := hup.pc lane
    rw [setPc_pc_self] at hok'
    refine ⟨hpc ▸ rfl, ?_⟩
    rw [← freeEntry_and_mask, ← freeEntry_and_mask, ← hok.2.1]
    exact congrArg (· &&& mapEntryLbaMask) hok'.2.1.symm
  case h_9 a i f old hpc =>
    rw [hpc] at hok htracks
    dsimp only at hstep
    rw [Shared.At.flogs hok.1] at hstep
    cases hstep
    refine ⟨own', h.setFlog rfl hup ⟨htracks, ?_⟩ (fun _ _ _ _ _ heq => nomatch heq)
      fun _ _ hpast => hpast.elim⟩
    rw [hok.2.1]
    exact freeEntry_and_not_mask _ lane
  case h_10 a i hpc =>
    rw [hpc] at hok
    cases hstep
    refine ⟨own', h.local hup ((Frame.setLock s lane a _ none ?_).trans (Frame.setPc _ lane _))
      rfl (fun _ _ _ => rfl) (fun l _ => .refl look l x) rfl ?_ ?_ ?_⟩
    · intro l hl hlock
      exact hl (Option.some.inj (hlock.symm.trans hok.2))
    · rw [setPc_pc_self]
      trivial
    · rw [setPc_pc_self]
      exact fun _ _ _ _ _ heq => nomatch heq
    · rw [setPc_pc_self]
      exact fun _ _ hpast => hpast.elim
  case h_11 => cases hstep

/-! ## Runs -/

theorem Shared.Tracked.sharedStep {e : StepEvent lbasize}
    (he : e ≠ .crash) (hstep : sharedStep e s = some s') :
    ∃ x', e.Outcome nlba x x' ∧ ∃ own', s'.Tracked nfree nlba look own' x' := by
  unfold Btt.sharedStep at hstep
  rw [h.up.handle] at hstep
  cases e with
  | call lane c =>
    dsimp only at hstep
    split at hstep
    · rename_i hidle
      split at hstep
      · rename_i hlane
        cases hstep
        exact ⟨_, rfl, own, h.call hidle hlane c⟩
      · cases hstep
    · cases hstep
  | act lane => exact ⟨x, rfl, h.act hstep⟩
  | byte lane i => exact ⟨x, rfl, h.byte hstep⟩
  | commit lane =>
    obtain ⟨lba, c, own', hwriting, htracked⟩ := h.commit hstep
    exact ⟨_, ⟨lba, c, hwriting, rfl⟩, own', htracked⟩
  | ret lane content =>
    obtain ⟨⟨lba, seen, hreading, hmem⟩, htracked⟩ := h.ret hstep
    exact ⟨_, ⟨lba, seen, hreading, hmem, rfl⟩, own, htracked⟩
  | crash => exact absurd rfl he
  | reopen => cases hstep
  | cutReopen k => cases hstep

end

theorem Shared.Still.tracked {A : Nat → Content lbasize} (h : s.Still nfree nlba A) :
    s.Tracked nfree nlba (handleOf nfree nlba s.ns).lookup (fun a => block (s.ns.arena a))
      ⟨A, fun _ => none, fun _ => none⟩ := by
  refine ⟨⟨h.shows.intact, h.handle, fun a ha => ?_, fun lane => ?_⟩, fun _ => rfl, ?_, ?_,
    fun lane => ?_⟩
  · rw [ahead_of_idle h.idle]
    exact (h.shows.settled a ha).owned
  · rw [h.idle]
    trivial
  · intro lba a i hlook
    have hlba : lba < nlba := by
      by_contra hnot
      rw [lookup_of_nlba_le s.ns (Nat.le_of_not_lt hnot)] at hlook
      cases hlook
    dsimp only
    rw [← h.shows.read lba hlba, bttRead, hlook]
    rfl
  · intro r a i e buf copied hr
    rw [h.idle] at hr
    cases hr
  · rw [h.idle]
    trivial

end Steps

def freshShared : Shared 1 where
  ns := freshNs
  handle := some (handleOf 2 3 freshNs)
  maxlane := 0
  pc := fun _ => .idle
  mapLocks := fun _ _ => none
  rtt := fun _ _ => mapEntryError

def writeSteps (buf : Block 1) : List (StepEvent 1) :=
  [.call 0 (.write 1 buf), .act 0, .act 0, .act 0, .byte 0 (Fin.last 0), .act 0, .act 0, .act 0,
    .act 0, .act 0, .commit 0, .act 0]

end Pmdk.Btt
