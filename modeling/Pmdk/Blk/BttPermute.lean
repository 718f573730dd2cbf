import Pmdk.Blk.BttInterleave

/-!
# Steps of the lanes

Each step of `btt_read`, `btt_write` and `map_entry_setf` keeps the invariant `Up`, and so does
every run. A crash leaves a namespace whose blocks are shared out, with some lanes ahead, from
which `read_layout` recovers.
-/

namespace Pmdk.Btt

open Function

variable {lbasize : Nat} {nfree nlba : Nat}

variable {a : Nat}

section Steps

variable {lane : Nat} {s s' : Shared lbasize} {own : Nat → Nat ⊕ UInt32 → UInt32}

theorem setOf_ahead {pc : Pc lbasize} (hs : (s.pc lane).aheadIn = none) (hpc : pc.aheadIn = none) :
    {l | if l = lane then pc.aheadIn = some a else l ∈ s.ahead a} = s.ahead a := by
  ext l
  rw [Set.mem_ofPred_eq, hpc]
  split
  · rename_i hl
    have hnot : l ∉ s.ahead a := by
      intro hmem
      rw [hl] at hmem
      cases hs.symm.trans hmem
    exact iff_of_false (by simp) hnot
  · rfl

theorem AtLba.setArena {ns : Ns lbasize} {maxlane a' : Nat} {i : UInt32} {m : ArenaMedia lbasize}
    (h : AtLba nfree nlba ns maxlane lane a i) (hinfo : m.info = (ns.arena a').info) :
    AtLba nfree nlba (ns.setArena a' m) maxlane lane a i := by
  refine ⟨h.lane_lt, h.arena, ?_, h.lba⟩
  rw [(SameInfo.setArena ns hinfo).info]
  exact h.external

theorem Shared.Up.flogHead (h : s.Up nfree nlba own) {i f old : UInt32}
    (hpc : s.pc lane = .flogHead a i f old) :
    ∃ own', ((s.exec (.flogHead a lane (current (s.ns.arena a) lane).next i old)).setPc lane
      (.flogTail a i f old)).Up nfree nlba own' := by
  have hok := h.pc lane
  rw [hpc] at hok
  obtain ⟨hat, hf, hlock, hold⟩ := hok
  have hlane := AtLba.lane_lt_nfree hat
  have hm := h.owned a hat.arena
  have hnone : (s.pc lane).aheadIn = none := by
    rw [hpc]
    rfl
  obtain ⟨g, hg⟩ : ∃ g : Flog, { (s.ns.arena a).flog lane (current (s.ns.arena a) lane).next with
    lba := i, oldMap := old } = g := ⟨_, rfl⟩
  have hseq : g.seq = ((s.ns.arena a).flog lane (current (s.ns.arena a) lane).next).seq := by
    rw [← hg]
  obtain ⟨m, hm'⟩ : ∃ m, (s.ns.arena a).setFlog lane (current (s.ns.arena a) lane).next g = m :=
    ⟨_, rfl⟩
  have hcurrent : ∀ l, current m l = current (s.ns.arena a) l := by
    rw [← hm']
    exact (current_setHead (hm.seq lane hlane) hseq).2
  have hns : s.exec (.flogHead a lane (current (s.ns.arena a) lane).next i old) =
      { s with ns := s.ns.setArena a m, handle := s.handle } := by
    rw [← hm', ← hg]
    rfl
  have hinfo : m.info = (s.ns.arena a).info := by
    rw [← hm']
    rfl
  have hflog : ∀ l, m.flog l = if l = lane then
      update ((s.ns.arena a).flog lane) (current (s.ns.arena a) lane).next g
        else (s.ns.arena a).flog l := by
    rw [← hm']
    exact setFlog_flog _ lane _ g
  have hmap : m.map = (s.ns.arena a).map := by
    rw [← hm']
    rfl
  rw [hns]
  refine ⟨update own a (own a), h.setArena hinfo (fun l hl => ?_)
    (fun _ _ _ _ => congrFun hmap _) (.inl hnone) (.inl rfl) ?_ ?_ ?_⟩
  · rw [hflog, if_neg hl]
  · rw [h.handle, SameInfo.handleOf_of_current (SameInfo.setArena s.ns hinfo) fun a' l => ?_]
    rw [setArena_arena]
    split
    · rename_i heq
      rw [heq, hcurrent]
    · rfl
  · rw [setOf_ahead hnone (by rfl), ← hm']
    refine hm.setHead hlane hseq ?_
    rw [← hg]
    exact hat.lba
  · have harena : (s.ns.setArena a m).arena a = m := by
      rw [setArena_arena, if_pos rfl]
    have hnext : m.flog lane (current m lane).next = g := by
      rw [hflog, if_pos rfl, hcurrent, update_self]
    refine ⟨hat.setArena hinfo, ?_, hlock, ?_, ?_, ?_⟩
    · rw [harena, freeEntry, hcurrent]
      exact hf
    · rw [harena, mapEntry, hmap]
      exact hold
    · rw [harena, hnext, ← hg]
    · rw [harena, hnext, ← hg]

theorem Shared.Up.flogTail (h : s.Up nfree nlba own) {i f old : UInt32}
    (hpc : s.pc lane = .flogTail a i f old) {runtime : FlogRuntime}
    (hruntime : current (s.ns.arena a) lane = runtime) :
    ∃ own', (({ s.exec (.flogTail a lane runtime.next f (nseq runtime.flog.seq)) with
      handle := some ((handleOf nfree nlba s.ns).setFlog a lane
        ⟨⟨i, old, f, nseq runtime.flog.seq⟩, !runtime.next⟩) }).setPc lane
      (.mapWrite a i (.write f) f)).Up nfree nlba own' := by
  have hok := h.pc lane
  rw [hpc] at hok
  obtain ⟨hat, hf, hlock, hold, hlba, holdMap⟩ := hok
  have hlane := AtLba.lane_lt_nfree hat
  have hm := h.owned a hat.arena
  have hnone : (s.pc lane).aheadIn = none := by
    rw [hpc]
    rfl
  have hnot : lane ∉ s.ahead a := by
    intro hmem
    cases hnone.symm.trans hmem
  have hP : ∀ l ∈ s.ahead a, (current (s.ns.arena a) l).flog.lba ≠ i :=
    fun l hl => h.ahead_lba_ne hlock hl fun heq => hnot (heq ▸ hl)
  obtain ⟨m, hm'⟩ : ∃ m, (s.ns.arena a).setFlog lane (current (s.ns.arena a) lane).next
    (newFlog (s.ns.arena a) lane i) = m := ⟨_, rfl⟩
  have hflogs : (⟨i, old, f, nseq runtime.flog.seq⟩ : Flog) = newFlog (s.ns.arena a) lane i := by
    rw [newFlog, hf, hold, hruntime]
  have hcurrent : ∀ l, current m l = if l = lane then
      ⟨newFlog (s.ns.arena a) lane i, !(current (s.ns.arena a) lane).next⟩
        else current (s.ns.arena a) l := by
    rw [← hm']
    exact (current_setTail (hm.seq lane hlane) rfl).2
  -- the first half is on the media already
  have hhalves : ({ (s.ns.arena a).flog lane runtime.next with
      newMap := f, seq := nseq runtime.flog.seq } : Flog) = newFlog (s.ns.arena a) lane i := by
    rw [← hflogs]
    rw [hruntime] at hlba holdMap
    dsimp only
    rw [hlba, holdMap]
  have hns : (s.exec (.flogTail a lane runtime.next f (nseq runtime.flog.seq))).ns =
      s.ns.setArena a m := by
    rw [← hm', ← hhalves, hruntime]
    rfl
  have hinfo : m.info = (s.ns.arena a).info := by
    rw [← hm']
    rfl
  have hsetFlog : some ((handleOf nfree nlba s.ns).setFlog a lane
      ⟨⟨i, old, f, nseq runtime.flog.seq⟩, !runtime.next⟩) =
        some (handleOf nfree nlba (s.ns.setArena a m)) := by
    refine congrArg some (handleOf_setFlog hat.arena hlane (SameInfo.setArena s.ns hinfo)
      (fun l => ?_) fun a' ha' => ?_)
    · rw [setArena_arena, if_pos rfl, hcurrent, hflogs, hruntime]
    · rw [setArena_arena, if_neg ha']
  have harena : (s.ns.setArena a m).arena a = m := by
    rw [setArena_arena, if_pos rfl]
  have hmine := hcurrent lane
  rw [if_pos rfl] at hmine
  refine ⟨update own a (own a ∘ Equiv.swap (.inl lane) (.inr i)), ?_⟩
  have hup := h.setArena hinfo (fun l hl => by rw [← hm', setFlog_flog, if_neg hl])
    (fun _ _ _ _ => by rw [← hm']; rfl) (.inl hnone)
    (.inr (by rfl : (Pc.mapWrite a i (.write f) f : Pc lbasize).aheadIn = some a)) hsetFlog
    (o := own a ∘ Equiv.swap (.inl lane) (.inr i)) ?_ ?_
  · rw [← hns] at hup
    exact hup
  · have hahead : {l | if l = lane then
        (Pc.mapWrite a i (.write f) f : Pc lbasize).aheadIn = some a else l ∈ s.ahead a} =
          insert lane (s.ahead a) := by
      ext l
      rw [Set.mem_ofPred_eq, Set.mem_insert_iff]
      split
      · rename_i hl
        exact iff_of_true rfl (.inl hl)
      · rename_i hl
        rw [or_iff_right hl]
    rw [hahead, ← hm']
    exact hm.setTail hlane hnot hat.external hat.lba hP
  · refine ⟨hat.setArena hinfo, hlock, ?_, ?_⟩
    · rw [harena, hmine]
      rfl
    · rw [harena, hmine, hf]
      rfl

theorem Shared.Holds.ne {i j : UInt32} (h : s.Holds nfree lane a i) {l : Nat}
    (hl : l ≠ lane) (h' : s.Holds nfree l a j) : j ≠ i := by
  rintro rfl
  exact hl (Option.some.inj (h'.symm.trans h))

theorem setMap_map (m : ArenaMedia lbasize) (i entry j : UInt32) :
    (m.setMap i entry).map j = if j = i then entry else m.map j :=
  update_apply ..

section

variable (h : s.Up nfree nlba own)

include h

theorem Shared.Up.mapWrite {i e : UInt32} {job : Job} (hpc : s.pc lane = .mapWrite a i job e) :
    ∃ own', ((s.exec (.map a i e)).setPc lane (.mapUnlock a i)).Up nfree nlba own' := by
  have hok := h.pc lane
  rw [hpc] at hok
  have hat : s.At nfree nlba lane a i := by
    cases job with
    | write f => exact hok.1
    | setf f => exact hok.1
  have hlock : s.Holds nfree lane a i := by
    cases job with
    | write f => exact hok.2.1
    | setf f => exact hok.2.1
  have hm := h.owned a hat.arena
  have hhandle : s.handle =
      some (handleOf nfree nlba (s.ns.setArena a ((s.ns.arena a).setMap i e))) :=
    h.handle.trans (congrArg some (handleOf_exec_map s.ns a i e).symm)
  have hmap : ∀ j l, l ≠ lane → s.Holds nfree l a j →
      ((s.ns.arena a).setMap i e).map j = (s.ns.arena a).map j := by
    intro j l hl hlock'
    rw [setMap_map, if_neg (hlock.ne hl hlock')]
  have hs : (s.pc lane).aheadIn = none ∨ (s.pc lane).aheadIn = some a := by
    rw [hpc]
    cases job with
    | write f => exact .inr rfl
    | setf f => exact .inl rfl
  have hup : ∀ {o}, Owned nfree nlba ((s.ns.arena a).setMap i e) (s.ahead a \ {lane}) o →
      (({ s with ns := s.ns.setArena a ((s.ns.arena a).setMap i e), handle := s.handle }).setPc
        lane (.mapUnlock a i)).Up nfree nlba (update own a o) := by
    intro o howned
    refine h.setArena rfl (fun _ _ => rfl) hmap hs (.inl rfl) hhandle ?_ ⟨hat.setArena rfl, hlock⟩
    have hahead : {l | if l = lane then
        (Pc.mapUnlock a i : Pc lbasize).aheadIn = some a else l ∈ s.ahead a} =
          s.ahead a \ {lane} := by
      ext l
      rw [Set.mem_ofPred_eq, Set.mem_sdiff, Set.mem_singleton_iff]
      split
      · rename_i hl
        exact iff_of_false (fun h => nomatch h) fun hmem => hmem.2 hl
      · rename_i hl
        exact (and_iff_left hl).symm
    rw [hahead]
    exact howned
  cases job with
  | write f =>
    obtain ⟨-, -, hlba, hnew⟩ := hok
    have hmem : lane ∈ s.ahead a := by
      show (s.pc lane).aheadIn = some a
      rw [hpc]
      rfl
    have hrecover := hm.recover hmem
    rw [hlba, hnew] at hrecover
    exact ⟨_, hup hrecover⟩
  | setf f =>
    obtain ⟨-, -, hflag, he⟩ := hok
    have hnot : lane ∉ s.ahead a := by
      intro hmem
      have hahead : (s.pc lane).aheadIn = some a := hmem
      rw [hpc] at hahead
      cases hahead
    have hP : ∀ l ∈ s.ahead a, (current (s.ns.arena a) l).flog.lba ≠ i :=
      fun l hl => h.ahead_lba_ne hlock hl fun heq => hnot (heq ▸ hl)
    have hflags : Owned nfree nlba ((s.ns.arena a).setMap i e) (s.ahead a) (own a) := by
      rw [he]
      rcases hflag with rfl | rfl
      · exact hm.setFlags hP (by decide) (by decide) (by decide)
      · exact hm.setFlags hP (by decide) (by decide) (by decide)
    rw [← Set.sdiff_singleton_eq_self hnot] at hflags
    exact ⟨_, hup hflags⟩

theorem Shared.Up.byte {i : Fin lbasize}
    (hstep : s.byte lane i = some s') : ∃ own', s'.Up nfree nlba own' := by
  have hok := h.pc lane
  unfold Shared.byte at hstep
  split at hstep
  case h_1 a p entry buf copied hpc =>
    rw [hpc] at hok
    cases hstep
    exact ⟨own, h.setPc (hpc ▸ rfl) hok⟩
  case h_2 a p f buf copied hpc =>
    rw [hpc] at hok
    cases hstep
    have hnone : (s.pc lane).aheadIn = none := hpc ▸ rfl
    have hm := h.owned a hok.1.arena
    obtain ⟨m, hm'⟩ : ∃ m, (s.ns.arena a).setData (f &&& mapEntryLbaMask)
      (update ((s.ns.arena a).data (f &&& mapEntryLbaMask)) i (buf i)) = m := ⟨_, rfl⟩
    have hinfo : m.info = (s.ns.arena a).info := hm' ▸ rfl
    have hflog : m.flog = (s.ns.arena a).flog := hm' ▸ rfl
    have hcurrent : ∀ l, current m l = current (s.ns.arena a) l :=
      fun l => current_congr (congrFun hflog l)
    have hhandle : s.handle = some (handleOf nfree nlba (s.ns.setArena a m)) := by
      rw [h.handle, SameInfo.handleOf_of_current (SameInfo.setArena s.ns hinfo) fun a' l => ?_]
      rw [setArena_arena]
      split
      · rename_i heq
        rw [heq, hcurrent]
      · rfl
    have hmap : m.map = (s.ns.arena a).map := hm' ▸ rfl
    have hup := h.setArena hinfo (fun l _ => congrFun hflog l)
      (fun _ _ _ _ => congrFun hmap _) (.inl hnone)
      (.inl (by rfl : (Pc.writeData a p f buf (update copied i true)).aheadIn = none))
      hhandle (o := own a) ?_ ?_
    · rw [← hm'] at hup
      exact ⟨update own a (own a), hup⟩
    · rw [setOf_ahead hnone (by rfl), ← hm']
      exact hm.setData _ _
    · refine ⟨hok.1.setArena hinfo, ?_⟩
      rw [setArena_arena, if_pos rfl, freeEntry, hcurrent]
      exact hok.2
  case h_3 => cases hstep

theorem Shared.Up.commit (hstep : s.commit lane = some s') :
    ∃ own', s'.Up nfree nlba own' := by
  unfold Shared.commit at hstep
  split at hstep
  case h_1 a i job e hpc =>
    cases hstep
    exact h.mapWrite hpc
  case h_2 => cases hstep

theorem Shared.Up.ret {content : Content lbasize}
    (hstep : s.ret lane content = some s') : ∃ own', s'.Up nfree nlba own' := by
  unfold Shared.ret at hstep
  split at hstep
  case h_1 hpc =>
    split at hstep
    · cases hstep
      exact ⟨own, h.setPc (hpc ▸ rfl) trivial⟩
    · cases hstep
  case h_2 a i entry buf copied hpc =>
    split at hstep
    · cases hstep
      have hrtt := h.setRtt a lane mapEntryError
      have hpc' : (s.setRtt a lane mapEntryError).pc lane = .readData a i entry buf copied := hpc
      exact ⟨own, hrtt.setPc (hpc' ▸ rfl) trivial⟩
    · cases hstep
  case h_3 => cases hstep

theorem Shared.Up.act
    (hstep : s.act (handleOf nfree nlba s.ns) lane = some s') : ∃ own', s'.Up nfree nlba own' := by
  have hok := h.pc lane
  unfold Shared.act at hstep
  split at hstep
  case h_1 a i hpc =>
    rw [hpc] at hok
    cases hstep
    exact ⟨own, h.setPc (hpc ▸ rfl) hok⟩
  case h_2 a i entry hpc =>
    rw [hpc] at hok
    split at hstep
    · cases hstep
    · cases hstep
      have hrtt := h.setRtt a lane entry
      have hpc' : (s.setRtt a lane entry).pc lane = .readLoop a i entry := hpc
      exact ⟨own, hrtt.setPc (hpc' ▸ rfl) hok⟩
  case h_3 a i entry hpc =>
    rw [hpc] at hok
    split at hstep
    · cases hstep
      exact ⟨own, h.setPc (hpc ▸ rfl) hok⟩
    · cases hstep
      exact ⟨own, h.setPc (hpc ▸ rfl) hok⟩
  case h_4 a i f buf n hpc =>
    rw [hpc] at hok
    split at hstep
    · split at hstep
      · cases hstep
        exact ⟨own, h⟩
      · cases hstep
        exact ⟨own, h.setPc (hpc ▸ rfl) hok⟩
    · cases hstep
      exact ⟨own, h.setPc (hpc ▸ rfl) hok⟩
  case h_5 a i f buf copied hpc =>
    rw [hpc] at hok
    split at hstep
    · cases hstep
      exact ⟨own, h.setPc (hpc ▸ rfl) hok⟩
    · cases hstep
  case h_6 a i job hpc =>
    rw [hpc] at hok
    split at hstep
    · rename_i hfree
      cases hstep
      refine ⟨own, h.local ((Frame.setLock s lane a _ (some lane) ?_).trans
        (Frame.setPc _ lane _)) rfl rfl ?_ ?_⟩
      · intro l _ hlock
        cases hfree.symm.trans hlock
      · rw [setPc_pc_self, hpc]
        rfl
      · have hlock : ((s.setLock a (getMapLockNum i nfree) (some lane)).setPc lane
            (.mapRead a i job)).Holds nfree lane a i := by
          show (s.setLock a _ (some lane)).mapLocks a _ = some lane
          rw [setLock_mapLocks, if_pos ⟨rfl, rfl⟩]
        rw [setPc_pc_self]
        exact ⟨hok.1, hok.2, hlock⟩
    · cases hstep
  case h_7 a i job hpc =>
    rw [hpc] at hok
    split at hstep
    · cases hstep
      exact ⟨own, h.setPc (hpc ▸ rfl) ⟨hok.1, hok.2.1, hok.2.2, rfl⟩⟩
    · dsimp only at hstep
      split at hstep
      · cases hstep
        exact ⟨own, h.setPc (hpc ▸ rfl) ⟨hok.1, hok.2.2⟩⟩
      · cases hstep
        exact ⟨own, h.setPc (hpc ▸ rfl) ⟨hok.1, hok.2.2, hok.2.1, rfl⟩⟩
  case h_8 a i f old hpc =>
    rw [hpc] at hok
    dsimp only at hstep
    rw [Shared.At.flogs hok.1] at hstep
    cases hstep
    exact h.flogHead hpc
  case h_9 a i f old hpc =>
    rw [hpc] at hok
    dsimp only at hstep
    rw [Shared.At.flogs hok.1] at hstep
    cases hstep
    exact h.flogTail hpc rfl
  case h_10 a i hpc =>
    rw [hpc] at hok
    cases hstep
    refine ⟨own, h.local ((Frame.setLock s lane a _ none ?_).trans (Frame.setPc _ lane _))
      rfl rfl ?_ ?_⟩
    · intro l hl hlock
      exact hl (Option.some.inj (hlock.symm.trans hok.2))
    · rw [setPc_pc_self, hpc]
      rfl
    · rw [setPc_pc_self]
      trivial
  case h_11 => cases hstep

end

end Steps

/-! ## Runs -/

def Shared.Inv (nfree nlba : Nat) (s : Shared lbasize) : Prop :=
  (∃ own, s.Up nfree nlba own) ∨
    (s.handle = none ∧ Intact nfree nlba s.ns ∧ ∃ P own, OwnedAll nfree nlba s.ns P own)

theorem ahead_of_idle {s : Shared lbasize} (h : ∀ lane, s.pc lane = .idle) (a : Nat) :
    s.ahead a = ∅ := by
  refine Set.eq_empty_iff_forall_notMem.mpr fun lane hmem => ?_
  have hahead : (s.pc lane).aheadIn = some a := hmem
  rw [h lane] at hahead
  cases hahead

theorem Shared.Up.reopened {s : Shared lbasize} {ns : Ns lbasize} {P : Nat → Set Nat}
    {own : Nat → Nat ⊕ UInt32 → UInt32} (hintact : Intact nfree nlba ns)
    (hP : ∀ a < ns.narena, P a = ∅) (h : OwnedAll nfree nlba ns P own) :
    ({ s.down ns with handle := some (handleOf nfree nlba ns) }).Up nfree nlba own := by
  refine ⟨hintact, rfl, fun a ha => ?_, fun _ => trivial⟩
  rw [ahead_of_idle fun _ => rfl, ← hP a ha]
  exact h a ha

theorem Shared.Inv.step {s s' : Shared lbasize} {e : StepEvent lbasize}
    (h : s.Inv nfree nlba) (hstep : sharedStep e s = some s') : s'.Inv nfree nlba := by
  rcases h with ⟨own, hup⟩ | ⟨hnone, hintact, P, own, howned⟩
  · unfold sharedStep at hstep
    rw [hup.handle] at hstep
    cases e with
    | call lane c =>
      dsimp only at hstep
      split at hstep
      · rename_i hidle
        split at hstep
        · rename_i hlane
          cases hstep
          exact .inl ⟨own, hup.call hidle hlane c⟩
        · cases hstep
      · cases hstep
    | act lane => exact .inl (hup.act hstep)
    | byte lane i => exact .inl (hup.byte hstep)
    | commit lane => exact .inl (hup.commit hstep)
    | ret lane content => exact .inl (hup.ret hstep)
    | crash =>
      cases hstep
      exact .inr ⟨rfl, hup.intact, s.ahead, own, hup.owned⟩
    | reopen => cases hstep
    | cutReopen k => cases hstep
  · unfold sharedStep at hstep
    rw [hnone] at hstep
    obtain ⟨ws, ns', P', hlayout, hrec, hP'⟩ := howned.readLayout hintact
    cases e with
    | reopen =>
      dsimp only at hstep
      rw [hlayout, Option.bind_eq_bind, Option.bind_some] at hstep
      cases hstep
      rw [hrec.foldl]
      exact .inl ⟨own, .reopened (hrec.sameInfo.intact hintact) hP' hrec.owned⟩
    | cutReopen k =>
      dsimp only at hstep
      rw [hlayout, Option.bind_eq_bind, Option.bind_some] at hstep
      cases hstep
      obtain ⟨hinfo, Q, hQ⟩ := hrec.take k
      exact .inr ⟨rfl, hinfo.intact hintact, Q, own, hQ⟩
    | call lane c => cases hstep
    | act lane => cases hstep
    | byte lane i => cases hstep
    | commit lane => cases hstep
    | ret lane content => cases hstep
    | crash => cases hstep

end Pmdk.Btt
