import Pmdk.Blk.BttOwners

/-!
# Every interleaving of the lanes shares out the blocks

A step of one lane changes neither the flogs of the other lanes nor the map entries that they have
locked (`Frame`). So what a lane knows about its flog and about a locked map entry stays true until
it takes its own next step, and every step keeps the blocks shared out.
-/

namespace Pmdk.Btt

open Function

variable {lbasize : Nat} {nfree nlba : Nat}

def Pc.aheadIn : Pc lbasize → Option Nat
  | .mapWrite a _ (.write _) _ => some a
  | _ => none

def Shared.ahead (s : Shared lbasize) (a : Nat) : Set Nat :=
  {lane | (s.pc lane).aheadIn = some a}

def Shared.Holds (nfree : Nat) (s : Shared lbasize) (lane a : Nat) (premapLba : UInt32) : Prop :=
  s.mapLocks a (getMapLockNum premapLba nfree) = some lane

structure AtLba (nfree nlba : Nat) (ns : Ns lbasize) (maxlane lane a : Nat) (premapLba : UInt32) :
    Prop where
  lane_lt : lane < nlane nfree maxlane
  arena : a < ns.narena
  external : premapLba < (ns.arena a).info.externalNlba
  lba : premapLba.toNat < nlba

abbrev Shared.At (nfree nlba : Nat) (s : Shared lbasize) (lane a : Nat) (premapLba : UInt32) :
    Prop :=
  AtLba nfree nlba s.ns s.maxlane lane a premapLba

/-- The flags that `map_entry_setf` sets. -/
def IsFlag (f : UInt32) : Prop := f = mapEntryZero ∨ f = mapEntryError

def Job.Ok (m : ArenaMedia lbasize) (lane : Nat) : Job → Prop
  | .write f => f = freeEntry m lane
  | .setf f => IsFlag f

def Pc.Ok (nfree nlba : Nat) (s : Shared lbasize) (lane : Nat) : Pc lbasize → Prop
  | .idle => True
  | .readMap a i => s.At nfree nlba lane a i
  | .readLoop a i _ => s.At nfree nlba lane a i
  | .readLatest a i _ => s.At nfree nlba lane a i
  | .readData a i _ _ _ => s.At nfree nlba lane a i
  | .scan a i f _ _ => s.At nfree nlba lane a i ∧ f = freeEntry (s.ns.arena a) lane
  | .writeData a i f _ _ => s.At nfree nlba lane a i ∧ f = freeEntry (s.ns.arena a) lane
  | .mapLock a i job => s.At nfree nlba lane a i ∧ job.Ok (s.ns.arena a) lane
  | .mapRead a i job =>
    s.At nfree nlba lane a i ∧ job.Ok (s.ns.arena a) lane ∧ s.Holds nfree lane a i
  | .flogHead a i f old =>
    s.At nfree nlba lane a i ∧ f = freeEntry (s.ns.arena a) lane ∧ s.Holds nfree lane a i ∧
      old = mapEntry (s.ns.arena a) i
  | .flogTail a i f old =>
    s.At nfree nlba lane a i ∧ f = freeEntry (s.ns.arena a) lane ∧ s.Holds nfree lane a i ∧
      old = mapEntry (s.ns.arena a) i ∧
      ((s.ns.arena a).flog lane (current (s.ns.arena a) lane).next).lba = i ∧
      ((s.ns.arena a).flog lane (current (s.ns.arena a) lane).next).oldMap = old
  | .mapWrite a i (.write _) e =>
    s.At nfree nlba lane a i ∧ s.Holds nfree lane a i ∧
      (current (s.ns.arena a) lane).flog.lba = i ∧
      (current (s.ns.arena a) lane).flog.newMap = e
  | .mapWrite a i (.setf f) e =>
    s.At nfree nlba lane a i ∧ s.Holds nfree lane a i ∧ IsFlag f ∧
      e = (mapEntry (s.ns.arena a) i &&& mapEntryLbaMask) ||| f
  | .mapUnlock a i => s.At nfree nlba lane a i ∧ s.Holds nfree lane a i

/-- A step of `lane`, as the other lanes see it. -/
structure Frame (nfree : Nat) (lane : Nat) (s s' : Shared lbasize) : Prop where
  pc : ∀ l, l ≠ lane → s'.pc l = s.pc l
  maxlane : s'.maxlane = s.maxlane
  info : SameInfo s.ns s'.ns
  flog : ∀ a l, l ≠ lane → (s'.ns.arena a).flog l = (s.ns.arena a).flog l
  locks : ∀ a num l, l ≠ lane → s.mapLocks a num = some l → s'.mapLocks a num = some l
  map : ∀ a i l, l ≠ lane → s.Holds nfree l a i →
    (s'.ns.arena a).map i = (s.ns.arena a).map i

section Frame

variable {lane : Nat} {s s' s'' : Shared lbasize}

theorem Frame.trans (h : Frame nfree lane s s') (h' : Frame nfree lane s' s'') :
    Frame nfree lane s s'' where
  pc l hl := (h'.pc l hl).trans (h.pc l hl)
  maxlane := h'.maxlane.trans h.maxlane
  info := h.info.trans h'.info
  flog a l hl := (h'.flog a l hl).trans (h.flog a l hl)
  locks a num l hl hlock := h'.locks a num l hl (h.locks a num l hl hlock)
  map a i l hl hlock := (h'.map a i l hl (h.locks a _ l hl hlock)).trans (h.map a i l hl hlock)

theorem Frame.at (h : Frame nfree lane s s') {l a : Nat} {i : UInt32}
    (hat : s.At nfree nlba l a i) : s'.At nfree nlba l a i :=
  ⟨h.maxlane ▸ hat.lane_lt, h.info.narena ▸ hat.arena, h.info.info a ▸ hat.external, hat.lba⟩

/-- What a lane knows stays true while others take their steps. -/
theorem Frame.ok (h : Frame nfree lane s s') {l : Nat} (hl : l ≠ lane) {pc : Pc lbasize}
    (hpc : pc.Ok nfree nlba s l) : pc.Ok nfree nlba s' l := by
  have hcurrent : ∀ a, current (s'.ns.arena a) l = current (s.ns.arena a) l :=
    fun a => current_congr (h.flog a l hl)
  have hfree : ∀ a, freeEntry (s'.ns.arena a) l = freeEntry (s.ns.arena a) l := by
    intro a
    rw [freeEntry, freeEntry, hcurrent]
  have hlock : ∀ {a i}, s.Holds nfree l a i → s'.Holds nfree l a i :=
    fun hlock => h.locks _ _ l hl hlock
  have hmap : ∀ {a i}, s.Holds nfree l a i →
      mapEntry (s'.ns.arena a) i = mapEntry (s.ns.arena a) i := by
    intro a i hlock
    rw [mapEntry, mapEntry, h.map a i l hl hlock]
  have hjob : ∀ {a} {job : Job}, job.Ok (s.ns.arena a) l → job.Ok (s'.ns.arena a) l := by
    intro a job hjob
    cases job with
    | write f => exact hjob.trans (hfree a).symm
    | setf f => exact hjob
  cases pc with
  | idle => trivial
  | readMap a i => exact h.at hpc
  | readLoop a i entry => exact h.at hpc
  | readLatest a i entry => exact h.at hpc
  | readData a i entry buf copied => exact h.at hpc
  | scan a i f buf n => exact ⟨h.at hpc.1, hpc.2.trans (hfree a).symm⟩
  | writeData a i f buf copied => exact ⟨h.at hpc.1, hpc.2.trans (hfree a).symm⟩
  | mapLock a i job => exact ⟨h.at hpc.1, hjob hpc.2⟩
  | mapRead a i job => exact ⟨h.at hpc.1, hjob hpc.2.1, hlock hpc.2.2⟩
  | flogHead a i f old =>
    obtain ⟨hat, hf, hlocked, hold⟩ := hpc
    exact ⟨h.at hat, hf.trans (hfree a).symm, hlock hlocked, hold.trans (hmap hlocked).symm⟩
  | flogTail a i f old =>
    obtain ⟨hat, hf, hlocked, hold, hlba, holdMap⟩ := hpc
    refine ⟨h.at hat, hf.trans (hfree a).symm, hlock hlocked, hold.trans (hmap hlocked).symm,
      ?_, ?_⟩
    · rw [hcurrent, h.flog a l hl]
      exact hlba
    · rw [hcurrent, h.flog a l hl]
      exact holdMap
  | mapWrite a i job e =>
    cases job with
    | write f =>
      obtain ⟨hat, hlocked, hlba, hnew⟩ := hpc
      refine ⟨h.at hat, hlock hlocked, ?_, ?_⟩
      · rw [hcurrent]
        exact hlba
      · rw [hcurrent]
        exact hnew
    | setf f =>
      obtain ⟨hat, hlocked, hf, he⟩ := hpc
      refine ⟨h.at hat, hlock hlocked, hf, ?_⟩
      rw [hmap hlocked]
      exact he
  | mapUnlock a i => exact ⟨h.at hpc.1, hlock hpc.2⟩

@[simp] theorem setPc_pc_self (s : Shared lbasize) (lane : Nat) (pc : Pc lbasize) :
    (s.setPc lane pc).pc lane = pc := update_self ..

theorem Frame.setPc (s : Shared lbasize) (lane : Nat) (pc : Pc lbasize) :
    Frame nfree lane s (s.setPc lane pc) where
  pc _ hl := update_of_ne hl ..
  maxlane := rfl
  info := SameInfo.refl _
  flog _ _ _ := rfl
  locks _ _ _ _ hlock := hlock
  map _ _ _ _ _ := rfl

theorem Frame.setRtt (s : Shared lbasize) (lane a l : Nat) (entry : UInt32) :
    Frame nfree lane s (s.setRtt a l entry) where
  pc _ _ := rfl
  maxlane := rfl
  info := SameInfo.refl _
  flog _ _ _ := rfl
  locks _ _ _ _ hlock := hlock
  map _ _ _ _ _ := rfl

theorem setLock_mapLocks (s : Shared lbasize) (a num : Nat) (holder : Option Nat) (a' num' : Nat) :
    (s.setLock a num holder).mapLocks a' num' =
      if a' = a ∧ num' = num then holder else s.mapLocks a' num' := by
  unfold Shared.setLock
  by_cases ha : a' = a
  · by_cases hnum : num' = num
    · simp [ha, hnum]
    · simp [ha, hnum]
  · simp [ha]

theorem Frame.setLock (s : Shared lbasize) (lane a num : Nat) (holder : Option Nat)
    (hfree : ∀ l, l ≠ lane → s.mapLocks a num ≠ some l) :
    Frame nfree lane s (s.setLock a num holder) where
  pc _ _ := rfl
  maxlane := rfl
  info := SameInfo.refl _
  flog _ _ _ := rfl
  locks a' num' l hl hlock := by
    rw [setLock_mapLocks]
    split
    · rename_i heq
      rw [heq.1, heq.2] at hlock
      exact absurd hlock (hfree l hl)
    · exact hlock
  map _ _ _ _ _ := rfl

def Ns.setArena (ns : Ns lbasize) (a : Nat) (m : ArenaMedia lbasize) : Ns lbasize :=
  { ns with arena := update ns.arena a m }

theorem setArena_arena (ns : Ns lbasize) (a : Nat) (m : ArenaMedia lbasize) (a' : Nat) :
    (ns.setArena a m).arena a' = if a' = a then m else ns.arena a' := by
  simp [Ns.setArena, update_apply]

theorem SameInfo.setArena (ns : Ns lbasize) {a : Nat} {m : ArenaMedia lbasize}
    (hinfo : m.info = (ns.arena a).info) : SameInfo ns (ns.setArena a m) := by
  refine ⟨rfl, fun a' => ?_⟩
  rw [setArena_arena]
  split
  · rename_i heq
    rw [heq, hinfo]
  · rfl

/-- A lane changes an arena: its own flog, map entries that no other lane has locked, or data. -/
theorem Frame.setArena (s : Shared lbasize) (lane : Nat) {a : Nat} {m : ArenaMedia lbasize}
    (handle : Option Handle) (hinfo : m.info = (s.ns.arena a).info)
    (hflog : ∀ l, l ≠ lane → m.flog l = (s.ns.arena a).flog l)
    (hmap : ∀ i l, l ≠ lane → s.Holds nfree l a i → m.map i = (s.ns.arena a).map i) :
    Frame nfree lane s { s with ns := s.ns.setArena a m, handle := handle } where
  pc _ _ := rfl
  maxlane := rfl
  info := SameInfo.setArena s.ns hinfo
  flog a' l hl := by
    dsimp only
    rw [setArena_arena]
    split
    · rename_i heq
      rw [heq]
      exact hflog l hl
    · rfl
  locks _ _ _ _ hlock := hlock
  map a' i l hl hlock := by
    dsimp only
    rw [setArena_arena]
    split
    · rename_i heq
      subst heq
      exact hmap i l hl hlock
    · rfl

end Frame

/-! ## The invariant -/

structure Shared.Up (nfree nlba : Nat) (s : Shared lbasize)
    (own : Nat → Nat ⊕ UInt32 → UInt32) : Prop where
  intact : Intact nfree nlba s.ns
  handle : s.handle = some (handleOf nfree nlba s.ns)
  owned : OwnedAll nfree nlba s.ns s.ahead own
  pc : ∀ lane, (s.pc lane).Ok nfree nlba s lane

theorem nlane_le (nfree maxlane : Nat) : nlane nfree maxlane ≤ nfree := by
  unfold nlane
  split
  · omega
  · exact Nat.le_refl nfree

section Up

variable {lane : Nat} {s s' : Shared lbasize} {own own' : Nat → Nat ⊕ UInt32 → UInt32}

theorem AtLba.lane_lt_nfree {a : Nat} {i : UInt32} (h : s.At nfree nlba lane a i) :
    lane < nfree :=
  Nat.lt_of_lt_of_le h.lane_lt (nlane_le nfree s.maxlane)

theorem Pc.Ok.congr {pc : Pc lbasize} (h : pc.Ok nfree nlba s lane) (hns : s'.ns = s.ns)
    (hmaxlane : s'.maxlane = s.maxlane) (hlocks : s'.mapLocks = s.mapLocks) :
    pc.Ok nfree nlba s' lane := by
  obtain ⟨ns, handle, maxlane, pcs, mapLocks, rtt⟩ := s
  obtain ⟨ns', handle', maxlane', pcs', mapLocks', rtt'⟩ := s'
  dsimp only at hns hmaxlane hlocks
  subst hns hmaxlane hlocks
  cases pc with
  | mapWrite a i job e =>
    cases job with
    | write f => exact h
    | setf f => exact h
  | _ => exact h

theorem Shared.Up.step (h : s.Up nfree nlba own) (hframe : Frame nfree lane s s')
    (hhandle : s'.handle = some (handleOf nfree nlba s'.ns))
    (howned : OwnedAll nfree nlba s'.ns s'.ahead own')
    (hpc : (s'.pc lane).Ok nfree nlba s' lane) : s'.Up nfree nlba own' := by
  refine ⟨hframe.info.intact h.intact, hhandle, howned, fun l => ?_⟩
  by_cases hl : l = lane
  · rw [hl]
    exact hpc
  · rw [hframe.pc l hl]
    exact hframe.ok hl (h.pc l)

theorem Frame.mem_ahead (h : Frame nfree lane s s') {a l : Nat} :
    l ∈ s'.ahead a ↔ if l = lane then (s'.pc lane).aheadIn = some a else l ∈ s.ahead a := by
  by_cases hl : l = lane
  · rw [if_pos hl, hl]
    rfl
  · rw [if_neg hl]
    exact Iff.of_eq (congrArg (fun pc => Pc.aheadIn pc = some a) (h.pc l hl))

theorem Frame.ahead_eq (h : Frame nfree lane s s')
    (hpc : (s'.pc lane).aheadIn = (s.pc lane).aheadIn) : s'.ahead = s.ahead := by
  funext a
  ext l
  rw [h.mem_ahead]
  split
  · rename_i hl
    rw [hpc, hl]
    rfl
  · rfl

theorem Shared.Up.local (h : s.Up nfree nlba own) (hframe : Frame nfree lane s s')
    (hns : s'.ns = s.ns) (hhandle : s'.handle = s.handle)
    (hahead : (s'.pc lane).aheadIn = (s.pc lane).aheadIn)
    (hpc : (s'.pc lane).Ok nfree nlba s' lane) : s'.Up nfree nlba own := by
  refine h.step hframe ?_ ?_ hpc
  · rw [hhandle, hns]
    exact h.handle
  · rw [hns, hframe.ahead_eq hahead]
    exact h.owned

theorem Shared.Up.setPc (h : s.Up nfree nlba own) {pc : Pc lbasize}
    (hahead : pc.aheadIn = (s.pc lane).aheadIn) (hpc : pc.Ok nfree nlba s lane) :
    (s.setPc lane pc).Up nfree nlba own := by
  refine h.local (Frame.setPc s lane pc) rfl rfl ?_ ?_
  · rw [setPc_pc_self]
    exact hahead
  · rw [setPc_pc_self]
    exact hpc.congr rfl rfl rfl

theorem Shared.Up.setRtt (h : s.Up nfree nlba own) (a l : Nat) (entry : UInt32) :
    (s.setRtt a l entry).Up nfree nlba own :=
  h.local (Frame.setRtt s l a l entry) rfl rfl rfl ((h.pc l).congr rfl rfl rfl)

theorem Shared.Up.lookup (h : s.Up nfree nlba own) (hlane : lane < nlane nfree s.maxlane)
    {lba a : Nat} {i : UInt32} (hlookup : (handleOf nfree nlba s.ns).lookup lba = some (a, i)) :
    s.At nfree nlba lane a i := by
  have hlba : lba < nlba := by
    by_contra hnot
    rw [lookup_of_nlba_le s.ns (Nat.le_of_not_lt hnot)] at hlookup
    cases hlookup
  obtain ⟨a', i', hlookup', ha, hi, hi', -⟩ := h.intact.lookup hlba
  rw [hlookup', Option.some.injEq, Prod.mk.injEq] at hlookup
  obtain ⟨rfl, rfl⟩ := hlookup
  exact ⟨hlane, ha, hi, hi'⟩

theorem Shared.At.flogs {a : Nat} {i : UInt32} (h : s.At nfree nlba lane a i) :
    ((handleOf nfree nlba s.ns).arenas a).flogs lane = current (s.ns.arena a) lane := by
  rw [handleOf_arenas s.ns h.arena]
  exact if_pos (AtLba.lane_lt_nfree h)

theorem Shared.At.freeEntry {a : Nat} {i : UInt32} (h : s.At nfree nlba lane a i) :
    (handleOf nfree nlba s.ns).freeEntry a lane = freeEntry (s.ns.arena a) lane := by
  rw [Handle.freeEntry, Shared.At.flogs h]
  rfl

theorem Shared.Up.call (h : s.Up nfree nlba own) (hidle : s.pc lane = .idle)
    (hlane : lane < nlane nfree s.maxlane) (c : Call lbasize) :
    (s.setPc lane (c.begin (handleOf nfree nlba s.ns) lane)).Up nfree nlba own := by
  suffices hpc : (c.begin (handleOf nfree nlba s.ns) lane).aheadIn = none ∧
      (c.begin (handleOf nfree nlba s.ns) lane).Ok nfree nlba s lane by
    refine h.setPc ?_ hpc.2
    rw [hidle]
    exact hpc.1
  cases c with
  | read lba =>
    rw [Call.begin]
    split
    · exact ⟨rfl, trivial⟩
    · rename_i hlookup
      exact ⟨rfl, h.lookup hlane hlookup⟩
  | write lba buf =>
    rw [Call.begin]
    split
    · exact ⟨rfl, trivial⟩
    · rename_i hlookup
      split
      · exact ⟨rfl, trivial⟩
      · have hat := h.lookup hlane hlookup
        exact ⟨rfl, hat, Shared.At.freeEntry hat⟩
  | setZero lba =>
    rw [Call.begin]
    split
    · exact ⟨rfl, trivial⟩
    · rename_i hlookup
      split
      · exact ⟨rfl, trivial⟩
      · exact ⟨rfl, h.lookup hlane hlookup, .inl rfl⟩
  | setError lba =>
    rw [Call.begin]
    split
    · exact ⟨rfl, trivial⟩
    · rename_i hlookup
      split
      · exact ⟨rfl, trivial⟩
      · exact ⟨rfl, h.lookup hlane hlookup, .inr rfl⟩

theorem Shared.Up.ahead_lba_ne (h : s.Up nfree nlba own) {a : Nat} {i : UInt32}
    (hlock : s.Holds nfree lane a i) {l : Nat} (hl : l ∈ s.ahead a) (hne : l ≠ lane) :
    (current (s.ns.arena a) l).flog.lba ≠ i := by
  rintro rfl
  have hpc := h.pc l
  have hahead : (s.pc l).aheadIn = some a := hl
  cases hcase : s.pc l with
  | mapWrite a' j job e =>
    cases job with
    | write f =>
      rw [hcase] at hpc hahead
      cases Option.some.inj hahead
      obtain ⟨-, hlock', hlba, -⟩ := hpc
      rw [← hlba] at hlock'
      exact hne (Option.some.inj (hlock'.symm.trans hlock))
    | setf f =>
      rw [hcase] at hahead
      cases hahead
  | _ =>
    rw [hcase] at hahead
    cases hahead

theorem SameInfo.handleOf_of_current {ns ns' : Ns lbasize} (h : SameInfo ns ns')
    (hcurrent : ∀ a lane, current (ns'.arena a) lane = current (ns.arena a) lane) :
    Btt.handleOf nfree nlba ns' = Btt.handleOf nfree nlba ns := by
  have hloaded : (fun k => loaded nfree (ns'.arena k)) = fun k => loaded nfree (ns.arena k) := by
    funext k
    rw [loaded, loaded, h.info, funext (hcurrent k)]
  rw [Btt.handleOf, Btt.handleOf, hloaded, h.narena]

theorem Frame.ahead_of_ne (h : Frame nfree lane s s') {a a' : Nat} (hne : a' ≠ a)
    (hs : (s.pc lane).aheadIn = none ∨ (s.pc lane).aheadIn = some a)
    (hs' : (s'.pc lane).aheadIn = none ∨ (s'.pc lane).aheadIn = some a) :
    s'.ahead a' = s.ahead a' := by
  ext l
  rw [h.mem_ahead]
  split
  · rename_i hl
    have hnot : ∀ {x : Option Nat}, x = none ∨ x = some a → ¬ x = some a' := by
      rintro x (rfl | rfl) hx
      · cases hx
      · exact hne (Option.some.inj hx).symm
    rw [hl]
    exact iff_of_false (hnot hs') (hnot hs)
  · rfl

theorem Shared.Up.setArena (h : s.Up nfree nlba own) {a : Nat} {m : ArenaMedia lbasize}
    {pc : Pc lbasize} {o : Nat ⊕ UInt32 → UInt32} {handle : Option Handle}
    (hinfo : m.info = (s.ns.arena a).info)
    (hflog : ∀ l, l ≠ lane → m.flog l = (s.ns.arena a).flog l)
    (hmap : ∀ i l, l ≠ lane → s.Holds nfree l a i → m.map i = (s.ns.arena a).map i)
    (hs : (s.pc lane).aheadIn = none ∨ (s.pc lane).aheadIn = some a)
    (hs' : pc.aheadIn = none ∨ pc.aheadIn = some a)
    (hhandle : handle = some (handleOf nfree nlba (s.ns.setArena a m)))
    (howned : Owned nfree nlba m
      {l | if l = lane then pc.aheadIn = some a else l ∈ s.ahead a} o)
    (hpc : pc.Ok nfree nlba { s with ns := s.ns.setArena a m } lane) :
    (({ s with ns := s.ns.setArena a m, handle := handle }).setPc lane pc).Up nfree nlba
      (update own a o) := by
  have hframe : Frame nfree lane s
      (({ s with ns := s.ns.setArena a m, handle := handle }).setPc lane pc) :=
    (Frame.setArena s lane handle hinfo hflog hmap).trans (Frame.setPc _ lane pc)
  refine h.step hframe hhandle (fun a' ha' => ?_) ?_
  · by_cases heq : a' = a
    · subst heq
      have hahead : (({ s with ns := s.ns.setArena a' m, handle := handle }).setPc lane
          pc).ahead a' = {l | if l = lane then pc.aheadIn = some a' else l ∈ s.ahead a'} := by
        ext l
        rw [hframe.mem_ahead, setPc_pc_self]
        rfl
      have harena : (s.ns.setArena a' m).arena a' = m := by
        rw [setArena_arena, if_pos rfl]
      rw [hahead, update_self]
      exact harena.symm ▸ howned
    · have harena : (s.ns.setArena a m).arena a' = s.ns.arena a' := by
        rw [setArena_arena, if_neg heq]
      rw [hframe.ahead_of_ne heq hs ((setPc_pc_self ..).symm ▸ hs'), update_of_ne heq]
      exact harena.symm ▸ h.owned a' ha'
  · rw [setPc_pc_self]
    exact hpc.congr rfl rfl rfl

end Up

end Pmdk.Btt
