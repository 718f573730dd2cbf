import Pmdk.Blk.BttSteps

/-!
# Owners of blocks while calls are in flight

When several lanes write at the same time, several flogs may be ahead of the map. `Owned m P own`
says who owns which block of an arena then: `own` gives the block of each lane and of each LBA, and
for the lanes in `P` the map entry of their LBA is the one before their write.
-/

namespace Pmdk.Btt

variable {lbasize : Nat} {nfree nlba : Nat}

/-- The flog of lane `p` is ahead of the map. -/
structure Ahead (nfree : Nat) (m : ArenaMedia lbasize) (own : Nat ⊕ UInt32 → UInt32) (p : Nat) :
    Prop where
  lane_lt : p < nfree
  ne : (current m p).flog.oldMap ≠ (current m p).flog.newMap
  old : mapEntry m (current m p).flog.lba = (current m p).flog.oldMap
  new : own (.inr (current m p).flog.lba) = (current m p).flog.newMap &&& mapEntryLbaMask
  normal : mapEntryIsInitial (current m p).flog.newMap = false

/-- The flog pairs can be read, and `own` shares out the blocks when the lanes in `P` are ahead of
the map. -/
structure Owned (nfree nlba : Nat) (m : ArenaMedia lbasize) (P : Set Nat)
    (own : Nat ⊕ UInt32 → UInt32) : Prop where
  seq : ∀ lane < nfree, SeqOk (m.flog lane)
  lba : ∀ lane < nfree, ∀ e, (m.flog lane e).lba.toNat < nlba
  premapLba : ∀ lane < nfree,
    (current m lane).flog.oldMap ≠ (current m lane).flog.newMap →
      (current m lane).flog.lba < m.info.externalNlba
  injOn : Set.InjOn own (owners nfree m.info)
  range : ∀ o ∈ owners nfree m.info, own o < m.info.internalNlba
  lane : ∀ lane < nfree, own (.inl lane) = block m (.inl lane)
  entry : ∀ i < m.info.externalNlba, (∀ p ∈ P, (current m p).flog.lba ≠ i) →
    own (.inr i) = block m (.inr i)
  ahead : ∀ p ∈ P, Ahead nfree m own p

theorem Settled.owned {m : ArenaMedia lbasize} (h : Settled nfree nlba m) :
    Owned nfree nlba m ∅ (block m) :=
  ⟨h.seq, h.lba, h.premapLba, h.injOn, h.range, fun _ _ => rfl, fun _ _ _ => rfl,
    fun _ hp => hp.elim⟩

variable {i : UInt32}

section Owned

variable {m : ArenaMedia lbasize} {P : Set Nat} {own : Nat ⊕ UInt32 → UInt32}

theorem Owned.settled (h : Owned nfree nlba m ∅ own) : Settled nfree nlba m := by
  have hblock : ∀ o ∈ owners nfree m.info, own o = block m o := by
    intro o ho
    cases o with
    | inl lane => exact h.lane lane ho
    | inr i => exact h.entry i ho fun _ hp => hp.elim
  refine ⟨h.seq, h.lba, h.premapLba, fun o ho o' ho' heq => ?_, fun o ho => ?_⟩
  · rw [← hblock o ho, ← hblock o' ho'] at heq
    exact h.injOn ho ho' heq
  · rw [← hblock o ho]
    exact h.range o ho

section

variable (h : Owned nfree nlba m P own)

include h

/-- The map entries of two LBAs, or of one LBA and a lane that is not ahead, are for different
blocks. What a map entry is for is owned by its LBA, or by the lane that is ahead there. -/
theorem Owned.mapEntry_owner (hi : i < m.info.externalNlba) :
    (mapEntry m i &&& mapEntryLbaMask = own (.inr i) ∧ ∀ p ∈ P, (current m p).flog.lba ≠ i) ∨
      ∃ p ∈ P, (current m p).flog.lba = i ∧ mapEntry m i &&& mapEntryLbaMask = own (.inl p) := by
  by_cases hp : ∃ p ∈ P, (current m p).flog.lba = i
  · obtain ⟨p, hp, rfl⟩ := hp
    refine .inr ⟨p, hp, rfl, ?_⟩
    rw [(h.ahead p hp).old, h.lane p (h.ahead p hp).lane_lt]
    rfl
  · have hne : ∀ p ∈ P, (current m p).flog.lba ≠ i := fun p hp' heq => hp ⟨p, hp', heq⟩
    exact .inl ⟨(h.entry i hi hne).symm, hne⟩

theorem Owned.mapEntry_ne_lane {lane : Nat}
    (hlane : lane < nfree) (hP : lane ∉ P) (hi : i < m.info.externalNlba) :
    mapEntry m i &&& mapEntryLbaMask ≠ block m (.inl lane) := by
  intro heq
  rw [← h.lane lane hlane] at heq
  rcases h.mapEntry_owner hi with ⟨howner, -⟩ | ⟨p, hp, -, howner⟩
  · cases h.injOn (show Sum.inr i ∈ owners nfree m.info from hi)
      (show Sum.inl lane ∈ owners nfree m.info from hlane) (howner.symm.trans heq)
  · have hlanes := h.injOn (show Sum.inl p ∈ owners nfree m.info from (h.ahead p hp).lane_lt)
      (show Sum.inl lane ∈ owners nfree m.info from hlane) (howner.symm.trans heq)
    exact hP (Sum.inl.inj hlanes ▸ hp)

theorem Owned.lba_ne {p q : Nat} (hp : p ∈ P) (hq : q ∈ P)
    (hne : p ≠ q) : (current m p).flog.lba ≠ (current m q).flog.lba := by
  intro heq
  have hold : (current m p).flog.oldMap = (current m q).flog.oldMap := by
    rw [← (h.ahead p hp).old, ← (h.ahead q hq).old, heq]
  have hown : own (.inl p) = own (.inl q) := by
    rw [h.lane p (h.ahead p hp).lane_lt, h.lane q (h.ahead q hq).lane_lt]
    exact congrArg (· &&& mapEntryLbaMask) hold
  have hlanes := h.injOn (show Sum.inl p ∈ owners nfree m.info from (h.ahead p hp).lane_lt)
    (show Sum.inl q ∈ owners nfree m.info from (h.ahead q hq).lane_lt) hown
  exact hne (Sum.inl.inj hlanes)

theorem Owned.setData (b : UInt32) (buf : Block lbasize) :
    Owned nfree nlba (m.setData b buf) P own :=
  ⟨h.seq, h.lba, h.premapLba, h.injOn, h.range, h.lane, h.entry,
    fun p hp => ⟨(h.ahead p hp).lane_lt, (h.ahead p hp).ne, (h.ahead p hp).old,
      (h.ahead p hp).new, (h.ahead p hp).normal⟩⟩

theorem Owned.recover {p : Nat} (hp : p ∈ P) :
    Owned nfree nlba (m.setMap (current m p).flog.lba (current m p).flog.newMap) (P \ {p}) own := by
  have hahead := h.ahead p hp
  refine ⟨h.seq, h.lba, h.premapLba, h.injOn, h.range, h.lane, fun i hi hP => ?_, fun q hq => ?_⟩
  · rw [block, mapEntry_setMap, hahead.normal]
    by_cases heq : i = (current m p).flog.lba
    · rw [if_pos heq, heq]
      exact hahead.new
    · rw [if_neg heq]
      refine h.entry i hi fun q hq => ?_
      by_cases hqp : q = p
      · rw [hqp]
        exact Ne.symm heq
      · exact hP q ⟨hq, hqp⟩
  · have hq' := h.ahead q hq.1
    refine ⟨hq'.lane_lt, hq'.ne, ?_, hq'.new, hq'.normal⟩
    rw [current_setMap, mapEntry_setMap, if_neg (h.lba_ne hq.1 hp hq.2)]
    exact hq'.old

theorem Owned.setHead {lane : Nat} (hlane : lane < nfree) {f : Flog}
    (hf : f.seq = (m.flog lane (current m lane).next).seq) (hlba : f.lba.toNat < nlba) :
    Owned nfree nlba (m.setFlog lane (current m lane).next f) P own := by
  obtain ⟨hok, hcurrent⟩ := current_setHead (h.seq lane hlane) hf
  have hblock := block_setHead (h.seq lane hlane) hf
  obtain ⟨hseq, hlbas⟩ := pairs_setFlog h.seq h.lba hok hlba
  refine ⟨hseq, hlbas, fun lane' hlane' => ?_, h.injOn,
    h.range, fun lane' hlane' => ?_, fun i hi hP => ?_, fun p hp => ?_⟩
  · rw [hcurrent]
    exact h.premapLba lane' hlane'
  · rw [hblock]
    exact h.lane lane' hlane'
  · rw [hblock]
    refine h.entry i hi fun p hp => ?_
    rw [← hcurrent]
    exact hP p hp
  · have hahead := h.ahead p hp
    refine ⟨hahead.lane_lt, ?_, ?_, ?_, ?_⟩
    · rw [hcurrent]
      exact hahead.ne
    · rw [hcurrent]
      exact hahead.old
    · rw [hcurrent]
      exact hahead.new
    · rw [hcurrent]
      exact hahead.normal

/-- With the second half of its flog entry a lane is ahead, and has exchanged its block with that
of the LBA. -/
theorem Owned.setTail {lane : Nat} (hlane : lane < nfree)
    (hlaneP : lane ∉ P) (hi : i < m.info.externalNlba) (hlba : i.toNat < nlba)
    (hP : ∀ p ∈ P, (current m p).flog.lba ≠ i) :
    Owned nfree nlba (m.setFlog lane (current m lane).next (newFlog m lane i)) (insert lane P)
      (own ∘ Equiv.swap (.inl lane) (.inr i)) := by
  obtain ⟨hok, hcurrent⟩ := current_setTail (h.seq lane hlane) (f := newFlog m lane i) rfl
  have hmine := hcurrent lane
  rw [if_pos rfl] at hmine
  have hother : ∀ lane', lane' ≠ lane →
      current (m.setFlog lane (current m lane).next (newFlog m lane i)) lane' =
        current m lane' := by
    intro lane' hne
    rw [hcurrent, if_neg hne]
  have hswap : ∀ {o}, o ≠ .inl lane → o ≠ .inr i →
      (own ∘ Equiv.swap (.inl lane) (.inr i)) o = own o := by
    intro o hl hr
    rw [Function.comp_apply, Equiv.swap_apply_of_ne_of_ne hl hr]
  obtain ⟨hinj, hrange⟩ := injOn_comp_swap (s := owners nfree m.info) hlane hi h.injOn
    (g := own ∘ Equiv.swap (.inl lane) (.inr i)) fun _ => rfl
  obtain ⟨hseq, hlbas⟩ := pairs_setFlog h.seq h.lba hok hlba
  refine ⟨hseq, hlbas, fun lane' hlane' => ?_, hinj,
    fun o ho => ?_, fun lane' hlane' => ?_, fun j hj hne => ?_, fun p hp => ?_⟩
  · by_cases heq : lane' = lane
    · rw [heq, hmine]
      exact fun _ => hi
    · rw [hother lane' heq]
      exact h.premapLba lane' hlane'
  · obtain ⟨o', ho', heq⟩ := hrange o ho
    rw [heq]
    exact h.range o' ho'
  · by_cases heq : lane' = lane
    · rw [heq, Function.comp_apply, Equiv.swap_apply_left, block, hmine]
      exact h.entry i hi hP
    · rw [hswap (by simpa using heq) (by simp), block, hother lane' heq]
      exact h.lane lane' hlane'
  · have hji : j ≠ i := by
      have hne' := hne lane (Set.mem_insert lane P)
      rw [hmine] at hne'
      exact Ne.symm hne'
    rw [hswap (by simp) (by simpa using hji)]
    refine h.entry j hj fun p hp => ?_
    have hne' := hne p (Set.mem_insert_of_mem lane hp)
    rw [hother p fun heq => hlaneP (heq ▸ hp)] at hne'
    exact hne'
  · rcases hp with rfl | hp
    · refine ⟨hlane, ?_, ?_, ?_, ?_⟩
      · rw [hmine]
        intro heq
        refine h.mapEntry_ne_lane hlane hlaneP hi ?_
        rw [← freeEntry_and_mask]
        exact congrArg (· &&& mapEntryLbaMask) heq
      · rw [hmine]
        rfl
      · rw [hmine, Function.comp_apply]
        have hswapped : Equiv.swap (Sum.inl p) (Sum.inr i) (Sum.inr i) = Sum.inl p :=
          Equiv.swap_apply_right ..
        exact (congrArg own hswapped).trans ((h.lane p hlane).trans (freeEntry_and_mask m p).symm)
      · rw [hmine]
        exact not_initial_of_flags (freeEntry_and_not_mask m p) (by decide)
    · have hne : p ≠ lane := fun heq => hlaneP (heq ▸ hp)
      have hahead := h.ahead p hp
      refine ⟨hahead.lane_lt, ?_, ?_, ?_, ?_⟩
      · rw [hother p hne]
        exact hahead.ne
      · rw [hother p hne]
        exact hahead.old
      · rw [hother p hne, hswap (by simp) (by simpa using hP p hp)]
        exact hahead.new
      · rw [hother p hne]
        exact hahead.normal

theorem Owned.setFlags
    (hP : ∀ p ∈ P, (current m p).flog.lba ≠ i) {f : UInt32} (hmask : f &&& mapEntryLbaMask = 0)
    (hflags : f &&& ~~~mapEntryLbaMask = f) (hf : f ≠ 0) :
    Owned nfree nlba (m.setMap i ((mapEntry m i &&& mapEntryLbaMask) ||| f)) P own := by
  have hblock := block_setFlags m i hmask hflags hf
  refine ⟨h.seq, h.lba, h.premapLba, h.injOn, h.range, h.lane, fun j hj hne => ?_, fun p hp => ?_⟩
  · rw [hblock]
    exact h.entry j hj hne
  · have hahead := h.ahead p hp
    refine ⟨hahead.lane_lt, hahead.ne, ?_, hahead.new, hahead.normal⟩
    rw [current_setMap, mapEntry_setMap, if_neg (hP p hp)]
    exact hahead.old

end

end Owned

/-!
## Recovery of several lanes

`read_layout` of a namespace with any number of lanes ahead writes the map entry of each of them,
and afterwards all arenas are settled. A crash among these writes leaves fewer lanes ahead.
-/

variable {a : Nat}

def OwnedAll (nfree nlba : Nat) (ns : Ns lbasize) (P : Nat → Set Nat)
    (own : Nat → Nat ⊕ UInt32 → UInt32) : Prop :=
  ∀ a < ns.narena, Owned nfree nlba (ns.arena a) (P a) (own a)

inductive Recovers (nfree nlba : Nat) (own : Nat → Nat ⊕ UInt32 → UInt32) :
    Ns lbasize → (Nat → Set Nat) → List (NsWrite lbasize) → Ns lbasize → (Nat → Set Nat) → Prop
  | nil {ns : Ns lbasize} {P : Nat → Set Nat} (h : OwnedAll nfree nlba ns P own) :
      Recovers nfree nlba own ns P [] ns P
  | cons {ns ns' : Ns lbasize} {P P' : Nat → Set Nat} {ws : List (NsWrite lbasize)} {a lane : Nat}
      (h : OwnedAll nfree nlba ns P own) (ha : a < ns.narena) (hlane : lane ∈ P a)
      (hws : Recovers nfree nlba own (ns.exec (recovery (ns.arena a) a lane))
        (Function.update P a (P a \ {lane})) ws ns' P') :
      Recovers nfree nlba own ns P (recovery (ns.arena a) a lane :: ws) ns' P'

section Recovers

variable {own : Nat → Nat ⊕ UInt32 → UInt32} {ns ns' ns'' : Ns lbasize}
  {P P' P'' : Nat → Set Nat} {ws ws' : List (NsWrite lbasize)}

theorem OwnedAll.recover (h : OwnedAll nfree nlba ns P own) {lane : Nat} (ha : a < ns.narena)
    (hlane : lane ∈ P a) :
    OwnedAll nfree nlba (ns.exec (recovery (ns.arena a) a lane))
      (Function.update P a (P a \ {lane})) own := by
  intro a' ha'
  rw [recovery, exec_map_arena]
  by_cases heq : a' = a
  · rw [if_pos heq, heq, Function.update_self]
    exact (h a ha).recover hlane
  · rw [if_neg heq, Function.update_of_ne heq]
    exact h a' ha'

section

variable (h : Recovers nfree nlba own ns P ws ns' P')

include h

theorem Recovers.owned :
    OwnedAll nfree nlba ns' P' own := by
  induction h with
  | nil h => exact h
  | cons h ha hlane hws ih => exact ih

theorem Recovers.foldl :
    ws.foldl Ns.exec ns = ns' := by
  induction h with
  | nil h => rfl
  | cons h ha hlane hws ih => exact ih

theorem Recovers.append (h' : Recovers nfree nlba own ns' P' ws' ns'' P'') :
    Recovers nfree nlba own ns P (ws ++ ws') ns'' P'' := by
  induction h with
  | nil h => exact h'
  | cons h ha hlane hws ih => exact .cons h ha hlane (ih h')

theorem Recovers.sameInfo : SameInfo ns ns' := by
  induction h with
  | nil h => exact SameInfo.refl _
  | cons h ha hlane hws ih => exact (SameInfo.exec _ _).trans ih

theorem Recovers.flog (a : Nat) :
    (ns'.arena a).flog = (ns.arena a).flog := by
  induction h with
  | nil h => rfl
  | cons h ha hlane hws ih =>
    rw [ih, recovery, exec_map_arena]
    split
    · rename_i heq
      rw [heq]
      rfl
    · rfl

theorem Recovers.current (a : Nat) :
    current (ns'.arena a) = current (ns.arena a) := by
  funext lane
  exact current_congr (congrFun (h.flog a) lane)

theorem Recovers.take (k : Nat) :
    SameInfo ns ((ws.take k).foldl Ns.exec ns) ∧
      ∃ Q, OwnedAll nfree nlba ((ws.take k).foldl Ns.exec ns) Q own := by
  induction h generalizing k with
  | @nil ns P h =>
    rw [List.take_nil]
    exact ⟨SameInfo.refl ns, P, h⟩
  | @cons ns _ P _ _ _ _ h ha hlane hws ih =>
    cases k with
    | zero => exact ⟨SameInfo.refl ns, P, h⟩
    | succ k => exact ⟨(SameInfo.exec _ _).trans (ih k).1, (ih k).2⟩

end

/-- A lane that is ahead is recovered, and nothing is written for another one. -/
theorem OwnedAll.readFlogPair (h : OwnedAll nfree nlba ns P own) {lane : Nat}
    (ha : a < ns.narena) (hlane : lane < nfree) (flags : UInt32) :
    ∃ ws ns' P', readFlogPair nlba (ns.arena a) a flags lane =
        some ⟨flags, current (ns.arena a) lane, ws⟩ ∧
      Recovers nfree nlba own ns P ws ns' P' ∧ P' a = P a \ {lane} ∧
        ∀ a', a' ≠ a → P' a' = P a' := by
  have hm := h a ha
  by_cases hP : lane ∈ P a
  · have hahead := hm.ahead lane hP
    have hnew : (current (ns.arena a) lane).flog.newMap ≠
        mapEntry (ns.arena a) (current (ns.arena a) lane).flog.lba := by
      rw [hahead.old]
      exact hahead.ne.symm
    refine ⟨[recovery (ns.arena a) a lane], _, _, ?_, .cons h ha hP (.nil (h.recover ha hP)),
      Function.update_self .., fun a' ha' => Function.update_of_ne ha' ..⟩
    rw [readFlogPair_eq (hm.seq lane hlane) (hm.lba lane hlane), if_neg hahead.ne,
      if_pos ⟨hnew, hahead.old.symm⟩]
  · refine ⟨[], ns, P, ?_, .nil h, (Set.sdiff_singleton_eq_self hP).symm, fun _ _ => rfl⟩
    refine readFlogPair_of_ne (hm.seq lane hlane) (hm.lba lane hlane) (fun hne heq => ?_) a flags
    exact hm.mapEntry_ne_lane hlane hP (hm.premapLba lane hlane hne)
      (congrArg (· &&& mapEntryLbaMask) heq).symm

theorem OwnedAll.readFlogs (h : OwnedAll nfree nlba ns P own) (ha : a < ns.narena)
    (arena : Arena) {i n : Nat} (hn : i + n ≤ nfree) :
    ∃ ws ns' P', readFlogs nlba a ns arena i n = some (⟨arena.flags, arena.externalNlba,
        fill (current (ns.arena a)) arena.flogs i n⟩, ws) ∧
      Recovers nfree nlba own ns P ws ns' P' ∧
        (∀ lane ∈ P' a, lane ∈ P a ∧ (i + n ≤ lane ∨ lane < i)) ∧
        ∀ a', a' ≠ a → P' a' = P a' := by
  induction n generalizing ns P arena i with
  | zero =>
    refine ⟨[], ns, P, ?_, .nil h, fun lane hlane => ⟨hlane, by omega⟩, fun _ _ => rfl⟩
    rw [Btt.readFlogs, fill_zero]
  | succ n ih =>
    obtain ⟨ws₁, ns₁, P₁, hpair, hrec₁, hP₁, hother₁⟩ :=
      h.readFlogPair ha (show i < nfree by omega) arena.flags
    have ha₁ : a < ns₁.narena := by
      rw [hrec₁.sameInfo.narena]
      exact ha
    obtain ⟨ws₂, ns₂, P₂, hflogs, hrec₂, hP₂, hother₂⟩ := ih hrec₁.owned ha₁
      ⟨arena.flags, arena.externalNlba, Function.update arena.flogs i (current (ns.arena a) i)⟩
      (i := i + 1) (by omega)
    refine ⟨ws₁ ++ ws₂, ns₂, P₂, ?_, hrec₁.append hrec₂, fun lane hlane => ?_, fun a' ha' => ?_⟩
    · rw [Btt.readFlogs, hpair, Option.bind_eq_bind, Option.bind_some]
      dsimp only
      rw [hrec₁.foldl, hflogs, hrec₁.current, fill_update]
      rfl
    · obtain ⟨hmem, hbound⟩ := hP₂ lane hlane
      rw [hP₁] at hmem
      have hne : lane ≠ i := hmem.2
      exact ⟨hmem.1, by omega⟩
    · rw [hother₂ a' ha', hother₁ a' ha']

theorem OwnedAll.readArena (h : OwnedAll nfree nlba ns P own) (ha : a < ns.narena) :
    ∃ ws ns' P', readArena nfree nlba ns a = some (loaded nfree (ns.arena a), ws) ∧
      Recovers nfree nlba own ns P ws ns' P' ∧ P' a = ∅ ∧ ∀ a', a' ≠ a → P' a' = P a' := by
  obtain ⟨ws, ns', P', hflogs, hrec, hP, hother⟩ := h.readFlogs ha
    ⟨(ns.arena a).info.flags, (ns.arena a).info.externalNlba, fun _ => .zeroed⟩
    (i := 0) (n := nfree) (by omega)
  refine ⟨ws, ns', P', ?_, hrec, Set.eq_empty_iff_forall_notMem.mpr fun lane hlane => ?_, hother⟩
  · rw [Btt.readArena, hflogs, fill_lanes]
    rfl
  · obtain ⟨hmem, hbound⟩ := hP lane hlane
    have hlt := ((h a ha).ahead lane hmem).lane_lt
    omega

theorem Recovers.loaded (h : Recovers nfree nlba own ns P ws ns' P') (a : Nat) :
    loaded nfree (ns'.arena a) = loaded nfree (ns.arena a) := by
  rw [Btt.loaded, Btt.loaded, h.sameInfo.info, h.current]

theorem OwnedAll.readArenas (h : OwnedAll nfree nlba ns P own) (arenas : Nat → Arena) {n : Nat}
    (hn : a + n ≤ ns.narena) :
    ∃ ws ns' P', readArenas nfree nlba ns arenas a n =
        some (fill (fun k => loaded nfree (ns.arena k)) arenas a n, ws) ∧
      Recovers nfree nlba own ns P ws ns' P' ∧
        ∀ a', P' a' = if a ≤ a' ∧ a' < a + n then ∅ else P a' := by
  induction n generalizing ns P arenas a with
  | zero =>
    refine ⟨[], ns, P, ?_, .nil h, fun a' => ?_⟩
    · rw [Btt.readArenas, fill_zero]
    · rw [if_neg (by omega)]
  | succ n ih =>
    obtain ⟨ws₁, ns₁, P₁, harena, hrec₁, hP₁, hother₁⟩ := h.readArena (a := a) (by omega)
    have hnarena := hrec₁.sameInfo.narena
    obtain ⟨ws₂, ns₂, P₂, harenas, hrec₂, hP₂⟩ := ih hrec₁.owned
      (Function.update arenas a (Btt.loaded nfree (ns.arena a))) (a := a + 1) (by omega)
    have hloaded : (fun k => Btt.loaded nfree (ns₁.arena k)) =
        fun k => Btt.loaded nfree (ns.arena k) := funext hrec₁.loaded
    refine ⟨ws₁ ++ ws₂, ns₂, P₂, ?_, hrec₁.append hrec₂, fun a' => ?_⟩
    · rw [Btt.readArenas, harena, Option.bind_eq_bind, Option.bind_some]
      dsimp only
      rw [hrec₁.foldl, harenas, hloaded, fill_update fun k => Btt.loaded nfree (ns.arena k)]
      rfl
    · rw [hP₂]
      by_cases heq : a' = a
      · rw [heq, if_neg (by omega), if_pos (by omega)]
        exact hP₁
      · rw [hother₁ a' heq]
        by_cases hin : a + 1 ≤ a' ∧ a' < a + 1 + n
        · rw [if_pos hin, if_pos (by omega)]
        · rw [if_neg hin, if_neg (by omega)]

theorem OwnedAll.readLayout (h : OwnedAll nfree nlba ns P own) (hintact : Intact nfree nlba ns) :
    ∃ ws ns' P', readLayout ns = some (handleOf nfree nlba ns', ws) ∧
      Recovers nfree nlba own ns P ws ns' P' ∧ ∀ a < ns'.narena, P' a = ∅ := by
  obtain ⟨smallest, hinfos, hnfree⟩ := hintact.infos
  obtain ⟨ws, ns', P', harenas, hrec, hP⟩ := h.readArenas (fun _ => ⟨0, 0, fun _ => .zeroed⟩)
    (a := 0) (n := ns.narena) (by omega)
  have hnarena := hrec.sameInfo.narena
  have hloaded : (fun k => Btt.loaded nfree (ns'.arena k)) =
      fun k => Btt.loaded nfree (ns.arena k) := funext hrec.loaded
  refine ⟨ws, ns', P', ?_, hrec, fun a ha => ?_⟩
  · rw [Btt.readLayout, hinfos, Option.bind_eq_bind, Option.bind_some]
    dsimp only
    rw [hnfree, harenas, handleOf, hnarena, hloaded]
    rfl
  · rw [hP, if_pos (by omega)]

end Recovers

end Pmdk.Btt
