import Pmdk.Blk.BttLoad

/-!
# Block writes are crash atomic

`Shows` relates a namespace whose arenas are settled to the contents that are read from it,
and `Down` relates a namespace without a handle to the contents that `read_layout` will make
readable. `Steps` follows the writes of a call, before and inside of each of which power may
fail: what is left is then related to the contents before the call or to those after it.
-/

namespace Pmdk.Btt

open List

variable {lbasize : Nat} {nfree nlba : Nat}

/-! ## LBAs -/

def lbas (externalNlba : Nat → UInt32) (a n : Nat) : Nat :=
  ((List.range' a n).map fun k => (externalNlba k).toNat).sum

theorem lbas_succ (externalNlba : Nat → UInt32) (a n : Nat) :
    lbas externalNlba a (n + 1) = (externalNlba a).toNat + lbas externalNlba (a + 1) n := by
  rw [lbas, List.range'_succ, map_cons, sum_cons]
  rfl

theorem lbaToArenaLba_spec (externalNlba : Nat → UInt32) {a n lba : Nat}
    (h : lba < lbas externalNlba a n) :
    ∃ k i, lbaToArenaLba externalNlba a n lba = some (k, i) ∧ k < a + n ∧
      i < externalNlba k ∧ lba = lbas externalNlba a (k - a) + i.toNat ∧ a ≤ k := by
  induction n generalizing a lba with
  | zero => exact absurd h (Nat.not_lt_zero lba)
  | succ n ih =>
    rw [lbas_succ] at h
    rw [lbaToArenaLba]
    by_cases hlt : lba < (externalNlba a).toNat
    · have htoNat : (UInt32.ofNat lba).toNat = lba := by
        have hsize := (externalNlba a).toNat_lt
        exact UInt32.toNat_ofNat_of_lt' (Nat.lt_trans hlt hsize)
      refine ⟨a, UInt32.ofNat lba, if_pos hlt, by omega, ?_, ?_, Nat.le_refl a⟩
      · rw [UInt32.lt_iff_toNat_lt, htoNat]
        exact hlt
      · rw [Nat.sub_self, htoNat]
        exact (Nat.zero_add lba).symm
    · obtain ⟨k, i, hk, hkn, hi, hlba, hak⟩ :=
        ih (show lba - (externalNlba a).toNat < lbas externalNlba (a + 1) n by omega)
      refine ⟨k, i, by rw [if_neg hlt, hk], by omega, hi, ?_, by omega⟩
      have hsub : k - a = k - (a + 1) + 1 := by omega
      rw [hsub, lbas_succ]
      omega

theorem readInfos_total {infos : List Info} {smallest total smallest' total' : Nat}
    (h : readInfos lbasize infos smallest total = some (smallest', total')) :
    total' = total + (infos.map fun info => info.externalNlba.toNat).sum := by
  induction infos generalizing smallest total with
  | nil =>
    cases h
    rfl
  | cons info infos ih =>
    rw [readInfos] at h
    split_ifs at h
    rw [ih h, map_cons, sum_cons, Nat.add_assoc]

/-- The info blocks are valid, with the number of lanes and of LBAs that `read_layout` takes
from them, and no arena has its error flag set. -/
structure Intact (nfree nlba : Nat) (ns : Ns lbasize) : Prop where
  infos : ∃ smallest, readInfos lbasize ns.infos (2 ^ 32 - 1) 0 = some (smallest, nlba) ∧
    (if smallest < defaultNfree then smallest else defaultNfree) = nfree
  noError : ∀ a < ns.narena, (ns.arena a).info.flags &&& infoFlagError = 0

def handleOf (nfree nlba : Nat) (ns : Ns lbasize) : Handle :=
  ⟨nfree, nlba, ns.narena,
    fill (fun k => loaded nfree (ns.arena k)) (fun _ => ⟨0, 0, fun _ => .zeroed⟩) 0 ns.narena⟩

theorem handleOf_arenas (ns : Ns lbasize) {a : Nat} (h : a < ns.narena) :
    (handleOf nfree nlba ns).arenas a = loaded nfree (ns.arena a) := by
  simp [handleOf, fill, h]

theorem Intact.nlba_eq {ns : Ns lbasize} (h : Intact nfree nlba ns) :
    nlba = lbas (fun a => ((handleOf nfree nlba ns).arenas a).externalNlba) 0 ns.narena := by
  obtain ⟨smallest, hinfos, -⟩ := h.infos
  rw [readInfos_total hinfos, Ns.infos, map_map, Nat.zero_add, lbas, List.range_eq_range']
  congr 1
  apply map_congr_left
  intro a ha
  rw [List.mem_range'_1] at ha
  rw [handleOf_arenas ns (by omega)]
  rfl

theorem Intact.lookup {ns : Ns lbasize} (h : Intact nfree nlba ns) {lba : Nat} (hlba : lba < nlba) :
    ∃ a i, (handleOf nfree nlba ns).lookup lba = some (a, i) ∧ a < ns.narena ∧
      i < (ns.arena a).info.externalNlba ∧ i.toNat < nlba ∧
      ∀ lba' < nlba, (handleOf nfree nlba ns).lookup lba' = some (a, i) → lba' = lba := by
  have hspec : ∀ {x}, x < nlba → ∃ k i, (handleOf nfree nlba ns).lookup x = some (k, i) ∧
      k < ns.narena ∧ i < ((handleOf nfree nlba ns).arenas k).externalNlba ∧
      x = lbas (fun a => ((handleOf nfree nlba ns).arenas a).externalNlba) 0 k + i.toNat := by
    intro x hx
    have hx' := hx
    rw [h.nlba_eq] at hx'
    obtain ⟨k, i, hk, hkn, hi, heq, -⟩ := lbaToArenaLba_spec _ hx'
    refine ⟨k, i, ?_, by omega, hi, heq⟩
    exact (if_neg (Nat.not_le.mpr hx)).trans hk
  obtain ⟨a, i, hlookup, ha, hi, heq⟩ := hspec hlba
  rw [handleOf_arenas ns ha] at hi
  refine ⟨a, i, hlookup, ha, hi, by omega, fun lba' hlba' hlookup' => ?_⟩
  obtain ⟨a', i', hlookup'', -, -, heq'⟩ := hspec hlba'
  rw [hlookup'', Option.some.injEq, Prod.mk.injEq] at hlookup'
  obtain ⟨rfl, rfl⟩ := hlookup'
  exact heq'.trans heq.symm

/-! ## Contents -/

def contentAt (m : ArenaMedia lbasize) (i : UInt32) : Content lbasize :=
  readEntry m (m.map i)

/-- All arenas are settled, and `A` is what `btt_read` returns. -/
structure Shows (nfree nlba : Nat) (ns : Ns lbasize) (A : Nat → Content lbasize) : Prop where
  intact : Intact nfree nlba ns
  settled : ∀ a < ns.narena, Settled nfree nlba (ns.arena a)
  read : ∀ lba < nlba, bttRead (handleOf nfree nlba ns) ns lba = A lba

structure SameInfo (ns ns' : Ns lbasize) : Prop where
  narena : ns'.narena = ns.narena
  info : ∀ a, (ns'.arena a).info = (ns.arena a).info

theorem SameInfo.refl (ns : Ns lbasize) : SameInfo ns ns := ⟨rfl, fun _ => rfl⟩

variable {ns' : Ns lbasize} {A' : Nat → Content lbasize} {ws : List (NsWrite lbasize)} {m :
    ArenaMedia lbasize} {entry : UInt32}

theorem SameInfo.trans {ns ns'' : Ns lbasize} (h : SameInfo ns ns')
    (h' : SameInfo ns' ns'') : SameInfo ns ns'' :=
  ⟨h'.narena.trans h.narena, fun a => (h'.info a).trans (h.info a)⟩

theorem SameInfo.modify (ns : Ns lbasize) (a : Nat)
    {f : ArenaMedia lbasize → ArenaMedia lbasize} (hf : ∀ m, (f m).info = m.info) :
    SameInfo ns (ns.modify a f) := by
  refine ⟨rfl, fun a' => ?_⟩
  rw [Ns.modify]
  by_cases h : a' = a
  · rw [h]
    dsimp only
    rw [Function.update_self, hf]
  · dsimp only
    rw [Function.update_of_ne h]

theorem SameInfo.exec (ns : Ns lbasize) (w : NsWrite lbasize) : SameInfo ns (ns.exec w) := by
  cases w with
  | data a b buf => exact SameInfo.modify ns a (f := fun m => m.setData b buf) fun _ => rfl
  | flogHead a lane e lba oldMap =>
    exact SameInfo.modify ns a (f := fun m => m.setFlog lane e _) fun _ => rfl
  | flogTail a lane e newMap seq =>
    exact SameInfo.modify ns a (f := fun m => m.setFlog lane e _) fun _ => rfl
  | map a i entry => exact SameInfo.modify ns a (f := fun m => m.setMap i entry) fun _ => rfl

theorem SameInfo.intact {ns : Ns lbasize} (h : SameInfo ns ns')
    (hns : Intact nfree nlba ns) : Intact nfree nlba ns' := by
  have hinfos : ns'.infos = ns.infos := by
    rw [Ns.infos, Ns.infos, h.narena]
    exact map_congr_left fun a _ => h.info a
  refine ⟨hinfos ▸ hns.infos, fun a ha => ?_⟩
  rw [h.info]
  exact hns.noError a (h.narena ▸ ha)

theorem SameInfo.lookup {ns : Ns lbasize} (h : SameInfo ns ns') (lba : Nat) :
    (handleOf nfree nlba ns').lookup lba = (handleOf nfree nlba ns).lookup lba := by
  have hext : (fun a => ((handleOf nfree nlba ns').arenas a).externalNlba) =
      fun a => ((handleOf nfree nlba ns).arenas a).externalNlba := by
    funext a
    by_cases ha : a < ns.narena
    · rw [handleOf_arenas ns ha, handleOf_arenas ns' (h.narena ▸ ha)]
      exact congrArg Info.externalNlba (h.info a)
    · simp [handleOf, fill, h.narena, ha]
  rw [Handle.lookup, Handle.lookup, hext]
  exact congrArg (fun n => if nlba ≤ lba then none else lbaToArenaLba _ 0 n lba) h.narena

theorem Shows.update {ns : Ns lbasize} {A : Nat → Content lbasize}
    (h : Shows nfree nlba ns A) (hinfo : SameInfo ns ns')
    (hsettled : ∀ a < ns.narena, Settled nfree nlba (ns'.arena a)) {lba : Nat}
    (hlba : lba < nlba) {a : Nat} {i : UInt32}
    (hlookup : (handleOf nfree nlba ns).lookup lba = some (a, i)) {c : Content lbasize}
    (hc : contentAt (ns'.arena a) i = c)
    (hother : ∀ a' < ns.narena, ∀ i' < (ns.arena a').info.externalNlba, (a', i') ≠ (a, i) →
      contentAt (ns'.arena a') i' = contentAt (ns.arena a') i') :
    Shows nfree nlba ns' (Function.update A lba c) := by
  refine ⟨hinfo.intact h.intact, fun a' ha' => hsettled a' (hinfo.narena ▸ ha'),
    fun lba' hlba' => ?_⟩
  rw [bttRead, hinfo.lookup]
  by_cases heq : lba' = lba
  · rw [heq, hlookup, Function.update_self]
    exact hc
  · obtain ⟨a', i', hlookup', ha', hi', -, hunique⟩ := h.intact.lookup hlba'
    rw [hlookup', Function.update_of_ne heq, ← h.read lba' hlba', bttRead, hlookup']
    refine hother a' ha' i' hi' fun hpair => ?_
    rw [Prod.mk.injEq] at hpair
    rw [← hpair.1, ← hpair.2] at hlookup
    exact heq (hunique lba hlba hlookup).symm

theorem Shows.same {ns : Ns lbasize} {A : Nat → Content lbasize}
    (h : Shows nfree nlba ns A) (hinfo : SameInfo ns ns')
    (hsettled : ∀ a < ns.narena, Settled nfree nlba (ns'.arena a))
    (hsame : ∀ a' < ns.narena, ∀ i' < (ns.arena a').info.externalNlba,
      contentAt (ns'.arena a') i' = contentAt (ns.arena a') i') : Shows nfree nlba ns' A := by
  refine ⟨hinfo.intact h.intact, fun a' ha' => hsettled a' (hinfo.narena ▸ ha'), fun lba hlba => ?_⟩
  obtain ⟨a, i, hlookup, ha, hi, -, -⟩ := h.intact.lookup hlba
  rw [bttRead, hinfo.lookup, hlookup, ← h.read lba hlba, bttRead, hlookup]
  exact hsame a ha i hi

/-! ## Namespaces without a handle -/

/-- `read_layout` will make `A` readable. -/
def Down (nfree nlba : Nat) (ns : Ns lbasize) (A : Nat → Content lbasize) : Prop :=
  Shows nfree nlba ns A ∨ ∃ a lane, a < ns.narena ∧ Pending nfree nlba (ns.arena a) lane ∧
    (∀ k < ns.narena, k ≠ a → Settled nfree nlba (ns.arena k)) ∧
    Shows nfree nlba (ns.exec (recovery (ns.arena a) a lane)) A

/-- Before and inside of each write a crash leaves the contents `A` or `A'`, and after the
last one the contents are `A'`. -/
def Steps (nfree nlba : Nat) (A A' : Nat → Content lbasize) :
    Ns lbasize → List (NsWrite lbasize) → Prop
  | ns, [] => Shows nfree nlba ns A'
  | ns, w :: ws =>
    (Down nfree nlba ns A ∨ Down nfree nlba ns A') ∧
    (∀ junk, Down nfree nlba (ns.tear junk w) A ∨ Down nfree nlba (ns.tear junk w) A') ∧
    Steps nfree nlba A A' (ns.exec w) ws

theorem Steps.foldl {A : Nat → Content lbasize} {ns : Ns lbasize}
    (h : Steps nfree nlba A A' ns ws) :
    Shows nfree nlba (ws.foldl Ns.exec ns) A' := by
  induction ws generalizing ns with
  | nil => exact h
  | cons w ws ih => exact ih h.2.2

theorem Steps.crashed {A : Nat → Content lbasize} {ns : Ns lbasize}
    (h : Steps nfree nlba A A' ns ws) (k : Nat) (junk : Option (Block lbasize)) :
    Down nfree nlba (crashed ns ws k junk) A ∨ Down nfree nlba (crashed ns ws k junk) A' := by
  induction ws generalizing ns k with
  | nil =>
    have hnil : Btt.crashed ns [] k junk = ns := by
      simp [Btt.crashed]
    rw [hnil]
    exact .inr (.inl h)
  | cons w ws ih =>
    cases k with
    | zero =>
      cases junk with
      | none => exact h.1
      | some junk => exact h.2.1 junk
    | succ k => exact ih h.2.2 k

@[simp] theorem modify_arena (ns : Ns lbasize) (a : Nat)
    (f : ArenaMedia lbasize → ArenaMedia lbasize) (a' : Nat) :
    (ns.modify a f).arena a' = if a' = a then f (ns.arena a) else ns.arena a' := by
  simp [Ns.modify, Function.update_apply]

theorem SameInfo.handleOf {ns : Ns lbasize} (h : SameInfo ns ns')
    (hflog : ∀ a, (ns'.arena a).flog = (ns.arena a).flog) :
    handleOf nfree nlba ns' = handleOf nfree nlba ns := by
  have hloaded : (fun k => loaded nfree (ns'.arena k)) = fun k => loaded nfree (ns.arena k) := by
    funext k
    have hcurrent : current (ns'.arena k) = current (ns.arena k) := by
      funext lane
      exact current_congr (congrFun (hflog k) lane)
    rw [loaded, loaded, h.info, hcurrent]
  rw [Btt.handleOf, Btt.handleOf, hloaded, h.narena]

theorem handleOf_exec_map (ns : Ns lbasize) (a : Nat) (i entry : UInt32) :
    handleOf nfree nlba (ns.exec (.map a i entry)) = handleOf nfree nlba ns := by
  refine (SameInfo.exec ns _).handleOf fun k => ?_
  rw [exec_map_arena]
  split
  · rename_i hk
    rw [hk]
    rfl
  · rfl

theorem Shows.readLayout {ns : Ns lbasize} {A : Nat → Content lbasize}
    (h : Shows nfree nlba ns A) : readLayout ns = some (handleOf nfree nlba ns, []) := by
  obtain ⟨smallest, hinfos, rfl⟩ := h.intact.infos
  rw [Btt.readLayout, hinfos, Option.bind_eq_bind, Option.bind_some]
  dsimp only
  rw [readArenas_of_settled _ fun k _ hk => h.settled k (by omega)]
  rfl

/-- `read_layout` succeeds, and a crash inside of it changes nothing. -/
theorem Down.readLayout {ns : Ns lbasize} {A : Nat → Content lbasize} (h : Down nfree nlba ns A) :
    ∃ ws, readLayout ns = some (handleOf nfree nlba (ws.foldl Ns.exec ns), ws) ∧
      Steps nfree nlba A A ns ws := by
  rcases h with h | ⟨a, lane, ha, hpending, hother, h⟩
  · exact ⟨[], h.readLayout, h⟩
  · have hdown : Down nfree nlba ns A := .inr ⟨a, lane, ha, hpending, hother, h⟩
    refine ⟨[recovery (ns.arena a) a lane], ?_, .inl hdown, fun _ => .inl hdown, h⟩
    have hinfo := SameInfo.exec ns (recovery (ns.arena a) a lane)
    have hinfo' : SameInfo (ns.exec (recovery (ns.arena a) a lane)) ns :=
      ⟨hinfo.narena.symm, fun k => (hinfo.info k).symm⟩
    obtain ⟨smallest, hinfos, rfl⟩ := (hinfo'.intact h.intact).infos
    rw [Btt.readLayout, hinfos, Option.bind_eq_bind, Option.bind_some]
    dsimp only
    rw [readArenas_of_pending _ (Nat.zero_le a) (by omega) hpending
      fun k _ hk hne => hother k (by omega) hne, foldl_cons, foldl_nil, recovery,
      handleOf_exec_map]
    rfl

/-! ## Calls -/

def Op.effect : Op lbasize → Content lbasize
  | .write _ _ buf => .block buf
  | .setZero _ _ => .block zeroBlock
  | .setError _ _ => .eio

def Op.lba : Op lbasize → Nat
  | .write _ lba _ => lba
  | .setZero _ lba => lba
  | .setError _ lba => lba

def Op.apply (op : Op lbasize) (A : Nat → Content lbasize) : Nat → Content lbasize :=
  Function.update A op.lba op.effect

theorem contentAt_setData {i b : UInt32}
    (h : mapEntry m i &&& mapEntryLbaMask ≠ b) (buf : Block lbasize) :
    contentAt (m.setData b buf) i = contentAt m i := by
  have hne : m.map i &&& mapEntryLbaMask = b → mapEntryIsZeroOrInitial (m.map i) = true := by
    intro heq
    by_cases hinitial : mapEntryIsInitial (m.map i)
    · unfold mapEntryIsInitial at hinitial
      unfold mapEntryIsZeroOrInitial
      rw [Bool.or_eq_true]
      exact .inl hinitial
    · refine absurd ?_ h
      rw [← heq]
      exact congrArg (· &&& mapEntryLbaMask) (if_neg hinitial)
  unfold contentAt readEntry ArenaMedia.setData
  dsimp only
  split
  · rfl
  · split
    · rfl
    · rename_i hzero
      rw [Function.update_of_ne fun heq => hzero (hne heq)]

theorem Settled.contentAt_setData (h : Settled nfree nlba m)
    {lane : Nat} (hlane : lane < nfree) (buf : Block lbasize) {i : UInt32}
    (hi : i < m.info.externalNlba) :
    contentAt (m.setData (block m (.inl lane)) buf) i = contentAt m i := by
  refine Btt.contentAt_setData (fun hblock => ?_) buf
  cases h.injOn (show Sum.inr i ∈ owners nfree m.info from hi)
    (show Sum.inl lane ∈ owners nfree m.info from hlane) hblock

theorem contentAt_setMap_of_ne (m : ArenaMedia lbasize) {i i' : UInt32} (h : i' ≠ i)
    (entry : UInt32) : contentAt (m.setMap i entry) i' = contentAt m i' := by
  unfold contentAt ArenaMedia.setMap
  dsimp only
  rw [Function.update_of_ne h]
  rfl

theorem contentAt_setMap (m : ArenaMedia lbasize) (i entry : UInt32) :
    contentAt (m.setMap i entry) i = readEntry m entry := by
  unfold contentAt ArenaMedia.setMap
  dsimp only
  rw [Function.update_self]
  rfl

theorem readEntry_normal (m : ArenaMedia lbasize)
    (h : entry &&& ~~~mapEntryLbaMask = mapEntryNormal) :
    readEntry m entry = .block (m.data (entry &&& mapEntryLbaMask)) := by
  unfold readEntry mapEntryIsError mapEntryIsZeroOrInitial
  rw [h]
  rfl

theorem readEntry_zero (m : ArenaMedia lbasize) (h : entry &&& ~~~mapEntryLbaMask = mapEntryZero) :
    readEntry m entry = .block zeroBlock := by
  unfold readEntry mapEntryIsError mapEntryIsZeroOrInitial
  rw [h]
  rfl

theorem readEntry_error (m : ArenaMedia lbasize)
    (h : entry &&& ~~~mapEntryLbaMask = mapEntryError) : readEntry m entry = .eio := by
  unfold readEntry mapEntryIsError
  rw [h]
  rfl

section Calls

variable {ns : Ns lbasize} {A : Nat → Content lbasize} {a lane lba : Nat} {i : UInt32}

/-- One arena changes, but not its contents; the others stay as they are. -/
theorem Shows.change (h : Shows nfree nlba ns A) (a : Nat) (hinfo : SameInfo ns ns')
    (hother : ∀ a', a' ≠ a → ns'.arena a' = ns.arena a')
    (hsettled : Settled nfree nlba (ns'.arena a))
    (hsame : ∀ i' < (ns.arena a).info.externalNlba,
      contentAt (ns'.arena a) i' = contentAt (ns.arena a) i') : Shows nfree nlba ns' A := by
  refine h.same hinfo (fun a' ha' => ?_) fun a' _ i' hi' => ?_
  · by_cases heq : a' = a
    · rw [heq]
      exact hsettled
    · rw [hother a' heq]
      exact h.settled a' ha'
  · by_cases heq : a' = a
    · subst heq
      exact hsame i' hi'
    · rw [hother a' heq]

theorem Shows.setMap (h : Shows nfree nlba ns A) (hlba : lba < nlba)
    (hlookup : (handleOf nfree nlba ns).lookup lba = some (a, i))
    (hsettled : Settled nfree nlba ((ns.arena a).setMap i entry)) :
    Shows nfree nlba (ns.exec (.map a i entry))
      (Function.update A lba (readEntry (ns.arena a) entry)) := by
  refine h.update (SameInfo.exec ns _) (fun a' ha' => ?_) hlba hlookup ?_ fun a' _ i' _ hne => ?_
  · rw [exec_map_arena]
    split
    · exact hsettled
    · exact h.settled a' ha'
  · rw [exec_map_arena, if_pos rfl]
    exact contentAt_setMap _ _ _
  · rw [exec_map_arena]
    split
    · rename_i heq
      subst heq
      exact contentAt_setMap_of_ne _ (fun heq => hne (by rw [heq])) _
    · rfl

theorem Shows.of_nlba_le (h : Shows nfree nlba ns A) (hlba : nlba ≤ lba)
    (c : Content lbasize) : Shows nfree nlba ns (Function.update A lba c) := by
  refine ⟨h.intact, h.settled, fun lba' hlba' => ?_⟩
  rw [Function.update_of_ne (by omega)]
  exact h.read lba' hlba'

theorem lookup_of_nlba_le (ns : Ns lbasize) (hlba : nlba ≤ lba) :
    (handleOf nfree nlba ns).lookup lba = none :=
  if_pos hlba

theorem Shows.flags (h : Shows nfree nlba ns A) (ha : a < ns.narena) :
    ¬ ((handleOf nfree nlba ns).arenas a).flags &&& infoFlagError ≠ 0 := by
  rw [handleOf_arenas ns ha, not_not]
  exact h.intact.noError a ha

theorem contentAt_of_zeroOrInitial (h : mapEntryIsZeroOrInitial (mapEntry m i) = true) :
    contentAt m i = .block zeroBlock := by
  have hzero : mapEntryIsZeroOrInitial (m.map i) = true := by
    by_cases hinitial : mapEntryIsInitial (m.map i)
    · unfold mapEntryIsZeroOrInitial
      rw [Bool.or_eq_true]
      exact .inl hinitial
    · rwa [mapEntry, if_neg hinitial] at h
  unfold contentAt readEntry
  rw [if_pos hzero, if_neg]
  unfold mapEntryIsZeroOrInitial at hzero
  unfold mapEntryIsError
  rw [Bool.or_eq_true, decide_eq_true_eq, decide_eq_true_eq] at hzero
  rw [decide_eq_true_eq]
  rcases hzero with hflags | hflags <;> rw [hflags] <;> decide

theorem Shows.mapEntrySetf (h : Shows nfree nlba ns A) (lba : Nat) {f : UInt32}
    {c : Content lbasize} (hmask : f &&& mapEntryLbaMask = 0)
    (hflags : f &&& ~~~mapEntryLbaMask = f) (hf : f ≠ 0)
    (hc : ∀ (m : ArenaMedia lbasize) (entry : UInt32), entry &&& ~~~mapEntryLbaMask = f →
      readEntry m entry = c) {result : List (NsWrite lbasize) × Handle}
    (hresult : result = (mapEntrySetf (handleOf nfree nlba ns) ns lba f).getD
      ([], handleOf nfree nlba ns)) :
    Steps nfree nlba A (Function.update A lba c) ns result.1 ∧
      result.2 = handleOf nfree nlba (result.1.foldl Ns.exec ns) := by
  subst hresult
  by_cases hlba : nlba ≤ lba
  · rw [Btt.mapEntrySetf, lookup_of_nlba_le ns hlba]
    exact ⟨h.of_nlba_le hlba c, rfl⟩
  · have hlt : lba < nlba := by omega
    obtain ⟨a, i, hlookup, ha, hi, -, -⟩ := h.intact.lookup hlt
    rw [Btt.mapEntrySetf, hlookup]
    dsimp only
    rw [if_neg (h.flags ha)]
    split
    · rename_i hzero
      refine ⟨?_, rfl⟩
      have hread := h.read lba hlt
      have hcontent := contentAt_of_zeroOrInitial hzero.2
      have hcz : c = .block zeroBlock := by
        rw [← hc (ns.arena a) f hflags]
        exact readEntry_zero _ (hflags.trans hzero.1)
      rw [bttRead, hlookup] at hread
      have hA : A lba = c := by
        rw [hcz, ← hcontent, ← hread]
        rfl
      rw [← hA, Function.update_eq_self]
      exact h
    · have hshows := h.setMap hlt hlookup ((h.settled a ha).setFlags i hmask hflags hf)
      rw [hc _ _ (setFlags_and_not_mask _ hflags)] at hshows
      exact ⟨⟨.inl (.inl h), fun _ => .inl (.inl h), hshows⟩, (handleOf_exec_map ns a i _).symm⟩

theorem bttWrite_eq (h : Shows nfree nlba ns A) (hlane : lane < nfree) (ha : a < ns.narena)
    (hlookup : (handleOf nfree nlba ns).lookup lba = some (a, i)) (buf : Block lbasize) :
    bttWrite (handleOf nfree nlba ns) ns lane lba buf =
      some ([.data a (block (ns.arena a) (.inl lane)) buf,
        .flogHead a lane (current (ns.arena a) lane).next i (mapEntry (ns.arena a) i),
        .flogTail a lane (current (ns.arena a) lane).next (freeEntry (ns.arena a) lane)
          (nseq (current (ns.arena a) lane).flog.seq), .map a i (freeEntry (ns.arena a) lane)],
        (handleOf nfree nlba ns).setFlog a lane
          ⟨newFlog (ns.arena a) lane i, !(current (ns.arena a) lane).next⟩) := by
  have hruntime : ((handleOf nfree nlba ns).arenas a).flogs lane = current (ns.arena a) lane := by
    rw [handleOf_arenas ns ha]
    exact if_pos hlane
  rw [bttWrite, hlookup]
  dsimp only
  rw [if_neg (h.flags ha), flogUpdate, hruntime, ← freeEntry_and_mask]
  rfl

theorem handleOf_setFlog (ha : a < ns.narena) (hlane : lane < nfree)
    (hinfo : SameInfo ns ns') {runtime : FlogRuntime}
    (hcurrent : ∀ lane', current (ns'.arena a) lane' =
      if lane' = lane then runtime else current (ns.arena a) lane')
    (hother : ∀ a', a' ≠ a → ns'.arena a' = ns.arena a') :
    (handleOf nfree nlba ns).setFlog a lane runtime = handleOf nfree nlba ns' := by
  have harenas : Function.update (handleOf nfree nlba ns).arenas a
      ⟨((handleOf nfree nlba ns).arenas a).flags, ((handleOf nfree nlba ns).arenas a).externalNlba,
        Function.update ((handleOf nfree nlba ns).arenas a).flogs lane runtime⟩ =
      (handleOf nfree nlba ns').arenas := by
    funext a'
    by_cases heq : a' = a
    · rw [heq, Function.update_self, handleOf_arenas ns ha,
        handleOf_arenas ns' (hinfo.narena ▸ ha), loaded, loaded, hinfo.info]
      dsimp only
      congr 1
      funext lane'
      rw [Function.update_apply, hcurrent]
      by_cases hl : lane' = lane
      · rw [if_pos hl, if_pos hl, hl, if_pos hlane]
      · rw [if_neg hl, if_neg hl]
    · rw [Function.update_of_ne heq]
      unfold handleOf fill
      dsimp only
      rw [hinfo.narena, hother a' heq]
  unfold Handle.setFlog
  dsimp only
  rw [harenas, handleOf, handleOf, hinfo.narena]

theorem exec_flog (ns : Ns lbasize) (a lane : Nat) (e : Bool) (lba oldMap newMap seq : UInt32) :
    (ns.exec (.flogHead a lane e lba oldMap)).exec (.flogTail a lane e newMap seq) =
      ns.modify a fun m => m.setFlog lane e ⟨lba, oldMap, newMap, seq⟩ := by
  simp [Ns.exec, Ns.modify, ArenaMedia.setFlog]

/-- The flog entry and the map entry of a write, after the block itself is written. A crash
before the second half of the flog entry loses the write, a crash after it leaves the arena
pending. -/
theorem Shows.publish (h : Shows nfree nlba ns A) (hlane : lane < nfree) (hlba : lba < nlba)
    (hlookup : (handleOf nfree nlba ns).lookup lba = some (a, i)) (ha : a < ns.narena)
    (hi : i < (ns.arena a).info.externalNlba) (hi' : i.toNat < nlba)
    (hws : ws =
      [.flogHead a lane (current (ns.arena a) lane).next i (mapEntry (ns.arena a) i),
        .flogTail a lane (current (ns.arena a) lane).next (freeEntry (ns.arena a) lane)
          (nseq (current (ns.arena a) lane).flog.seq), .map a i (freeEntry (ns.arena a) lane)]) :
    Steps nfree nlba A (Function.update A lba
        (.block ((ns.arena a).data (block (ns.arena a) (.inl lane))))) ns ws ∧
      (handleOf nfree nlba ns).setFlog a lane
          ⟨newFlog (ns.arena a) lane i, !(current (ns.arena a) lane).next⟩ =
        handleOf nfree nlba (ws.foldl Ns.exec ns) := by
  subst hws
  have hm := h.settled a ha
  have hhead : Shows nfree nlba (ns.exec (.flogHead a lane (current (ns.arena a) lane).next i
      (mapEntry (ns.arena a) i))) A := by
    refine h.change a (SameInfo.exec ns _) (fun a' hne => ?_) ?_ fun i' _ => ?_
    · rw [Ns.exec, modify_arena, if_neg hne]
    · rw [Ns.exec, modify_arena, if_pos rfl]
      exact hm.setHead hlane rfl hi'
    · rw [Ns.exec, modify_arena, if_pos rfl]
      rfl
  have htail := exec_flog ns a lane (current (ns.arena a) lane).next i
    (mapEntry (ns.arena a) i) (freeEntry (ns.arena a) lane)
    (nseq (current (ns.arena a) lane).flog.seq)
  generalize hns₃ : (ns.modify a fun m => m.setFlog lane (current (ns.arena a) lane).next
      ⟨i, mapEntry (ns.arena a) i, freeEntry (ns.arena a) lane,
        nseq (current (ns.arena a) lane).flog.seq⟩) = ns₃ at htail
  have harena₃ : ns₃.arena a = (ns.arena a).setFlog lane (current (ns.arena a) lane).next
      (newFlog (ns.arena a) lane i) := by
    rw [← hns₃, modify_arena, if_pos rfl]
    rfl
  have hother₃ : ∀ a', a' ≠ a → ns₃.arena a' = ns.arena a' := by
    intro a' hne
    rw [← hns₃, modify_arena, if_neg hne]
  have hinfo₃ : SameInfo ns ns₃ := by
    rw [← hns₃]
    exact SameInfo.modify ns a (f := fun m => m.setFlog lane _ _) fun _ => rfl
  obtain ⟨hpending, hflog⟩ := hm.pending hlane hi hi'
  rw [← harena₃] at hpending hflog
  have hinfo₄ := hinfo₃.trans (SameInfo.exec ns₃ (.map a i (freeEntry (ns.arena a) lane)))
  have hshows : Shows nfree nlba (ns₃.exec (.map a i (freeEntry (ns.arena a) lane)))
      (Function.update A lba (.block ((ns.arena a).data (block (ns.arena a) (.inl lane))))) := by
    refine h.update hinfo₄ (fun a' ha' => ?_) hlba hlookup ?_ fun a' _ i' _ hne => ?_
    · rw [exec_map_arena]
      split
      · rw [harena₃]
        exact hm.exchange hlane hi hi'
      · rename_i heq
        rw [hother₃ a' heq]
        exact h.settled a' ha'
    · rw [exec_map_arena, if_pos rfl, contentAt_setMap,
        readEntry_normal _ (freeEntry_and_not_mask _ lane), freeEntry_and_mask, harena₃]
      rfl
    · rw [exec_map_arena]
      split
      · rename_i heq
        subst heq
        rw [contentAt_setMap_of_ne _ (fun heq => hne (by rw [heq])), harena₃]
        rfl
      · rename_i heq
        rw [hother₃ a' heq]
  have hdown : Down nfree nlba ns₃ (Function.update A lba
      (.block ((ns.arena a).data (block (ns.arena a) (.inl lane))))) := by
    refine .inr ⟨a, lane, hinfo₃.narena ▸ ha, hpending, fun k hk hne => ?_, ?_⟩
    · rw [hother₃ k hne]
      exact h.settled k (hinfo₃.narena ▸ hk)
    · rw [recovery, hflog]
      exact hshows
  refine ⟨⟨.inl (.inl h), fun _ => .inl (.inl h), .inl (.inl hhead), fun _ => .inl (.inl hhead),
    ?_⟩, ?_⟩
  · rw [htail]
    exact ⟨.inr hdown, fun _ => .inr hdown, hshows⟩
  · rw [foldl_cons, foldl_cons, foldl_cons, foldl_nil, htail, handleOf_exec_map]
    refine handleOf_setFlog ha hlane hinfo₃ (fun lane' => ?_) hother₃
    rw [harena₃]
    exact (current_setTail (hm.seq lane hlane) rfl).2 lane'

theorem Shows.bttWrite (h : Shows nfree nlba ns A) (hlane : lane < nfree) (lba : Nat)
    (buf : Block lbasize) {result : List (NsWrite lbasize) × Handle}
    (hresult : result = (bttWrite (handleOf nfree nlba ns) ns lane lba buf).getD
      ([], handleOf nfree nlba ns)) :
    Steps nfree nlba A (Function.update A lba (.block buf)) ns result.1 ∧
      result.2 = handleOf nfree nlba (result.1.foldl Ns.exec ns) := by
  subst hresult
  by_cases hlba : nlba ≤ lba
  · rw [Btt.bttWrite, lookup_of_nlba_le ns hlba]
    exact ⟨h.of_nlba_le hlba _, rfl⟩
  · have hlt : lba < nlba := by omega
    obtain ⟨a, i, hlookup, ha, hi, hinlba, -⟩ := h.intact.lookup hlt
    rw [bttWrite_eq h hlane ha hlookup, Option.getD_some]
    have hm := h.settled a ha
    have hinfo : ∀ buf', SameInfo ns (ns.exec (.data a (block (ns.arena a) (.inl lane)) buf')) := by
      intro buf'
      exact SameInfo.exec ns _
    have harena : ∀ buf', (ns.exec (.data a (block (ns.arena a) (.inl lane)) buf')).arena a =
        (ns.arena a).setData (block (ns.arena a) (.inl lane)) buf' := by
      intro buf'
      rw [Ns.exec, modify_arena, if_pos rfl]
    have hdata : ∀ buf', Shows nfree nlba
        (ns.exec (.data a (block (ns.arena a) (.inl lane)) buf')) A := by
      intro buf'
      refine h.change a (hinfo buf') (fun a' hne => ?_) ?_ fun i' hi' => ?_
      · rw [Ns.exec, modify_arena, if_neg hne]
      · rw [harena]
        exact hm.setData _ buf'
      · rw [harena]
        exact hm.contentAt_setData hlane buf' hi'
    have hpublish := (hdata buf).publish hlane hlt ((hinfo buf).lookup lba ▸ hlookup)
      ((hinfo buf).narena ▸ ha) ((hinfo buf).info a ▸ hi) hinlba rfl
    have hhandle : handleOf nfree nlba (ns.exec (.data a (block (ns.arena a) (.inl lane)) buf)) =
        handleOf nfree nlba ns := by
      refine (hinfo buf).handleOf fun k => ?_
      rw [Ns.exec, modify_arena]
      split
      · rename_i hk
        rw [hk]
        rfl
      · rfl
    have hbuf : ((ns.arena a).setData (block (ns.arena a) (.inl lane)) buf).data
        (block ((ns.arena a).setData (block (ns.arena a) (.inl lane)) buf) (.inl lane)) = buf :=
      Function.update_self _ _ _
    rw [harena, hhandle, hbuf] at hpublish
    exact ⟨⟨.inl (.inl h), fun junk => .inl (.inl (hdata junk)), hpublish.1⟩, hpublish.2⟩

theorem Shows.perform (h : Shows nfree nlba ns A) {op : Op lbasize} (hlane : op.lane < nfree) :
    Steps nfree nlba A (op.apply A) ns (op.perform (handleOf nfree nlba ns) ns).1 ∧
      (op.perform (handleOf nfree nlba ns) ns).2 = handleOf nfree nlba
        ((op.perform (handleOf nfree nlba ns) ns).1.foldl Ns.exec ns) := by
  cases op with
  | write lane lba buf => exact h.bttWrite hlane lba buf rfl
  | setZero lane lba =>
    exact h.mapEntrySetf lba (by decide) (by decide) (by decide)
      (fun m entry hentry => readEntry_zero m hentry) rfl
  | setError lane lba =>
    exact h.mapEntrySetf lba (by decide) (by decide) (by decide)
      (fun m entry hentry => readEntry_error m hentry) rfl

end Calls

/-! ## Runs -/

def Event.Outcome : Event lbasize → (Nat → Content lbasize) → (Nat → Content lbasize) → Prop
  | .op o, A, A' => A' = o.apply A
  | .cut o _ _, A, A' => A' = A ∨ A' = o.apply A
  | .crash, A, A' => A' = A
  | .reopen, A, A' => A' = A
  | .cutReopen _ _, A, A' => A' = A

def Event.LaneBelow (nfree : Nat) : Event lbasize → Prop
  | .op o => o.lane < nfree
  | .cut o _ _ => o.lane < nfree
  | _ => True

/-- The contents of an open namespace are what is read, those of another one what will be read
after `read_layout`, which succeeds. -/
def State.Reads (s : State lbasize) (A : Nat → Content lbasize) : Prop :=
  match s.handle with
  | some b => ∀ lba < b.nlba, bttRead b s.ns lba = A lba
  | none => ∃ b ws, readLayout s.ns = some (b, ws) ∧
      ∀ lba < b.nlba, bttRead b (ws.foldl Ns.exec s.ns) lba = A lba

def State.Inv (nfree nlba : Nat) (s : State lbasize) (A : Nat → Content lbasize) : Prop :=
  match s.handle with
  | some b => Shows nfree nlba s.ns A ∧ b = handleOf nfree nlba s.ns
  | none => Down nfree nlba s.ns A

theorem State.Inv.reads {s : State lbasize} {A : Nat → Content lbasize}
    (h : s.Inv nfree nlba A) : s.Reads A := by
  obtain ⟨ns, handle⟩ := s
  cases handle with
  | some b =>
    obtain ⟨hshows, hb⟩ := h
    have hb : b = handleOf nfree nlba ns := hb
    subst hb
    exact hshows.read
  | none =>
    obtain ⟨ws, hlayout, hsteps⟩ := Down.readLayout h
    exact ⟨_, ws, hlayout, hsteps.foldl.read⟩

theorem step_outcome {e : Event lbasize} {s t : State lbasize} {A : Nat → Content lbasize}
    (hlane : e.LaneBelow nfree) (h : s.Inv nfree nlba A) (hstep : step e s = some t) :
    ∃ A', e.Outcome A A' ∧ t.Inv nfree nlba A' := by
  obtain ⟨ns, handle⟩ := s
  cases handle with
  | some b =>
    obtain ⟨hshows, hb⟩ := h
    have hb : b = handleOf nfree nlba ns := hb
    subst hb
    cases e with
    | op op =>
      cases hstep
      obtain ⟨hsteps, hhandle⟩ := hshows.perform hlane
      exact ⟨_, rfl, hsteps.foldl, hhandle⟩
    | cut op k junk =>
      cases hstep
      obtain ⟨hsteps, -⟩ := hshows.perform hlane
      rcases hsteps.crashed k junk with hdown | hdown
      · exact ⟨A, .inl rfl, hdown⟩
      · exact ⟨_, .inr rfl, hdown⟩
    | crash =>
      cases hstep
      exact ⟨A, rfl, .inl hshows⟩
    | reopen => cases hstep
    | cutReopen k junk => cases hstep
  | none =>
    obtain ⟨ws, hlayout, hsteps⟩ := Down.readLayout h
    cases e with
    | op op => cases hstep
    | cut op k junk => cases hstep
    | crash => cases hstep
    | reopen =>
      rw [step, hlayout] at hstep
      cases hstep
      exact ⟨A, rfl, hsteps.foldl, rfl⟩
    | cutReopen k junk =>
      rw [step, hlayout] at hstep
      cases hstep
      exact ⟨A, rfl, (hsteps.crashed k junk).elim id id⟩

structure LaidOut (nfree nlba : Nat) (ns : Ns lbasize) : Prop where
  intact : Intact nfree nlba ns
  arenas : (∀ a < ns.narena, Settled nfree nlba (ns.arena a)) ∨
    ∃ q lane, q < ns.narena ∧ Pending nfree nlba (ns.arena q) lane ∧
      ∀ a < ns.narena, a ≠ q → Settled nfree nlba (ns.arena a)

theorem LaidOut.down {ns : Ns lbasize} (h : LaidOut nfree nlba ns) :
    ∃ A, Down nfree nlba ns A := by
  rcases h.arenas with hsettled | ⟨q, lane, hq, hpending, hother⟩
  · exact ⟨_, .inl ⟨h.intact, hsettled, fun lba _ => rfl⟩⟩
  · have hinfo := SameInfo.exec ns (recovery (ns.arena q) q lane)
    refine ⟨_, .inr ⟨q, lane, hq, hpending, hother, hinfo.intact h.intact, fun a ha => ?_,
      fun lba _ => rfl⟩⟩
    rw [recovery, exec_map_arena]
    split
    · exact hpending.settled
    · rename_i hne
      exact hother a ha hne

theorem Down.congr {ns : Ns lbasize} {A : Nat → Content lbasize}
    (h : Down nfree nlba ns A) (heq : ∀ lba < nlba, A lba = A' lba) :
    Down nfree nlba ns A' := by
  have hshows : ∀ {ns'}, Shows nfree nlba ns' A → Shows nfree nlba ns' A' := by
    intro ns' h'
    exact ⟨h'.intact, h'.settled, fun lba hlba => (h'.read lba hlba).trans (heq lba hlba)⟩
  rcases h with h | ⟨a, lane, ha, hpending, hother, h⟩
  · exact .inl (hshows h)
  · exact .inr ⟨a, lane, ha, hpending, hother, hshows h⟩

def freshNs : Ns 1 :=
  ⟨1, fun _ => writeLayoutArena ⟨0, 1, 3, 5, 2⟩ fun _ => zeroBlock⟩

end Pmdk.Btt
