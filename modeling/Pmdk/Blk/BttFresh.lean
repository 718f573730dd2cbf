import Mathlib.Algebra.Order.BigOperators.Group.List
import Pmdk.Blk.BttLayout

/-!
# A fresh layout

After `write_layout` the flogs of every arena are fresh and the map of the first arena is in its
initial state. The maps of the other arenas are those that the namespace had before. If these
share out the blocks of the LBAs, as zeroed ones do, then all arenas are settled.
-/

namespace Pmdk.Btt

open List

variable {lbasize : Nat}

/-! ## Zeroed words -/

theorem zeroWord_zero (off count addr : Nat) : zeroWord off count addr 0 = 0 :=
  UInt32.zero_and

theorem zeroWord_of_le {off count addr : Nat} (h : off + count ≤ addr) (w : UInt32) :
    zeroWord off count addr w = w := by
  unfold zeroWord
  dsimp only
  rw [if_neg (by omega), if_neg (by omega), if_neg (by omega), if_neg (by omega)]
  have hmask : (0xff ||| 0xff00 ||| 0xff0000 ||| 0xff000000 : UInt32) = -1 := by decide
  rw [hmask, UInt32.and_neg_one]

theorem zeroWord_of_mem {off count addr : Nat} (h : off ≤ addr) (h' : addr + 4 ≤ off + count)
    (w : UInt32) : zeroWord off count addr w = 0 := by
  unfold zeroWord
  dsimp only
  rw [if_pos (by omega), if_pos (by omega), if_pos (by omega), if_pos (by omega)]
  exact UInt32.and_zero

variable {m : ArenaMedia lbasize}

theorem nszero_flog_of_le {g : Geometry} {count off : Nat}
    (h : off + count ≤ g.start + g.flogoff) : (m.nszero g count off).flog = m.flog := by
  funext lane e
  unfold ArenaMedia.nszero
  dsimp only
  rw [zeroWord_of_le (by omega), zeroWord_of_le (by omega), zeroWord_of_le (by omega),
    zeroWord_of_le (by omega)]

theorem nszero_map_of_le {g : Geometry} {count off : Nat}
    (h : off + count ≤ g.start + g.mapoff) : (m.nszero g count off).map = m.map := by
  funext i
  exact zeroWord_of_le (by omega) _

/-! ## Sizes -/

/-- What `btt_info_set_params` makes sure of. -/
structure Sized (arenaSize : Nat) (info : Info) : Prop where
  nfree : info.nfree = defaultNfree
  flags : info.flags = 0
  external : defaultNfree ≤ info.externalNlba.toNat
  internal : info.externalNlba.toNat + defaultNfree = info.internalNlba.toNat
  bound : info.internalNlba.toNat ≤ 2 ^ 30
  mapSize : mapoff arenaSize defaultNfree info.externalNlba + bttMapSize info.externalNlba =
    flogoff arenaSize defaultNfree
  mapEnd : 4 * info.externalNlba.toNat ≤ bttMapSize info.externalNlba

theorem le_roundup (x : Nat) : x ≤ roundup x alignment ∧ roundup x alignment ≤ x + 4095 := by
  unfold roundup alignment
  omega

theorem bttInfoSetParams_eq {ilb nfree arenaSize : Nat} {info : Info}
    (h : bttInfoSetParams lbasize ilb nfree arenaSize = some info) :
    info.externalLbasize = lbasize ∧ info.externalNlba =
      UInt32.ofNat (internalNlba ilb nfree arenaSize) - UInt32.ofNat nfree := by
  rw [bttInfoSetParams] at h
  split at h
  · cases h
  · cases h
    exact ⟨rfl, rfl⟩

/-! ## The loop of `write_layout` -/

section Loop

variable {rawsize ilb : Nat} {zeroed : Bool} {ns₀ ns ns' : Ns lbasize}

/-- After `a` turns of the loop. -/
structure Laid (rawsize ilb : Nat) (zeroed : Bool) (ns₀ : Ns lbasize) (a : Nat)
    (ns : Ns lbasize) : Prop where
  narena : ns.narena = ns₀.narena
  info : ∀ k < a, bttInfoSetParams lbasize ilb defaultNfree (arenaSize rawsize k) =
    some (ns.arena k).info
  flog : ∀ k < a, ∀ lane < defaultNfree, (ns.arena k).flog lane =
    freshFlog (ns.arena k).info lane
  map : ∀ k, zeroed = true ∨ k ≠ 0 → (ns.arena k).map = (ns₀.arena k).map
  first : zeroed = false → 0 < a → ∀ i < (ns.arena 0).info.externalNlba, (ns.arena 0).map i = 0

theorem arenaSize_le (rawsize a : Nat) : arenaSize rawsize a ≤ maxArena := Nat.min_le_right ..

theorem flogoff_le (rawsize nfree a : Nat) :
    flogoff (arenaSize rawsize a) nfree ≤ flogoff (arenaSize rawsize 0) nfree ∧
      flogoff (arenaSize rawsize a) nfree ≤ maxArena := by
  have hle : arenaSize rawsize a ≤ arenaSize rawsize 0 := by
    unfold arenaSize
    omega
  have hmax := arenaSize_le rawsize a
  unfold flogoff infooff
  omega

theorem nszero_frame (hsized : ∀ {a info}, bttInfoSetParams lbasize ilb defaultNfree
      (arenaSize rawsize a) = some info → Sized (arenaSize rawsize a) info) {a : Nat} {info : Info}
    (hinfo : bttInfoSetParams lbasize ilb defaultNfree (arenaSize rawsize a) = some info)
    {k : Nat} :
    ((ns.nszero (geometry rawsize ilb defaultNfree) (bttMapSize info.externalNlba)
        (mapoff (arenaSize rawsize a) defaultNfree info.externalNlba)).arena k).flog =
      (ns.arena k).flog ∧
    (k ≠ 0 → ((ns.nszero (geometry rawsize ilb defaultNfree) (bttMapSize info.externalNlba)
        (mapoff (arenaSize rawsize a) defaultNfree info.externalNlba)).arena k).map =
      (ns.arena k).map) := by
  have hend := (hsized hinfo).mapSize
  have hle := flogoff_le rawsize defaultNfree a
  have hstart : k ≠ 0 → maxArena ≤ k * maxArena := fun hk =>
    Nat.le_mul_of_pos_left maxArena (Nat.pos_of_ne_zero hk)
  refine ⟨nszero_flog_of_le ?_, fun hk => nszero_map_of_le ?_⟩
  · rw [hend]
    by_cases hk : k = 0
    · rw [hk]
      exact Nat.le_trans hle.1 (Nat.le_add_left ..)
    · exact Nat.le_trans hle.2 (Nat.le_trans (hstart hk) (Nat.le_add_right ..))
  · rw [hend]
    exact Nat.le_trans hle.2 (Nat.le_trans (hstart hk) (Nat.le_add_right ..))

theorem Laid.step (hsized : ∀ {a info}, bttInfoSetParams lbasize ilb defaultNfree
      (arenaSize rawsize a) = some info → Sized (arenaSize rawsize a) info) {a : Nat}
    (h : Laid rawsize ilb zeroed ns₀ a ns) {info : Info}
    (hinfo : bttInfoSetParams lbasize ilb defaultNfree (arenaSize rawsize a) = some info)
    (hns' : ns' = if zeroed then ns else
      ns.nszero (geometry rawsize ilb defaultNfree) (bttMapSize info.externalNlba)
        (mapoff (arenaSize rawsize a) defaultNfree info.externalNlba)) :
    Laid rawsize ilb zeroed ns₀ (a + 1) (ns'.setArena a ((ns'.arena a).layout info)) := by
  have hnarena : ns'.narena = ns.narena := by
    rw [hns']
    split
    · rfl
    · rfl
  have hframe : ∀ k, (ns'.arena k).flog = (ns.arena k).flog ∧
      (ns'.arena k).info = (ns.arena k).info ∧
      (zeroed = true ∨ k ≠ 0 → (ns'.arena k).map = (ns.arena k).map) := by
    intro k
    rw [hns']
    split
    · exact ⟨rfl, rfl, fun _ => rfl⟩
    · rename_i hz
      obtain ⟨hflog, hmap⟩ := @nszero_frame _ _ _ ns hsized _ _ hinfo k
      exact ⟨hflog, rfl, fun hk => hmap (hk.resolve_left hz)⟩
  have hnfree := (hsized hinfo).nfree
  constructor
  · exact hnarena.trans h.narena
  · intro k hk
    rw [setArena_arena]
    split
    · rename_i heq
      rw [heq]
      exact hinfo
    · rw [(hframe k).2.1]
      exact h.info k (by omega)
  · intro k hk lane hlane
    rw [setArena_arena]
    split
    · show (if lane < info.nfree then freshFlog info lane else _) = freshFlog info lane
      rw [hnfree, if_pos hlane]
    · rw [(hframe k).1, (hframe k).2.1]
      exact h.flog k (by omega) lane hlane
  · intro k hk
    rw [setArena_arena]
    split
    · rename_i heq
      subst heq
      exact ((hframe k).2.2 hk).trans (h.map k hk)
    · exact ((hframe k).2.2 hk).trans (h.map k hk)
  · intro hz _ i hi
    rw [setArena_arena] at hi ⊢
    rw [hz] at hns'
    split at hi
    · rename_i heq
      subst heq
      rw [if_pos rfl]
      show (ns'.arena 0).map i = 0
      rw [hns']
      have hlt : i.toNat < info.externalNlba.toNat := hi
      have hmap := (hsized hinfo).mapEnd
      have hmapoff : (geometry rawsize ilb defaultNfree 0).start +
          (geometry rawsize ilb defaultNfree 0).mapoff =
            mapoff (arenaSize rawsize 0) defaultNfree info.externalNlba := by
        rw [(bttInfoSetParams_eq hinfo).2, geometry]
        dsimp only
        rw [Nat.zero_mul, Nat.zero_add]
      refine zeroWord_of_mem ?_ ?_ _
      · rw [hmapoff]
        exact Nat.le_add_right ..
      · rw [hmapoff, Nat.add_assoc]
        exact Nat.add_le_add_left (by omega) _
    · rename_i hne
      rw [if_neg hne, hns']
      rw [(hframe 0).2.1] at hi
      have hzero := h.first hz (by omega) i hi
      show zeroWord _ _ _ ((ns.arena 0).map i) = 0
      rw [hzero]
      exact zeroWord_zero ..

theorem Laid.writeArenas (hsized : ∀ {a info}, bttInfoSetParams lbasize ilb defaultNfree
      (arenaSize rawsize a) = some info → Sized (arenaSize rawsize a) info) {a n : Nat}
    (h : Laid rawsize ilb zeroed ns₀ a ns)
    (hns' : writeArenas rawsize ilb defaultNfree zeroed a n ns = some ns') :
    Laid rawsize ilb zeroed ns₀ (a + n) ns' := by
  induction n generalizing a ns with
  | zero =>
    rw [Btt.writeArenas, Option.some.injEq] at hns'
    rw [← hns', Nat.add_zero]
    exact h
  | succ n ih =>
    rw [Btt.writeArenas, Option.bind_eq_bind, Option.bind_eq_some_iff] at hns'
    obtain ⟨info, hinfo, hrest⟩ := hns'
    have hlaid := ih (h.step hsized hinfo rfl) hrest
    rw [Nat.add_assoc, Nat.add_comm 1 n] at hlaid
    exact hlaid

theorem block_eq_postMapLba {i : UInt32} (hi : i.toNat < 2 ^ 30) :
    block m (.inr i) = postMapLba (m.map i) i := by
  by_cases hinitial : mapEntryIsInitial (m.map i) = true
  · rw [block_of_initial hinitial hi, postMapLba, if_pos hinitial]
  · rw [block, mapEntry, postMapLba, if_neg hinitial, if_neg hinitial]

/-- The map of arena `a` has the LBAs one-to-one on the blocks that are not free, before
`write_layout`. A zeroed map has. -/
def MapReady (rawsize : Nat) (ns : Ns lbasize) (a : Nat) : Prop :=
  ∀ ilb info, internalLbasize lbasize = some ilb →
    bttInfoSetParams lbasize ilb defaultNfree (arenaSize rawsize a) = some info →
      Set.InjOn (fun i => postMapLba ((ns.arena a).map i) i) {i | i < info.externalNlba} ∧
        ∀ i < info.externalNlba, postMapLba ((ns.arena a).map i) i < info.externalNlba

theorem Laid.settled {n nlba : Nat} (hsized : ∀ {a info}, bttInfoSetParams lbasize ilb defaultNfree
      (arenaSize rawsize a) = some info → Sized (arenaSize rawsize a) info)
    (hilb : internalLbasize lbasize = some ilb) (h : Laid rawsize ilb zeroed ns₀ n ns)
    (hready : ∀ k < n, zeroed = true ∨ k ≠ 0 → MapReady rawsize ns₀ k)
    (hnlba : defaultNfree ≤ nlba) {k : Nat} (hk : k < n) :
    Settled defaultNfree nlba (ns.arena k) := by
  have hk' := hsized (h.info k hk)
  have hext := hk'.internal
  have hbound := hk'.bound
  have hlt : ∀ i < (ns.arena k).info.externalNlba, i.toNat < 2 ^ 30 := by
    intro i hi
    rw [UInt32.lt_iff_toNat_lt] at hi
    omega
  refine settled_of_fresh (h.flog k hk) hnlba hext.le hbound ?_ ?_
  · intro i hi j hj heq
    rw [block_eq_postMapLba (hlt i hi), block_eq_postMapLba (hlt j hj)] at heq
    by_cases hz : zeroed = true ∨ k ≠ 0
    · rw [h.map k hz] at heq
      exact (hready k hk hz ilb _ hilb (h.info k hk)).1 hi hj heq
    · rw [not_or, not_not, Bool.not_eq_true] at hz
      obtain ⟨hz, rfl⟩ := hz
      rw [h.first hz hk i hi, h.first hz hk j hj] at heq
      exact heq
  · intro i hi
    rw [block_eq_postMapLba (hlt i hi)]
    by_cases hz : zeroed = true ∨ k ≠ 0
    · rw [h.map k hz]
      exact (hready k hk hz ilb _ hilb (h.info k hk)).2 i hi
    · rw [not_or, not_not, Bool.not_eq_true] at hz
      obtain ⟨hz, rfl⟩ := hz
      rw [h.first hz hk i hi]
      exact hi

end Loop

end Pmdk.Btt
