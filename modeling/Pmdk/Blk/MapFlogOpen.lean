import Pmdk.Blk.MapFlogCheck

/-!
# Opening a namespace after the repair

`read_layout` completes the flog entries that have not reached the map. The check has reserved the
new block of such an entry, and relies on the map having the old block at the LBA of the entry.
Whether it has it is not looked at: `flog_entry_check` only asks whether the old block is somewhere
in the map.
-/

namespace Pmdk.Btt

open Function List

namespace MapFlog

open BitmapCheck (postMapLbas freeLbas Permutes Maps bttCheck)

variable {lbasize : Nat} {m m' : ArenaMedia lbasize} {n lane : Nat} {x : UInt32}

/-! ## What opening does to an arena -/

def Finishes (m : ArenaMedia lbasize) (lane : Nat) : Prop :=
  (current m lane).flog.oldMap ≠ (current m lane).flog.newMap ∧
    (current m lane).flog.newMap ≠ mapEntry m (current m lane).flog.lba ∧
      (current m lane).flog.oldMap = mapEntry m (current m lane).flog.lba

instance (m : ArenaMedia lbasize) (lane : Nat) : Decidable (Finishes m lane) :=
  inferInstanceAs (Decidable (_ ∧ _ ∧ _))

def finishLane (m : ArenaMedia lbasize) (lane : Nat) : ArenaMedia lbasize :=
  if Finishes m lane then m.setMap (current m lane).flog.lba (current m lane).flog.newMap else m

def openedTo (m : ArenaMedia lbasize) (n : Nat) : ArenaMedia lbasize :=
  (List.range n).foldl finishLane m

def oldBlock (m : ArenaMedia lbasize) (lane : Nat) : UInt32 :=
  (current m lane).flog.oldMap &&& mapEntryLbaMask

/-- The block that is used instead of the old one of a lane: what the map has for the new entry, if
it is completed, and otherwise the old block itself. -/
def given (m : ArenaMedia lbasize) (lane : Nat) : UInt32 :=
  if Finishes (openedTo m lane) lane then
    postMapLba (current m lane).flog.newMap (current m lane).flog.lba
  else oldBlock m lane

theorem openedTo_succ (m : ArenaMedia lbasize) (n : Nat) :
    openedTo m (n + 1) = finishLane (openedTo m n) n := by
  rw [openedTo, range_succ, foldl_append]
  rfl

theorem finishLane_flog (m : ArenaMedia lbasize) (lane : Nat) :
    (finishLane m lane).flog = m.flog ∧ (finishLane m lane).info = m.info := by
  unfold finishLane
  split <;> exact ⟨rfl, rfl⟩

theorem openedTo_flog (m : ArenaMedia lbasize) (n : Nat) :
    (openedTo m n).flog = m.flog ∧ (openedTo m n).info = m.info := by
  induction n with
  | zero => exact ⟨rfl, rfl⟩
  | succ n ih =>
    rw [openedTo_succ, (finishLane_flog _ n).1, (finishLane_flog _ n).2]
    exact ih

theorem current_openedTo (m : ArenaMedia lbasize) (n lane : Nat) :
    current (openedTo m n) lane = current m lane := by
  rw [current, (openedTo_flog m n).1]
  rfl

def mapBlocks (m : ArenaMedia lbasize) : List UInt32 :=
  (lbas m.info.externalNlba).map (mapGetPostmapLba m)

theorem oldBlock_of_finishes (h : Finishes m lane)
    (hlba : (current m lane).flog.lba.toNat < 2 ^ 30) :
    mapGetPostmapLba m (current m lane).flog.lba = oldBlock m lane := by
  rw [mapGetPostmapLba, ← block_eq_postMapLba hlba, oldBlock, h.2.2]
  rfl

def Bounded (m : ArenaMedia lbasize) (n : Nat) : Prop :=
  ∀ lane < n, (current m lane).flog.oldMap ≠ (current m lane).flog.newMap →
    (current m lane).flog.lba < m.info.externalNlba

theorem mapBlocks_openedTo (hsize : m.info.externalNlba.toNat ≤ 2 ^ 30) (h : Bounded m n) :
    (mapBlocks (openedTo m n) ++ (List.range n).map (oldBlock m)).Perm
      (mapBlocks m ++ (List.range n).map (given m)) := by
  induction n with
  | zero => exact List.Perm.refl _
  | succ n ih =>
    have ih := ih fun lane hlane => h lane (Nat.lt_succ_of_lt hlane)
    rw [range_succ, map_append, map_append, ← append_assoc (mapBlocks m)]
    have hstep : (mapBlocks (openedTo m (n + 1)) ++ [oldBlock m n]).Perm
        (mapBlocks (openedTo m n) ++ [given m n]) := by
      rw [openedTo_succ, finishLane]
      by_cases hfin : Finishes (openedTo m n) n
      · have hcur := current_openedTo m n n
        have hlba := h n (Nat.lt_succ_self n) (hcur ▸ hfin.1)
        have hlt := Nat.lt_of_lt_of_le (UInt32.lt_iff_toNat_lt.mp hlba) hsize
        have hold := oldBlock_of_finishes hfin (hcur.symm ▸ hlt)
        have hinfo := (openedTo_flog m n).2
        rw [given, if_pos hfin, if_pos hfin, hcur]
        have hexchange := FirstCome.perm_exchange (f := mapGetPostmapLba (openedTo m n))
          (g := mapGetPostmapLba ((openedTo m n).setMap (current m n).flog.lba
            (current m n).flog.newMap)) (nodup_lbas m.info.externalNlba) (mem_lbas.mpr hlba)
          fun b _ hne => congrArg (postMapLba · b) (update_of_ne hne _ _)
        have hnew : mapGetPostmapLba ((openedTo m n).setMap (current m n).flog.lba
            (current m n).flog.newMap) (current m n).flog.lba =
              postMapLba (current m n).flog.newMap (current m n).flog.lba :=
          congrArg (postMapLba · _) (update_self _ _ _)
        have hback : oldBlock (openedTo m n) n = oldBlock m n := by rw [oldBlock, hcur, oldBlock]
        rw [hcur, hback] at hold
        rw [hold, hnew] at hexchange
        rw [mapBlocks, mapBlocks, hinfo]
        exact hinfo ▸ hexchange
      · rw [given, if_neg hfin, if_neg hfin]
    have hcomm : ∀ (x : UInt32) (a l : List UInt32), (a ++ (l ++ [x])).Perm (a ++ [x] ++ l) := by
      intro x a l
      rw [append_assoc]
      exact List.Perm.append_left a perm_append_comm
    refine (hcomm _ _ _).trans ((hstep.append_right _).trans ?_)
    refine (hcomm _ _ _).symm.trans ?_
    rw [← append_assoc]
    exact ih.append_right _

/-! ## The lanes of a repaired arena -/

theorem flogOwn_current (h : flogOwn m lane = some x) :
    (current m lane).flog.lba < m.info.externalNlba ∧
      (verdict m lane = .fine x ∧ oldBlock m lane = x ∨
        verdict m lane = .unfinished (oldBlock m lane) x ∧
          (current m lane).flog.newMap &&& mapEntryLbaMask = x ∧
            oldBlock m lane ∈ (flogsChecked m lane).bitmap) := by
  have hverdict : verdict m lane = flogVerdict m (flogsChecked m lane) lane := rfl
  unfold flogVerdict at hverdict
  unfold oldBlock current
  rw [flogOwn] at h
  cases hvalid : flogGetValid (m.flog lane) with
  | none =>
    rw [hvalid] at hverdict
    rw [hverdict] at h
    cases h
  | some r =>
    rw [hvalid] at hverdict
    dsimp only at hverdict ⊢
    split_ifs at hverdict with hbounds hfree hmap hnew hinitial <;> rw [hverdict] at h
    · cases h
    · cases h
    · cases h
    · simp only [not_or, ge_iff_le, UInt32.not_le] at hbounds
      obtain rfl := Option.some_inj.mp h
      exact ⟨hbounds.1, .inr ⟨hverdict, rfl, hmap⟩⟩
    · cases h
    · simp only [not_or, ge_iff_le, UInt32.not_le] at hbounds
      obtain rfl := Option.some_inj.mp h
      exact ⟨hbounds.1, .inl ⟨hverdict, rfl⟩⟩

theorem mem_flogRefused (hlane : lane < m.info.nfree) :
    lane ∈ flogRefused m m.info.nfree ↔ flogOwn m lane = none := by
  rw [flogRefused, mem_filter, mem_range, Option.isNone_iff_eq_none]
  exact and_iff_right hlane

theorem current_stored {b : UInt32} (h : m.flog lane = storedPair lane b) :
    current m lane = ⟨⟨UInt32.ofNat lane, b ||| mapEntryError, b ||| mapEntryError, 1⟩, true⟩ := by
  rw [current, h]
  rfl

theorem Repaired.current_eq (h : Repaired m m') (hlane : lane < m.info.nfree)
    (hown : flogOwn m lane ≠ none) : current m' lane = current m lane := by
  rw [current, h.flog lane fun hmem => hown ((mem_flogRefused hlane).mp hmem)]
  rfl

theorem Repaired.refused (h : Repaired m m') (hlane : lane < m.info.nfree)
    (hown : flogOwn m lane = none) :
    (current m' lane).flog.oldMap = (current m' lane).flog.newMap ∧
      oldBlock m' lane = (m'.flog lane false).oldMap &&& mapEntryLbaMask := by
  obtain ⟨b, -, hpair⟩ := h.stored lane ((mem_flogRefused hlane).mpr hown)
  rw [oldBlock, current_stored hpair, hpair]
  exact ⟨rfl, rfl⟩

theorem Repaired.bounded (h : Repaired m m') : Bounded m' m.info.nfree := by
  intro lane hlane hne
  cases hown : flogOwn m lane with
  | none => exact absurd (h.refused hlane hown).1 hne
  | some x =>
    rw [h.current_eq hlane (hown ▸ nofun), h.info]
    exact (flogOwn_current hown).1

theorem Repaired.given_refused (h : Repaired m m') (hlane : lane < m.info.nfree)
    (hown : flogOwn m lane = none) : given m' lane = oldBlock m' lane := by
  rw [given, if_neg]
  intro hfin
  have hne := hfin.1
  rw [current_openedTo] at hne
  exact hne (h.refused hlane hown).1

def kept (m m' : ArenaMedia lbasize) (lane : Nat) : UInt32 := (flogOwn m lane).getD
    (oldBlock m' lane)

/-- The map of a repaired arena and the counted blocks of its lanes are all blocks. -/
theorem Repaired.perm (h : Repaired m m') :
    (lbas m.info.internalNlba).Perm
      (mapBlocks m' ++ (List.range m.info.nfree).map (kept m m')) := by
  have hmap : (mapBlocks m').Perm (mapBits m ++ (mapRefused m).map (mapGetPostmapLba m')) := by
    rw [mapBlocks, h.info, lbas, map_map, mapRefused, map_map]
    exact FirstCome.perm_handOut h.map
  have hflog : ((List.range m.info.nfree).map (kept m m')).Perm (flogBits m m.info.nfree ++
      (flogRefused m m.info.nfree).map
        fun lane => (m'.flog lane false).oldMap &&& mapEntryLbaMask) := by
    refine (@FirstCome.perm_handOut _ (flogOwn m) (kept m m') _ fun i _ x hx => ?_).trans ?_
    · rw [kept, hx]
      rfl
    refine List.Perm.append_left _ (List.Perm.of_eq (map_congr_left fun lane hlane => ?_))
    obtain ⟨hlt, hnone⟩ := mem_filter.mp hlane
    have hnone := Option.isNone_iff_eq_none.mp hnone
    rw [kept, hnone]
    exact (h.refused (mem_range.mp hlt) hnone).2
  refine (lbas_perm m).trans (.trans ?_ (hmap.append hflog).symm)
  refine (h.unmapped.symm.append_left _).trans ?_
  refine (perm_append_comm.append_right _).trans ?_
  rw [append_assoc, append_assoc]
  exact List.Perm.append_left _ (perm_append_comm_assoc _ _ _)

def accepted (m : ArenaMedia lbasize) : List Nat :=
  (List.range m.info.nfree).filter fun lane => (flogOwn m lane).isSome

theorem Repaired.externalNlba_le (h : Repaired m m') (hvalid : ValidInfo m.info) :
    m'.info.externalNlba.toNat ≤ 2 ^ 30 := by
  have := hvalid.internal
  have := hvalid.size
  rw [h.info]
  omega

/-- What the accepted lanes give must be what was counted for them. -/
theorem Repaired.opened_iff (h : Repaired m m') (hvalid : ValidInfo m.info) :
    (mapBlocks (openedTo m' m.info.nfree) ++ (List.range m.info.nfree).map (oldBlock m')).Perm
        (lbas m.info.internalNlba) ↔
      ((accepted m).map (given m')).Perm ((accepted m).map (kept m m')) := by
  have hopened := mapBlocks_openedTo (h.externalNlba_le hvalid) h.bounded
  have hsplit : ∀ f : Nat → UInt32, ((List.range m.info.nfree).map f).Perm
      ((accepted m).map f ++ (flogRefused m m.info.nfree).map f) := by
    intro f
    rw [← map_append]
    refine List.Perm.map f (.symm ?_)
    have hnone : flogRefused m m.info.nfree =
        (List.range m.info.nfree).filter fun lane => !(flogOwn m lane).isSome :=
      filter_congr fun lane _ => by cases flogOwn m lane <;> rfl
    rw [hnone]
    exact filter_append_perm _ _
  have hrefused : (flogRefused m m.info.nfree).map (given m') =
      (flogRefused m m.info.nfree).map (kept m m') := by
    refine map_congr_left fun lane hlane => ?_
    obtain ⟨hlt, hnone⟩ := mem_filter.mp hlane
    have hnone := Option.isNone_iff_eq_none.mp hnone
    rw [h.given_refused (mem_range.mp hlt) hnone, kept, hnone]
    rfl
  have hgiven := (hsplit (given m')).append_left (mapBlocks m')
  have hkept := h.perm.trans ((hsplit (kept m m')).append_left (mapBlocks m'))
  rw [hrefused] at hgiven
  constructor
  · intro hperm
    have hall := (hgiven.symm.trans (hopened.symm.trans (hperm.trans hkept)))
    exact (perm_append_right_iff _).mp ((perm_append_left_iff _).mp hall)
  · intro hperm
    exact hopened.trans (hgiven.trans (((hperm.append_right _).append_left _).trans hkept.symm))

/-! ## Which lanes keep what was counted -/

/-- New entries without flags read as the LBA itself; these are entries with flags, or for a block
with the number of the LBA. -/
def Flagged (m : ArenaMedia lbasize) : Prop :=
  ∀ lane ∈ accepted m, postMapLba (current m lane).flog.newMap (current m lane).flog.lba =
    (current m lane).flog.newMap &&& mapEntryLbaMask

def Completed (m m' : ArenaMedia lbasize) : Prop :=
  ∀ lane < m.info.nfree, ∀ entry newEntry, verdict m lane = .unfinished entry newEntry →
    Finishes (openedTo m' lane) lane

theorem mem_accepted : lane ∈ accepted m ↔ lane < m.info.nfree ∧ ∃ x, flogOwn m lane = some x := by
  rw [accepted, mem_filter, mem_range, Option.isSome_iff_exists]

theorem Repaired.nodup (h : Repaired m m') :
    (mapBlocks m' ++ (List.range m.info.nfree).map (kept m m')).Nodup :=
  h.perm.nodup_iff.mp (nodup_lbas _)

theorem Repaired.kept_notMem (h : Repaired m m') (hlane : lane < m.info.nfree) :
    kept m m' lane ∉ mapBlocks m' ∧ kept m m' lane ∉ (List.range lane).map (kept m m') := by
  have hnodup := List.nodup_append'.mp h.nodup
  have hmem : kept m m' lane ∈ (List.range m.info.nfree).map (kept m m') :=
    mem_map_of_mem (mem_range.mpr hlane)
  refine ⟨fun hmap => hnodup.2.2 hmap hmem, fun hearlier => ?_⟩
  obtain ⟨lane', hlane', heq⟩ := mem_map.mp hearlier
  have hlt := mem_range.mp hlane'
  have hsame := inj_on_of_nodup_map hnodup.2.1 (mem_range.mpr (hlt.trans hlane))
    (mem_range.mpr hlane) heq
  exact Nat.ne_of_lt hlt hsame

/-- As long as the unfinished writes are completed, each lane gives what was counted for it. -/
theorem Repaired.given_eq_kept (h : Repaired m m') (hvalid : ValidInfo m.info) (hflag : Flagged m)
    (hn : n ≤ m.info.nfree) (hdone : ∀ lane < n, ∀ entry newEntry,
      verdict m lane = .unfinished entry newEntry → Finishes (openedTo m' lane) lane) :
    ∀ lane < n, given m' lane = kept m m' lane := by
  intro lane
  induction lane using Nat.strong_induction_on with
  | _ lane ih =>
    intro hlane
    have hlt := Nat.lt_of_lt_of_le hlane hn
    cases hown : flogOwn m lane with
    | none =>
      rw [h.given_refused hlt hown, kept, hown]
      rfl
    | some x =>
      have hcur := h.current_eq hlt (hown ▸ nofun)
      rw [kept, hown, Option.getD_some, given]
      obtain ⟨hlba, ⟨hfine, hold⟩ | ⟨hunf, hnew, -⟩⟩ := flogOwn_current hown
      · have hold' : oldBlock m' lane = x := by rw [oldBlock, hcur, ← oldBlock, hold]
        rw [if_neg, hold']
        -- the block of a free lane is in no map entry
        intro hfin
        have hcur' := current_openedTo m' lane lane
        have hlba' : (current m lane).flog.lba < m'.info.externalNlba := h.info ▸ hlba
        have hlt30 := Nat.lt_of_lt_of_le (UInt32.lt_iff_toNat_lt.mp hlba')
            (h.externalNlba_le hvalid)
        have hblock := oldBlock_of_finishes hfin (by rw [hcur', hcur]; exact hlt30)
        rw [hcur', oldBlock, hcur', ← oldBlock, hold'] at hblock
        have hmem : x ∈ mapBlocks (openedTo m' lane) := by
          rw [← hblock, mapBlocks, (openedTo_flog m' lane).2]
          exact mem_map_of_mem (mem_lbas.mpr (hcur ▸ hlba'))
        have hperm := mapBlocks_openedTo (h.externalNlba_le hvalid)
          fun l hl => h.bounded l (Nat.lt_trans hl hlt)
        have hx := hperm.mem_iff.mp (mem_append_left _ hmem)
        rw [map_congr_left fun l hl => ih l (mem_range.mp hl)
          (Nat.lt_trans (mem_range.mp hl) hlane)] at hx
        have hkept : kept m m' lane = x := by rw [kept, hown]; rfl
        obtain ⟨hmap, hearlier⟩ := h.kept_notMem hlt
        rw [hkept] at hmap hearlier
        exact (mem_append.mp hx).elim hmap hearlier
      · have hmem : lane ∈ accepted m := mem_accepted.mpr ⟨hlt, x, hown⟩
        rw [if_pos (hdone lane hlane _ _ hunf), hcur, hflag lane hmem, hnew]

/-- With flags in the new entries, what the lanes give is right only if each write is completed. -/
theorem Repaired.completed_iff (h : Repaired m m') (hvalid : ValidInfo m.info) (hflag : Flagged m) :
    ((accepted m).map (given m')).Perm ((accepted m).map (kept m m')) ↔ Completed m m' := by
  constructor
  · intro hperm lane
    induction lane using Nat.strong_induction_on with
    | _ lane ih =>
      intro hlane entry newEntry hunf
      by_contra hfin
      have hown : flogOwn m lane = some newEntry := by rw [flogOwn, hunf]
      obtain ⟨-, ⟨hfine, -⟩ | ⟨-, -, hold⟩⟩ := flogOwn_current hown
      · rw [hunf] at hfine
        cases hfine
      have hcur := h.current_eq hlane (hown ▸ Option.some_ne_none _)
      have hgiven : given m' lane = oldBlock m lane := by
        rw [given, if_neg hfin, oldBlock, hcur, ← oldBlock]
      have hearlier := h.given_eq_kept hvalid hflag hlane.le fun lane' hlane' entry newEntry =>
        ih lane' hlane' (Nat.lt_trans hlane' hlane) entry newEntry
      -- the old block is in the map or given by an earlier lane, and given by this one too
      have hnodup : (mapBlocks m' ++ (List.range m.info.nfree).map (given m')).Nodup :=
        ((mapBlocks_openedTo (h.externalNlba_le hvalid) h.bounded).symm.trans
          ((h.opened_iff hvalid).mpr hperm)).nodup_iff.mpr (nodup_lbas _)
      have hdisjoint := List.nodup_append'.mp hnodup
      have hmem : oldBlock m lane ∈ (List.range m.info.nfree).map (given m') :=
        hgiven ▸ mem_map_of_mem (mem_range.mpr hlane)
      have hbits := (flogsChecked_perm m lane).1.mem_iff.mp hold
      rcases mem_append.mp hbits with hbit | hbit
      · obtain ⟨lane', hlane', hown'⟩ := mem_filterMap.mp hbit
        have hlt := mem_range.mp hlane'
        have heq : given m' lane' = given m' lane := by
          rw [hearlier lane' hlt, hgiven, kept, hown']
          rfl
        have hsame := inj_on_of_nodup_map hdisjoint.2.1
          (mem_range.mpr (hlt.trans hlane)) (mem_range.mpr hlane) heq
        exact Nat.ne_of_lt hlt hsame
      · refine hdisjoint.2.2 ?_ hmem
        obtain ⟨i, hi, hown'⟩ := mem_filterMap.mp hbit
        rw [mapBlocks, h.info, lbas, map_map]
        exact mem_map.mpr ⟨i, hi, h.map i (mem_range.mp hi) _ hown'⟩
  · intro hdone
    have hall := h.given_eq_kept hvalid hflag (Nat.le_refl _) hdone
    exact List.Perm.of_eq (map_congr_left fun lane hlane =>
      hall lane (mem_accepted.mp hlane).1)

/-! ## Loading a namespace -/

section Load

variable {nfree nlba a i : Nat} {ns : Ns lbasize}

def LbasValid (nlba : Nat) (m : ArenaMedia lbasize) (lanes : List Nat) : Prop :=
  ∀ lane ∈ lanes, ∀ e, (m.flog lane e).lba.toNat < nlba

theorem readFlogPair_spec (nlba : Nat) (m : ArenaMedia lbasize) (a : Nat) (flags : UInt32)
    (lane : Nat) :
    ((∀ e, (m.flog lane e).lba.toNat < nlba) → ∃ flags',
      readFlogPair nlba m a flags lane = some ⟨flags', current m lane,
        if Finishes m lane then [recovery m a lane] else []⟩) ∧
    ((readFlogPair nlba m a flags lane).isSome = true →
      ∀ e, (m.flog lane e).lba.toNat < nlba) := by
  unfold readFlogPair
  constructor
  · intro hlba
    rw [if_neg (Nat.not_le.mpr (hlba false)), if_neg (Nat.not_le.mpr (hlba true))]
    cases hvalid : flogGetValid (m.flog lane) with
    | none =>
      have hcur : current m lane = .zeroed := by rw [current, hvalid]
      refine ⟨flags ||| infoFlagError, ?_⟩
      rw [if_neg fun hfin => hfin.1 (by rw [hcur]; rfl), hcur]
    | some r =>
      have hcur : current m lane = ⟨r.1, r.2⟩ := by rw [current, hvalid]
      refine ⟨flags, congrArg some ?_⟩
      by_cases hfin : Finishes m lane
      · have hfin' := hfin
        rw [Finishes, hcur] at hfin'
        rw [if_pos hfin, if_neg hfin'.1, if_pos hfin'.2, recovery, hcur]
      · have hfin' := hfin
        rw [Finishes, hcur] at hfin'
        rw [if_neg hfin, hcur]
        split_ifs with hsame hboth
        · rfl
        · exact absurd ⟨hsame, hboth⟩ hfin'
        · rfl
  · intro hsome e
    split_ifs at hsome with hfalse htrue
    · cases hsome
    · cases hsome
    · cases e with
      | false => exact Nat.not_le.mp hfalse
      | true => exact Nat.not_le.mp htrue

theorem exec_pair (ns : Ns lbasize) (a lane : Nat) :
    (if Finishes (ns.arena a) lane then [recovery (ns.arena a) a lane] else []).foldl Ns.exec ns =
      ns.modify a fun m => finishLane m lane := by
  unfold finishLane Ns.modify
  split
  next hfin =>
    dsimp only
    rw [if_pos hfin]
    rfl
  next hfin =>
    dsimp only
    rw [if_neg hfin, update_eq_self]
    rfl

theorem modify_modify (ns : Ns lbasize) (a : Nat) (f g : ArenaMedia lbasize → ArenaMedia lbasize) :
    (ns.modify a f).modify a g = ns.modify a fun m => g (f m) := by
  unfold Ns.modify
  dsimp only
  rw [update_self, update_idem]

theorem modify_id (ns : Ns lbasize) (a : Nat) : ns.modify a (fun m => m) = ns := by
  unfold Ns.modify
  rw [update_eq_self]

theorem modify_arena (ns : Ns lbasize) (a : Nat) (f : ArenaMedia lbasize → ArenaMedia lbasize)
    (k : Nat) : (ns.modify a f).arena k = if k = a then f (ns.arena a) else ns.arena k :=
  update_apply _ _ _ _

theorem current_finishLane (m : ArenaMedia lbasize) (lane : Nat) :
    current (finishLane m lane) = current m := by
  funext lane'
  rw [current, (finishLane_flog m lane).1]
  rfl

theorem readFlogs_spec (nlba a : Nat) (ns : Ns lbasize) (arena : Arena) (i n : Nat) :
    (LbasValid nlba (ns.arena a) (List.range' i n) → ∃ flags writes,
      readFlogs nlba a ns arena i n = some (⟨flags, arena.externalNlba,
        fill (current (ns.arena a)) arena.flogs i n⟩, writes) ∧
      writes.foldl Ns.exec ns = ns.modify a fun m => (List.range' i n).foldl finishLane m) ∧
    ((readFlogs nlba a ns arena i n).isSome = true →
      LbasValid nlba (ns.arena a) (List.range' i n)) := by
  induction n generalizing ns arena i with
  | zero =>
    refine ⟨fun _ => ⟨arena.flags, [], ?_, (modify_id ns a).symm⟩, fun _ lane hlane =>
      absurd hlane not_mem_nil⟩
    rw [readFlogs, fill_zero]
  | succ n ih =>
    obtain ⟨hpair, hpair'⟩ := readFlogPair_spec nlba (ns.arena a) a arena.flags i
    rw [readFlogs, List.range'_succ]
    have hflog : ((ns.modify a fun m => finishLane m i).arena a).flog = (ns.arena a).flog := by
      rw [modify_arena, if_pos rfl, (finishLane_flog _ i).1]
    constructor
    · intro hlba
      obtain ⟨hhead, htail⟩ := forall_mem_cons.mp hlba
      obtain ⟨flags', hread⟩ := hpair hhead
      rw [hread, Option.bind_eq_bind, Option.bind_some]
      dsimp only
      rw [exec_pair]
      obtain ⟨flags, writes, hrest, hexec⟩ := (ih (ns.modify a fun m => finishLane m i)
        ⟨flags', arena.externalNlba, update arena.flogs i (current (ns.arena a) i)⟩
        (i + 1)).1 fun lane hlane e => hflog ▸ htail lane hlane e
      rw [hrest, Option.bind_eq_bind, Option.bind_some, modify_arena, if_pos rfl,
        current_finishLane]
      dsimp only
      rw [fill_update]
      refine ⟨flags, _, rfl, ?_⟩
      rw [foldl_append, exec_pair, hexec, modify_modify]
      rfl
    · intro hsome
      cases hread : readFlogPair nlba (ns.arena a) a arena.flags i with
      | none =>
        rw [hread] at hsome
        cases hsome
      | some pair =>
        have hhead := hpair' (by rw [hread]; rfl)
        obtain ⟨flags', hread'⟩ := hpair hhead
        obtain rfl := Option.some_inj.mp (hread.symm.trans hread')
        rw [hread, Option.bind_eq_bind, Option.bind_some] at hsome
        dsimp only at hsome
        rw [exec_pair] at hsome
        refine forall_mem_cons.mpr ⟨hhead, fun lane hlane e => ?_⟩
        rw [← hflog]
        exact (ih _ ⟨flags', arena.externalNlba,
          update arena.flogs i (current (ns.arena a) i)⟩ (i + 1)).2
            (Option.isSome_of_isSome_bind hsome) lane hlane e

structure Read (nfree a n : Nat) (ns ns' : Ns lbasize) (arenas arenas' : Nat → Arena) : Prop where
  narena : ns'.narena = ns.narena
  arena : ∀ k, ns'.arena k = if a ≤ k ∧ k < a + n then openedTo (ns.arena k) nfree else ns.arena k
  flogs : ∀ k, a ≤ k → k < a + n → ∀ lane < nfree,
    (arenas' k).flogs lane = current (ns.arena k) lane
  before : ∀ k < a, arenas' k = arenas k

theorem readArenas_spec (nfree nlba : Nat) (ns : Ns lbasize) (arenas : Nat → Arena) (a n : Nat) :
    ((∀ k, a ≤ k → k < a + n → LbasValid nlba (ns.arena k) (List.range nfree)) →
      ∃ arenas' writes, readArenas nfree nlba ns arenas a n = some (arenas', writes) ∧
        Read nfree a n ns (writes.foldl Ns.exec ns) arenas arenas') ∧
    ((readArenas nfree nlba ns arenas a n).isSome = true →
      ∀ k, a ≤ k → k < a + n → LbasValid nlba (ns.arena k) (List.range nfree)) := by
  induction n generalizing ns arenas a with
  | zero =>
    refine ⟨fun _ => ⟨arenas, [], rfl, rfl, fun k => ?_, fun k _ _ => ?_, fun _ _ => rfl⟩,
      fun _ k _ _ => ?_⟩
    · rw [if_neg (by omega)]
      rfl
    · omega
    · omega
  | succ n ih =>
    obtain ⟨hflogs, hflogs'⟩ := readFlogs_spec nlba a ns
      ⟨(ns.arena a).info.flags, (ns.arena a).info.externalNlba, fun _ => .zeroed⟩ 0 nfree
    rw [readArenas, readArena]
    rw [← List.range_eq_range'] at hflogs hflogs'
    constructor
    · intro hlba
      obtain ⟨flags, writes, hread, hexec⟩ := hflogs (hlba a (Nat.le_refl a) (by omega))
      have harena : ∀ k, k ≠ a → (writes.foldl Ns.exec ns).arena k = ns.arena k := fun k hk => by
        rw [hexec, modify_arena, if_neg hk]
      obtain ⟨arenas', writes', hrest, hnarena, harenas, hcur, hbefore⟩ :=
        (ih (writes.foldl Ns.exec ns) (update arenas a ⟨flags,
          (ns.arena a).info.externalNlba, fill (current (ns.arena a)) (fun _ => .zeroed) 0 nfree⟩)
            (a + 1)).1 fun k hle hlt => by
              rw [harena k (by omega)]
              exact hlba k (by omega) (by omega)
      rw [hread, Option.bind_eq_bind, Option.bind_some]
      dsimp only
      rw [hrest]
      refine ⟨arenas', writes ++ writes', rfl, ?_, fun k => ?_, fun k hle hlt lane hlane => ?_,
        fun k hk => ?_⟩
      · rw [foldl_append, hnarena, hexec]
        rfl
      · rw [foldl_append, harenas]
        by_cases hka : k = a
        · subst hka
          rw [if_neg (by omega), if_pos (by omega), hexec, modify_arena, if_pos rfl, openedTo]
        · rw [harena k hka]
          exact if_congr (by omega) rfl rfl
      · by_cases hka : k = a
        · subst hka
          rw [hbefore k (Nat.lt_succ_self k), update_self]
          exact if_pos ⟨Nat.zero_le _, by omega⟩
        · rw [hcur k (by omega) (by omega) lane hlane, harena k hka]
      · rw [hbefore k (by omega), update_of_ne (by omega)]
    · intro hsome
      have hhead := hflogs' (Option.isSome_of_isSome_bind hsome)
      obtain ⟨flags, writes, hread, hexec⟩ := hflogs hhead
      have harena : ∀ k, k ≠ a → (writes.foldl Ns.exec ns).arena k = ns.arena k := fun k hk => by
        rw [hexec, modify_arena, if_neg hk]
      rw [hread, Option.bind_eq_bind, Option.bind_some] at hsome
      have hrest := (ih _ _ (a + 1)).2 (Option.isSome_of_isSome_bind hsome)
      intro k hle hlt
      by_cases hka : k = a
      · exact hka ▸ hhead
      · have := hrest k (by omega) (by omega)
        rwa [harena k hka] at this

end Load

/-! ## Main theorem -/

variable {nlba : Nat} {ns : Ns lbasize}

structure ValidNs (ns : Ns lbasize) : Prop where
  lbasize : ∀ a < ns.narena, (ns.arena a).info.externalLbasize = lbasize
  nfree : ∀ a < ns.narena, 0 < (ns.arena a).info.nfree
  info : ∀ a < ns.narena, ValidInfo (ns.arena a).info

/-- The number of lanes with which a namespace is opened: the smallest of its arenas, and at most
`BTT_DEFAULT_NFREE`. -/
def nfreeOf (ns : Ns lbasize) : Nat :=
  let smallest := ns.infos.foldl (fun smallest info => min info.nfree smallest) (2 ^ 32 - 1)
  if smallest < defaultNfree then smallest else defaultNfree

def repairNs (ns : Ns lbasize) : Ns lbasize :=
  { ns with arena := fun a => (repairArena (ns.arena a)).getD (ns.arena a) }

def totalNlba (ns : Ns lbasize) : Nat := (ns.infos.map fun info => info.externalNlba.toNat).sum

/-- The namespace can be opened; then the map and the free blocks have each block once, and
`btt_check` finds it consistent. -/
def Opens (ns : Ns lbasize) : Prop :=
  ∃ b writes, readLayout ns = some (b, writes) ∧
    (∀ a < ns.narena, Permutes b (writes.foldl Ns.exec ns) a) ∧
    ∀ nsmap mapoff memory, Maps nsmap →
      (bttCheck nsmap mapoff memory b (writes.foldl Ns.exec ns)).1 = 1

structure Recoverable (nlba : Nat) (m m' : ArenaMedia lbasize) : Prop where
  /-- Both entries of each pair have an LBA of the namespace. -/
  lba : LbasValid nlba m (accepted m)
  /-- The blocks that they give are those that were counted for them. -/
  blocks : ((accepted m).map (given m')).Perm ((accepted m).map (kept m m'))

theorem readInfos_valid {infos : List Info} (h : ∀ info ∈ infos, info.externalLbasize = lbasize ∧
      0 < info.nfree ∧ info.externalNlba ≠ 0) (smallest total : Nat) :
    readInfos lbasize infos smallest total =
      some (infos.foldl (fun smallest info => min info.nfree smallest) smallest,
        total + (infos.map fun info => info.externalNlba.toNat).sum) := by
  induction infos generalizing smallest total with
  | nil => rfl
  | cons info infos ih =>
    obtain ⟨⟨hlbasize, hpos, hext⟩, h⟩ := forall_mem_cons.mp h
    rw [readInfos, if_neg (not_not_intro hlbasize), if_neg (by omega), if_neg hext, ih h,
      map_cons, sum_cons, Nat.add_assoc, foldl_cons]

theorem lbasValid_repaired (h : Repaired m m') (hvalid : ValidInfo m.info)
    (hnlba : m.info.externalNlba.toNat ≤ nlba) :
    LbasValid nlba m' (List.range m.info.nfree) ↔ LbasValid nlba m (accepted m) := by
  have hkept : ∀ lane ∈ accepted m, m'.flog lane = m.flog lane := by
    intro lane hlane
    obtain ⟨hlt, x, hown⟩ := mem_accepted.mp hlane
    exact h.flog lane fun hmem => absurd ((mem_flogRefused hlt).mp hmem) (hown ▸ nofun)
  constructor
  · intro hlba lane hlane e
    rw [← hkept lane hlane]
    exact hlba lane (mem_range.mpr (mem_accepted.mp hlane).1) e
  · intro hlba lane hlane e
    have hlt := mem_range.mp hlane
    cases hown : flogOwn m lane with
    | some x =>
      have hmem := mem_accepted.mpr ⟨hlt, x, hown⟩
      rw [hkept lane hmem]
      exact hlba lane hmem e
    | none =>
      obtain ⟨b, -, hpair⟩ := h.stored lane ((mem_flogRefused hlt).mpr hown)
      have hle := hvalid.external
      rw [hpair]
      cases e with
      | false =>
        have hsize : lane < UInt32.size :=
          Nat.lt_trans (Nat.lt_of_lt_of_le hlt hle) m.info.externalNlba.toNat_lt
        exact (UInt32.toNat_ofNat_of_lt' hsize).trans_lt (by omega)
      | true => exact Nat.lt_of_le_of_lt (Nat.zero_le lane) (by omega)

theorem repairNs_repaired (h : ValidNs ns) {a : Nat} (ha : a < ns.narena) :
    Repaired (ns.arena a) ((repairNs ns).arena a) ∧ (repairArena (ns.arena a)).isSome = true := by
  obtain ⟨m', hm', hrep⟩ := repairArena_spec (h.info a ha)
  have harena : (repairNs ns).arena a = m' := by
    rw [repairNs]
    dsimp only
    rw [hm']
    rfl
  rw [harena, hm']
  exact ⟨hrep, rfl⟩

theorem readLayout_repairNs (h : ValidNs ns) :
    readLayout (repairNs ns) = (readArenas (nfreeOf ns) (totalNlba ns) (repairNs ns)
      (fun _ => ⟨0, 0, fun _ => .zeroed⟩) 0 ns.narena).map
        fun r => (⟨nfreeOf ns, totalNlba ns, ns.narena, r.1⟩, r.2) := by
  have hinfos : (repairNs ns).infos = ns.infos :=
    map_congr_left fun a ha => (repairNs_repaired h (mem_range.mp ha)).1.info
  have hvalid : ∀ info ∈ ns.infos, info.externalLbasize = lbasize ∧ 0 < info.nfree ∧
      info.externalNlba ≠ 0 := by
    intro info hinfo
    obtain ⟨a, ha, rfl⟩ := mem_map.mp hinfo
    have ha := mem_range.mp ha
    refine ⟨h.lbasize a ha, h.nfree a ha, fun hzero => ?_⟩
    have hle := (h.info a ha).external
    rw [hzero] at hle
    exact absurd ((h.nfree a ha).trans_le hle) (Nat.lt_irrefl 0)
  have hnarena : (repairNs ns).narena = ns.narena := rfl
  rw [readLayout, hinfos, readInfos_valid hvalid, Option.bind_eq_bind, Option.bind_some]
  dsimp only
  rw [Nat.zero_add, ← totalNlba, hnarena, nfreeOf]
  cases readArenas _ _ (repairNs ns) _ 0 ns.narena <;> rfl

variable {ns' : Ns lbasize}

theorem nfree_eq_of_permutes {b : Handle} {a : Nat}
    (hvalid : ValidInfo (ns'.arena a).info) (h : Permutes b ns' a) :
    b.nfree = (ns'.arena a).info.nfree := by
  have hlength := h.length_eq
  rw [length_map, length_append, postMapLbas, freeLbas, length_map, length_map,
    length_range, length_range, length_range, hvalid.internal] at hlength
  omega

theorem permutes_iff_opened {b : Handle} {a : Nat} (hinfo : m'.info = m.info)
    (hnfree : b.nfree = m.info.nfree) (harena : ns'.arena a = openedTo m' m.info.nfree)
    (hflogs : ∀ lane < m.info.nfree, (b.arenas a).flogs lane = current m' lane) :
    Permutes b ns' a ↔ (mapBlocks (openedTo m' m.info.nfree) ++
      (List.range m.info.nfree).map (oldBlock m')).Perm (lbas m.info.internalNlba) := by
  have hmap : postMapLbas ns' a = mapBlocks (openedTo m' m.info.nfree) := by
    rw [postMapLbas, harena, mapBlocks, lbas, map_map]
    rfl
  have hfree : freeLbas b a = (List.range m.info.nfree).map (oldBlock m') := by
    rw [freeLbas, hnfree]
    exact map_congr_left fun lane hlane => by
      rw [hflogs lane (mem_range.mp hlane), oldBlock]
  have hrange : List.range m.info.internalNlba.toNat =
      (lbas m.info.internalNlba).map UInt32.toNat := by
    rw [lbas, map_map]
    refine (map_id _).symm.trans (map_congr_left fun i hi => ?_)
    exact (UInt32.toNat_ofNat_of_lt' (Nat.lt_trans (mem_range.mp hi)
      m.info.internalNlba.toNat_lt)).symm
  rw [Permutes, hmap, hfree, harena, (openedTo_flog m' m.info.nfree).2, hinfo, hrange,
    map_perm_map_iff fun _ _ h => UInt32.toNat_inj.mp h]

theorem externalNlba_le_totalNlba {a : Nat} (ha : a < ns.narena) :
    (ns.arena a).info.externalNlba.toNat ≤ totalNlba ns := by
  refine single_le_sum (fun _ _ => Nat.zero_le _) _ ?_
  rw [Ns.infos, map_map]
  exact mem_map.mpr ⟨a, mem_range.mpr ha, rfl⟩

theorem bttCheck_of_permutes {b : Handle}
    (hsize : ∀ a < b.narena, (ns'.arena a).info.internalNlba.toNat ≤ 2 ^ 30)
    (hperm : ∀ a < b.narena, Permutes b ns' a) {nsmap : Nat → Nat → Option Nat} (mapoff : Nat → Nat)
    (memory : Nat → UInt32 → Bool) (hmaps : Maps nsmap) :
    (bttCheck nsmap mapoff memory b ns').1 = 1 := by
  rw [bttCheck, BitmapCheck.checkLoop_eq_one_iff fun a =>
    BitmapCheck.checkArena_le_one hmaps (mapoff a) (memory a) b ns' a]
  refine ⟨rfl, fun a _ ha => ?_⟩
  rw [Nat.zero_add] at ha
  have hbounds := (BitmapCheck.permutes_iff.mp (hperm a ha)).1
  have hle := hsize a ha
  exact (BitmapCheck.checkArena_eq_one_iff hmaps (by omega) fun _ x hx =>
    hbounds x (mem_append_right _ hx)).mpr (hperm a ha)

/-- What opening the repaired namespace leaves of an arena is a permutation if the accepted lanes
give what was counted for them. -/
theorem permutes_repairNs (h : ValidNs ns) {a : Nat} (ha : a < ns.narena)
    (hnfree : (ns.arena a).info.nfree = nfreeOf ns) {arenas : Nat → Arena}
    {writes : List (NsWrite lbasize)} (hstate : Read (nfreeOf ns) 0 ns.narena (repairNs ns)
      (writes.foldl Ns.exec (repairNs ns)) (fun _ => ⟨0, 0, fun _ => .zeroed⟩) arenas) :
    Permutes ⟨nfreeOf ns, totalNlba ns, ns.narena, arenas⟩ (writes.foldl Ns.exec (repairNs ns)) a ↔
      ((accepted (ns.arena a)).map (given ((repairNs ns).arena a))).Perm
        ((accepted (ns.arena a)).map (kept (ns.arena a) ((repairNs ns).arena a))) := by
  have hrep := (repairNs_repaired h ha).1
  have harena := hstate.arena a
  rw [if_pos ⟨Nat.zero_le a, by omega⟩, ← hnfree] at harena
  rw [← hrep.opened_iff (h.info a ha)]
  exact permutes_iff_opened hrep.info hnfree.symm harena fun lane hlane =>
    hstate.flogs a (Nat.zero_le a) (by omega) lane (hnfree ▸ hlane)

theorem info_read (h : ValidNs ns) {a : Nat} (ha : a < ns.narena) {arenas : Nat → Arena}
    (hstate : Read (nfreeOf ns) 0 ns.narena (repairNs ns) ns'
      (fun _ => ⟨0, 0, fun _ => .zeroed⟩) arenas) : (ns'.arena a).info = (ns.arena a).info := by
  rw [hstate.arena a, if_pos ⟨Nat.zero_le a, by omega⟩, (openedTo_flog _ _).2,
    (repairNs_repaired h ha).1.info]

/-- The repaired namespace opens if all lanes are used and all accepted flog entries can be used. -/
theorem repairNs_opens_iff (h : ValidNs ns) :
    (∀ a < ns.narena, arenaMapFlogCheck true true (ns.arena a) ≠ .cannotRepair ∧
      (repairArena (ns.arena a)).isSome = true) ∧
    (Opens (repairNs ns) ↔ ∀ a < ns.narena, (ns.arena a).info.nfree = nfreeOf ns ∧
      Recoverable (totalNlba ns) (ns.arena a) ((repairNs ns).arena a)) ∧
    ∀ a < ns.narena, Flagged (ns.arena a) →
      (Recoverable (totalNlba ns) (ns.arena a) ((repairNs ns).arena a) ↔
        LbasValid (totalNlba ns) (ns.arena a) (accepted (ns.arena a)) ∧
          Completed (ns.arena a) ((repairNs ns).arena a)) := by
  have hrep := fun a (ha : a < ns.narena) => (repairNs_repaired h ha).1
  refine ⟨fun a ha => ⟨arenaMapFlogCheck_ne_cannotRepair (h.info a ha), (repairNs_repaired h ha).2⟩,
    ?_, fun a ha hflag => ?_⟩
  · obtain ⟨hread, hread'⟩ := readArenas_spec (nfreeOf ns) (totalNlba ns)
      (repairNs ns) (fun _ => ⟨0, 0, fun _ => .zeroed⟩) 0 ns.narena
    have hlbas : ∀ a < ns.narena, (ns.arena a).info.nfree = nfreeOf ns →
        (LbasValid (totalNlba ns) ((repairNs ns).arena a) (List.range (nfreeOf ns)) ↔
          LbasValid (totalNlba ns) (ns.arena a) (accepted (ns.arena a))) :=
      fun a ha hnfree => hnfree ▸ lbasValid_repaired (hrep a ha) (h.info a ha)
        (externalNlba_le_totalNlba ha)
    have hlayout := readLayout_repairNs h
    constructor
    · rintro ⟨b, writes, hopen, hperm, -⟩ a ha
      rw [hlayout] at hopen
      obtain ⟨⟨arenas', writes'⟩, harenas, hb⟩ := Option.map_eq_some_iff.mp hopen
      obtain ⟨rfl, rfl⟩ := Prod.mk.inj hb
      have hvalid := hread' (by rw [harenas]; rfl)
      obtain ⟨arenas'', writes'', harenas', hstate⟩ := hread hvalid
      obtain ⟨rfl, rfl⟩ := Prod.mk.inj (Option.some_inj.mp (harenas.symm.trans harenas'))
      have hinfo := info_read h ha hstate
      have hnfree := nfree_eq_of_permutes (hinfo ▸ h.info a ha) (hperm a ha)
      rw [hinfo] at hnfree
      exact ⟨hnfree.symm, (hlbas a ha hnfree.symm).mp (hvalid a (Nat.zero_le a) (by omega)),
        (permutes_repairNs h ha hnfree.symm hstate).mp (hperm a ha)⟩
    · intro hrecover
      obtain ⟨arenas', writes, harenas, hstate⟩ := hread fun a _ ha =>
        (hlbas a (by omega) (hrecover a (by omega)).1).mpr (hrecover a (by omega)).2.lba
      have hperm : ∀ a < ns.narena, Permutes ⟨nfreeOf ns, totalNlba ns, ns.narena, arenas'⟩
          (writes.foldl Ns.exec (repairNs ns)) a := fun a ha =>
        (permutes_repairNs h ha (hrecover a ha).1 hstate).mpr (hrecover a ha).2.blocks
      refine ⟨_, writes, by rw [hlayout, harenas]; rfl, hperm, fun nsmap mapoff memory hmaps =>
        bttCheck_of_permutes (fun a ha => ?_) hperm mapoff memory hmaps⟩
      rw [info_read h ha hstate]
      exact (h.info a ha).size
  · exact ⟨fun hr => ⟨hr.lba, ((hrep a ha).completed_iff (h.info a ha) hflag).mp hr.blocks⟩,
      fun hc => ⟨hc.1, ((hrep a ha).completed_iff (h.info a ha) hflag).mpr hc.2⟩⟩

def smallNs (flog : Flog) : Ns 1 where
  narena := 1
  arena := fun _ => ⟨⟨0, 1, 2, 3, 1⟩, fun _ e => if e then ⟨0, 0, 0, 0⟩ else flog, fun _ => 0,
    fun _ _ => 0⟩

theorem validNs_smallNs (flog : Flog) : ValidNs (smallNs flog) :=
  ⟨fun _ _ => rfl, fun _ _ => Nat.one_pos,
    fun _ _ => ⟨by change 3 = 2 + 1; rfl, by change 1 ≤ 2; decide, by change 3 ≤ 2 ^ 30; decide⟩⟩

def strayNs : Ns 1 := smallNs ⟨7, 0, 0, 1⟩

theorem repairNs_opens_strayNs :
    (∀ a < 1, arenaMapFlogCheck true true (strayNs.arena a) ≠ .cannotRepair ∧
      (repairArena (strayNs.arena a)).isSome = true) ∧
    (Opens (repairNs strayNs) ↔ ∀ a < 1, (strayNs.arena a).info.nfree = nfreeOf strayNs ∧
      Recoverable (totalNlba strayNs) (strayNs.arena a) ((repairNs strayNs).arena a)) ∧
    ∀ a < 1, Flagged (strayNs.arena a) →
      (Recoverable (totalNlba strayNs) (strayNs.arena a) ((repairNs strayNs).arena a) ↔
        LbasValid (totalNlba strayNs) (strayNs.arena a) (accepted (strayNs.arena a)) ∧
          Completed (strayNs.arena a) ((repairNs strayNs).arena a)) :=
  repairNs_opens_iff (validNs_smallNs ⟨7, 0, 0, 1⟩)

def crossedNs : Ns 1 := smallNs ⟨0, 0xC0000001, 0xC0000002, 1⟩

/-- The entry passes for an unfinished write, and opening leaves the block with both the LBA 1 and
the lane. -/
theorem crossedNs_not_opens :
    ValidNs crossedNs ∧ arenaMapFlogCheck true true (crossedNs.arena 0) = .ask [] ∧
      ¬Opens (repairNs crossedNs) := by
  refine ⟨validNs_smallNs _, by decide, ?_⟩
  rintro ⟨b, writes, hopen, hperm, -⟩
  have h : ((readLayout (repairNs crossedNs)).all fun r =>
      let ns := r.2.foldl Ns.exec (repairNs crossedNs)
      !decide (((postMapLbas ns 0 ++ freeLbas r.1 0).map UInt32.toNat).Perm
        (List.range (ns.arena 0).info.internalNlba.toNat))) = true := by
    decide +kernel
  rw [hopen, Option.all_some, Bool.not_eq_true', decide_eq_false_iff_not] at h
  exact h (hperm 0 (by decide))

end MapFlog

end Pmdk.Btt
