import Pmdk.Lib.Owners
import Pmdk.Blk.BttBitmap
import Pmdk.Blk.BttFresh

/-!
# The check of the map and the flogs

`arena_map_flog_check` goes over the map and then over the flogs of an arena. Each entry that it
accepts sets one bit that was clear, the block that the entry will have once the namespace is open;
the other entries go to a list.
-/

namespace Pmdk.Btt

open Function List

namespace MapFlog

variable {lbasize : Nat}

/-! ## The check -/

/-- What `location` has for the check. A bitmap is the list of the bits that are set. -/
structure Location where
  bitmap : List UInt32
  dupBitmap : List UInt32
  fbitmap : List UInt32
  inval : List UInt32
  flogInval : List Nat
  unmap : List UInt32

def mapGetPostmapLba (m : ArenaMedia lbasize) (i : UInt32) : UInt32 := postMapLba (m.map i) i

def mapEntryCheck (m : ArenaMedia lbasize) (loc : Location) (i : UInt32) : Location :=
  let lba := mapGetPostmapLba m i
  if lba < m.info.internalNlba then
    if lba ∈ loc.bitmap then
      { loc with dupBitmap := lba :: loc.dupBitmap, inval := i :: loc.inval }
    else { loc with bitmap := lba :: loc.bitmap }
  else { loc with inval := i :: loc.inval }

inductive Verdict
  | invalid
  | usedTwice (newEntry : UInt32)
  | unfinished (entry newEntry : UInt32)
  | fine (entry : UInt32)

def flogVerdict (m : ArenaMedia lbasize) (loc : Location) (lane : Nat) : Verdict :=
  match flogGetValid (m.flog lane) with
  | none => .invalid
  | some (flogCur, next) =>
    let entry := flogCur.oldMap &&& mapEntryLbaMask
    let newEntry := flogCur.newMap &&& mapEntryLbaMask
    if flogCur.lba ≥ m.info.externalNlba ∨ entry ≥ m.info.internalNlba ∨
        newEntry ≥ m.info.internalNlba then .invalid
    else if entry ∈ loc.fbitmap then .invalid
    else if entry ∈ loc.bitmap then
      if newEntry ∈ loc.bitmap then .usedTwice newEntry else .unfinished entry newEntry
    else if entry = newEntry ∧ ¬(next = true ∧ flogCur.seq = 1 ∧ m.flog lane true = ⟨0, 0, 0, 0⟩)
      then .invalid
    else .fine entry

def flogEntryCheck (m : ArenaMedia lbasize) (loc : Location) (lane : Nat) : Location :=
  match flogVerdict m loc lane with
  | .invalid => { loc with flogInval := lane :: loc.flogInval }
  | .usedTwice newEntry =>
    { loc with dupBitmap := newEntry :: loc.dupBitmap, flogInval := lane :: loc.flogInval }
  | .unfinished entry newEntry =>
    { loc with bitmap := newEntry :: loc.bitmap, fbitmap := entry :: loc.fbitmap }
  | .fine entry => { loc with bitmap := entry :: loc.bitmap, fbitmap := entry :: loc.fbitmap }

def lbas (n : UInt32) : List UInt32 := (List.range n.toNat).map UInt32.ofNat

def mapChecked (m : ArenaMedia lbasize) : Location :=
  (lbas m.info.externalNlba).foldl (mapEntryCheck m) ⟨[], [], [], [], [], []⟩

def flogsChecked (m : ArenaMedia lbasize) (n : Nat) : Location :=
  (List.range n).foldl (flogEntryCheck m) (mapChecked m)

def checked (m : ArenaMedia lbasize) : Location :=
  let loc := flogsChecked m m.info.nfree
  { loc with unmap := ((lbas m.info.internalNlba).filter (· ∉ loc.bitmap)).reverse }

inductive Question
  | repairMap
  | repairFlog
  deriving DecidableEq

inductive CheckResult
  | notConsistent
  | cannotRepair
  | ask (questions : List Question)
  deriving DecidableEq

def arenaMapFlogCheck (repair advanced : Bool) (m : ArenaMedia lbasize) : CheckResult :=
  let loc := checked m
  if repair = false ∧ loc.unmap.length > 0 then .notConsistent
  else if loc.unmap.length ≠ loc.inval.length + loc.flogInval.length then .cannotRepair
  else if advanced = false ∧ loc.inval.length + loc.flogInval.length > 0 then .cannotRepair
  else .ask ((if loc.inval.length > 0 then [.repairMap] else []) ++
    if loc.flogInval.length > 0 then [.repairFlog] else [])

/-! ## The repair -/

def flagDuplicates (m : ArenaMedia lbasize) : List UInt32 → List UInt32 → ArenaMedia lbasize
  | [], _ => m
  | i :: is, dupBitmap =>
    let lba := mapGetPostmapLba m i
    if lba ≥ m.info.internalNlba then flagDuplicates m is dupBitmap
    else if lba ∉ dupBitmap then flagDuplicates m is dupBitmap
    else flagDuplicates (m.setMap i (mapEntryError ||| lba)) is (dupBitmap.filter (· ≠ lba))

def popAll {κ σ : Type} (store : σ → κ → UInt32 → σ) :
    List κ → List UInt32 → σ → Option (σ × List UInt32)
  | [], unmap, s => some (s, unmap)
  | _ :: _, [], _ => none
  | inval :: invals, block :: unmap, s => popAll store invals unmap (store s inval block)

def storeMap (m : ArenaMedia lbasize) (inval : UInt32) (unmap : UInt32) : ArenaMedia lbasize :=
  m.setMap inval (unmap ||| mapEntryError)

def storeFlog (m : ArenaMedia lbasize) (inval : Nat) (unmap : UInt32) : ArenaMedia lbasize :=
  let entry := unmap ||| mapEntryError
  { m with flog := update m.flog inval fun e =>
      if e then ⟨0, 0, 0, 0⟩ else ⟨UInt32.ofNat inval, entry, entry, 1⟩ }

def arenaMapFlogFix (s : ArenaMedia lbasize × Location) :
    Question → Option (ArenaMedia lbasize × Location)
  | .repairMap =>
    (popAll storeMap s.2.inval s.2.unmap
      (flagDuplicates s.1 (lbas s.1.info.externalNlba) s.2.dupBitmap)).map
        fun r => (r.1, { s.2 with inval := [], unmap := r.2 })
  | .repairFlog =>
    (popAll storeFlog s.2.flogInval s.2.unmap s.1).map
      fun r => (r.1, { s.2 with flogInval := [], unmap := r.2 })

def repairArena (m : ArenaMedia lbasize) : Option (ArenaMedia lbasize) :=
  match arenaMapFlogCheck true true m with
  | .ask questions => (questions.foldlM arenaMapFlogFix (m, checked m)).map Prod.fst
  | _ => none

/-! ## Which blocks are taken -/

variable {m : ArenaMedia lbasize} {n lane : Nat} {x : UInt32}

def mapCheckedTo (m : ArenaMedia lbasize) (n : Nat) : Location :=
  (List.range n).foldl (fun loc i => mapEntryCheck m loc (UInt32.ofNat i)) ⟨[], [], [], [], [], []⟩

def mapOwn (m : ArenaMedia lbasize) (i : Nat) : Option UInt32 :=
  let lba := mapGetPostmapLba m (UInt32.ofNat i)
  if lba < m.info.internalNlba ∧ lba ∉ (mapCheckedTo m i).bitmap then some lba else none

def verdict (m : ArenaMedia lbasize) (lane : Nat) : Verdict :=
  flogVerdict m (flogsChecked m lane) lane

def flogOwn (m : ArenaMedia lbasize) (lane : Nat) : Option UInt32 :=
  match verdict m lane with
  | .unfinished _ newEntry => some newEntry
  | .fine entry => some entry
  | _ => none

theorem mapChecked_eq (m : ArenaMedia lbasize) :
    mapChecked m = mapCheckedTo m m.info.externalNlba.toNat := by
  rw [mapChecked, lbas, foldl_map, mapCheckedTo]

theorem mapCheckedTo_succ (m : ArenaMedia lbasize) (n : Nat) :
    mapCheckedTo m (n + 1) = mapEntryCheck m (mapCheckedTo m n) (UInt32.ofNat n) := by
  rw [mapCheckedTo, range_succ, foldl_append]
  rfl

theorem flogsChecked_succ (m : ArenaMedia lbasize) (n : Nat) :
    flogsChecked m (n + 1) = flogEntryCheck m (flogsChecked m n) n := by
  rw [flogsChecked, range_succ, foldl_append]
  rfl

theorem mapCheckedTo_step (m : ArenaMedia lbasize) (i : Nat) :
    (∀ x, mapOwn m i = some x →
      (mapCheckedTo m (i + 1)).bitmap = x :: (mapCheckedTo m i).bitmap ∧
        (mapCheckedTo m (i + 1)).inval = (mapCheckedTo m i).inval) ∧
    (mapOwn m i = none → (mapCheckedTo m (i + 1)).bitmap = (mapCheckedTo m i).bitmap ∧
      (mapCheckedTo m (i + 1)).inval = UInt32.ofNat i :: (mapCheckedTo m i).inval) ∧
    (mapCheckedTo m (i + 1)).flogInval = (mapCheckedTo m i).flogInval := by
  rw [mapCheckedTo_succ, mapEntryCheck, mapOwn]
  by_cases hlt : mapGetPostmapLba m (UInt32.ofNat i) < m.info.internalNlba
  · rw [if_pos hlt]
    by_cases hmem : mapGetPostmapLba m (UInt32.ofNat i) ∈ (mapCheckedTo m i).bitmap
    · rw [if_pos hmem, if_neg fun h => h.2 hmem]
      exact ⟨nofun, fun _ => ⟨rfl, rfl⟩, rfl⟩
    · rw [if_neg hmem, if_pos ⟨hlt, hmem⟩]
      exact ⟨fun x hx => Option.some_inj.mp hx ▸ ⟨rfl, rfl⟩, nofun, rfl⟩
  · rw [if_neg hlt, if_neg fun h => hlt h.1]
    exact ⟨nofun, fun _ => ⟨rfl, rfl⟩, rfl⟩

theorem flogsChecked_step (m : ArenaMedia lbasize) (lane : Nat) :
    (∀ x, flogOwn m lane = some x →
      (flogsChecked m (lane + 1)).bitmap = x :: (flogsChecked m lane).bitmap ∧
        (flogsChecked m (lane + 1)).flogInval = (flogsChecked m lane).flogInval) ∧
    (flogOwn m lane = none → (flogsChecked m (lane + 1)).bitmap = (flogsChecked m lane).bitmap ∧
      (flogsChecked m (lane + 1)).flogInval = lane :: (flogsChecked m lane).flogInval) ∧
    (flogsChecked m (lane + 1)).inval = (flogsChecked m lane).inval := by
  rw [flogsChecked_succ, flogEntryCheck, flogOwn, ← verdict]
  cases verdict m lane with
  | invalid => exact ⟨nofun, fun _ => ⟨rfl, rfl⟩, rfl⟩
  | usedTwice newEntry => exact ⟨nofun, fun _ => ⟨rfl, rfl⟩, rfl⟩
  | unfinished entry newEntry =>
    exact ⟨fun x hx => Option.some_inj.mp hx ▸ ⟨rfl, rfl⟩, nofun, rfl⟩
  | fine entry => exact ⟨fun x hx => Option.some_inj.mp hx ▸ ⟨rfl, rfl⟩, nofun, rfl⟩

theorem flogOwn_spec (h : flogOwn m lane = some x) :
    x < m.info.internalNlba ∧ x ∉ (flogsChecked m lane).bitmap := by
  unfold flogOwn verdict flogVerdict at h
  cases hvalid : flogGetValid (m.flog lane) with
  | none =>
    rw [hvalid] at h
    exact absurd h nofun
  | some r =>
    rw [hvalid] at h
    dsimp only at h
    split_ifs at h with hbounds hfree hmap hnew hinitial
    · obtain rfl := Option.some_inj.mp h
      simp only [not_or, ge_iff_le, UInt32.not_le] at hbounds
      exact ⟨hbounds.2.2, hnew⟩
    · obtain rfl := Option.some_inj.mp h
      simp only [not_or, ge_iff_le, UInt32.not_le] at hbounds
      exact ⟨hbounds.2.1, hmap⟩

structure ValidInfo (info : Info) : Prop where
  internal : info.internalNlba.toNat = info.externalNlba.toNat + info.nfree
  external : info.nfree ≤ info.externalNlba.toNat
  size : info.internalNlba.toNat ≤ 2 ^ 30

def mapBits (m : ArenaMedia lbasize) : List UInt32 :=
  (List.range m.info.externalNlba.toNat).filterMap (mapOwn m)

def flogBits (m : ArenaMedia lbasize) (n : Nat) : List UInt32 :=
  (List.range n).filterMap (flogOwn m)

def mapRefused (m : ArenaMedia lbasize) : List UInt32 :=
  ((List.range m.info.externalNlba.toNat).filter fun i => (mapOwn m i).isNone).map UInt32.ofNat

def flogRefused (m : ArenaMedia lbasize) (n : Nat) : List Nat :=
  (List.range n).filter fun lane => (flogOwn m lane).isNone

theorem mapCheckedTo_perm (m : ArenaMedia lbasize) (n : Nat) :
    (mapCheckedTo m n).bitmap.Perm ((List.range n).filterMap (mapOwn m)) ∧
      (mapCheckedTo m n).inval.Perm
        (((List.range n).filter fun i => (mapOwn m i).isNone).map UInt32.ofNat) := by
  have hperm := FirstCome.perm_collect (mapOwn m) UInt32.ofNat (fun n => (mapCheckedTo m n).bitmap)
    (fun n => (mapCheckedTo m n).inval) (fun i => (mapCheckedTo_step m i).1)
    (fun i => (mapCheckedTo_step m i).2.1) n
  exact ⟨hperm.1.trans (append_nil _ ▸ List.Perm.refl _),
    hperm.2.trans (append_nil _ ▸ List.Perm.refl _)⟩

theorem flogInval_mapChecked (m : ArenaMedia lbasize) : (mapChecked m).flogInval = [] := by
  rw [mapChecked_eq]
  induction m.info.externalNlba.toNat with
  | zero => rfl
  | succ n ih => rw [(mapCheckedTo_step m n).2.2, ih]

theorem flogsChecked_perm (m : ArenaMedia lbasize) (n : Nat) :
    (flogsChecked m n).bitmap.Perm (flogBits m n ++ mapBits m) ∧
      (flogsChecked m n).inval.Perm (mapRefused m) ∧
        (flogsChecked m n).flogInval.Perm (flogRefused m n) := by
  have hmap := mapCheckedTo_perm m m.info.externalNlba.toNat
  rw [← mapChecked_eq] at hmap
  have hinval : (flogsChecked m n).inval = (mapChecked m).inval := by
    induction n with
    | zero => rfl
    | succ n ih => rw [(flogsChecked_step m n).2.2, ih]
  have hperm := FirstCome.perm_collect (flogOwn m) id (fun n => (flogsChecked m n).bitmap)
    (fun n => (flogsChecked m n).flogInval) (fun i => (flogsChecked_step m i).1)
    (fun i => (flogsChecked_step m i).2.1) n
  refine ⟨hperm.1.trans (hmap.1.append_left _), hinval ▸ hmap.2, hperm.2.trans ?_⟩
  have hnil : (flogsChecked m 0).flogInval = [] := flogInval_mapChecked m
  rw [map_id, hnil, append_nil]
  exact List.Perm.refl _

theorem mem_lbas {n x : UInt32} : x ∈ lbas n ↔ x < n := by
  unfold lbas
  rw [mem_map, UInt32.lt_iff_toNat_lt]
  constructor
  · rintro ⟨i, hi, rfl⟩
    rw [mem_range] at hi
    rw [UInt32.toNat_ofNat_of_lt' (Nat.lt_trans hi n.toNat_lt)]
    exact hi
  · intro hx
    exact ⟨x.toNat, mem_range.mpr hx, UInt32.ofNat_toNat⟩

theorem nodup_lbas (n : UInt32) : (lbas n).Nodup := by
  refine List.Nodup.of_map UInt32.toNat ?_
  rw [lbas, map_map]
  refine List.Nodup.map_on (fun i hi j hj h => ?_) nodup_range
  rw [mem_range] at hi hj
  rwa [comp, comp, UInt32.toNat_ofNat_of_lt' (Nat.lt_trans hi n.toNat_lt),
    UInt32.toNat_ofNat_of_lt' (Nat.lt_trans hj n.toNat_lt)] at h

theorem bitmap_spec (m : ArenaMedia lbasize) (n : Nat) :
    (flogsChecked m n).bitmap.Nodup ∧
      ∀ x ∈ (flogsChecked m n).bitmap, x < m.info.internalNlba := by
  have hmap : ∀ k, (mapCheckedTo m k).bitmap.Nodup ∧
      ∀ x ∈ (mapCheckedTo m k).bitmap, x < m.info.internalNlba := by
    intro k
    induction k with
    | zero => exact ⟨nodup_nil, fun x hx => absurd hx not_mem_nil⟩
    | succ k ih =>
      cases hown : mapOwn m k with
      | none => rwa [((mapCheckedTo_step m k).2.1 hown).1]
      | some x =>
        obtain ⟨⟨hlt, hmem⟩, hx⟩ := Option.ite_none_right_eq_some.mp hown
        obtain rfl := Option.some_inj.mp hx
        rw [((mapCheckedTo_step m k).1 _ hown).1]
        exact ⟨nodup_cons.mpr ⟨hmem, ih.1⟩, forall_mem_cons.mpr ⟨hlt, ih.2⟩⟩
  induction n with
  | zero =>
    have hzero : flogsChecked m 0 = mapCheckedTo m m.info.externalNlba.toNat := mapChecked_eq m
    rw [hzero]
    exact hmap _
  | succ n ih =>
    cases hown : flogOwn m n with
    | none => rwa [((flogsChecked_step m n).2.1 hown).1]
    | some x =>
      obtain ⟨hlt, hmem⟩ := flogOwn_spec hown
      rw [((flogsChecked_step m n).1 _ hown).1]
      exact ⟨nodup_cons.mpr ⟨hmem, ih.1⟩, forall_mem_cons.mpr ⟨hlt, ih.2⟩⟩

theorem lbas_perm (m : ArenaMedia lbasize) :
    (lbas m.info.internalNlba).Perm
      (flogBits m m.info.nfree ++ mapBits m ++ (checked m).unmap) := by
  obtain ⟨hnodup, hlt⟩ := bitmap_spec m m.info.nfree
  have hlbas : ∀ x ∈ _, x ∈ lbas _ := fun x hx => mem_lbas.mpr (hlt x hx)
  refine (FirstCome.perm_leftover (nodup_lbas _) hnodup hlbas).trans ?_
  exact (flogsChecked_perm m m.info.nfree).1.append (reverse_perm _).symm

theorem length_lbas (n : UInt32) : (lbas n).length = n.toNat := by
  rw [lbas, length_map, length_range]

theorem length_unmap (h : ValidInfo m.info) :
    (checked m).unmap.length = (checked m).inval.length + (checked m).flogInval.length := by
  have hlbas := (lbas_perm m).length_eq
  obtain ⟨-, hinval, hflog⟩ := flogsChecked_perm m m.info.nfree
  have hinval : (checked m).inval.length = (mapRefused m).length := hinval.length_eq
  have hflog : (checked m).flogInval.length = (flogRefused m m.info.nfree).length := hflog.length_eq
  have hmapCount := FirstCome.length_collect (mapOwn m) m.info.externalNlba.toNat
  have hflogCount := FirstCome.length_collect (flogOwn m) m.info.nfree
  have hinternal := h.internal
  rw [length_lbas, length_append, length_append] at hlbas
  rw [hinval, hflog, mapRefused, length_map, flogRefused]
  unfold flogBits mapBits at hlbas
  omega

theorem arenaMapFlogCheck_ne_cannotRepair (h : ValidInfo m.info) :
    arenaMapFlogCheck true true m ≠ .cannotRepair := by
  rw [arenaMapFlogCheck, if_neg nofun, if_neg (not_not_intro (length_unmap h)), if_neg nofun]
  exact nofun

/-! ## What the repair leaves -/

theorem postMapLba_error {b : UInt32} (hb : b.toNat < 2 ^ 30) (i : UInt32) :
    postMapLba (b ||| mapEntryError) i = b := by
  rw [postMapLba, if_neg, setFlags_and_mask_of_lt (by decide) hb]
  intro hinitial
  have hzero := of_decide_eq_true hinitial
  rw [and_or_distrib_right] at hzero
  exact absurd (UInt32.or_eq_zero_iff.mp hzero).2 (by decide)

theorem flagDuplicates_spec (hsize : m.info.internalNlba.toNat ≤ 2 ^ 30)
    (is dupBitmap : List UInt32) :
    (flagDuplicates m is dupBitmap).info = m.info ∧ (flagDuplicates m is dupBitmap).flog = m.flog ∧
      ∀ i, mapGetPostmapLba (flagDuplicates m is dupBitmap) i = mapGetPostmapLba m i := by
  induction is generalizing m dupBitmap with
  | nil => exact ⟨rfl, rfl, fun _ => rfl⟩
  | cons j is ih =>
    rw [flagDuplicates]
    split_ifs with hge hmem
    · exact ih hsize dupBitmap
    · obtain ⟨hinfo, hflog, hmap⟩ := @ih (m.setMap j (mapEntryError ||| mapGetPostmapLba m j)) hsize
        (dupBitmap.filter (· ≠ mapGetPostmapLba m j))
      refine ⟨hinfo, hflog, fun i => (hmap i).trans ?_⟩
      change postMapLba (update m.map j _ i) i = _
      by_cases hij : i = j
      · subst hij
        have hlt := UInt32.lt_iff_toNat_lt.mp (UInt32.not_le.mp hge)
        rw [update_self, UInt32.or_comm, postMapLba_error (by omega)]
      · rw [update_of_ne hij]
        rfl
    · exact ih hsize dupBitmap

/-- The entries of a list are given the first unmapped blocks, and nothing else changes. -/
theorem popAll_spec {κ σ β ρ : Type} (store : σ → κ → UInt32 → σ) (get : σ → κ → β) (rest : σ → ρ)
    (val : κ → UInt32 → β) (g : κ → β → UInt32) (hself : ∀ s k b, get (store s k b) k = val k b)
    (hother : ∀ s k b k', k' ≠ k → get (store s k b) k' = get s k')
    (hrest : ∀ s k b, rest (store s k b) = rest s) {invals : List κ} {unmap : List UInt32}
    (hg : ∀ k, ∀ b ∈ unmap, g k (val k b) = b) (hle : invals.length ≤ unmap.length)
    (hnodup : invals.Nodup) (s : σ) :
    ∃ s', popAll store invals unmap s = some (s', unmap.drop invals.length) ∧ rest s' = rest s ∧
      (∀ k ∉ invals, get s' k = get s k) ∧
      (∀ k ∈ invals, ∃ b ∈ unmap, get s' k = val k b) ∧
      (invals.map fun k => g k (get s' k)) = unmap.take invals.length := by
  induction invals generalizing unmap s with
  | nil => exact ⟨s, rfl, rfl, fun _ _ => rfl, fun k hk => absurd hk not_mem_nil, rfl⟩
  | cons k invals ih =>
    cases unmap with
    | nil => exact absurd hle (by simp)
    | cons b unmap =>
      obtain ⟨hk, hnodup⟩ := nodup_cons.mp hnodup
      obtain ⟨s', hpop, hkeep, hout, hin, hmap⟩ := ih
        (fun k b hb => hg k b (mem_cons_of_mem _ hb)) (Nat.le_of_succ_le_succ hle) hnodup
        (store s k b)
      have hhead : get s' k = val k b := (hout k hk).trans (hself s k b)
      refine ⟨s', hpop, hkeep.trans (hrest s k b), fun k' hk' => ?_, fun k' hk' => ?_, ?_⟩
      · rw [mem_cons, not_or] at hk'
        rw [hout k' hk'.2, hother s k b k' hk'.1]
      · rcases mem_cons.mp hk' with rfl | hk'
        · exact ⟨b, mem_cons_self, hhead⟩
        · obtain ⟨b', hb', hget⟩ := hin k' hk'
          exact ⟨b', mem_cons_of_mem _ hb', hget⟩
      · rw [map_cons, hhead, hg k b mem_cons_self, hmap]
        rfl

def storedPair (lane : Nat) (block : UInt32) (e : Bool) : Flog :=
  if e then ⟨0, 0, 0, 0⟩
  else ⟨UInt32.ofNat lane, block ||| mapEntryError, block ||| mapEntryError, 1⟩

structure Repaired (m m' : ArenaMedia lbasize) : Prop where
  info : m'.info = m.info
  map : ∀ i < m.info.externalNlba.toNat, ∀ x, mapOwn m i = some x →
    mapGetPostmapLba m' (UInt32.ofNat i) = x
  flog : ∀ lane ∉ flogRefused m m.info.nfree, m'.flog lane = m.flog lane
  stored : ∀ lane ∈ flogRefused m m.info.nfree, ∃ b < m.info.internalNlba,
    m'.flog lane = storedPair lane b
  unmapped : ((mapRefused m).map (mapGetPostmapLba m') ++ (flogRefused m m.info.nfree).map
    fun lane => (m'.flog lane false).oldMap &&& mapEntryLbaMask).Perm (checked m).unmap

theorem nodup_mapRefused (m : ArenaMedia lbasize) : (mapRefused m).Nodup :=
  (nodup_lbas m.info.externalNlba).sublist (filter_sublist.map UInt32.ofNat)

theorem nodup_flogRefused (m : ArenaMedia lbasize) (n : Nat) : (flogRefused m n).Nodup :=
  nodup_range.filter _

theorem unmap_lt : ∀ b ∈ (checked m).unmap, b < m.info.internalNlba := by
  intro b hb
  exact mem_lbas.mp (mem_of_mem_filter (mem_reverse.mp hb))

theorem repairMap_spec (h : ValidInfo m.info) :
    ∃ m₁ loc, (if (checked m).inval.length > 0 then [Question.repairMap] else []).foldlM
        arenaMapFlogFix (m, checked m) = some (m₁, loc) ∧
      loc.flogInval = (checked m).flogInval ∧
      loc.unmap = (checked m).unmap.drop (checked m).inval.length ∧
      m₁.info = m.info ∧ m₁.flog = m.flog ∧
      (∀ i ∉ (checked m).inval, mapGetPostmapLba m₁ i = mapGetPostmapLba m i) ∧
      (checked m).inval.map (mapGetPostmapLba m₁) =
        (checked m).unmap.take (checked m).inval.length := by
  by_cases hpos : (checked m).inval.length > 0
  · rw [if_pos hpos]
    obtain ⟨hinfo, hflog, hmap⟩ := flagDuplicates_spec h.size (lbas m.info.externalNlba)
      (checked m).dupBitmap
    have hlt : ∀ b ∈ (checked m).unmap, b.toNat < 2 ^ 30 := fun b hb =>
      Nat.lt_of_lt_of_le (UInt32.lt_iff_toNat_lt.mp (unmap_lt b hb)) h.size
    have hnodup : (checked m).inval.Nodup :=
      (flogsChecked_perm m m.info.nfree).2.1.nodup_iff.mpr (nodup_mapRefused m)
    obtain ⟨m₁, hpop, hrest, hout, -, hin⟩ := popAll_spec (@storeMap lbasize) (fun m => m.map)
      (fun m => (m.info, m.flog)) (fun _ b => b ||| mapEntryError)
          (fun i entry => postMapLba entry i)
      (fun _ _ _ => update_self _ _ _) (fun _ _ _ _ hne => update_of_ne hne _ _)
      (fun _ _ _ => rfl) (fun i b hb => postMapLba_error (hlt b hb) i)
      (length_unmap h ▸ Nat.le_add_right _ _) hnodup
      (flagDuplicates m (lbas m.info.externalNlba) (checked m).dupBitmap)
    obtain ⟨hinfo₁, hflog₁⟩ := Prod.mk.inj hrest
    refine ⟨m₁, { checked m with
        inval := []
        unmap := (checked m).unmap.drop (checked m).inval.length }, ?_, rfl, rfl,
            hinfo₁.trans hinfo, hflog₁.trans hflog, fun i hi => ?_, hin⟩
    · rw [foldlM_cons, arenaMapFlogFix, hpop]
      rfl
    · rw [mapGetPostmapLba, hout i hi]
      exact hmap i
  · rw [if_neg hpos]
    have hnil : (checked m).inval = [] := length_eq_zero_iff.mp (by omega)
    refine ⟨m, checked m, rfl, rfl, ?_, rfl, rfl, fun _ _ => rfl, ?_⟩
    · rw [hnil]
      rfl
    · rw [hnil]
      rfl

theorem repairFlog_spec (h : ValidInfo m.info) (m₁ : ArenaMedia lbasize) {loc : Location}
    (hinval : loc.flogInval = (checked m).flogInval)
    (hunmap : loc.unmap = (checked m).unmap.drop (checked m).inval.length) :
    ∃ m', ((if (checked m).flogInval.length > 0 then [Question.repairFlog] else []).foldlM
        arenaMapFlogFix (m₁, loc)).map Prod.fst = some m' ∧
      m'.info = m₁.info ∧ m'.map = m₁.map ∧
      (∀ lane ∉ (checked m).flogInval, m'.flog lane = m₁.flog lane) ∧
      (∀ lane ∈ (checked m).flogInval, ∃ b < m.info.internalNlba,
        m'.flog lane = storedPair lane b) ∧
      ((checked m).flogInval.map fun lane => (m'.flog lane false).oldMap &&& mapEntryLbaMask) =
        (checked m).unmap.drop (checked m).inval.length := by
  have hlength : loc.unmap.length = (checked m).flogInval.length := by
    rw [hunmap, length_drop, length_unmap h, Nat.add_sub_cancel_left]
  by_cases hpos : (checked m).flogInval.length > 0
  · rw [if_pos hpos]
    have hlt : ∀ b ∈ loc.unmap, b < m.info.internalNlba := fun b hb =>
      unmap_lt b (mem_of_mem_drop (hunmap ▸ hb))
    have hnodup : (checked m).flogInval.Nodup :=
      (flogsChecked_perm m m.info.nfree).2.2.nodup_iff.mpr (nodup_flogRefused m _)
    obtain ⟨m', hpop, hrest, hout, hin, hmap⟩ := popAll_spec (@storeFlog lbasize)
      (fun m => m.flog) (fun m => (m.info, m.map)) storedPair
      (fun _ pair => (pair false).oldMap &&& mapEntryLbaMask)
      (fun _ _ _ => update_self _ _ _) (fun _ _ _ _ hne => update_of_ne hne _ _)
      (fun _ _ _ => rfl) (fun _ b hb => setFlags_and_mask_of_lt (by decide)
        (Nat.lt_of_lt_of_le (UInt32.lt_iff_toNat_lt.mp (hlt b hb)) h.size))
      hlength.ge hnodup m₁
    obtain ⟨hinfo', hmap'⟩ := Prod.mk.inj hrest
    refine ⟨m', ?_, hinfo', hmap', hout, fun lane hlane => ?_, ?_⟩
    · rw [foldlM_cons, arenaMapFlogFix, hinval, hpop]
      rfl
    · obtain ⟨b, hb, hpair⟩ := hin lane hlane
      exact ⟨b, hlt b hb, hpair⟩
    · rw [hmap, ← hunmap, ← hlength, take_length]
  · rw [if_neg hpos]
    have hnil : (checked m).flogInval = [] := length_eq_zero_iff.mp (by omega)
    refine ⟨m₁, rfl, rfl, rfl, fun _ _ => rfl, fun lane hlane => ?_, ?_⟩
    · rw [hnil] at hlane
      exact absurd hlane not_mem_nil
    · rw [hnil, length_nil] at hlength
      rw [hnil, ← hunmap, length_eq_zero_iff.mp hlength]
      rfl

theorem mapGetPostmapLba_of_mapOwn {i : Nat} (h : mapOwn m i = some x) :
    mapGetPostmapLba m (UInt32.ofNat i) = x :=
  Option.some_inj.mp (Option.ite_none_right_eq_some.mp h).2

theorem repairArena_spec (h : ValidInfo m.info) :
    ∃ m', repairArena m = some m' ∧ Repaired m m' := by
  obtain ⟨m₁, loc, hmapFix, hinval, hunmap, hinfo₁, hflog₁, hkept, hgiven⟩ := repairMap_spec h
  obtain ⟨m', hflogFix, hinfo', hmap', hout, hin, hgiven'⟩ := repairFlog_spec h m₁ hinval hunmap
  obtain ⟨-, hpermMap, hpermFlog⟩ := flogsChecked_perm m m.info.nfree
  have hpermMap : (checked m).inval.Perm (mapRefused m) := hpermMap
  have hpermFlog : (checked m).flogInval.Perm (flogRefused m m.info.nfree) := hpermFlog
  have hpost : ∀ i, mapGetPostmapLba m' i = mapGetPostmapLba m₁ i := fun i => by
    rw [mapGetPostmapLba, hmap', mapGetPostmapLba]
  refine ⟨m', ?_, hinfo'.trans hinfo₁, fun i hi x hx => ?_, fun lane hlane => ?_,
      fun lane hlane => ?_,
    ?_⟩
  · have hask : arenaMapFlogCheck true true m =
        .ask ((if (checked m).inval.length > 0 then [.repairMap] else []) ++
          if (checked m).flogInval.length > 0 then [.repairFlog] else []) := by
      rw [arenaMapFlogCheck, if_neg nofun, if_neg (not_not_intro (length_unmap h)), if_neg nofun]
    rw [repairArena, hask]
    dsimp only
    rw [foldlM_append, hmapFix]
    exact hflogFix
  · rw [hpost, hkept, mapGetPostmapLba_of_mapOwn hx]
    intro hmem
    obtain ⟨j, hj, hij⟩ := mem_map.mp (hpermMap.mem_iff.mp hmem)
    obtain ⟨hj, hnone⟩ := mem_filter.mp hj
    have hinj := congrArg UInt32.toNat hij
    rw [UInt32.toNat_ofNat_of_lt' (Nat.lt_trans (mem_range.mp hj) m.info.externalNlba.toNat_lt),
      UInt32.toNat_ofNat_of_lt' (Nat.lt_trans hi m.info.externalNlba.toNat_lt)] at hinj
    rw [hinj, hx] at hnone
    exact absurd hnone nofun
  · rw [hout lane fun hmem => hlane (hpermFlog.mem_iff.mp hmem), hflog₁]
  · exact hin lane (hpermFlog.mem_iff.mpr hlane)
  · have hmapPart : (mapRefused m).map (mapGetPostmapLba m') |>.Perm
        ((checked m).unmap.take (checked m).inval.length) := by
      rw [← hgiven, map_congr_left fun i _ => hpost i]
      exact (hpermMap.map _).symm
    have hflogPart := (hpermFlog.map
      fun lane => (m'.flog lane false).oldMap &&& mapEntryLbaMask).symm
    rw [hgiven'] at hflogPart
    exact (hmapPart.append hflogPart).trans (List.Perm.of_eq (take_append_drop _ _))

end MapFlog

end Pmdk.Btt
