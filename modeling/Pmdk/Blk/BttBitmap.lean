import Mathlib.Data.List.Perm.Basic
import Mathlib.Data.List.Nodup
import Mathlib.Data.List.TakeWhile
import Pmdk.Blk.BttLayout

/-!
# The bitmap of the consistency check

`check_arena` maps the map of an arena piece by piece. It looks every entry up in a bitmap and adds
it, and stops at an entry that is out of bounds. Then it does the same with the free blocks of the
run-time flogs, but without looking whether they are in bounds. In the end it looks for internal
LBAs that are not in the bitmap.

Memory that is not part of the bitmap has arbitrary contents.
-/

namespace Pmdk

open Function List

namespace Btt

namespace BitmapCheck

variable {lbasize : Nat}

structure Bits where
  seen : Seen
  accessed : List UInt32

def Bits.mark (st : Bits) (entry : UInt32) : Bits :=
  ⟨st.seen.mark entry, st.accessed ++ [entry]⟩

/-- `Zalloc` of the bitmap. Behind it is other memory. -/
def Bits.zalloc (memory : UInt32 → Bool) (internalNlba : UInt32) : Bits where
  seen := ⟨fun i => if i.toNat / 8 < (internalNlba + 7).toNat / 8 then false else memory i, true⟩
  accessed := []

structure Cursor where
  mapEntryOff : Nat
  mapped : Nat
  nextIndex : Nat
  remaining : Nat

def Cursor.remap (nsmap : Nat → Nat → Option Nat) (reqLen : Nat) (c : Cursor) : Option Cursor :=
  if c.remaining = 0 then
    (nsmap reqLen c.mapEntryOff).map fun mlen => ⟨c.mapEntryOff, c.mapEntryOff, 0, mlen⟩
  else some c

/-- The loop over the map from the entry `i` on, with `n` entries to go, and whether it got to the
end. -/
def mapLoop (nsmap : Nat → Nat → Option Nat) (word : Nat → UInt32) (internalNlba : UInt32) :
    Nat → Nat → Cursor → Bits → Bool × Bits
  | 0, _, _, st => (true, st)
  | n + 1, i, c, st =>
    match c.remap nsmap (4 * (n + 1)) with
    | none => (false, st)
    | some c =>
      let entry := postMapLba (word (c.mapped + 4 * c.nextIndex)) (UInt32.ofNat i)
      if entry ≥ internalNlba then (false, st)
      else
        mapLoop nsmap word internalNlba n (i + 1)
          ⟨c.mapEntryOff + 4, c.mapped, c.nextIndex + 1, c.remaining - 4⟩ (st.mark entry)

def freeLbas (b : Handle) (a : Nat) : List UInt32 :=
  (List.range b.nfree).map fun i => ((b.arenas a).flogs i).flog.oldMap &&& mapEntryLbaMask

/-- `check_arena`: 1 for a consistent arena, 0 for an inconsistent one and -1 for an error, and the
indices at which the bitmap was accessed. -/
def checkArena (nsmap : Nat → Nat → Option Nat) (mapoff : Nat) (memory : UInt32 → Bool)
    (b : Handle) (ns : Ns lbasize) (a : Nat) : Int × List UInt32 :=
  let info := (ns.arena a).info
  let word := fun off => (ns.arena a).map (UInt32.ofNat ((off - mapoff) / 4))
  let r := mapLoop nsmap word info.internalNlba info.externalNlba.toNat 0 ⟨mapoff, 0, 0, 0⟩
    (.zalloc memory info.internalNlba)
  if r.1 then
    let st := (freeLbas b a).foldl Bits.mark r.2
    let lbas := (List.range info.internalNlba.toNat).map UInt32.ofNat
    (if st.seen.consistent && lbas.all st.seen.bitmap then 1 else 0, st.accessed ++ lbas)
  else (-1, r.2.accessed)

def checkLoop (check : Nat → Int × List UInt32) : Nat → Nat → Int → Int × List (Nat × UInt32)
  | 0, _, consistent => (consistent, [])
  | n + 1, a, consistent =>
    let r := check a
    let accessed := r.2.map fun i => (a, i)
    if r.1 < 0 then (r.1, accessed)
    else
      let rest := checkLoop check n (a + 1) (if r.1 = 0 then 0 else consistent)
      (rest.1, accessed ++ rest.2)

def bttCheck (nsmap : Nat → Nat → Option Nat) (mapoff : Nat → Nat)
    (memory : Nat → UInt32 → Bool) (b : Handle) (ns : Ns lbasize) : Int × List (Nat × UInt32) :=
  checkLoop (fun a => checkArena nsmap (mapoff a) (memory a) b ns a) b.narena 0 1

/-! ## What is to be decided -/

def postMapLbas (ns : Ns lbasize) (a : Nat) : List UInt32 :=
  (List.range (ns.arena a).info.externalNlba.toNat).map fun i =>
    postMapLba ((ns.arena a).map (UInt32.ofNat i)) (UInt32.ofNat i)

def InBounds (ns : Ns lbasize) (a : Nat) (lbas : List UInt32) : Prop :=
  ∀ x ∈ lbas, x < (ns.arena a).info.internalNlba

instance (ns : Ns lbasize) (a : Nat) (lbas : List UInt32) : Decidable (InBounds ns a lbas) :=
  List.decidableBAll (fun x => x < (ns.arena a).info.internalNlba) lbas

def Permutes (b : Handle) (ns : Ns lbasize) (a : Nat) : Prop :=
  ((postMapLbas ns a ++ freeLbas b a).map UInt32.toNat).Perm
    (List.range (ns.arena a).info.internalNlba.toNat)

/-- `nsmap` maps some of the entries that are requested. -/
def Maps (nsmap : Nat → Nat → Option Nat) : Prop :=
  ∀ len off, 0 < len → 4 ∣ len → ∃ mlen, nsmap len off = some mlen ∧ 0 < mlen ∧ 4 ∣ mlen ∧
      mlen ≤ len

def Decides (nsmap : Nat → Nat → Option Nat) (mapoff : Nat → Nat) (memory : Nat → UInt32 → Bool)
    (b : Handle) (ns : Ns lbasize) : Prop :=
  (∀ p ∈ (bttCheck nsmap mapoff memory b ns).2, p.2 < (ns.arena p.1).info.internalNlba) ∧
    ((bttCheck nsmap mapoff memory b ns).1 = 1 ↔ ∀ a < b.narena, Permutes b ns a)

def FlogsInBounds (b : Handle) (ns : Ns lbasize) : Prop :=
  ∀ a < b.narena, (∀ a' ≤ a, InBounds ns a' (postMapLbas ns a')) → InBounds ns a (freeLbas b a)

instance (b : Handle) (ns : Ns lbasize) : Decidable (FlogsInBounds b ns) :=
  inferInstanceAs (Decidable (∀ a < b.narena, (∀ a' ≤ a, InBounds ns a' (postMapLbas ns a')) →
    InBounds ns a (freeLbas b a)))

/-! ## Bitmaps -/

theorem foldl_seen_mark (lbas : List UInt32) (st : Seen) :
    (∀ x, (lbas.foldl Seen.mark st).bitmap x = true ↔ st.bitmap x = true ∨ x ∈ lbas) ∧
      ((lbas.foldl Seen.mark st).consistent = true ↔
        st.consistent = true ∧ lbas.Nodup ∧ ∀ x ∈ lbas, st.bitmap x = false) := by
  induction lbas generalizing st with
  | nil => simp
  | cons lba lbas ih =>
    obtain ⟨hbits, hcons⟩ := ih (st.mark lba)
    rw [foldl_cons]
    simp only [hbits, hcons, mem_cons, nodup_cons]
    by_cases hset : st.bitmap lba = true
    · rw [Seen.mark, if_pos hset]
      refine ⟨fun x => ⟨fun h => h.imp_right .inr, ?_⟩, iff_of_false (fun h => ?_) fun h => ?_⟩
      · rintro (h | rfl | h)
        · exact .inl h
        · exact .inl hset
        · exact .inr h
      · cases h.1
      · rw [h.2.2 lba (.inl rfl)] at hset
        cases hset
    · rw [Seen.mark, if_neg hset]
      have hat : ∀ x, update st.bitmap lba true x = true ↔
          x = lba ∨ st.bitmap x = true := by
        intro x
        rw [update_apply]
        split <;> simp [*]
      have hoff : ∀ x, update st.bitmap lba true x = false ↔
          x ≠ lba ∧ st.bitmap x = false := by
        intro x
        rw [update_apply]
        split <;> simp [*]
      simp only [hat, hoff]
      refine ⟨fun x => by rw [or_assoc, or_left_comm], and_congr_right fun _ => ?_⟩
      constructor
      · rintro ⟨hnodup, hnew⟩
        refine ⟨⟨fun hmem => (hnew lba hmem).1 rfl, hnodup⟩, ?_⟩
        rintro x (rfl | hx)
        · exact Bool.eq_false_iff.mpr hset
        · exact (hnew x hx).2
      · rintro ⟨⟨hlba, hnodup⟩, hnew⟩
        refine ⟨hnodup, fun x hx => ⟨?_, hnew x (.inr hx)⟩⟩
        rintro rfl
        exact hlba hx

theorem foldl_mark (lbas : List UInt32) (st : Bits) :
    lbas.foldl Bits.mark st = ⟨lbas.foldl Seen.mark st.seen, st.accessed ++ lbas⟩ := by
  induction lbas generalizing st with
  | nil => rw [append_nil]; rfl
  | cons lba lbas ih =>
    rw [foldl_cons, ih, foldl_cons]
    simp [Bits.mark]

/-! ## The loop over the map -/

theorem remap_spec {nsmap : Nat → Nat → Option Nat} (hmaps : Maps nsmap) {c : Cursor} (n : Nat)
    (hdvd : 4 ∣ c.remaining)
    (hnext : c.remaining ≠ 0 → c.mapped + 4 * c.nextIndex = c.mapEntryOff) :
    ∃ c', c.remap nsmap (4 * (n + 1)) = some c' ∧ c'.mapEntryOff = c.mapEntryOff ∧
      4 ∣ c'.remaining ∧ c'.mapped + 4 * c'.nextIndex = c.mapEntryOff := by
  unfold Cursor.remap
  by_cases hrem : c.remaining = 0
  · obtain ⟨mlen, hmlen, -, hdvd', -⟩ :=
      hmaps (4 * (n + 1)) c.mapEntryOff (by omega) (Nat.dvd_mul_right 4 _)
    rw [if_pos hrem, hmlen]
    exact ⟨_, rfl, rfl, hdvd', rfl⟩
  · rw [if_neg hrem]
    exact ⟨c, rfl, rfl, hdvd, hnext hrem⟩

/-- The loop reads the entries one after the other, however they are mapped, and adds those before
the first one that is out of bounds. -/
theorem mapLoop_eq {nsmap : Nat → Nat → Option Nat} (hmaps : Maps nsmap) (word : Nat → UInt32)
    (internalNlba : UInt32) (mapoff : Nat) {n i : Nat} {c : Cursor} (st : Bits)
    (hoff : c.mapEntryOff = mapoff + 4 * i) (hdvd : 4 ∣ c.remaining)
    (hnext : c.remaining ≠ 0 → c.mapped + 4 * c.nextIndex = c.mapEntryOff) {lbas : List UInt32}
    (hlbas : lbas = (List.range' i n).map fun i =>
      postMapLba (word (mapoff + 4 * i)) (UInt32.ofNat i)) :
    mapLoop nsmap word internalNlba n i c st =
      (lbas.all (· < internalNlba), (lbas.takeWhile (· < internalNlba)).foldl Bits.mark st) := by
  induction n generalizing i c st lbas with
  | zero =>
    rw [hlbas]
    rfl
  | succ n ih =>
    obtain ⟨c', hc', hoff', hdvd', hnext'⟩ := remap_spec hmaps n hdvd hnext
    rw [List.range'_succ, map_cons] at hlbas
    rw [mapLoop, hc', hlbas]
    dsimp only
    rw [hnext', hoff, all_cons, takeWhile_cons]
    by_cases hlt : postMapLba (word (mapoff + 4 * i)) (UInt32.ofNat i) < internalNlba
    · rw [if_neg (UInt32.not_le.mpr hlt), if_pos (decide_eq_true hlt), decide_eq_true hlt,
        Bool.true_and, foldl_cons]
      refine ih _ ?_ ?_ (fun _ => ?_) rfl
      · dsimp only
        rw [hoff', hoff]
        omega
      · exact Nat.dvd_sub hdvd' (Nat.dvd_refl 4)
      · dsimp only
        omega
    · rw [if_pos (UInt32.not_lt.mp hlt), if_neg (by simpa using hlt), decide_eq_false hlt,
        Bool.false_and]
      rfl

/-! ## An arena -/

section Arena

variable {nsmap : Nat → Nat → Option Nat} {mapoff : Nat} {memory : UInt32 → Bool} {b : Handle}
  {ns : Ns lbasize} {a : Nat}

theorem mapLoop_arena (hmaps : Maps nsmap) (mapoff : Nat) (ns : Ns lbasize) (a : Nat) (st : Bits) :
    mapLoop nsmap (fun off => (ns.arena a).map (UInt32.ofNat ((off - mapoff) / 4)))
      (ns.arena a).info.internalNlba (ns.arena a).info.externalNlba.toNat 0 ⟨mapoff, 0, 0, 0⟩ st =
        ((postMapLbas ns a).all (· < (ns.arena a).info.internalNlba),
          ((postMapLbas ns a).takeWhile (· < (ns.arena a).info.internalNlba)).foldl
            Bits.mark st) := by
  refine mapLoop_eq hmaps _ _ mapoff st (Nat.add_zero _).symm (Nat.dvd_zero 4)
    (fun h => absurd rfl h) ?_
  unfold postMapLbas
  rw [List.range_eq_range']
  refine map_congr_left fun i _ => ?_
  rw [Nat.add_sub_cancel_left, Nat.mul_div_cancel_left i (by decide)]

def internalLbas (ns : Ns lbasize) (a : Nat) : List UInt32 :=
  (List.range (ns.arena a).info.internalNlba.toNat).map UInt32.ofNat

theorem mem_internalLbas_iff {x : UInt32} :
    x ∈ internalLbas ns a ↔ x < (ns.arena a).info.internalNlba := by
  unfold internalLbas
  rw [mem_map, UInt32.lt_iff_toNat_lt]
  constructor
  · rintro ⟨i, hi, rfl⟩
    rw [mem_range] at hi
    rw [UInt32.toNat_ofNat_of_lt' (Nat.lt_trans hi (ns.arena a).info.internalNlba.toNat_lt)]
    exact hi
  · intro hx
    exact ⟨x.toNat, mem_range.mpr hx, UInt32.ofNat_toNat⟩

theorem checkArena_of_not_inBounds (hmaps : Maps nsmap) (h : ¬ InBounds ns a (postMapLbas ns a)) :
    checkArena nsmap mapoff memory b ns a =
      (-1, (postMapLbas ns a).takeWhile (· < (ns.arena a).info.internalNlba)) := by
  have hall : (postMapLbas ns a).all (· < (ns.arena a).info.internalNlba) = false := by
    rw [Bool.eq_false_iff]
    intro hall
    refine h fun x hx => of_decide_eq_true (all_eq_true.mp hall x hx)
  unfold checkArena
  dsimp only
  rw [mapLoop_arena hmaps, hall, foldl_mark]
  rfl

theorem checkArena_of_inBounds (hmaps : Maps nsmap) (h : InBounds ns a (postMapLbas ns a)) :
    checkArena nsmap mapoff memory b ns a =
      let seen := (postMapLbas ns a ++ freeLbas b a).foldl Seen.mark
        (Bits.zalloc memory (ns.arena a).info.internalNlba).seen
      (if seen.consistent && (internalLbas ns a).all seen.bitmap then 1 else 0,
        postMapLbas ns a ++ freeLbas b a ++ internalLbas ns a) := by
  have hall : (postMapLbas ns a).all (· < (ns.arena a).info.internalNlba) = true :=
    all_eq_true.mpr fun x hx => decide_eq_true (h x hx)
  have htake : (postMapLbas ns a).takeWhile (· < (ns.arena a).info.internalNlba) =
      postMapLbas ns a :=
    takeWhile_eq_self_iff.mpr fun x hx => decide_eq_true (h x hx)
  unfold checkArena
  dsimp only
  rw [mapLoop_arena hmaps, hall, htake, foldl_mark, foldl_mark, foldl_append]
  rfl

/-- The bitmap is accessed at internal LBAs if the flogs are in bounds, or not looked at. -/
theorem accessed_iff (hmaps : Maps nsmap) (mapoff : Nat) (memory : UInt32 → Bool) :
    (∀ i ∈ (checkArena nsmap mapoff memory b ns a).2, i < (ns.arena a).info.internalNlba) ↔
      (InBounds ns a (postMapLbas ns a) → InBounds ns a (freeLbas b a)) := by
  by_cases h : InBounds ns a (postMapLbas ns a)
  · rw [checkArena_of_inBounds hmaps h]
    dsimp only
    rw [forall_prop_of_true h]
    constructor
    · intro hbounds x hx
      exact hbounds x (mem_append_left _ (mem_append_right _ hx))
    · intro hfree x hx
      rcases mem_append.mp hx with hx | hx
      · rcases mem_append.mp hx with hx | hx
        · exact h x hx
        · exact hfree x hx
      · exact mem_internalLbas_iff.mp hx
  · rw [checkArena_of_not_inBounds hmaps h]
    refine iff_of_true (fun x hx => ?_) fun h' => absurd h' h
    have hlt := mem_takeWhile_imp hx
    exact of_decide_eq_true hlt

theorem checkArena_neg_iff (hmaps : Maps nsmap) :
    (checkArena nsmap mapoff memory b ns a).1 < 0 ↔ ¬ InBounds ns a (postMapLbas ns a) := by
  by_cases h : InBounds ns a (postMapLbas ns a)
  · rw [checkArena_of_inBounds hmaps h]
    refine iff_of_false ?_ (not_not_intro h)
    dsimp only
    split <;> decide
  · rw [checkArena_of_not_inBounds hmaps h]
    exact iff_of_true (show (-1 : Int) < 0 by decide) h

theorem permutes_iff : Permutes b ns a ↔
    InBounds ns a (postMapLbas ns a ++ freeLbas b a) ∧ (postMapLbas ns a ++ freeLbas b a).Nodup ∧
      ∀ x ∈ internalLbas ns a, x ∈ postMapLbas ns a ++ freeLbas b a := by
  have hinj : Function.Injective UInt32.toNat := fun _ _ h => UInt32.toNat_inj.mp h
  unfold Permutes InBounds
  generalize postMapLbas ns a ++ freeLbas b a = lbas
  constructor
  · intro hperm
    refine ⟨fun x hx => ?_, ?_, fun x hx => ?_⟩
    · rw [UInt32.lt_iff_toNat_lt, ← mem_range]
      exact hperm.mem_iff.mp (mem_map_of_mem hx)
    · exact List.Nodup.of_map _ (hperm.nodup_iff.mpr nodup_range)
    · have hmem := hperm.mem_iff.mpr
        (mem_range.mpr (UInt32.lt_iff_toNat_lt.mp (mem_internalLbas_iff.mp hx)))
      obtain ⟨y, hy, heq⟩ := mem_map.mp hmem
      exact hinj heq ▸ hy
  · rintro ⟨hbounds, hnodup, hall⟩
    rw [perm_ext_iff_of_nodup (hnodup.map hinj) nodup_range]
    intro i
    rw [mem_map, mem_range]
    constructor
    · rintro ⟨x, hx, rfl⟩
      exact UInt32.lt_iff_toNat_lt.mp (hbounds x hx)
    · intro hi
      have htoNat := UInt32.toNat_ofNat_of_lt' (Nat.lt_trans hi
        (ns.arena a).info.internalNlba.toNat_lt)
      refine ⟨UInt32.ofNat i, hall _ (mem_internalLbas_iff.mpr ?_), htoNat⟩
      rw [UInt32.lt_iff_toNat_lt, htoNat]
      exact hi

theorem zalloc_eq_false (hsize : (ns.arena a).info.internalNlba.toNat + 7 < 2 ^ 32) {x : UInt32}
    (hx : x < (ns.arena a).info.internalNlba) :
    (Bits.zalloc memory (ns.arena a).info.internalNlba).seen.bitmap x = false := by
  have hadd : ((ns.arena a).info.internalNlba + 7).toNat =
      (ns.arena a).info.internalNlba.toNat + 7 := by
    rw [UInt32.toNat_add]
    exact Nat.mod_eq_of_lt hsize
  rw [UInt32.lt_iff_toNat_lt] at hx
  refine if_pos ?_
  rw [hadd]
  omega

theorem checkArena_eq_one_iff (hmaps : Maps nsmap)
    (hsize : (ns.arena a).info.internalNlba.toNat + 7 < 2 ^ 32)
    (hfree : InBounds ns a (postMapLbas ns a) → InBounds ns a (freeLbas b a)) :
    (checkArena nsmap mapoff memory b ns a).1 = 1 ↔ Permutes b ns a := by
  rw [permutes_iff]
  by_cases h : InBounds ns a (postMapLbas ns a)
  · have hbounds : InBounds ns a (postMapLbas ns a ++ freeLbas b a) := fun x hx =>
      (mem_append.mp hx).elim (h x) (hfree h x)
    obtain ⟨hbits, hcons⟩ := foldl_seen_mark (postMapLbas ns a ++ freeLbas b a)
      (Bits.zalloc memory (ns.arena a).info.internalNlba).seen
    have hclear : ∀ x ∈ postMapLbas ns a ++ freeLbas b a,
        (Bits.zalloc memory (ns.arena a).info.internalNlba).seen.bitmap x = false :=
      fun x hx => zalloc_eq_false hsize (hbounds x hx)
    rw [checkArena_of_inBounds hmaps h]
    dsimp only
    have hone : ∀ p : Prop, [Decidable p] → ((if p then (1 : Int) else 0) = 1 ↔ p) := by
      intro p _
      split <;> simp [*]
    rw [hone, Bool.and_eq_true, all_eq_true, hcons]
    constructor
    · rintro ⟨⟨-, hnodup, -⟩, hall⟩
      refine ⟨hbounds, hnodup, fun x hx => ((hbits x).mp (hall x hx)).resolve_left ?_⟩
      rw [zalloc_eq_false hsize (mem_internalLbas_iff.mp hx)]
      exact Bool.false_ne_true
    · rintro ⟨-, hnodup, hall⟩
      exact ⟨⟨rfl, hnodup, hclear⟩, fun x hx => (hbits x).mpr (.inr (hall x hx))⟩
  · rw [checkArena_of_not_inBounds hmaps h]
    refine iff_of_false (show ¬ (-1 : Int) = 1 by decide) fun hperm => h fun x hx =>
      hperm.1 x (mem_append_left _ hx)

theorem checkArena_le_one (hmaps : Maps nsmap) (mapoff : Nat) (memory : UInt32 → Bool)
    (b : Handle) (ns : Ns lbasize) (a : Nat) : (checkArena nsmap mapoff memory b ns a).1 ≤ 1 := by
  by_cases h : InBounds ns a (postMapLbas ns a)
  · rw [checkArena_of_inBounds hmaps h]
    dsimp only
    split <;> decide
  · rw [checkArena_of_not_inBounds hmaps h]
    exact (by decide : (-1 : Int) ≤ 1)

end Arena

/-! ## All arenas -/

theorem mem_checkLoop_iff (check : Nat → Int × List UInt32) (n a : Nat) (consistent : Int)
    (p : Nat × UInt32) : p ∈ (checkLoop check n a consistent).2 ↔
      p.2 ∈ (check p.1).2 ∧ a ≤ p.1 ∧ p.1 < a + n ∧ ∀ a', a ≤ a' → a' < p.1 → 0 ≤ (check a').1 := by
  obtain ⟨a₁, i⟩ := p
  induction n generalizing a consistent with
  | zero =>
    refine iff_of_false not_mem_nil ?_
    rintro ⟨-, hle, hlt, -⟩
    omega
  | succ n ih =>
    have hhere : (a₁, i) ∈ (check a).2.map (fun i => (a, i)) ↔ a₁ = a ∧ i ∈ (check a).2 := by
      simp [Prod.ext_iff, and_comm, eq_comm]
    unfold checkLoop
    dsimp only
    split
    · rename_i hneg
      dsimp only
      rw [hhere]
      constructor
      · rintro ⟨rfl, hi⟩
        exact ⟨hi, Nat.le_refl _, by omega, fun a' hle hlt => by omega⟩
      · rintro ⟨hi, hle, -, hall⟩
        rcases Nat.eq_or_lt_of_le hle with rfl | hlt
        · exact ⟨rfl, hi⟩
        · have hnonneg := hall a (Nat.le_refl a) hlt
          omega
    · rename_i hnonneg
      dsimp only
      rw [mem_append, hhere, ih]
      constructor
      · rintro (⟨rfl, hi⟩ | ⟨hi, hle, hlt, hall⟩)
        · exact ⟨hi, Nat.le_refl _, by omega, fun a' hle hlt => by omega⟩
        · refine ⟨hi, by omega, by omega, fun a' hle' hlt' => ?_⟩
          rcases Nat.eq_or_lt_of_le hle' with rfl | hlt
          · exact Int.not_lt.mp hnonneg
          · exact hall a' hlt hlt'
      · rintro ⟨hi, hle, hlt, hall⟩
        rcases Nat.eq_or_lt_of_le hle with rfl | hlt'
        · exact .inl ⟨rfl, hi⟩
        · exact .inr ⟨hi, hlt', by omega, fun a' hle' => hall a' (by omega)⟩

theorem checkLoop_eq_one_iff {check : Nat → Int × List UInt32} (hcheck : ∀ a, (check a).1 ≤ 1)
    (n a : Nat) (consistent : Int) : (checkLoop check n a consistent).1 = 1 ↔
      consistent = 1 ∧ ∀ a', a ≤ a' → a' < a + n → (check a').1 = 1 := by
  induction n generalizing a consistent with
  | zero =>
    refine (and_iff_left fun a' hle hlt => ?_).symm
    omega
  | succ n ih =>
    have hsplit : (∀ a', a ≤ a' → a' < a + (n + 1) → (check a').1 = 1) ↔
        (check a).1 = 1 ∧ ∀ a', a + 1 ≤ a' → a' < a + 1 + n → (check a').1 = 1 := by
      constructor
      · intro h
        exact ⟨h a (Nat.le_refl a) (by omega), fun a' hle hlt => h a' (by omega) (by omega)⟩
      · rintro ⟨hhere, h⟩ a' hle hlt
        rcases Nat.eq_or_lt_of_le hle with rfl | hlt'
        · exact hhere
        · exact h a' hlt' (by omega)
    have hone := hcheck a
    rw [hsplit]
    unfold checkLoop
    dsimp only
    split
    · rename_i hneg
      refine iff_of_false (fun h => ?_) fun h => ?_
      · dsimp only at h
        omega
      · have heq := h.2.1
        omega
    · dsimp only
      rw [ih]
      split
      · rename_i hzero
        refine iff_of_false (fun h => ?_) fun h => ?_
        · have heq := h.1
          omega
        · have heq := h.2.1
          omega
      · exact and_congr_right fun _ => (and_iff_right (by omega)).symm

/-! ## Main theorem -/

/-- The check decides whether the map and the flogs are a permutation, and stays in its bitmap, if
and only if the flogs are in bounds wherever it gets to them. -/
theorem decides_iff {nsmap : Nat → Nat → Option Nat} (hmaps : Maps nsmap) (mapoff : Nat → Nat)
    (memory : Nat → UInt32 → Bool) (b : Handle) (ns : Ns lbasize)
    (hsize : ∀ a < b.narena, (ns.arena a).info.internalNlba.toNat + 7 < 2 ^ 32) :
    Decides nsmap mapoff memory b ns ↔ FlogsInBounds b ns := by
  have hneg := fun a => @checkArena_neg_iff _ nsmap (mapoff a) (memory a) b ns a hmaps
  constructor
  · rintro ⟨haccessed, -⟩ a ha hmap
    refine (accessed_iff hmaps (mapoff a) (memory a)).mp (fun i hi => ?_) (hmap a (Nat.le_refl a))
    refine haccessed (a, i) ((mem_checkLoop_iff _ _ _ _ _).mpr ⟨hi, Nat.zero_le a, by omega, ?_⟩)
    intro a' _ hlt
    by_contra hlt'
    exact (hneg a').mp (Int.not_le.mp hlt') (hmap a' (Nat.le_of_lt hlt))
  · intro hflogs
    constructor
    · intro p hp
      obtain ⟨hi, -, hlt, hall⟩ := (mem_checkLoop_iff _ _ _ _ _).mp hp
      refine (accessed_iff hmaps _ _).mpr (fun hmap => hflogs p.1 (by omega) fun a' hle => ?_) _ hi
      rcases Nat.eq_or_lt_of_le hle with rfl | hlt'
      · exact hmap
      · by_contra hnot
        have hnonneg := hall a' (Nat.zero_le a') hlt'
        have hlt := (hneg a').mpr hnot
        omega
    · have hone : (∀ a < b.narena, InBounds ns a (postMapLbas ns a)) → ∀ a < b.narena,
          ((checkArena nsmap (mapoff a) (memory a) b ns a).1 = 1 ↔ Permutes b ns a) := by
        intro hmap a ha
        exact checkArena_eq_one_iff hmaps (hsize a ha) fun _ =>
          hflogs a ha fun a' hle => hmap a' (Nat.lt_of_le_of_lt hle ha)
      unfold bttCheck
      rw [checkLoop_eq_one_iff fun a => checkArena_le_one hmaps (mapoff a) (memory a) b ns a]
      constructor
      · rintro ⟨-, hall⟩ a ha
        refine (hone (fun a ha => ?_) a ha).mp (hall a (Nat.zero_le a) (by omega))
        by_contra hnot
        have hlt := (hneg a).mpr hnot
        have heq := hall a (Nat.zero_le a) (by omega)
        omega
      · intro hall
        refine ⟨rfl, fun a _ ha => ?_⟩
        rw [Nat.zero_add] at ha
        refine (hone (fun a ha x hx => ?_) a ha).mpr (hall a ha)
        exact (permutes_iff.mp (hall a ha)).1 x (List.mem_append_left _ hx)

theorem maps_four : Maps fun _ _ => some 4 := by
  intro len off hpos hdvd
  exact ⟨4, rfl, by decide, Nat.dvd_refl 4, Nat.le_of_dvd hpos hdvd⟩

/-- The fresh namespace is consistent. -/
theorem decides_freshNs :
    Decides (fun _ _ => some 4) (fun _ => 8192) (fun _ _ => true) (handleOf 2 3 freshNs) freshNs :=
  (decides_iff maps_four _ _ _ _ (by decide)).mpr (by decide +kernel)

def strayNs : Ns 1 :=
  freshNs.modify 0 fun m => m.setFlog 0 false ⟨0, 100 ||| mapEntryZero, 100 ||| mapEntryZero, 1⟩

/-- The namespace is accepted, and the check accesses the bit for block 100 of five. -/
theorem not_decides_strayNs : ∃ b, readLayout strayNs = some (b, []) ∧
    ¬ Decides (fun _ _ => some 4) (fun _ => 8192) (fun _ _ => true) b strayNs := by
  have h : ((readLayout strayNs).any fun r => r.2.isEmpty && !decide (FlogsInBounds r.1 strayNs) &&
      decide (r.1.narena = 1)) = true := by
    decide +kernel
  obtain ⟨⟨b, writes⟩, hread, hr⟩ := (Option.any_eq_true _ _).mp h
  simp only [Bool.and_eq_true, List.isEmpty_iff, Bool.not_eq_true', decide_eq_false_iff_not,
    decide_eq_true_eq] at hr
  obtain ⟨⟨rfl, hflogs⟩, hnarena⟩ := hr
  refine ⟨b, hread, ?_⟩
  rw [decides_iff maps_four]
  · exact hflogs
  · intro a ha
    rw [hnarena, Nat.lt_one_iff] at ha
    subst ha
    decide +kernel

end BitmapCheck

end Btt

end Pmdk
