import Pmdk.Blk.BttInfo
import Pmdk.Blk.BttLayout

/-!
# The geometry of an arena

`btt_info_set_params` and `btt_info_set_offs` in the arithmetic of the machine: block counts are in
32 bits, sizes and offsets in 64 bits. For an arena of at least `BTT_MIN_SIZE` and at most
`BTT_MAX_ARENA` nothing wraps around (`Exact`), and the areas of the arena follow each other.
-/

namespace Pmdk.Btt.Raw

/-! ## Parameters and offsets -/

def BTT_MIN_SIZE : UInt64 := 16777216

def BTT_MAX_ARENA : UInt64 := 549755813888

def BTT_DEFAULT_NFREE : UInt32 := 256

/-- `roundup`, in 64 bits. -/
def roundup (x y : UInt64) : UInt64 := (x + (y - 1)) / y * y

/-- `internal_lbasize`; zero stands for a failure. -/
def internalLbasize (externalLbasize : UInt32) : UInt32 :=
  let size := if externalLbasize < 512 then 512 else externalLbasize
  let size := (size + 255) / 256 * 256
  if size < 256 then 0 else size

def bttFlogSize (nfree : UInt32) : UInt64 := roundup (nfree.toUInt64 * roundup 32 64) 4096

/-- `btt_map_size`. The product has 32 bits. -/
def bttMapSize (externalNlba : UInt32) : UInt64 := roundup (externalNlba * 4).toUInt64 4096

def bttArenaDatasize (arenaSize : UInt64) (nfree : UInt32) : UInt64 :=
  arenaSize - 2 * 4096 - bttFlogSize nfree

def bttInfoSetParams (info : BttInfo) (externalLbasize internalLbasize nfree : UInt32)
    (arenaSize : UInt64) : Option BttInfo :=
  let arenaDataSize := bttArenaDatasize arenaSize nfree
  let internalNlba := (arenaDataSize - 4096) / (internalLbasize + 4).toUInt64
  if internalNlba < (2 * nfree).toUInt64 then none
  else some { info with
    externalLbasize
    internalLbasize
    nfree
    infosize := 4096
    internalNlba := internalNlba.toUInt32
    externalNlba := internalNlba.toUInt32 - nfree }

def bttInfoSetOffs (info : BttInfo) (arenaSize spaceLeft : UInt64) : BttInfo :=
  let infooff := arenaSize - 4096
  let flogoff := infooff - bttFlogSize info.nfree
  { info with
    dataoff := info.infosize.toUInt64
    nextoff := if spaceLeft ≥ BTT_MIN_SIZE then arenaSize else 0
    infooff
    flogoff
    mapoff := flogoff - bttMapSize info.externalNlba }

variable {lbasize : UInt32}

theorem bttInfoSetParams_fields {info₀ info : BttInfo} {lbasize' nfree : UInt32}
    {size : UInt64} (h : bttInfoSetParams info₀ lbasize lbasize' nfree size = some info) :
    info.sig = info₀.sig ∧ info.parentUuid = info₀.parentUuid ∧ info.major = info₀.major ∧
      info.externalLbasize = lbasize ∧ info.nfree = nfree := by
  unfold bttInfoSetParams at h
  dsimp only at h
  split at h
  · cases h
  · cases h
    exact ⟨rfl, rfl, rfl, rfl, rfl⟩

/-! ## Exact arithmetic -/

structure Exact (size lbasize : Nat) (info : BttInfo) : Prop where
  nfree : info.nfree.toNat = 256
  internalLbasize : info.internalLbasize.toNat = Btt.roundup (max lbasize 512) 256
  internalNlba : info.internalNlba.toNat =
    (size - 2 * 4096 - 256 * 64 - 4096) / (info.internalLbasize.toNat + 4)
  externalNlba : info.externalNlba.toNat = info.internalNlba.toNat - 256
  dataoff : info.dataoff.toNat = 4096
  infooff : info.infooff.toNat = size - 4096
  flogoff : info.flogoff.toNat = size - 4096 - 256 * 64
  mapoff : info.mapoff.toNat =
    size - 4096 - 256 * 64 - Btt.roundup (info.externalNlba.toNat * 4) 4096

theorem toNat_roundup {x y : UInt64} (hy : 0 < y.toNat) (h : x.toNat + y.toNat < 2 ^ 64) :
    (roundup x y).toNat = Btt.roundup x.toNat y.toNat := by
  have hone : (1 : UInt64).toNat = 1 := rfl
  have hsub : (y - 1).toNat = y.toNat - 1 :=
    UInt64.toNat_sub_of_le _ _ (UInt64.le_iff_toNat_le.mpr hy)
  have hadd : (x + (y - 1)).toNat = x.toNat + (y.toNat - 1) := by
    rw [UInt64.toNat_add, hsub]
    exact Nat.mod_eq_of_lt (by omega)
  have hle := Nat.div_mul_le_self (x.toNat + (y.toNat - 1)) y.toNat
  unfold roundup Btt.roundup
  rw [UInt64.toNat_mul, UInt64.toNat_div, hadd]
  exact Nat.mod_eq_of_lt (by omega)

theorem le_roundup {x y : Nat} (hy : 0 < y) : x ≤ Btt.roundup x y ∧ Btt.roundup x y < x + y := by
  unfold Btt.roundup
  have hdiv := Nat.div_add_mod (x + (y - 1)) y
  have hmod := Nat.mod_lt (x + (y - 1)) hy
  rw [Nat.mul_comm] at hdiv
  omega

theorem toNat_internalLbasize (h : internalLbasize lbasize ≠ 0) :
    (internalLbasize lbasize).toNat = Btt.roundup (max lbasize.toNat 512) 256 ∧
      (internalLbasize lbasize).toNat + 256 ≤ 2 ^ 32 := by
  have hmax : (if lbasize < 512 then 512 else lbasize).toNat = max lbasize.toNat 512 := by
    split
    · rename_i hlt
      rw [UInt32.lt_iff_toNat_lt] at hlt
      exact (Nat.max_eq_right (Nat.le_of_lt hlt)).symm
    · rename_i hle
      rw [UInt32.lt_iff_toNat_lt] at hle
      exact (Nat.max_eq_left (Nat.le_of_not_lt hle)).symm
  unfold internalLbasize at h ⊢
  dsimp only at h ⊢
  generalize (if lbasize < 512 then 512 else lbasize) = size at h hmax ⊢
  have hnat : ((size + 255) / 256 * 256).toNat = (size.toNat + 255) % 2 ^ 32 / 256 * 256 := by
    have hle := Nat.div_mul_le_self ((size.toNat + 255) % 2 ^ 32) 256
    have hlt := Nat.mod_lt (size.toNat + 255) (show 0 < 2 ^ 32 by decide)
    rw [UInt32.toNat_mul, UInt32.toNat_div, UInt32.toNat_add]
    exact Nat.mod_eq_of_lt (Nat.lt_of_le_of_lt hle hlt)
  by_cases hwrap : (size + 255) / 256 * 256 < 256
  · exact absurd (if_pos hwrap) h
  · rw [if_neg hwrap, hnat, ← hmax]
    rw [UInt32.lt_iff_toNat_lt, hnat] at hwrap
    have hsize := size.toNat_lt
    have htwo : (256 : UInt32).toNat = 256 := rfl
    unfold Btt.roundup
    omega

theorem toNat_sub {x y : UInt64} (h : y.toNat ≤ x.toNat) : (x - y).toNat = x.toNat - y.toNat :=
  UInt64.toNat_sub_of_le _ _ (UInt64.le_iff_toNat_le.mpr h)

theorem toNat_bttFlogSize : (bttFlogSize BTT_DEFAULT_NFREE).toNat = 256 * 64 := by decide

theorem toNat_bttMapSize (externalNlba : UInt32) (h : externalNlba.toNat * 4 < 2 ^ 32) :
    (bttMapSize externalNlba).toNat = Btt.roundup (externalNlba.toNat * 4) 4096 := by
  have hmul : (externalNlba * 4).toUInt64.toNat = externalNlba.toNat * 4 := by
    rw [UInt32.toNat_toUInt64, UInt32.toNat_mul]
    exact Nat.mod_eq_of_lt h
  have halign : (4096 : UInt64).toNat = 4096 := rfl
  unfold bttMapSize
  rw [toNat_roundup (by decide) (by omega), hmul]
  rfl

theorem toNat_bttArenaDatasize {size : UInt64} (hmin : 2 ^ 24 ≤ size.toNat) :
    (bttArenaDatasize size BTT_DEFAULT_NFREE - 4096).toNat =
      size.toNat - 2 * 4096 - 256 * 64 - 4096 := by
  have hflog := toNat_bttFlogSize
  have hinfo : (2 * 4096 : UInt64).toNat = 2 * 4096 := rfl
  have halign : (4096 : UInt64).toNat = 4096 := rfl
  have hfirst : (size - 2 * 4096).toNat = size.toNat - 2 * 4096 := by
    rw [toNat_sub (by omega), hinfo]
  have hsecond : (bttArenaDatasize size BTT_DEFAULT_NFREE).toNat =
      size.toNat - 2 * 4096 - 256 * 64 := by
    unfold bttArenaDatasize
    rw [toNat_sub (by omega), hfirst, hflog]
  rw [toNat_sub (by omega), hsecond, halign]

theorem nlba_bounds {size lbasize nlba : Nat} (hmax : size ≤ 2 ^ 39) (hlbasize : 512 ≤ lbasize)
    (h : nlba = (size - 2 * 4096 - 256 * 64 - 4096) / (lbasize + 4)) :
    nlba < 2 ^ 30 ∧ nlba * lbasize + nlba * 4 ≤ size - 2 * 4096 - 256 * 64 - 4096 := by
  have hle := Nat.div_mul_le_self (size - 2 * 4096 - 256 * 64 - 4096) (lbasize + 4)
  rw [← h] at hle
  have hmul : nlba * 516 ≤ nlba * (lbasize + 4) := Nat.mul_le_mul_left nlba (by omega)
  rw [Nat.mul_add] at hle hmul
  omega

theorem exact_of_set {info₀ info : BttInfo} {size : UInt64} (spaceLeft : UInt64)
    (hlbasize : internalLbasize lbasize ≠ 0) (hmin : 2 ^ 24 ≤ size.toNat)
    (hmax : size.toNat ≤ 2 ^ 39)
    (h : bttInfoSetParams info₀ lbasize (internalLbasize lbasize) BTT_DEFAULT_NFREE size =
      some info) :
    Exact size.toNat lbasize.toNat (bttInfoSetOffs info size spaceLeft) ∧
      512 ≤ info.internalNlba.toNat := by
  obtain ⟨hL, hLmax⟩ := toNat_internalLbasize hlbasize
  have hLmin : 512 ≤ (internalLbasize lbasize).toNat := by
    rw [hL]
    exact Nat.le_trans (Nat.le_max_right _ _) (le_roundup (by decide)).1
  unfold bttInfoSetParams at h
  dsimp only at h
  have hdatasize := toNat_bttArenaDatasize hmin
  generalize hnlba : (bttArenaDatasize size BTT_DEFAULT_NFREE - 4096) /
    (internalLbasize lbasize + 4).toUInt64 = nlba at h
  have hnat : nlba.toNat = (size.toNat - 2 * 4096 - 256 * 64 - 4096) /
      ((internalLbasize lbasize).toNat + 4) := by
    have hfour : (internalLbasize lbasize + 4).toUInt64.toNat =
        (internalLbasize lbasize).toNat + 4 := by
      rw [UInt32.toNat_toUInt64, UInt32.toNat_add]
      exact Nat.mod_eq_of_lt (Nat.lt_of_lt_of_le (Nat.add_lt_add_left (by decide) _) hLmax)
    rw [← hnlba, UInt64.toNat_div, hdatasize, hfour]
  obtain ⟨hlt, hfit⟩ := nlba_bounds hmax hLmin hnat
  have h32 : nlba.toUInt32.toNat = nlba.toNat := by
    rw [UInt64.toNat_toUInt32]
    exact Nat.mod_eq_of_lt (by omega)
  have hnfree : BTT_DEFAULT_NFREE.toNat = 256 := rfl
  split at h
  · cases h
  · rename_i hfew
    have htwice : (2 * BTT_DEFAULT_NFREE).toUInt64.toNat = 512 := rfl
    rw [UInt64.lt_iff_toNat_lt, htwice] at hfew
    cases h
    have hext : (nlba.toUInt32 - BTT_DEFAULT_NFREE).toNat = nlba.toNat - 256 := by
      rw [UInt32.toNat_sub_of_le, h32, hnfree]
      rw [UInt32.le_iff_toNat_le, h32, hnfree]
      omega
    have hmap := toNat_bttMapSize (nlba.toUInt32 - BTT_DEFAULT_NFREE) (by rw [hext]; omega)
    have hround := @le_roundup ((nlba.toUInt32 - BTT_DEFAULT_NFREE).toNat * 4) 4096 (by decide)
    have hflog := toNat_bttFlogSize
    have halign : (4096 : UInt64).toNat = 4096 := rfl
    have hinfooff : (size - 4096).toNat = size.toNat - 4096 := toNat_sub (by omega)
    have hflogoff : (size - 4096 - bttFlogSize BTT_DEFAULT_NFREE).toNat =
        size.toNat - 4096 - 256 * 64 := by
      rw [toNat_sub (by omega), hinfooff, hflog]
    have hmapoff : (size - 4096 - bttFlogSize BTT_DEFAULT_NFREE -
        bttMapSize (nlba.toUInt32 - BTT_DEFAULT_NFREE)).toNat = size.toNat - 4096 - 256 * 64 -
          Btt.roundup ((nlba.toUInt32 - BTT_DEFAULT_NFREE).toNat * 4) 4096 := by
      rw [toNat_sub (by omega), hflogoff, hmap]
    rw [← h32] at hnat hext
    exact ⟨⟨hnfree, hL, hnat, hext, rfl, hinfooff, hflogoff, hmapoff⟩, by
      dsimp only
      omega⟩

end Pmdk.Btt.Raw
