import Pmdk.Obj.Bytes

/-!
# Info blocks

Here a namespace is its bytes. Everything that is written has a number of 32-bit words, in little
endian byte order, and may begin at any offset.

The words of `struct btt_info` are written together with their checksum.
-/

namespace Pmdk.Btt.Raw

open List

abbrev Media := Nat → UInt8

def byteOf (w : Nat → UInt32) (k : Nat) : UInt8 :=
  (w (k / 4) >>> UInt32.ofNat (8 * (k % 4))).toUInt8

def Media.write (m : Media) (off len : Nat) (w : Nat → UInt32) : Media := fun x =>
  if off ≤ x ∧ x < off + len then byteOf w (x - off) else m x

def Media.word (m : Media) (x : Nat) : UInt32 :=
  Checksum.le32 (m x) (m (x + 1)) (m (x + 2)) (m (x + 3))

theorem le32_bytes (w : UInt32) : Checksum.le32 (w >>> 0).toUInt8 (w >>> 8).toUInt8
    (w >>> 16).toUInt8 (w >>> 24).toUInt8 = w := by
  apply UInt32.toBitVec_inj.mp
  apply BitVec.eq_of_getLsbD_eq
  intro k hk
  have hsplit : k < 8 ∨ 8 ≤ k ∧ k < 16 ∨ 16 ≤ k ∧ k < 24 ∨ 24 ≤ k := by omega
  unfold Checksum.le32
  simp only [BitVec.getLsbD_append]
  rcases hsplit with h | ⟨h, h'⟩ | ⟨h, h'⟩ | h
  · simp [h, hk]
  · have h1 : k - 8 < 8 := by omega
    have h2 : ¬ k < 8 := by omega
    have h3 : 8 + (k - 8) = k := by omega
    simp [h1, h2, h3, hk]
  · have h1 : ¬ k < 8 := by omega
    have h2 : ¬ k - 8 < 8 := by omega
    have h3 : k - 8 - 8 < 8 := by omega
    have h4 : 16 + (k - 8 - 8) = k := by omega
    simp [h1, h2, h3, h4, hk]
  · have h1 : ¬ k < 8 := by omega
    have h2 : ¬ k - 8 < 8 := by omega
    have h3 : ¬ k - 8 - 8 < 8 := by omega
    have h5 : k - 8 - 8 - 8 < 8 := by omega
    have h4 : 24 + (k - 8 - 8 - 8) = k := by omega
    simp [h1, h2, h3, h5, h4, hk]

variable {w : Nat → UInt32}

theorem Media.word_write_of_mem {m : Media} {off len k : Nat}
    (h : 4 * k + 4 ≤ len) : (m.write off len w).word (off + 4 * k) = w k := by
  have hat : ∀ t < 4, m.write off len w (off + 4 * k + t) =
      (w k >>> UInt32.ofNat (8 * t)).toUInt8 := by
    intro t ht
    have hdiv : (off + 4 * k + t - off) / 4 = k := by omega
    have hmod : (off + 4 * k + t - off) % 4 = t := by omega
    unfold write byteOf
    rw [if_pos ⟨by omega, by omega⟩, hdiv, hmod]
  unfold word
  rw [hat 1 (by decide), hat 2 (by decide), hat 3 (by decide)]
  have hzero := hat 0 (by decide)
  rw [Nat.add_zero] at hzero
  rw [hzero]
  exact le32_bytes (w k)

theorem Media.word_write_of_disjoint {m : Media} {off len x : Nat}
    (h : x + 4 ≤ off ∨ off + len ≤ x) : (m.write off len w).word x = m.word x := by
  have hat : ∀ t < 4, m.write off len w (x + t) = m (x + t) := fun t ht => if_neg (by omega)
  unfold word
  rw [hat 1 (by decide), hat 2 (by decide), hat 3 (by decide)]
  have hzero := hat 0 (by decide)
  rw [Nat.add_zero] at hzero
  rw [hzero]

/-! ## Fields -/

structure Uuid where
  w0 : UInt32
  w1 : UInt32
  w2 : UInt32
  w3 : UInt32
  deriving DecidableEq

def Sig : Uuid := ⟨0x5f545442, 0x4e455241, 0x4e495f41, 0x4f46⟩

structure BttInfo where
  sig : Uuid
  uuid : Uuid
  parentUuid : Uuid
  flags : UInt32
  major : UInt16
  minor : UInt16
  externalLbasize : UInt32
  externalNlba : UInt32
  internalLbasize : UInt32
  internalNlba : UInt32
  nfree : UInt32
  infosize : UInt32
  nextoff : UInt64
  dataoff : UInt64
  mapoff : UInt64
  flogoff : UInt64
  infooff : UInt64
  checksum : UInt64
  deriving DecidableEq

def infoSize : Nat := 4096

def lo (w : UInt64) : UInt32 := (Checksum.halves w).1

def hi (w : UInt64) : UInt32 := (Checksum.halves w).2

/-- The words of an info block; those of `unused` are zero. -/
def BttInfo.word (info : BttInfo) : Nat → UInt32
  | 0 => info.sig.w0
  | 1 => info.sig.w1
  | 2 => info.sig.w2
  | 3 => info.sig.w3
  | 4 => info.uuid.w0
  | 5 => info.uuid.w1
  | 6 => info.uuid.w2
  | 7 => info.uuid.w3
  | 8 => info.parentUuid.w0
  | 9 => info.parentUuid.w1
  | 10 => info.parentUuid.w2
  | 11 => info.parentUuid.w3
  | 12 => info.flags
  | 13 => info.major.toUInt32 ||| info.minor.toUInt32 <<< 16
  | 14 => info.externalLbasize
  | 15 => info.externalNlba
  | 16 => info.internalLbasize
  | 17 => info.internalNlba
  | 18 => info.nfree
  | 19 => info.infosize
  | 20 => lo info.nextoff
  | 21 => hi info.nextoff
  | 22 => lo info.dataoff
  | 23 => hi info.dataoff
  | 24 => lo info.mapoff
  | 25 => hi info.mapoff
  | 26 => lo info.flogoff
  | 27 => hi info.flogoff
  | 28 => lo info.infooff
  | 29 => hi info.infooff
  | 1022 => lo info.checksum
  | 1023 => hi info.checksum
  | _ => 0

def BttInfo.ofWords (w : Nat → UInt32) : BttInfo where
  sig := ⟨w 0, w 1, w 2, w 3⟩
  uuid := ⟨w 4, w 5, w 6, w 7⟩
  parentUuid := ⟨w 8, w 9, w 10, w 11⟩
  flags := w 12
  major := (w 13).toUInt16
  minor := (w 13 >>> 16).toUInt16
  externalLbasize := w 14
  externalNlba := w 15
  internalLbasize := w 16
  internalNlba := w 17
  nfree := w 18
  infosize := w 19
  nextoff := Checksum.join (w 20, w 21)
  dataoff := Checksum.join (w 22, w 23)
  mapoff := Checksum.join (w 24, w 25)
  flogoff := Checksum.join (w 26, w 27)
  infooff := Checksum.join (w 28, w 29)
  checksum := Checksum.join (w 1022, w 1023)

theorem halves_injective : Function.Injective Checksum.halves := by
  intro a b h
  have hlo := congrArg (fun s : UInt32 × UInt32 => s.1.toNat) h
  have hhi := congrArg (fun s : UInt32 × UInt32 => s.2.toNat) h
  simp only [Checksum.halves, UInt64.toNat_toUInt32, UInt64.toNat_shiftRight] at hlo hhi
  have ha := a.toNat_lt
  have hb := b.toNat_lt
  have hshift : (32 : UInt64).toNat % 64 = 32 := by decide
  rw [hshift, Nat.shiftRight_eq_div_pow, Nat.shiftRight_eq_div_pow] at hhi
  refine UInt64.toNat_inj.mp ?_
  omega

theorem join_lo_hi (w : UInt64) : Checksum.join (lo w, hi w) = w :=
  halves_injective (Checksum.halves_join _)

theorem toUInt16_or_shiftLeft (major minor : UInt16) :
    (major.toUInt32 ||| minor.toUInt32 <<< 16).toUInt16 = major ∧
      ((major.toUInt32 ||| minor.toUInt32 <<< 16) >>> 16).toUInt16 = minor := by
  constructor
  · apply UInt16.toBitVec_inj.mp
    apply BitVec.eq_of_getLsbD_eq
    intro k hk
    simp [hk]
  · apply UInt16.toBitVec_inj.mp
    apply BitVec.eq_of_getLsbD_eq
    intro k hk
    have hhigh : 16 + k < 32 := by omega
    simp [hk, hhigh]

theorem BttInfo.ofWords_word (info : BttInfo) : ofWords info.word = info := by
  obtain ⟨hmajor, hminor⟩ := toUInt16_or_shiftLeft info.major info.minor
  simp [ofWords, word, join_lo_hi, hmajor, hminor]

/-! ## Checksums -/

/-- `util_checksum` of an info block, whose checksum is in the last eight bytes. -/
def infoChecksum (w : Nat → UInt32) : UInt64 :=
  Checksum.join (Checksum.checksumLoop 1022 0 (0, 0) ((List.range 1024).map w))

theorem checksumLoop_append {csump : Nat} {k : Nat} (s : UInt32 × UInt32) {ws : List UInt32}
    (hk : k + ws.length = csump) (x y : UInt32) :
    Checksum.checksumLoop csump k s (ws ++ [x, y]) =
      Checksum.checksumLoop csump k s (ws ++ [0, 0]) := by
  induction ws generalizing k s with
  | nil =>
    rw [length_nil, Nat.add_zero] at hk
    simp [Checksum.checksumLoop, hk]
  | cons w ws ih =>
    rw [length_cons] at hk
    rw [cons_append, cons_append, Checksum.checksumLoop, Checksum.checksumLoop,
      if_neg (by omega), if_neg (by omega)]
    exact ih _ (by omega)

theorem infoChecksum_congr {w' : Nat → UInt32} (h : ∀ k < 1022, w k = w' k) :
    infoChecksum w = infoChecksum w' := by
  have hrange : ∀ w : Nat → UInt32, (List.range 1024).map w =
      (List.range 1022).map w ++ [w 1022, w 1023] := by
    intro w
    rw [range_succ, range_succ]
    simp
  have hmap : (List.range 1022).map w = (List.range 1022).map w' :=
    map_congr_left fun k hk => h k (mem_range.mp hk)
  have hlength : 0 + ((List.range 1022).map w').length = 1022 := by
    rw [length_map, length_range]
  unfold infoChecksum
  rw [hrange, hrange, hmap, checksumLoop_append _ hlength, checksumLoop_append _ hlength (w' 1022)]

def BttInfo.sealed (info : BttInfo) : BttInfo := { info with checksum := infoChecksum info.word }

theorem BttInfo.word_sealed (info : BttInfo) {k : Nat} (hk : k < 1022) :
    info.sealed.word k = info.word k := by
  unfold word sealed
  split
  all_goals first | rfl | omega

def readInfo (parentUuid : Uuid) (w : Nat → UInt32) : Option BttInfo :=
  let info := BttInfo.ofWords w
  if info.sig ≠ Sig then none
  else if info.parentUuid ≠ parentUuid then none
  else if info.checksum ≠ infoChecksum w then none
  else if info.major = 0 then none
  else some info

def Media.words (m : Media) (off : Nat) : Nat → UInt32 := fun k => m.word (off + 4 * k)

theorem readInfo_sealed {info : BttInfo}
    (hw : ∀ k < 1024, w k = info.sealed.word k) (hsig : info.sig = Sig) (hmajor : info.major ≠ 0) :
    readInfo info.parentUuid w = some info.sealed := by
  have hinfo : BttInfo.ofWords w = info.sealed := by
    rw [← info.sealed.ofWords_word]
    simp [BttInfo.ofWords, hw]
  have hsum : infoChecksum w = info.sealed.checksum := by
    refine infoChecksum_congr fun k hk => ?_
    rw [hw k (by omega), info.word_sealed hk]
  have hsig' : info.sealed.sig = Sig := hsig
  have hmajor' : ¬ info.sealed.major = 0 := hmajor
  have hparent : info.sealed.parentUuid = info.parentUuid := rfl
  unfold readInfo
  dsimp only
  rw [hinfo, if_neg (not_not_intro hsig'), if_neg (not_not_intro hparent),
    if_neg (not_not_intro hsum.symm), if_neg hmajor']

end Pmdk.Btt.Raw
