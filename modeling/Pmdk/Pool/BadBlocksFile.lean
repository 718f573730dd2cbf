import Pmdk.Pool.BadBlocksRecalc
import Pmdk.Pool.DirectoryFills
import Pmdk.Pool.PoolsetWritten

/-!
# Bad blocks of a file and their recovery file

`os_badblocks_get` looks through the extents of the file for each bad block of the device. At the
first extent that overlaps it clips the bounds of the bad block itself.
-/

namespace Pmdk.BadFile

open Sync (BadBlock alignDown alignUp alignDown_le dvd_alignDown dvd_alignUp le_alignUp alignUp_sub)
open List
open Poolset (isspace scanSign scanSize scanSize_digits isspace_of_isDigit)

structure Extent where
  offsetPhysical : Nat
  offsetLogical : Nat
  length : Nat
  deriving DecidableEq

/-! ## The ranges of a file -/

def extentLoop (blksize : Nat) : List Extent → Nat → Nat → List BadBlock
  | [], _, _ => []
  | e :: exts, bbBeg, bbEnd =>
    let extBeg := e.offsetPhysical
    let extEnd := extBeg + e.length - 1
    if bbBeg > extEnd ∨ extBeg > bbEnd then extentLoop blksize exts bbBeg bbEnd
    else
      let bbBeg := max bbBeg extBeg
      let bbEnd := min bbEnd extEnd
      let bbLen := bbEnd - bbBeg + 1
      let bbOff := bbBeg + e.offsetLogical - e.offsetPhysical
      let notBlockAligned := bbOff % blksize
      ⟨bbOff - notBlockAligned, alignUp (bbLen + notBlockAligned) blksize % 2 ^ 32, none⟩ ::
        extentLoop blksize exts bbBeg bbEnd

/-- `os_badblocks_get` for the bad blocks of the device and the extents of the file; a file without
extents is taken for a device. -/
def osBadblocksGet (blksize : Nat) (exts : List Extent) (bbs : List BadBlock) : List BadBlock :=
  if exts = [] then bbs
  else bbs.flatMap fun bb => extentLoop blksize exts bb.offset (bb.offset + bb.length - 1)

/-! ## The recovery file -/

def line (offset length : Nat) : List Char :=
  Nat.toDigits 10 offset ++ ' ' :: (Nat.toDigits 10 length ++ ['\n'])

def recoveryFileSave (bbs : List BadBlock) : List Char :=
  bbs.flatMap (fun bb => line bb.offset bb.length) ++ line 0 0

/-- `fscanf` with `"%llu %u\n"`; the length has 32 bits. -/
def scanBadBlock (text : List Char) : Option (BadBlock × List Char) :=
  (scanSize text).bind fun (offset, text) => (scanSize text).map fun (length, text) =>
    (⟨offset, length % 2 ^ 32, none⟩, text.dropWhile isspace)

inductive RecoveryError
  | incomplete
  | notSorted
  deriving DecidableEq

theorem length_of_scanSize {str rest : List Char} {n : Nat} (h : scanSize str = some (n, rest)) :
    rest.length < str.length := by
  have hsign : (scanSign (str.dropWhile isspace)).2.length ≤ (str.dropWhile isspace).length := by
    unfold scanSign
    split
    next heq =>
      rw [heq]
      exact Nat.le_succ _
    next heq =>
      rw [heq]
      exact Nat.le_succ _
    next => exact Nat.le_refl _
  have hle := (dropWhile_suffix (l := str) isspace).length_le
  have hdigits := ( takeWhile_prefix (l := (scanSign (str.dropWhile isspace)).2)
    Char.isDigit).length_le
  unfold scanSize at h
  dsimp only at h
  split at h
  · exact absurd h nofun
  next hne =>
    rw [← (Prod.mk.inj (Option.some.inj h)).2, length_drop]
    have := length_pos_iff.mpr hne
    omega

theorem length_of_scanBadBlock {text rest : List Char} {bb : BadBlock}
    (h : scanBadBlock text = some (bb, rest)) : rest.length < text.length := by
  obtain ⟨⟨offset, text'⟩, hoffset, h⟩ := Option.bind_eq_some_iff.mp h
  obtain ⟨⟨length, text''⟩, hlength, h⟩ := Option.map_eq_some_iff.mp h
  have hrest : text''.dropWhile isspace = rest := congrArg Prod.snd h
  have hle := (dropWhile_suffix (l := text'') isspace).length_le
  rw [hrest] at hle
  have := length_of_scanSize hoffset
  have := length_of_scanSize hlength
  omega

/-- The loop of `replica_part_badblocks_recovery_file_read`. -/
def readLoop (text : List Char) (minOffset : Nat) : Except RecoveryError (List BadBlock) :=
  match h : scanBadBlock text with
  | none => .error .incomplete
  | some (bb, rest) =>
    if bb.offset = 0 ∧ bb.length = 0 then .ok []
    else if bb.offset < minOffset then .error .notSorted
    else (readLoop rest ((bb.offset + bb.length) % 2 ^ 64)).map (bb :: ·)
termination_by text.length
decreasing_by exact length_of_scanBadBlock h

def recoveryFileRead (text : List Char) : Except RecoveryError (List BadBlock) := readLoop text 0

/-! ## Reading back what is saved -/

variable {bb : BadBlock} {bbs ranges : List BadBlock} {text : List Char}

theorem takeWhile_toDigits (n : Nat) {ch : Char} (hch : ch.isDigit = false) (s : List Char) :
    (Nat.toDigits 10 n ++ ch :: s).takeWhile Char.isDigit = Nat.toDigits 10 n := by
  rw [takeWhile_append_of_pos fun ch hch =>
      Nat.isDigit_of_mem_toDigits (by decide) (by decide) hch,
    takeWhile_cons_of_neg (by rw [hch]; exact Bool.false_ne_true), append_nil]

theorem scanSize_toDigits {n : Nat} (hn : n < 2 ^ 64) {ch : Char} (hch : ch.isDigit = false)
    (s : List Char) : scanSize (Nat.toDigits 10 n ++ ch :: s) = some (n, ch :: s) := by
  have htake := takeWhile_toDigits n hch s
  rw [scanSize_digits (by rw [htake]; exact Nat.toDigits_ne_nil), htake,
    Nat.ofDigitChars_toDigits (by decide) (by decide), drop_left, if_neg]
  rw [Poolset.sizeMax]
  omega

theorem scanSize_space (s : List Char) : scanSize (' ' :: s) = scanSize s := rfl

def BeginsWithDigit (text : List Char) : Prop := ∃ ch s, text = ch :: s ∧ ch.isDigit = true

theorem beginsWithDigit_line (offset length : Nat) (s : List Char) :
    BeginsWithDigit (line offset length ++ s) := by
  obtain ⟨ch, rest, hcons⟩ :=
    exists_cons_of_ne_nil (Nat.toDigits_ne_nil (n := offset) (b := 10))
  refine ⟨ch, rest ++ (' ' :: (Nat.toDigits 10 length ++ ['\n']) ++ s), ?_, ?_⟩
  · rw [line, hcons, append_assoc, cons_append]
  · exact Nat.isDigit_of_mem_toDigits (by decide) (by decide) (hcons ▸ mem_cons_self)

theorem beginsWithDigit_recoveryFileSave (ranges : List BadBlock) :
    BeginsWithDigit (recoveryFileSave ranges) := by
  cases ranges with
  | nil => exact beginsWithDigit_line 0 0 []
  | cons bb ranges =>
    rw [recoveryFileSave, flatMap_cons, append_assoc]
    exact beginsWithDigit_line _ _ _

theorem scanBadBlock_line {offset length : Nat} (hoffset : offset < 2 ^ 64)
    (hlength : length < 2 ^ 32) (htext : BeginsWithDigit text) :
    scanBadBlock (line offset length ++ text) = some (⟨offset, length, none⟩, text) := by
  have hrest : line offset length ++ text =
      Nat.toDigits 10 offset ++ ' ' :: (Nat.toDigits 10 length ++ '\n' :: text) := by
    rw [line, append_assoc, cons_append, append_assoc]
    rfl
  obtain ⟨ch, s, rfl, hch⟩ := htext
  have hskip : ('\n' :: ch :: s).dropWhile isspace = ch :: s := by
    rw [dropWhile_cons_of_pos (by decide), dropWhile_cons_of_neg (isspace_of_isDigit hch)]
  rw [scanBadBlock, hrest, scanSize_toDigits hoffset (by decide), Option.bind_some]
  dsimp only
  rw [scanSize_space, scanSize_toDigits (by omega) (by decide), Option.map_some]
  dsimp only
  rw [hskip, Nat.mod_eq_of_lt hlength]

theorem recoveryFileSave_cons (bb : BadBlock) (ranges : List BadBlock) :
    recoveryFileSave (bb :: ranges) = line bb.offset bb.length ++ recoveryFileSave ranges := by
  rw [recoveryFileSave, flatMap_cons, append_assoc]
  rfl

theorem readLoop_of_scan {minOffset : Nat} {rest : List Char}
    (h : scanBadBlock text = some (bb, rest)) :
    readLoop text minOffset =
      if bb.offset = 0 ∧ bb.length = 0 then .ok []
      else if bb.offset < minOffset then .error .notSorted
      else (readLoop rest ((bb.offset + bb.length) % 2 ^ 64)).map (bb :: ·) := by
  rw [readLoop]
  split
  next hnone =>
    rw [h] at hnone
    exact absurd hnone nofun
  next bb' rest' hsome =>
    rw [h, Option.some_inj] at hsome
    obtain ⟨rfl, rfl⟩ := Prod.mk.inj hsome
    rfl

structure Storable (bb : BadBlock) : Prop where
  length_lt : bb.length < 2 ^ 32
  end_lt : bb.offset + bb.length < 2 ^ 64
  nhealthy : bb.nhealthy = none

/-- A saved list is read back if it ascends and has no range that looks like its end. -/
theorem readLoop_recoveryFileSave (h : ∀ bb ∈ ranges, Storable bb) (minOffset : Nat) :
    readLoop (recoveryFileSave ranges) minOffset = .ok ranges ↔
      (∀ bb ∈ ranges, minOffset ≤ bb.offset ∧ ¬(bb.offset = 0 ∧ bb.length = 0)) ∧
      ranges.Pairwise fun bb bb' => bb.offset + bb.length ≤ bb'.offset := by
  induction ranges generalizing minOffset with
  | nil =>
    have hscan : scanBadBlock (recoveryFileSave []) = some (⟨0, 0, none⟩, []) := by decide
    rw [readLoop_of_scan hscan]
    exact iff_of_true rfl ⟨fun _ h => absurd h not_mem_nil, List.Pairwise.nil⟩
  | cons bb ranges ih =>
    obtain ⟨hbb, h⟩ := forall_mem_cons.mp h
    have hscan : scanBadBlock (recoveryFileSave (bb :: ranges)) =
        some (bb, recoveryFileSave ranges) := by
      rw [recoveryFileSave_cons, scanBadBlock_line (by have := hbb.end_lt; omega) hbb.length_lt
        (beginsWithDigit_recoveryFileSave ranges), ← hbb.nhealthy]
    rw [readLoop_of_scan hscan, forall_mem_cons, pairwise_cons]
    by_cases hzero : bb.offset = 0 ∧ bb.length = 0
    · rw [if_pos hzero]
      exact iff_of_false nofun fun h => h.1.1.2 hzero
    · rw [if_neg hzero]
      by_cases hlt : bb.offset < minOffset
      · rw [if_pos hlt]
        exact iff_of_false nofun fun h => absurd h.1.1.1 (Nat.not_le.mpr hlt)
      · rw [if_neg hlt, Nat.mod_eq_of_lt hbb.end_lt]
        have hmap : (readLoop (recoveryFileSave ranges) (bb.offset + bb.length)).map (bb :: ·) =
            .ok (bb :: ranges) ↔
              readLoop (recoveryFileSave ranges) (bb.offset + bb.length) = .ok ranges := by
          cases readLoop (recoveryFileSave ranges) (bb.offset + bb.length) with
          | error e => exact iff_of_false nofun nofun
          | ok ranges' => simp [Except.map]
        rw [hmap, ih h]
        constructor
        · rintro ⟨hall, hpairwise⟩
          refine ⟨⟨⟨Nat.not_lt.mp hlt, hzero⟩, fun bb' hbb' => ⟨?_, (hall bb' hbb').2⟩⟩,
            fun bb' hbb' => (hall bb' hbb').1, hpairwise⟩
          have := (hall bb' hbb').1
          omega
        · rintro ⟨⟨-, hall⟩, hlater, hpairwise⟩
          exact ⟨fun bb' hbb' => ⟨hlater bb' hbb', (hall bb' hbb').2⟩, hpairwise⟩

/-! ## The range of a bad block in an extent -/

variable {blksize o : Nat} {exts : List Extent} {e e' : Extent} {bb bb' : BadBlock}

def overlaps (bb : BadBlock) (e : Extent) : Bool :=
  decide (bb.offset < e.offsetPhysical + e.length) &&
    decide (e.offsetPhysical < bb.offset + bb.length)

def fileBeg (bb : BadBlock) (e : Extent) : Nat :=
  max bb.offset e.offsetPhysical - e.offsetPhysical + e.offsetLogical

def fileEnd (bb : BadBlock) (e : Extent) : Nat :=
  min (bb.offset + bb.length) (e.offsetPhysical + e.length) - e.offsetPhysical + e.offsetLogical

def blockBeg (blksize : Nat) (bb : BadBlock) (e : Extent) : Nat := alignDown (fileBeg bb e) blksize

def blockEnd (blksize : Nat) (bb : BadBlock) (e : Extent) : Nat := alignUp (fileEnd bb e) blksize

def firstExtent (exts : List Extent) (bb : BadBlock) : Option Extent := exts.find? (overlaps bb)

structure DeviceBadBlocks (bbs : List BadBlock) : Prop where
  pos : ∀ bb ∈ bbs, 0 < bb.length
  sorted : bbs.Pairwise fun bb bb' => bb.offset + bb.length ≤ bb'.offset

/-- The extents of a file: they are not empty, they are made of whole blocks, and they ascend in the
file and are disjoint on the device. -/
structure FileExtents (blksize : Nat) (exts : List Extent) : Prop where
  pos : ∀ e ∈ exts, 0 < e.length
  aligned : ∀ e ∈ exts, blksize ∣ e.offsetPhysical ∧ blksize ∣ e.offsetLogical ∧ blksize ∣ e.length
  end_lt : ∀ e ∈ exts, e.offsetLogical + e.length < 2 ^ 64
  ascending : exts.Pairwise fun e e' => e.offsetLogical + e.length ≤ e'.offsetLogical
  disjoint : exts.Pairwise fun e e' => e.offsetPhysical + e.length ≤ e'.offsetPhysical ∨
    e'.offsetPhysical + e'.length ≤ e.offsetPhysical

def IsBad (exts : List Extent) (bbs : List BadBlock) (o : Nat) : Prop :=
  ∃ e ∈ exts, e.offsetLogical ≤ o ∧ o < e.offsetLogical + e.length ∧
    ∃ bb ∈ bbs, bb.offset ≤ e.offsetPhysical + (o - e.offsetLogical) ∧
      e.offsetPhysical + (o - e.offsetLogical) < bb.offset + bb.length

/-- The ranges are aligned to blocks, they have all bad bytes of the file and no block without one,
and they are read back from the recovery file in which they are saved. -/
structure Complete (blksize : Nat) (exts : List Extent) (bbs ranges : List BadBlock) : Prop where
  aligned : ∀ bb ∈ ranges, blksize ∣ bb.offset ∧ blksize ∣ bb.length
  covers : ∀ o, IsBad exts bbs o → ∃ bb ∈ ranges, bb.offset ≤ o ∧ o < bb.offset + bb.length
  exact : ∀ bb ∈ ranges, ∀ o, bb.offset ≤ o → o < bb.offset + bb.length →
    ∃ o', o' / blksize = o / blksize ∧ IsBad exts bbs o'
  recovered : recoveryFileRead (recoveryFileSave ranges) = .ok ranges

structure Mappable (blksize : Nat) (exts : List Extent) (bbs : List BadBlock) : Prop where
  extents : exts = [] → bbs = []
  /-- What a bad block has in its first extent has a length of 32 bits, in whole blocks. -/
  length_lt : ∀ bb ∈ bbs, ∀ e, firstExtent exts bb = some e →
    blockEnd blksize bb e - blockBeg blksize bb e < 2 ^ 32
  /-- What it has in another extent is in blocks of which the first extent is that one. -/
  first : ∀ bb ∈ bbs, ∀ e ∈ exts, overlaps bb e = true → ∀ o, fileBeg bb e ≤ o → o < fileEnd bb e →
    ∃ bb' ∈ bbs, firstExtent exts bb' = some e ∧
      blockBeg blksize bb' e ≤ o ∧ o < blockEnd blksize bb' e
  /-- The first extents ascend with the bad blocks, and no two of these have bytes in one block. -/
  ascending : bbs.Pairwise fun bb bb' => ∀ e e', firstExtent exts bb = some e →
    firstExtent exts bb' = some e' → blockEnd blksize bb e ≤ blockBeg blksize bb' e'

theorem overlaps_iff : overlaps bb e = true ↔
    bb.offset < e.offsetPhysical + e.length ∧ e.offsetPhysical < bb.offset + bb.length := by
  rw [overlaps, Bool.and_eq_true, decide_eq_true_eq, decide_eq_true_eq]

theorem fileBeg_lt_fileEnd (hpos : 0 < bb.length) (he : 0 < e.length)
    (h : overlaps bb e = true) : fileBeg bb e < fileEnd bb e := by
  obtain ⟨hlo, hhi⟩ := overlaps_iff.mp h
  unfold fileBeg fileEnd
  omega

theorem offsetLogical_le_fileBeg (bb : BadBlock) (e : Extent) : e.offsetLogical ≤ fileBeg bb e :=
  Nat.le_add_left _ _

theorem fileEnd_le (bb : BadBlock) (e : Extent) : fileEnd bb e ≤ e.offsetLogical + e.length := by
  unfold fileEnd
  omega

theorem isBad_iff {exts : List Extent} {bbs : List BadBlock} {o : Nat} :
    IsBad exts bbs o ↔
      ∃ e ∈ exts, ∃ bb ∈ bbs, overlaps bb e = true ∧ fileBeg bb e ≤ o ∧ o < fileEnd bb e := by
  unfold IsBad fileBeg fileEnd
  constructor
  · rintro ⟨e, he, hlo, hhi, bb, hbb, hbeg, hend⟩
    exact ⟨e, he, bb, hbb, overlaps_iff.mpr (by omega), by omega, by omega⟩
  · rintro ⟨e, he, bb, hbb, hover, hbeg, hend⟩
    obtain ⟨hlo, hhi⟩ := overlaps_iff.mp hover
    exact ⟨e, he, by omega, by omega, bb, hbb, by omega, by omega⟩

theorem le_alignDown {x a m : Nat} (ha : 0 < a) (hm : a ∣ m) (h : m ≤ x) : m ≤ alignDown x a := by
  obtain ⟨q, rfl⟩ := hm
  rw [Nat.mul_comm] at h ⊢
  exact Nat.mul_le_mul_right a ((Nat.le_div_iff_mul_le ha).mpr h)

theorem alignUp_eq {x a : Nat} (ha : 0 < a) (hx : 0 < x) : alignUp x a = ((x - 1) / a + 1) * a := by
  rw [alignUp, ← Nat.add_div_right _ ha]
  congr 2
  omega

theorem alignUp_le {x a m : Nat} (ha : 0 < a) (hm : a ∣ m) (h : x ≤ m) : alignUp x a ≤ m := by
  obtain ⟨q, rfl⟩ := hm
  rw [alignUp, Nat.mul_comm a q] at *
  exact Nat.mul_le_mul_right a (Nat.le_of_lt_succ ((Nat.div_lt_iff_lt_mul ha).mpr (by
    rw [Nat.succ_mul]
    omega)))

theorem FileExtents.blocks (h : FileExtents blksize exts) (hblk : 0 < blksize) (he : e ∈ exts)
    (bb : BadBlock) :
    e.offsetLogical ≤ blockBeg blksize bb e ∧ blockBeg blksize bb e ≤ fileBeg bb e ∧
      fileEnd bb e ≤ blockEnd blksize bb e ∧
        blockEnd blksize bb e ≤ e.offsetLogical + e.length := by
  obtain ⟨-, hlogical, hlength⟩ := h.aligned e he
  exact ⟨le_alignDown hblk hlogical (offsetLogical_le_fileBeg bb e), alignDown_le _ _,
    le_alignUp hblk, alignUp_le hblk (Nat.dvd_add hlogical hlength) (fileEnd_le bb e)⟩

theorem exists_bad_byte (hblk : 0 < blksize) (hlt : fileBeg bb e < fileEnd bb e)
    (hbeg : blockBeg blksize bb e ≤ o) (hend : o < blockEnd blksize bb e) :
    ∃ o', o' / blksize = o / blksize ∧ fileBeg bb e ≤ o' ∧ o' < fileEnd bb e := by
  have hfirst : fileBeg bb e / blksize ≤ o / blksize := by
    rw [Nat.le_div_iff_mul_le hblk]
    exact hbeg
  have hlast : o / blksize ≤ (fileEnd bb e - 1) / blksize := by
    rw [blockEnd, alignUp_eq hblk (Nat.zero_lt_of_lt hlt)] at hend
    exact Nat.le_of_lt_succ ((Nat.div_lt_iff_lt_mul hblk).mpr hend)
  rw [Nat.le_div_iff_mul_le hblk] at hlast
  by_cases hle : fileBeg bb e ≤ o / blksize * blksize
  · exact ⟨o / blksize * blksize, Nat.mul_div_cancel _ hblk, hle, by omega⟩
  · have hge : o / blksize ≤ fileBeg bb e / blksize := by
      rw [Nat.le_div_iff_mul_le hblk]
      omega
    exact ⟨fileBeg bb e, Nat.le_antisymm hfirst hge, Nat.le_refl _, hlt⟩

theorem extentLoop_eq_nil {bbBeg bbEnd : Nat} (h : ∀ e ∈ exts,
    e.offsetPhysical + e.length - 1 < bbBeg ∨ bbEnd < e.offsetPhysical) :
    extentLoop blksize exts bbBeg bbEnd = [] := by
  induction exts with
  | nil => rfl
  | cons e exts ih =>
    obtain ⟨he, h⟩ := forall_mem_cons.mp h
    rw [extentLoop]
    dsimp only
    rw [if_pos he, ih h]

theorem range_eq (blksize : Nat) (hpos : 0 < bb.length) (he : 0 < e.length)
    (hover : overlaps bb e = true) :
    let bbBeg := max bb.offset e.offsetPhysical
    let bbEnd := min (bb.offset + bb.length - 1) (e.offsetPhysical + e.length - 1)
    let bbOff := bbBeg + e.offsetLogical - e.offsetPhysical
    bbOff - bbOff % blksize = blockBeg blksize bb e ∧
      alignUp (bbEnd - bbBeg + 1 + bbOff % blksize) blksize =
        blockEnd blksize bb e - blockBeg blksize bb e := by
  dsimp only
  obtain ⟨hlo, hhi⟩ := overlaps_iff.mp hover
  have hoff :
      max bb.offset e.offsetPhysical + e.offsetLogical - e.offsetPhysical = fileBeg bb e := by
    unfold fileBeg
    omega
  have hmod := Nat.div_add_mod' (fileBeg bb e) blksize
  have hbeg : fileBeg bb e - fileBeg bb e % blksize = blockBeg blksize bb e := by
    rw [blockBeg, alignDown]
    omega
  have hlt := fileBeg_lt_fileEnd hpos he hover
  have hle : blockBeg blksize bb e ≤ fileBeg bb e := alignDown_le _ _
  have hlen : min (bb.offset + bb.length - 1) (e.offsetPhysical + e.length - 1) -
      max bb.offset e.offsetPhysical + 1 = fileEnd bb e - fileBeg bb e := by
    unfold fileBeg fileEnd
    omega
  have hsum : fileEnd bb e - fileBeg bb e + fileBeg bb e % blksize =
      fileEnd bb e - blockBeg blksize bb e := by omega
  rw [hoff, hbeg, hlen, hsum]
  exact ⟨rfl, alignUp_sub (dvd_alignDown _ _) (Nat.le_of_lt (Nat.lt_of_le_of_lt hle hlt))⟩

def rangeOf (blksize : Nat) (bb : BadBlock) (e : Extent) : BadBlock :=
  ⟨blockBeg blksize bb e, (blockEnd blksize bb e - blockBeg blksize bb e) % 2 ^ 32, none⟩

/-- A bad block gives one range, in the first extent that it overlaps. -/
theorem extentLoop_eq (h : FileExtents blksize exts) (hpos : 0 < bb.length) :
    extentLoop blksize exts bb.offset (bb.offset + bb.length - 1) =
      ((firstExtent exts bb).map (rangeOf blksize bb)).toList := by
  obtain ⟨hlengths, -, -, -, hdisjoint⟩ := h
  induction exts with
  | nil => rfl
  | cons e exts ih =>
    obtain ⟨he, hlengths⟩ := forall_mem_cons.mp hlengths
    obtain ⟨hlater, hdisjoint⟩ := pairwise_cons.mp hdisjoint
    rw [extentLoop, firstExtent, find?_cons]
    dsimp only
    cases hover : overlaps bb e with
    | false =>
      rw [if_pos, ih hlengths hdisjoint, firstExtent]
      rw [Bool.eq_false_iff, Ne, overlaps_iff] at hover
      omega
    | true =>
      obtain ⟨hlo, hhi⟩ := overlaps_iff.mp hover
      have hrange := range_eq blksize hpos he hover
      dsimp only at hrange
      rw [if_neg (by omega), hrange.1, hrange.2, extentLoop_eq_nil]
      · rfl
      · intro e' he'
        have := hlater e' he'
        have := hlengths e' he'
        omega

/-! ## All bad blocks -/

variable {bbs : List BadBlock}

theorem osBadblocksGet_eq (hbbs : DeviceBadBlocks bbs) (hexts : FileExtents blksize exts)
    (h : exts = [] → bbs = []) :
    osBadblocksGet blksize exts bbs =
      bbs.filterMap fun bb => (firstExtent exts bb).map (rangeOf blksize bb) := by
  rw [osBadblocksGet]
  split
  next hnil => rw [h hnil, filterMap_nil]
  next =>
    have hpos := hbbs.pos
    clear h hbbs
    induction bbs with
    | nil => rfl
    | cons bb bbs ih =>
      obtain ⟨hbb, hpos⟩ := forall_mem_cons.mp hpos
      rw [flatMap_cons, filterMap_cons, extentLoop_eq hexts hbb, ih hpos]
      cases firstExtent exts bb <;> rfl

theorem mem_ranges {r : BadBlock} :
    r ∈ (bbs.filterMap fun bb => (firstExtent exts bb).map (rangeOf blksize bb)) ↔
      ∃ bb ∈ bbs, ∃ e, firstExtent exts bb = some e ∧ rangeOf blksize bb e = r := by
  simp only [mem_filterMap, Option.map_eq_some_iff]

theorem mem_of_firstExtent (h : firstExtent exts bb = some e) : e ∈ exts ∧ overlaps bb e = true :=
  ⟨mem_of_find?_eq_some h, find?_some h⟩

theorem pairwise_total {α : Type} {R : α → α → Prop} {l : List α} {a b : α} (h : l.Pairwise R)
    (ha : a ∈ l) (hb : b ∈ l) (hne : a ≠ b) : R a b ∨ R b a :=
  have : Std.Symm fun a b => R a b ∨ R b a := ⟨fun _ _ => Or.symm⟩
  (h.imp Or.inl : l.Pairwise fun a b => R a b ∨ R b a).forall ha hb hne

theorem FileExtents.eq_of_mem (h : FileExtents blksize exts) (he : e ∈ exts) (he' : e' ∈ exts)
    (hbeg : e.offsetLogical ≤ o) (hend : o < e.offsetLogical + e.length)
    (hbeg' : e'.offsetLogical ≤ o) (hend' : o < e'.offsetLogical + e'.length) : e = e' := by
  by_contra hne
  have := pairwise_total h.ascending he he' hne
  omega

theorem rangeOf_end_le (blksize : Nat) (hlt : fileBeg bb e < fileEnd bb e) (hblk : 0 < blksize) :
    (rangeOf blksize bb e).offset + (rangeOf blksize bb e).length ≤ blockEnd blksize bb e := by
  have hbeg : blockBeg blksize bb e ≤ fileBeg bb e := alignDown_le _ _
  have hend : fileEnd bb e ≤ blockEnd blksize bb e := le_alignUp hblk
  have hmod := Nat.mod_le (blockEnd blksize bb e - blockBeg blksize bb e) (2 ^ 32)
  unfold rangeOf
  dsimp only
  omega

theorem mem_blocks (hbbs : DeviceBadBlocks bbs) (hexts : FileExtents blksize exts)
    (hblk : 0 < blksize) (hbb : bb ∈ bbs) (hfirst : firstExtent exts bb = some e)
    (hbeg : (rangeOf blksize bb e).offset ≤ o)
    (hend : o < (rangeOf blksize bb e).offset + (rangeOf blksize bb e).length) :
    (blockBeg blksize bb e ≤ o ∧ o < blockEnd blksize bb e) ∧
      e.offsetLogical ≤ o ∧ o < e.offsetLogical + e.length := by
  obtain ⟨he, hover⟩ := mem_of_firstExtent hfirst
  have hlt := fileBeg_lt_fileEnd (hbbs.pos bb hbb) (hexts.pos e he) hover
  have hle := rangeOf_end_le blksize hlt hblk
  obtain ⟨hlo, -, -, hhi⟩ := hexts.blocks hblk he bb
  have hoffset : (rangeOf blksize bb e).offset = blockBeg blksize bb e := rfl
  omega

theorem storable_rangeOf (hbbs : DeviceBadBlocks bbs) (hexts : FileExtents blksize exts)
    (hblk : 0 < blksize) (hbb : bb ∈ bbs) (hfirst : firstExtent exts bb = some e) :
    Storable (rangeOf blksize bb e) := by
  obtain ⟨he, hover⟩ := mem_of_firstExtent hfirst
  have hlt := fileBeg_lt_fileEnd (hbbs.pos bb hbb) (hexts.pos e he) hover
  have hle := rangeOf_end_le blksize hlt hblk
  obtain ⟨-, -, -, hhi⟩ := hexts.blocks hblk he bb
  have hmax := hexts.end_lt e he
  exact ⟨Nat.mod_lt _ (by decide), by omega, rfl⟩

/-- The ranges are read back if the bad blocks give ascending ones that are not empty at 0. -/
theorem recovered_iff (hbbs : DeviceBadBlocks bbs) (hexts : FileExtents blksize exts)
    (hblk : 0 < blksize) (h : exts = [] → bbs = []) :
    recoveryFileRead (recoveryFileSave (osBadblocksGet blksize exts bbs)) =
        .ok (osBadblocksGet blksize exts bbs) ↔
      (∀ bb ∈ bbs, ∀ e, firstExtent exts bb = some e →
        ¬((rangeOf blksize bb e).offset = 0 ∧ (rangeOf blksize bb e).length = 0)) ∧
      bbs.Pairwise fun bb bb' => ∀ e e', firstExtent exts bb = some e →
        firstExtent exts bb' = some e' →
        (rangeOf blksize bb e).offset + (rangeOf blksize bb e).length ≤
          (rangeOf blksize bb' e').offset := by
  rw [osBadblocksGet_eq hbbs hexts h, recoveryFileRead, readLoop_recoveryFileSave,
    pairwise_filterMap]
  · refine and_congr ?_ ?_
    · constructor
      · intro hall bb hbb e hfirst
        exact (hall _ (mem_ranges.mpr ⟨bb, hbb, e, hfirst, rfl⟩)).2
      · intro hall r hr
        obtain ⟨bb, hbb, e, hfirst, rfl⟩ := mem_ranges.mp hr
        exact ⟨Nat.zero_le _, hall bb hbb e hfirst⟩
    · refine ⟨fun hall => hall.imp fun h e e' he he' => ?_,
        fun hall => hall.imp fun h r hr r' hr' => ?_⟩
      · exact h _ (Option.map_eq_some_iff.mpr ⟨e, he, rfl⟩) _
          (Option.map_eq_some_iff.mpr ⟨e', he', rfl⟩)
      · obtain ⟨e, he, rfl⟩ := Option.map_eq_some_iff.mp hr
        obtain ⟨e', he', rfl⟩ := Option.map_eq_some_iff.mp hr'
        exact h e e' he he'
  · intro r hr
    obtain ⟨bb, hbb, e, hfirst, rfl⟩ := mem_ranges.mp hr
    exact storable_rangeOf hbbs hexts hblk hbb hfirst

theorem alignUp_le_alignDown_add {a : Nat} (ha : 0 < a) (x : Nat) :
    alignUp x a ≤ alignDown x a + a := by
  rw [alignUp, alignDown, ← Nat.succ_mul]
  refine Nat.mul_le_mul_right a ?_
  rw [Nat.succ_eq_add_one, ← Nat.add_div_right _ ha]
  exact Nat.div_le_div_right (Nat.sub_le _ 1)

/-- The blocks of a bad block end at most one block behind the beginning of those of a later one. -/
theorem blockEnd_le_add (hblk : 0 < blksize) (hle : bb.offset + bb.length ≤ bb'.offset)
    (hover : overlaps bb e = true) (hover' : overlaps bb' e = true) :
    blockEnd blksize bb e ≤ blockBeg blksize bb' e + blksize := by
  obtain ⟨-, hhi⟩ := overlaps_iff.mp hover
  obtain ⟨hlo, -⟩ := overlaps_iff.mp hover'
  have hfile : fileEnd bb e ≤ fileBeg bb' e := by
    unfold fileEnd fileBeg
    omega
  exact (alignUp_le_alignDown_add hblk _).trans (Nat.add_le_add_right
    (Nat.mul_le_mul_right _ (Nat.div_le_div_right hfile)) _)

theorem Mappable.length_eq (h : Mappable blksize exts bbs) (hbb : bb ∈ bbs)
    (hfirst : firstExtent exts bb = some e) :
    (rangeOf blksize bb e).length = blockEnd blksize bb e - blockBeg blksize bb e :=
  Nat.mod_eq_of_lt (h.length_lt bb hbb e hfirst)

theorem Mappable.end_eq (h : Mappable blksize exts bbs) (hbbs : DeviceBadBlocks bbs)
    (hexts : FileExtents blksize exts) (hblk : 0 < blksize) (hbb : bb ∈ bbs)
    (hfirst : firstExtent exts bb = some e) :
    0 < (rangeOf blksize bb e).length ∧
    (rangeOf blksize bb e).offset + (rangeOf blksize bb e).length = blockEnd blksize bb e := by
  obtain ⟨he, hover⟩ := mem_of_firstExtent hfirst
  have hlt := fileBeg_lt_fileEnd (hbbs.pos bb hbb) (hexts.pos e he) hover
  obtain ⟨-, hbeg, hend, -⟩ := hexts.blocks hblk he bb
  rw [h.length_eq hbb hfirst, rangeOf]
  dsimp only
  omega

theorem Mappable.complete (h : Mappable blksize exts bbs) (hbbs : DeviceBadBlocks bbs)
    (hexts : FileExtents blksize exts) (hblk : 0 < blksize) :
    Complete blksize exts bbs (osBadblocksGet blksize exts bbs) := by
  have heq := osBadblocksGet_eq hbbs hexts h.extents
  refine ⟨fun r hr => ?_, fun o ho => ?_, fun r hr o hbeg hend => ?_, ?_⟩
  · rw [heq] at hr
    obtain ⟨bb, hbb, e, hfirst, rfl⟩ := mem_ranges.mp hr
    refine ⟨dvd_alignDown _ _, ?_⟩
    rw [h.length_eq hbb hfirst]
    exact Nat.dvd_sub (dvd_alignUp _ _) (dvd_alignDown _ _)
  · obtain ⟨e, he, bb, hbb, hover, hbeg, hend⟩ := isBad_iff.mp ho
    obtain ⟨bb', hbb', hfirst, hbeg', hend'⟩ := h.first bb hbb e he hover o hbeg hend
    refine ⟨rangeOf blksize bb' e, heq ▸ mem_ranges.mpr ⟨bb', hbb', e, hfirst, rfl⟩, hbeg', ?_⟩
    rw [(h.end_eq hbbs hexts hblk hbb' hfirst).2]
    exact hend'
  · rw [heq] at hr
    obtain ⟨bb, hbb, e, hfirst, rfl⟩ := mem_ranges.mp hr
    obtain ⟨he, hover⟩ := mem_of_firstExtent hfirst
    obtain ⟨⟨hbeg, hend⟩, -⟩ := mem_blocks hbbs hexts hblk hbb hfirst hbeg hend
    obtain ⟨o', hblock, hbad⟩ := exists_bad_byte hblk
      (fileBeg_lt_fileEnd (hbbs.pos bb hbb) (hexts.pos e he) hover) hbeg hend
    exact ⟨o', hblock, isBad_iff.mpr ⟨e, he, bb, hbb, hover, hbad⟩⟩
  · refine (recovered_iff hbbs hexts hblk h.extents).mpr ⟨fun bb hbb e hfirst hzero => ?_, ?_⟩
    · have := (h.end_eq hbbs hexts hblk hbb hfirst).1
      omega
    · refine (pairwise_iff_get.mp h.ascending |> fun hget => pairwise_iff_get.mpr ?_)
      intro i j hij e e' he he'
      rw [(h.end_eq hbbs hexts hblk (get_mem _ i) he).2]
      exact hget i j hij e e' he he'

/-- A bad byte that is in the ranges is in the blocks of a bad block of which the first extent is
the one of the byte. -/
theorem Complete.covered (h : Complete blksize exts bbs (osBadblocksGet blksize exts bbs))
    (hbbs : DeviceBadBlocks bbs) (hexts : FileExtents blksize exts) (hblk : 0 < blksize)
    (hempty : exts = [] → bbs = []) (hbb : bb ∈ bbs) (he : e ∈ exts)
    (hover : overlaps bb e = true) (hbeg : fileBeg bb e ≤ o) (hend : o < fileEnd bb e) :
    ∃ bb' ∈ bbs, firstExtent exts bb' = some e ∧ (rangeOf blksize bb' e).offset ≤ o ∧
      o < (rangeOf blksize bb' e).offset + (rangeOf blksize bb' e).length := by
  obtain ⟨r, hr, hrbeg, hrend⟩ := h.covers o (isBad_iff.mpr ⟨e, he, bb, hbb, hover, hbeg, hend⟩)
  rw [osBadblocksGet_eq hbbs hexts hempty] at hr
  obtain ⟨bb', hbb', e', hfirst, rfl⟩ := mem_ranges.mp hr
  obtain ⟨-, hlo, hhi⟩ := mem_blocks hbbs hexts hblk hbb' hfirst hrbeg hrend
  have hle := fileEnd_le bb e
  have hge := offsetLogical_le_fileBeg bb e
  obtain rfl := hexts.eq_of_mem he (mem_of_firstExtent hfirst).1 (by omega) (by omega) hlo hhi
  exact ⟨bb', hbb', hfirst, hrbeg, hrend⟩

/-- A length that is cut off leaves out a block that no other range has. -/
theorem Complete.length_lt {k : Nat}
    (h : Complete (2 ^ k) exts bbs (osBadblocksGet (2 ^ k) exts bbs))
    (hbbs : DeviceBadBlocks bbs) (hexts : FileExtents (2 ^ k) exts)
    (hempty : exts = [] → bbs = []) (hbb : bb ∈ bbs) (hfirst : firstExtent exts bb = some e) :
    blockEnd (2 ^ k) bb e - blockBeg (2 ^ k) bb e < 2 ^ 32 := by
  have hblk : 0 < 2 ^ k := Nat.two_pow_pos k
  obtain ⟨he, hover⟩ := mem_of_firstExtent hfirst
  have hdvd : ∀ bb : BadBlock, 2 ^ k ∣ blockEnd (2 ^ k) bb e - blockBeg (2 ^ k) bb e := fun bb =>
    Nat.dvd_sub (dvd_alignUp _ _) (dvd_alignDown _ _)
  by_contra hge
  have hdiv := Nat.div_add_mod (blockEnd (2 ^ k) bb e - blockBeg (2 ^ k) bb e) (2 ^ 32)
  have hone : 1 ≤ (blockEnd (2 ^ k) bb e - blockBeg (2 ^ k) bb e) / 2 ^ 32 :=
    (Nat.one_le_div_iff (by decide)).mpr (Nat.not_lt.mp hge)
  have hr : (rangeOf (2 ^ k) bb e).length =
      (blockEnd (2 ^ k) bb e - blockBeg (2 ^ k) bb e) % 2 ^ 32 := rfl
  have hr' : (rangeOf (2 ^ k) bb e).offset = blockBeg (2 ^ k) bb e := rfl
  -- the first block behind the range of the bad block itself
  obtain ⟨o, hblock, hbeg, hend⟩ := exists_bad_byte
    (o := blockBeg (2 ^ k) bb e + (rangeOf (2 ^ k) bb e).length) hblk
    (fileBeg_lt_fileEnd (hbbs.pos bb hbb) (hexts.pos e he) hover) (by omega) (by omega)
  obtain ⟨bb', hbb', hfirst', hrbeg, hrend⟩ :=
    h.covered hbbs hexts hblk hempty hbb he hover hbeg hend
  rcases Nat.lt_or_ge k 32 with hk | hk
  · have hlength : 2 ^ k ∣ (rangeOf (2 ^ k) bb e).length :=
      (Nat.dvd_mod_iff (Nat.pow_dvd_pow 2 hk.le)).mpr (hdvd bb)
    have hle : 2 ^ k ≤ 2 ^ 31 := Nat.pow_le_pow_right (by decide) (Nat.le_of_lt_succ hk)
    obtain ⟨hge', hlt'⟩ : blockBeg (2 ^ k) bb e + (rangeOf (2 ^ k) bb e).length ≤ o ∧
        o < blockBeg (2 ^ k) bb e + (rangeOf (2 ^ k) bb e).length + 2 ^ k := by
      have hexact := Nat.div_mul_cancel (Nat.dvd_add (dvd_alignDown (fileBeg bb e) (2 ^ k)) hlength)
      have ho := Nat.div_add_mod' o (2 ^ k)
      have hmod := Nat.mod_lt o hblk
      rw [hblock] at ho
      unfold blockBeg at *
      omega
    by_cases heq : bb = bb'
    · subst heq
      omega
    · have hpairs := hbbs.sorted.and ((recovered_iff hbbs hexts hblk hempty).mp h.recovered).2
      rcases pairwise_total hpairs hbb hbb' heq with ⟨hbefore, -⟩ | ⟨-, hafter⟩
      · have := blockEnd_le_add hblk hbefore hover (mem_of_firstExtent hfirst').2
        have : (rangeOf (2 ^ k) bb' e).offset = blockBeg (2 ^ k) bb' e := rfl
        omega
      · have := hafter e e hfirst' hfirst
        omega
  · -- all lengths are cut off to 0
    have hzero : (rangeOf (2 ^ k) bb' e).length = 0 :=
      Nat.mod_eq_zero_of_dvd ((Nat.pow_dvd_pow 2 hk).trans (hdvd bb'))
    omega

theorem Complete.mappable {k : Nat}
    (h : Complete (2 ^ k) exts bbs (osBadblocksGet (2 ^ k) exts bbs)) (hbbs : DeviceBadBlocks bbs)
    (hexts : FileExtents (2 ^ k) exts) : Mappable (2 ^ k) exts bbs := by
  have hblk : 0 < 2 ^ k := Nat.two_pow_pos k
  have hempty : exts = [] → bbs = [] := by
    intro hnil
    rw [hnil] at h
    by_contra hne
    obtain ⟨bb, rest, rfl⟩ := exists_cons_of_ne_nil hne
    have hpos := hbbs.pos bb mem_cons_self
    obtain ⟨o', -, e, he, -⟩ := h.exact bb mem_cons_self bb.offset (Nat.le_refl _) (by omega)
    exact absurd he not_mem_nil
  have hrecovered := (recovered_iff hbbs hexts hblk hempty).mp h.recovered
  have hlength : ∀ bb ∈ bbs, ∀ e, firstExtent exts bb = some e →
      blockEnd (2 ^ k) bb e - blockBeg (2 ^ k) bb e < 2 ^ 32 :=
    fun bb hbb e hfirst => h.length_lt hbbs hexts hempty hbb hfirst
  refine ⟨hempty, hlength, fun bb hbb e he hover o hbeg hend => ?_, ?_⟩
  · obtain ⟨bb', hbb', hfirst, hrbeg, hrend⟩ :=
      h.covered hbbs hexts hblk hempty hbb he hover hbeg hend
    exact ⟨bb', hbb', hfirst, (mem_blocks hbbs hexts hblk hbb' hfirst hrbeg hrend).1⟩
  · refine pairwise_iff_get.mpr fun i j hij e e' hfirst hfirst' => ?_
    have hle := pairwise_iff_get.mp hrecovered.2 i j hij e e' hfirst hfirst'
    have hlt := hlength _ (get_mem bbs i) e hfirst
    unfold rangeOf at hle
    dsimp only at hle
    rw [Nat.mod_eq_of_lt hlt] at hle
    omega

/-- The ranges of a file are complete for the bad blocks that can be mapped, and only for these. -/
theorem osBadblocksGet_complete_iff {k : Nat} (hbbs : DeviceBadBlocks bbs)
    (hexts : FileExtents (2 ^ k) exts) :
    Complete (2 ^ k) exts bbs (osBadblocksGet (2 ^ k) exts bbs) ↔ Mappable (2 ^ k) exts bbs :=
  ⟨fun h => h.mappable hbbs hexts, fun h => h.complete hbbs hexts (Nat.two_pow_pos k)⟩

theorem osBadblocksGet_complete_sector :
    osBadblocksGet (2 ^ 12) [⟨16384, 0, 8192⟩] [⟨16896, 512, none⟩] = [⟨0, 4096, none⟩] ∧
      Complete (2 ^ 12) [⟨16384, 0, 8192⟩] [⟨16896, 512, none⟩]
        (osBadblocksGet (2 ^ 12) [⟨16384, 0, 8192⟩] [⟨16896, 512, none⟩]) := by
  have hfirst : firstExtent [⟨16384, 0, 8192⟩] ⟨16896, 512, none⟩ = some ⟨16384, 0, 8192⟩ := rfl
  refine ⟨rfl, (osBadblocksGet_complete_iff
    ⟨List.forall_mem_singleton.mpr (by decide), List.pairwise_singleton _ _⟩
    ⟨List.forall_mem_singleton.mpr (by decide), List.forall_mem_singleton.mpr (by decide),
      List.forall_mem_singleton.mpr (by decide), List.pairwise_singleton _ _,
      List.pairwise_singleton _ _⟩).mpr ⟨nofun, ?_, ?_, List.pairwise_singleton _ _⟩⟩
  · refine List.forall_mem_singleton.mpr fun e he => ?_
    obtain rfl := Option.some.inj (hfirst.symm.trans he)
    decide
  · refine List.forall_mem_singleton.mpr (List.forall_mem_singleton.mpr fun _ o hlo hhi => ?_)
    exact ⟨_, List.mem_singleton_self _, hfirst,
      Nat.le_trans (by decide) hlo, Nat.lt_of_lt_of_le hhi (by decide)⟩

def twoExtents : List Extent := [⟨16384, 0, 4096⟩, ⟨20480, 8192, 4096⟩]

/-- Of a bad block that lies in both extents only the block in the first one is reported. -/
theorem not_complete_twoExtents :
    DeviceBadBlocks [⟨19968, 1024, none⟩] ∧ FileExtents (2 ^ 12) twoExtents ∧
      ¬Complete (2 ^ 12) twoExtents [⟨19968, 1024, none⟩]
        (osBadblocksGet (2 ^ 12) twoExtents [⟨19968, 1024, none⟩]) := by
  refine ⟨⟨List.forall_mem_singleton.mpr (by decide), List.pairwise_singleton _ _⟩,
    ⟨by decide, by decide, by decide, by decide, by decide⟩, fun h => ?_⟩
  have hranges : osBadblocksGet (2 ^ 12) twoExtents [⟨19968, 1024, none⟩] = [⟨0, 4096, none⟩] := by
    decide
  have hbad : IsBad twoExtents [⟨19968, 1024, none⟩] 8192 :=
    ⟨⟨20480, 8192, 4096⟩, List.mem_cons_of_mem _ List.mem_cons_self, by decide, by decide,
      ⟨19968, 1024, none⟩, List.mem_cons_self, by decide, by decide⟩
  obtain ⟨r, hr, -, hend⟩ := h.covers 8192 hbad
  rw [hranges, List.mem_singleton] at hr
  subst hr
  exact absurd hend (by decide)

end Pmdk.BadFile
