import Pmdk.Obj.Bytes
import Mathlib.Algebra.BigOperators.Group.List.Basic

/-!
# Buffer entries of a ulog

`ulog_entry_buf_create` writes a buffer entry in up to three pieces: the whole cachelines in the
middle of the data, a last cacheline that is padded with zeroes, and at the end the first cacheline,
with 24 bytes of metadata and 40 bytes of data. The checksum is collected piece by piece.
-/

namespace Pmdk.UlogEntry

open Bytes Checksum List

def CACHELINE_SIZE : Nat := 64

/-- `sizeof(struct ulog_entry_buf)`. -/
def entryBufSize : Nat := 24

inductive BufType
  | bufSet
  | bufCpy
  deriving DecidableEq

/-- `ULOG_OPERATION_BUF_SET` and `ULOG_OPERATION_BUF_CPY`, shifted down. -/
def BufType.code : BufType → UInt64
  | .bufSet => 5
  | .bufCpy => 6

/-! ## Reading an entry -/

def entryType (m : Bytes) (e : Nat) : Nat := (m.loadWord e).toNat / 2 ^ 61

def entryOffset (m : Bytes) (e : Nat) : Nat := (m.loadWord e).toNat % 2 ^ 61

/-- `ulog_entry_size` of a buffer entry, in the arithmetic of `size_t`. -/
def entrySize (m : Bytes) (e : Nat) : Nat :=
  (entryBufSize + (m.loadWord (e + 16)).toNat + 63) % 2 ^ 64 / 64 * 64

/-- `ulog_entry_valid` of a buffer entry. -/
def entryValid (m : Bytes) (e : Nat) : Bool :=
  if m.loadWord e = 0 then false
  else utilChecksum (m.readBytes e (entrySize m e)) 2 = m.loadWord (e + 8)

/-- `ulog_entry_apply` of a `BUF_CPY` entry. -/
def applyCpy (m : Bytes) (e : Nat) : Bytes :=
  m.writeBytes (entryOffset m e) (m.readBytes (e + entryBufSize) (m.loadWord (e + 16)).toNat)

/-! ## Creating an entry -/

def ncopy (size : Nat) : Nat := min size (CACHELINE_SIZE - entryBufSize)

def remainingSize (size : Nat) : Nat := if ncopy size > size then 0 else size - ncopy size

def rcopy (size : Nat) : Nat := remainingSize size / 64 * 64

def lcopy (size : Nat) : Nat := remainingSize size - rcopy size

/-- The first cacheline `b`. -/
def firstCacheline (offset checksum : UInt64) (src : List UInt8) : List UInt8 :=
  le64 offset ++ le64 checksum ++ (le64 (UInt64.ofNat src.length) ++
    (src.take (ncopy src.length) ++
      List.replicate (CACHELINE_SIZE - entryBufSize - ncopy src.length) 0))

def middle (src : List UInt8) : List UInt8 :=
  (src.drop (ncopy src.length)).take (rcopy src.length)

/-- The array `last_cacheline`. -/
def lastCacheline (src : List UInt8) : List UInt8 :=
  src.drop (ncopy src.length + rcopy src.length) ++
    List.replicate (CACHELINE_SIZE - lcopy src.length) 0

def baseOffset (dest : Nat) (type : BufType) : UInt64 :=
  UInt64.ofNat dest ||| type.code <<< 61

def checksum (offset : UInt64) (src : List UInt8) : UInt64 :=
  let csum := utilChecksumSeq (firstCacheline offset 0 src) 0
  let csum := if rcopy src.length ≠ 0 then utilChecksumSeq (middle src) csum else csum
  if lcopy src.length ≠ 0 then utilChecksumSeq (lastCacheline src) csum else csum

/-- The copies of `ulog_entry_buf_create` in order, with their addresses. -/
def copies (e dest : Nat) (src : List UInt8) (type : BufType) : List (Nat × List UInt8) :=
  let data := e + entryBufSize
  (if rcopy src.length ≠ 0 then [(data + ncopy src.length, middle src)] else []) ++
  (if lcopy src.length ≠ 0 then
    [(data + ncopy src.length + rcopy src.length, lastCacheline src)] else []) ++
  [(e, firstCacheline (baseOffset dest type) (checksum (baseOffset dest type) src) src)]

def bufCreate (m : Bytes) (e dest : Nat) (src : List UInt8) (type : BufType) : Bytes :=
  (copies e dest src type).foldl (fun m c => m.writeBytes c.1 c.2) m

/-! ## The bytes of an entry -/

def tail (src : List UInt8) : List UInt8 :=
  middle src ++ if lcopy src.length ≠ 0 then lastCacheline src else []

theorem remainingSize_eq (size : Nat) : remainingSize size = size - 40 := by
  have hncopy : ncopy size = min size 40 := rfl
  have hle : ¬ ncopy size > size := by omega
  rw [remainingSize, if_neg hle]
  omega

theorem length_firstCacheline (offset csum : UInt64) (src : List UInt8) :
    (firstCacheline offset csum src).length = 64 := by
  unfold firstCacheline ncopy
  simp only [length_append, length_le64, length_take, length_replicate,
    CACHELINE_SIZE, entryBufSize]
  omega

theorem length_middle (src : List UInt8) : (middle src).length = rcopy src.length := by
  unfold middle rcopy ncopy
  rw [remainingSize_eq, length_take, length_drop]
  simp only [CACHELINE_SIZE, entryBufSize]
  omega

theorem length_lastCacheline (src : List UInt8) : (lastCacheline src).length = 64 := by
  unfold lastCacheline lcopy rcopy ncopy
  rw [remainingSize_eq, length_append, length_drop, length_replicate]
  simp only [CACHELINE_SIZE, entryBufSize]
  omega

theorem ncopy_of_rest {size : Nat} (h : remainingSize size ≠ 0) : ncopy size = 40 := by
  rw [remainingSize_eq] at h
  unfold ncopy
  simp only [CACHELINE_SIZE, entryBufSize]
  omega

theorem bufCreate_eq (m : Bytes) (e dest : Nat) (src : List UInt8) (type : BufType) :
    bufCreate m e dest src type = m.writeBytes e
      (firstCacheline (baseOffset dest type) (checksum (baseOffset dest type) src) src ++
        tail src) := by
  rw [writeBytes_append, length_firstCacheline, writeBytes_comm _
    (Nat.le_of_eq (by rw [length_firstCacheline]))]
  unfold bufCreate copies
  rw [foldl_append, foldl_append, foldl_cons, foldl_nil]
  dsimp only
  congr 1
  unfold tail
  rw [writeBytes_append, length_middle]
  have hmiddle : (if rcopy src.length ≠ 0 then
      [(e + entryBufSize + ncopy src.length, middle src)] else []).foldl
        (fun m c => m.writeBytes c.1 c.2) m = m.writeBytes (e + 64) (middle src) := by
    split
    · rename_i hr
      have hrest : remainingSize src.length ≠ 0 := by
        intro hzero
        exact hr (by rw [rcopy, hzero])
      rw [foldl_cons, foldl_nil, ncopy_of_rest hrest]
      rfl
    · rename_i hr
      rw [not_not] at hr
      have hnil : middle src = [] := eq_nil_of_length_eq_zero ((length_middle src).trans hr)
      rw [hnil, writeBytes_nil]
      rfl
  rw [hmiddle]
  split
  · rename_i hl
    have hrest : remainingSize src.length ≠ 0 := by
      intro hzero
      exact hl (by rw [lcopy, hzero, Nat.zero_sub])
    rw [foldl_cons, foldl_nil, ncopy_of_rest hrest]
    rfl
  · rw [writeBytes_nil]
    rfl

theorem data_append_tail (src : List UInt8) :
    src.take (ncopy src.length) ++
        List.replicate (CACHELINE_SIZE - entryBufSize - ncopy src.length) 0 ++ tail src =
      src ++ List.replicate ((entryBufSize + src.length + 63) / 64 * 64 -
        (entryBufSize + src.length)) 0 := by
  unfold tail middle lastCacheline lcopy rcopy
  rw [remainingSize_eq]
  by_cases hsmall : src.length ≤ 40
  · have hncopy : ncopy src.length = src.length := by
      unfold ncopy
      simp only [CACHELINE_SIZE, entryBufSize]
      omega
    have hzero : src.length - 40 = 0 := by omega
    rw [hzero, hncopy, take_length]
    simp only [CACHELINE_SIZE, entryBufSize, Nat.zero_div, Nat.zero_mul, take_zero,
      ne_eq, not_true_eq_false, if_false, append_nil]
    congr 2
    omega
  · have hncopy : ncopy src.length = 40 := ncopy_of_rest (by rw [remainingSize_eq]; omega)
    rw [hncopy]
    simp only [CACHELINE_SIZE, entryBufSize, Nat.sub_self, replicate_zero, append_nil]
    have hmiddle : (src.drop 40).take ((src.length - 40) / 64 * 64) ++
        src.drop (40 + (src.length - 40) / 64 * 64) = src.drop 40 := by
      rw [← drop_drop, take_append_drop]
    split
    · rw [← append_assoc (List.take _ (src.drop 40)), hmiddle, ← append_assoc, take_append_drop]
      congr 2
      omega
    · have hnil : src.drop (40 + (src.length - 40) / 64 * 64) = [] :=
        drop_eq_nil_iff.mpr (by omega)
      rw [hnil, append_nil] at hmiddle
      rw [append_nil, hmiddle, take_append_drop]
      have hpad : (24 + src.length + 63) / 64 * 64 - (24 + src.length) = 0 := by omega
      rw [hpad, replicate_zero, append_nil]

theorem entryBytes_eq (offset csum : UInt64) (src : List UInt8) :
    firstCacheline offset csum src ++ tail src =
      le64 offset ++ (le64 csum ++ (le64 (UInt64.ofNat src.length) ++ (src ++
        List.replicate ((entryBufSize + src.length + 63) / 64 * 64 -
          (entryBufSize + src.length)) 0))) := by
  rw [← data_append_tail, firstCacheline]
  simp only [append_assoc]

theorem length_entryBytes (offset csum : UInt64) (src : List UInt8) :
    (firstCacheline offset csum src ++ tail src).length =
      (entryBufSize + src.length + 63) / 64 * 64 := by
  rw [entryBytes_eq]
  simp only [length_append, length_le64, length_replicate, entryBufSize]
  omega

theorem checksum_eq (offset : UInt64) (src : List UInt8) :
    checksum offset src = utilChecksumSeq (firstCacheline offset 0 src ++ tail src) 0 := by
  have hfirst : 4 ∣ (firstCacheline offset 0 src).length := by
    rw [length_firstCacheline]
    decide
  have hmiddle : 4 ∣ (middle src).length := by
    rw [length_middle, rcopy]
    omega
  unfold checksum tail
  dsimp only
  rw [← utilChecksumSeq_append hfirst, ← utilChecksumSeq_append hmiddle]
  have hskip : (if rcopy src.length ≠ 0 then
      utilChecksumSeq (middle src) (utilChecksumSeq (firstCacheline offset 0 src) 0)
      else utilChecksumSeq (firstCacheline offset 0 src) 0) =
        utilChecksumSeq (middle src) (utilChecksumSeq (firstCacheline offset 0 src) 0) := by
    split
    · rfl
    · rename_i hr
      rw [not_not] at hr
      have hnil : middle src = [] := eq_nil_of_length_eq_zero ((length_middle src).trans hr)
      rw [hnil, utilChecksumSeq_nil]
  rw [hskip]
  split
  · rfl
  · rw [utilChecksumSeq_nil]

/-! ## Reading what was created -/

theorem toNat_baseOffset {dest : Nat} (hdest : dest < 2 ^ 61) (type : BufType) :
    (baseOffset dest type).toNat = dest + type.code.toNat * 2 ^ 61 := by
  unfold baseOffset
  rw [UInt64.toNat_or, UInt64.toNat_ofNat_of_lt' (by show _ < 2 ^ 64; omega)]
  have hcode : (type.code <<< 61).toNat = 2 ^ 61 * type.code.toNat := by
    cases type <;> rfl
  rw [hcode, Nat.or_comm, ← Nat.two_pow_add_eq_or_of_lt hdest]
  omega

theorem baseOffset_div (dest : Nat) (hdest : dest < 2 ^ 61) (type : BufType) :
    (baseOffset dest type).toNat / 2 ^ 61 = type.code.toNat := by
  rw [toNat_baseOffset hdest]
  omega

theorem baseOffset_mod (dest : Nat) (hdest : dest < 2 ^ 61) (type : BufType) :
    (baseOffset dest type).toNat % 2 ^ 61 = dest := by
  rw [toNat_baseOffset hdest]
  omega

/-- The words and the data that are read from a created entry. -/
theorem bufCreate_read (m : Bytes) (e dest : Nat) (src : List UInt8) (type : BufType) :
    let m' := bufCreate m e dest src type
    let offset := baseOffset dest type
    m'.loadWord e = offset ∧ m'.loadWord (e + 8) = checksum offset src ∧
      m'.loadWord (e + 16) = UInt64.ofNat src.length ∧
      m'.readBytes (e + entryBufSize) src.length = src ∧
      m'.readBytes e ((entryBufSize + src.length + 63) / 64 * 64) =
        firstCacheline offset (checksum offset src) src ++ tail src := by
  intro m' offset
  have hread := readBytes_writeBytes m e
    (firstCacheline offset (checksum offset src) src ++ tail src)
  rw [← bufCreate_eq, entryBytes_eq] at hread
  have hall := hread
  rw [← entryBytes_eq, length_entryBytes] at hall
  obtain ⟨hoffset, hread⟩ := readBytes_of_append hread
  obtain ⟨hcsum, hread⟩ := readBytes_of_append hread
  obtain ⟨hsize, hread⟩ := readBytes_of_append hread
  obtain ⟨hdata, -⟩ := readBytes_of_append hread
  exact ⟨loadWord_of_readBytes hoffset, loadWord_of_readBytes hcsum, loadWord_of_readBytes hsize,
    hdata, hall⟩

theorem sum_copies (e dest : Nat) (src : List UInt8) (type : BufType) :
    ((copies e dest src type).map fun c => c.2.length).sum =
      (entryBufSize + src.length + 63) / 64 * 64 := by
  have hmiddle := length_middle src
  have hncopy : ncopy src.length = min src.length 40 := rfl
  have hrcopy : rcopy src.length = (src.length - 40) / 64 * 64 := by
    rw [rcopy, remainingSize_eq]
  have hlcopy : lcopy src.length = src.length - 40 - rcopy src.length := by
    rw [lcopy, remainingSize_eq]
  unfold copies
  rw [map_append, map_append, sum_append, sum_append]
  simp only [entryBufSize]
  split <;> split <;>
    simp only [map_cons, map_nil, sum_cons, sum_nil, hmiddle,
      length_lastCacheline, length_firstCacheline] <;> omega

/-- An entry that has been created is valid, its size is the number of bytes that have been
written, no other byte has changed, and its type, its offset and its data are the given ones.
The entry has to lie in the address space. -/
theorem bufCreate_valid (m : Bytes) (e : Nat) {dest : Nat} {src : List UInt8} (type : BufType)
    (hdest : dest < 2 ^ 61) (hfit : entryBufSize + src.length + 63 < 2 ^ 64) :
    let m' := bufCreate m e dest src type
    entryValid m' e = true ∧
      entrySize m' e = ((copies e dest src type).map fun c => c.2.length).sum ∧
      (∀ x, x < e ∨ e + entrySize m' e ≤ x → m' x = m x) ∧
      entryType m' e = type.code.toNat ∧ entryOffset m' e = dest ∧
      applyCpy m' e = m'.writeBytes dest src := by
  intro m'
  obtain ⟨hoffset, hcsum, hlen, hdata, hall⟩ := bufCreate_read m e dest src type
  have hlength : (m'.loadWord (e + 16)).toNat = src.length := by
    rw [hlen, UInt64.toNat_ofNat_of_lt']
    show src.length < 2 ^ 64
    omega
  have hentry : entrySize m' e = (entryBufSize + src.length + 63) / 64 * 64 := by
    rw [entrySize, hlength, Nat.mod_eq_of_lt hfit]
  have hdecoded : entryOffset m' e = dest := by
    rw [entryOffset, hoffset]
    exact baseOffset_mod dest hdest type
  refine ⟨?_, ?_, ?_, ?_, hdecoded, ?_⟩
  · have hne : m'.loadWord e ≠ 0 := by
      intro hzero
      have hword := toNat_baseOffset hdest type
      have hcode : 0 < type.code.toNat := by cases type <;> decide
      rw [← hoffset, hzero, UInt64.toNat_zero] at hword
      omega
    rw [entryValid, if_neg hne, hentry, hall, hcsum, checksum_eq]
    refine decide_eq_true ?_
    rw [firstCacheline, List.append_assoc, utilChecksum_eq_seq, ← List.append_assoc]
    rfl
  · rw [hentry, sum_copies]
  · intro x hx
    rw [hentry] at hx
    have heq : m' = _ := bufCreate_eq m e dest src type
    rw [heq]
    refine writeBytes_of_not_mem m ?_
    rw [length_entryBytes]
    exact hx
  · rw [entryType, hoffset]
    exact baseOffset_div dest hdest type
  · rw [applyCpy, hdecoded, hlength, hdata]

/-- An entry of three bytes. -/
theorem bufCreate_valid_three :
    entryValid (bufCreate (fun _ => 0) 4096 65536 [1, 2, 3] .bufCpy) 4096 = true ∧
      entrySize (bufCreate (fun _ => 0) 4096 65536 [1, 2, 3] .bufCpy) 4096 = 64 ∧
      applyCpy (bufCreate (fun _ => 0) 4096 65536 [1, 2, 3] .bufCpy) 4096 =
        (bufCreate (fun _ => 0) 4096 65536 [1, 2, 3] .bufCpy).writeBytes 65536 [1, 2, 3] := by
  obtain ⟨hvalid, hsize, -, -, -, happly⟩ :=
    bufCreate_valid (fun _ => 0) 4096 .bufCpy (by decide : 65536 < 2 ^ 61)
      (by decide : entryBufSize + [(1 : UInt8), 2, 3].length + 63 < 2 ^ 64)
  exact ⟨hvalid, hsize.trans (by decide), happly⟩

end Pmdk.UlogEntry
