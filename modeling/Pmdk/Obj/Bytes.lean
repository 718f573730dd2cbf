import Mathlib.Data.BitVec
import Mathlib.Data.List.GetD
import Mathlib.Tactic.IntervalCases

/-!
# Memory as bytes

The bytes of the pool by offset, and the 8-byte words that the code reads and writes in them,
least significant byte first. `bit` looks at a single bit of the memory: a word that is stored
or loaded is described by its bits.
-/

namespace Pmdk

open List

abbrev Bytes := Nat → UInt8

/-- The byte `i` of a word. -/
def byteOf (w : UInt64) (i : Nat) : UInt8 := ⟨w.toBitVec.extractLsb' (8 * i) 8⟩

namespace Bytes

def bit (m : Bytes) (x : Nat) (j : Fin 8) : Bool := (m x).toBitVec.getLsbD j

def loadWord (m : Bytes) (a : Nat) : UInt64 :=
  ⟨(m (a + 7)).toBitVec ++ (m (a + 6)).toBitVec ++ (m (a + 5)).toBitVec ++
    (m (a + 4)).toBitVec ++ (m (a + 3)).toBitVec ++ (m (a + 2)).toBitVec ++
    (m (a + 1)).toBitVec ++ (m a).toBitVec⟩

def storeWord (m : Bytes) (a : Nat) (w : UInt64) : Bytes :=
  fun x => if a ≤ x ∧ x < a + 8 then byteOf w (x - a) else m x

variable {m : Bytes}

theorem ext_bit {m' : Bytes} (h : m.bit = m'.bit) : m = m' := by
  funext x
  apply UInt8.toBitVec_inj.mp
  apply BitVec.eq_of_getLsbD_eq
  intro j hj
  exact congrFun (congrFun h x) ⟨j, hj⟩

theorem bit_byteOf (w : UInt64) (i : Nat) (j : Fin 8) :
    (byteOf w i).toBitVec.getLsbD j = w.toBitVec.getLsbD (8 * i + j) := by
  have hj := j.isLt
  simp [byteOf, hj]

theorem bit_loadWord (m : Bytes) (a : Nat) {i : Nat} (hi : i < 8) (j : Fin 8) :
    (m.loadWord a).toBitVec.getLsbD (8 * i + j) = m.bit (a + i) j := by
  have hj := j.isLt
  simp only [loadWord, BitVec.getLsbD_append, bit]
  interval_cases i
  all_goals
    simp only [Nat.reduceMul, Nat.zero_add, Nat.add_zero]
    repeat' split
  all_goals first | omega | (congr 1 <;> omega)

variable {a : Nat}

theorem bit_storeWord_of_mem (m : Bytes) {x : Nat} (w : UInt64) (h : a ≤ x ∧ x < a + 8)
    (j : Fin 8) : (m.storeWord a w).bit x j = w.toBitVec.getLsbD (8 * (x - a) + j) := by
  rw [bit, storeWord, if_pos h, bit_byteOf]

theorem bit_storeWord_of_not_mem (m : Bytes) {x : Nat} (w : UInt64)
    (h : ¬ (a ≤ x ∧ x < a + 8)) (j : Fin 8) : (m.storeWord a w).bit x j = m.bit x j := by
  rw [bit, storeWord, if_neg h]
  rfl

theorem loadWord_eq {w : UInt64} (h : ∀ i < 8, m (a + i) = byteOf w i) : m.loadWord a = w := by
  apply UInt64.toBitVec_inj.mp
  apply BitVec.eq_of_getLsbD_eq
  intro k hk
  have hload := bit_loadWord m a (show k / 8 < 8 by omega) ⟨k % 8, Nat.mod_lt _ (by decide)⟩
  have hbyte := bit_byteOf w (k / 8) ⟨k % 8, Nat.mod_lt _ (by decide)⟩
  simp only [Nat.div_add_mod] at hload hbyte
  rw [hload, bit, h _ (by omega), hbyte]

/-! ## Lists of bytes -/

/-- `memcpy` to an address. -/
def writeBytes (m : Bytes) (a : Nat) (bs : List UInt8) : Bytes :=
  fun x => if a ≤ x ∧ x < a + bs.length then bs.getD (x - a) 0 else m x

def readBytes (m : Bytes) (a n : Nat) : List UInt8 := (List.range n).map fun i => m (a + i)

@[simp] theorem length_readBytes (m : Bytes) (a n : Nat) : (m.readBytes a n).length = n := by
  simp [readBytes]

@[simp] theorem writeBytes_nil (m : Bytes) (a : Nat) : m.writeBytes a [] = m := by
  funext x
  rw [writeBytes, if_neg (by simp only [length_nil]; omega)]

variable {bs : List UInt8}

theorem writeBytes_of_not_mem (m : Bytes) {x : Nat}
    (h : x < a ∨ a + bs.length ≤ x) : m.writeBytes a bs x = m x := by
  rw [writeBytes, if_neg (by omega)]

theorem readBytes_writeBytes (m : Bytes) (a : Nat) (bs : List UInt8) :
    (m.writeBytes a bs).readBytes a bs.length = bs := by
  apply ext_getElem
  · simp
  · intro i hi hi'
    simp [readBytes, writeBytes, hi']

theorem readBytes_add (m : Bytes) (a n k : Nat) :
    m.readBytes a (n + k) = m.readBytes a n ++ m.readBytes (a + n) k := by
  simp [readBytes, range_add, Nat.add_assoc]

theorem readBytes_of_append {bs' : List UInt8} (h : m.readBytes a (bs ++ bs').length = bs ++ bs') :
    m.readBytes a bs.length = bs ∧ m.readBytes (a + bs.length) bs'.length = bs' := by
  rw [length_append, readBytes_add] at h
  exact append_inj h (length_readBytes _ _ _)

theorem writeBytes_append (m : Bytes) (a : Nat) (bs bs' : List UInt8) :
    m.writeBytes a (bs ++ bs') = (m.writeBytes a bs).writeBytes (a + bs.length) bs' := by
  funext x
  unfold writeBytes
  rw [length_append]
  by_cases hfirst : a ≤ x ∧ x < a + bs.length
  · rw [if_pos (by omega), if_neg (by omega), if_pos hfirst, getD_append _ _ _ _ (by omega)]
  · by_cases hsecond : a + bs.length ≤ x ∧ x < a + bs.length + bs'.length
    · rw [if_pos (by omega), if_pos hsecond, getD_append_right _ _ _ _ (by omega)]
      congr 1
      omega
    · rw [if_neg (by omega), if_neg hsecond, if_neg hfirst]

theorem writeBytes_comm (m : Bytes) {b : Nat} {bs' : List UInt8} (h : a + bs.length ≤ b) :
    (m.writeBytes a bs).writeBytes b bs' = (m.writeBytes b bs').writeBytes a bs := by
  funext x
  unfold writeBytes
  by_cases hfirst : a ≤ x ∧ x < a + bs.length
  · rw [if_neg (by omega), if_pos hfirst, if_pos hfirst]
  · rw [if_neg hfirst, if_neg hfirst]

def le64 (w : UInt64) : List UInt8 := (List.range 8).map (byteOf w)

@[simp] theorem length_le64 (w : UInt64) : (le64 w).length = 8 := rfl

theorem loadWord_of_readBytes {w : UInt64} (h : m.readBytes a 8 = le64 w) : m.loadWord a = w := by
  refine loadWord_eq fun i hi => ?_
  have hget := congrArg (fun l => l[i]?) h
  simpa [readBytes, le64, hi] using hget

end Bytes

/-!
## Checksums of `util.c`

`util_checksum` and `util_checksum_seq` are two loops for the Fletcher-64 checksum of a range of
32-bit words. The first one treats the eight bytes of the checksum itself as zero, the second one
continues from the checksum of an earlier range.
-/

namespace Checksum

/-- `le32toh` on four bytes. -/
def le32 (a b c d : UInt8) : UInt32 :=
  ⟨d.toBitVec ++ c.toBitVec ++ b.toBitVec ++ a.toBitVec⟩

def words32 : List UInt8 → List UInt32
  | a :: b :: c :: d :: bs => le32 a b c d :: words32 bs
  | _ => []

def join (s : UInt32 × UInt32) : UInt64 := s.2.toUInt64 <<< 32 ||| s.1.toUInt64

def halves (csum : UInt64) : UInt32 × UInt32 := (csum.toUInt32, (csum >>> 32).toUInt32)

def step (s : UInt32 × UInt32) (w : UInt32) : UInt32 × UInt32 := (s.1 + w, s.2 + (s.1 + w))

def utilChecksumSeq (bs : List UInt8) (csum : UInt64) : UInt64 :=
  join ((words32 bs).foldl step (halves csum))

/-- The loop of `util_checksum`, from the word with number `k` on. At the word `csump` it adds
two zeroes instead of two words. -/
def checksumLoop (csump : Nat) : Nat → UInt32 × UInt32 → List UInt32 → UInt32 × UInt32
  | _, s, [] => s
  | k, s, w :: ws =>
    if k = csump then
      let s := (s.1, s.2 + s.1)
      let s := (s.1, s.2 + s.1)
      match ws with
      | [] => s
      | _ :: ws => checksumLoop csump (k + 2) s ws
    else checksumLoop csump (k + 1) (step s w) ws

/-- The checksum that `util_checksum` calculates, without `skip_off`. `csump` is the number of
the word at which the checksum lies. -/
def utilChecksum (bs : List UInt8) (csump : Nat) : UInt64 :=
  join (checksumLoop csump 0 (0, 0) (words32 bs))

/-! ## Words of a range -/

theorem words32_append (h : 4 ∣ bs.length) (bs' : List UInt8) :
    words32 (bs ++ bs') = words32 bs ++ words32 bs' := by
  induction bs using words32.induct with
  | case1 a b c d bs ih =>
    have hdvd : 4 ∣ bs.length := by
      simp only [length_cons] at h
      omega
    simp only [cons_append, words32, ih hdvd]
  | case2 bs hshort =>
    match bs, h, hshort with
    | [], _, _ => rfl
    | [_], h, _ => simp at h
    | [_, _], h, _ => simp at h
    | [_, _, _], h, _ => simp at h
    | a :: b :: c :: d :: bs, _, hshort => exact absurd rfl (hshort a b c d bs)

@[simp] theorem halves_join (s : UInt32 × UInt32) : halves (join s) = s := by
  obtain ⟨lo, hi⟩ := s
  unfold halves join
  ext1
  · apply UInt32.toBitVec_inj.mp
    apply BitVec.eq_of_getLsbD_eq
    intro k hk
    simp
  · apply UInt32.toBitVec_inj.mp
    apply BitVec.eq_of_getLsbD_eq
    intro k hk
    have hlow : k < 64 := by omega
    have hhigh : 32 + k < 64 := by omega
    simp [hk, hlow, hhigh]

theorem utilChecksumSeq_append (h : 4 ∣ bs.length) (bs' : List UInt8) (csum : UInt64) :
    utilChecksumSeq bs' (utilChecksumSeq bs csum) = utilChecksumSeq (bs ++ bs') csum := by
  unfold utilChecksumSeq
  rw [halves_join, words32_append h, foldl_append]

theorem utilChecksumSeq_nil (bs : List UInt8) (csum : UInt64) :
    utilChecksumSeq [] (utilChecksumSeq bs csum) = utilChecksumSeq bs csum := by
  unfold utilChecksumSeq
  rw [halves_join]
  rfl

/-! ## The two loops -/

theorem checksumLoop_of_lt {csump k : Nat} (h : csump < k) (s : UInt32 × UInt32)
    (ws : List UInt32) : checksumLoop csump k s ws = ws.foldl step s := by
  induction ws generalizing k s with
  | nil => rw [checksumLoop, foldl_nil]
  | cons w ws ih =>
    rw [checksumLoop, if_neg (by omega), foldl_cons]
    exact ih (by omega) _

theorem words32_le64 (w : UInt64) : ∃ lo hi, words32 (Bytes.le64 w) = [lo, hi] := ⟨_, _, rfl⟩

/-- A range whose second word of eight bytes is the checksum: it does not matter what is there,
and the other loop finds the same checksum with zeroes there. -/
theorem utilChecksum_eq_seq (a csum : UInt64) (bs : List UInt8) :
    utilChecksum (Bytes.le64 a ++ Bytes.le64 csum ++ bs) 2 =
      utilChecksumSeq (Bytes.le64 a ++ Bytes.le64 0 ++ bs) 0 := by
  obtain ⟨w₀, w₁, ha⟩ := words32_le64 a
  obtain ⟨w₂, w₃, hcsum⟩ := words32_le64 csum
  have hzero : words32 (Bytes.le64 0) = [0, 0] := by decide
  have hwords : ∀ w : UInt64, words32 (Bytes.le64 a ++ Bytes.le64 w ++ bs) =
      words32 (Bytes.le64 a) ++ (words32 (Bytes.le64 w) ++ words32 bs) := by
    intro w
    rw [append_assoc, words32_append ⟨2, rfl⟩, words32_append ⟨2, rfl⟩]
  unfold utilChecksum utilChecksumSeq
  rw [hwords, hwords, ha, hcsum, hzero]
  simp only [cons_append, nil_append, checksumLoop, foldl_cons]
  rw [if_neg (by decide), if_neg (by decide), if_pos trivial, checksumLoop_of_lt (by decide)]
  simp only [step, UInt32.add_zero]
  rfl

end Checksum

end Pmdk
