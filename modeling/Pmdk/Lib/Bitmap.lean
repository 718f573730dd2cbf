import Mathlib.Algebra.Order.Ring.Nat
import Mathlib.Data.List.Basic

/-!
# Bitmaps in words of 64 bits

A bitmap is a sequence of words; its bit `k` is the bit `k % 64` of the word `k / 64`. What is
needed of the words is the list of their clear bits, their number, and the lowest bit that is
set.
-/

namespace Bitmap

open List

def bit (values : Nat → BitVec 64) (k : Nat) : Bool := (values (k / 64)).getLsbD (k % 64)

def clear (v : BitVec 64) : List Nat := (List.range 64).filter fun j => !v.getLsbD j

def clearFrom (v : BitVec 64) (s : Nat) : List Nat :=
  (List.range' s (64 - s)).filter fun j => !v.getLsbD j

def clearBits (values : Nat → BitVec 64) (n : Nat) : List Nat :=
  (List.range (64 * n)).filter fun k => !bit values k

def lssb (v : BitVec 64) : Nat := (List.range 64).findIdx v.getLsbD

def popcount (v : BitVec 64) : Nat := (List.range 64).countP v.getLsbD

theorem bit_mul_add (values : Nat → BitVec 64) (n : Nat) {j : Nat} (hj : j < 64) :
    bit values (64 * n + j) = (values n).getLsbD j := by
  unfold bit
  rw [Nat.mul_add_div (by decide), Nat.div_eq_of_lt hj, Nat.mul_add_mod, Nat.mod_eq_of_lt hj,
    Nat.add_zero]

@[simp] theorem clearBits_zero (values : Nat → BitVec 64) : clearBits values 0 = [] := rfl

theorem clearBits_succ (values : Nat → BitVec 64) (n : Nat) :
    clearBits values (n + 1) = clearBits values n ++ (clear (values n)).map (64 * n + ·) := by
  unfold clearBits clear
  rw [Nat.mul_succ, range_add, filter_append, filter_map]
  congr 2
  refine filter_congr fun j hj => ?_
  simp [bit_mul_add values n (mem_range.mp hj)]

theorem clearBits_eq_range {values : Nat → BitVec 64} {n m : Nat} (hm : m ≤ 64 * n)
    (h : ∀ k < 64 * n, bit values k = false ↔ k < m) : clearBits values n = List.range m := by
  obtain ⟨d, hd⟩ := Nat.exists_eq_add_of_le hm
  unfold clearBits
  rw [hd, range_add, filter_append, filter_eq_self.mpr, filter_eq_nil_iff.mpr, append_nil]
  · intro k hk
    obtain ⟨j, hj, rfl⟩ := mem_map.mp hk
    rw [mem_range] at hj
    have hset : ¬ bit values (m + j) = false := fun hclear => by
      have := (h (m + j) (by omega)).mp hclear
      omega
    simpa using hset
  · intro k hk
    rw [mem_range] at hk
    simp [(h k (by omega)).mpr hk]

theorem clearFrom_zero (v : BitVec 64) : clearFrom v 0 = clear v := by
  simp [clearFrom, clear, List.range_eq_range']

variable {s : Nat}

theorem clearFrom_add (v : BitVec 64) {d : Nat} (h : s + d ≤ 64) :
    clearFrom v s = ((List.range' s d).filter fun j => !v.getLsbD j) ++ clearFrom v (s + d) := by
  unfold clearFrom
  rw [← filter_append, List.range'_append_1]
  congr 2
  omega

variable {v : BitVec 64}

theorem clearFrom_of_clear {d : Nat} (h : s + d ≤ 64)
    (hclear : ∀ j < d, v.getLsbD (s + j) = false) :
    clearFrom v s = List.range' s d ++ clearFrom v (s + d) := by
  rw [clearFrom_add v h, filter_eq_self.mpr]
  intro k hk
  obtain ⟨j, hj, rfl⟩ := List.mem_range'.mp hk
  simp [hclear j hj]

theorem clearFrom_of_set {d : Nat} (h : s + d ≤ 64)
    (hset : ∀ j < d, v.getLsbD (s + j) = true) : clearFrom v s = clearFrom v (s + d) := by
  rw [clearFrom_add v h, filter_eq_nil_iff.mpr, nil_append]
  intro k hk
  obtain ⟨j, hj, rfl⟩ := List.mem_range'.mp hk
  simp [hset j hj]

theorem popcount_not (v : BitVec 64) : popcount (~~~v) = (clear v).length := by
  unfold popcount clear
  rw [← countP_eq_length_filter]
  refine countP_congr fun j hj => ?_
  simp [mem_range.mp hj]

theorem clear_eq_nil_iff : clear v = [] ↔ ~~~v = 0 := by
  unfold clear
  rw [filter_eq_nil_iff]
  constructor
  · intro h
    refine BitVec.eq_of_getLsbD_eq fun j hj => ?_
    simpa [hj] using h j (mem_range.mpr hj)
  · intro h j hj
    have hbit := congrArg (fun v => BitVec.getLsbD v j) h
    simpa [mem_range.mp hj] using hbit

theorem lssb_le (v : BitVec 64) : lssb v ≤ 64 := by
  have hle : (List.range 64).findIdx v.getLsbD ≤ (List.range 64).length := findIdx_le_length
  simpa [lssb] using hle

theorem getLsbD_of_lt_lssb {j : Nat} (hj : j < lssb v) : v.getLsbD j = false := by
  have h := not_of_lt_findIdx hj
  simpa using h

theorem lssb_eq_zero (h : v.getLsbD 0 = true) : lssb v = 0 := by
  refine Nat.eq_zero_of_not_pos fun hpos => ?_
  rw [getLsbD_of_lt_lssb hpos] at h
  cases h

theorem lssb_lt (hv : v ≠ 0) : lssb v < 64 := by
  refine Nat.lt_of_le_of_ne (lssb_le v) fun h => hv (BitVec.eq_of_getLsbD_eq fun j hj => ?_)
  rw [getLsbD_of_lt_lssb (h ▸ hj)]
  simp

theorem getLsbD_lssb (hv : v ≠ 0) : v.getLsbD (lssb v) = true := by
  have hlt : (List.range 64).findIdx v.getLsbD < (List.range 64).length := by
    simpa [lssb] using lssb_lt hv
  simpa [lssb] using findIdx_getElem (w := hlt)

theorem lssb_pos (hv : v ≠ 0) (h : v.getLsbD 0 = false) : 0 < lssb v := by
  refine Nat.pos_of_ne_zero fun hzero => ?_
  have hset := getLsbD_lssb hv
  rw [hzero, h] at hset
  cases hset

theorem not_ne_zero (hv : v ≠ BitVec.allOnes 64) : ~~~v ≠ 0 := by
  intro h
  refine hv ?_
  rw [← BitVec.not_not (b := v), h]
  rfl

theorem clear_run (hv : v >>> s ≠ 0) (hlow : (v >>> s).getLsbD 0 = false) :
    0 < lssb (v >>> s) ∧ s + lssb (v >>> s) ≤ 64 ∧
      ∀ j < lssb (v >>> s), v.getLsbD (s + j) = false := by
  refine ⟨lssb_pos hv hlow, ?_, fun j hj => ?_⟩
  · have hset := getLsbD_lssb hv
    rw [BitVec.getLsbD_ushiftRight] at hset
    by_contra hgt
    rw [BitVec.getLsbD_of_ge _ _ (by omega)] at hset
    cases hset
  · rw [← BitVec.getLsbD_ushiftRight]
    exact getLsbD_of_lt_lssb hj

theorem set_run (hv : v >>> s ≠ BitVec.allOnes 64)
    (hlow : (v >>> s).getLsbD 0 = true) (hs : s ≤ 64) :
    0 < lssb (~~~(v >>> s)) ∧ s + lssb (~~~(v >>> s)) ≤ 64 ∧
      ∀ j < lssb (~~~(v >>> s)), v.getLsbD (s + j) = true := by
  have hset : ∀ j < lssb (~~~(v >>> s)), v.getLsbD (s + j) = true := by
    intro j hj
    have hlt : j < 64 := Nat.lt_of_lt_of_le hj (lssb_le _)
    have hnot := getLsbD_of_lt_lssb hj
    rw [← BitVec.getLsbD_ushiftRight]
    simpa [hlt] using hnot
  refine ⟨lssb_pos (not_ne_zero hv) (by rw [BitVec.getLsbD_not, hlow]; rfl), ?_, hset⟩
  by_contra hgt
  have hout := hset (64 - s) (by omega)
  rw [BitVec.getLsbD_of_ge _ _ (by omega)] at hout
  cases hout

/-! ## Words with one bit, and words of low bits -/

theorem getLsbD_one_shiftLeft {k : Nat} (hk : k < 64) (j : Nat) :
    (1#64 <<< k).getLsbD j = decide (j = k) := by
  rw [BitVec.getLsbD_shiftLeft, BitVec.getLsbD_one]
  by_cases hj : j = k
  · simp [hj, hk]
  · by_cases hlt : j < k
    · simp [hj, hlt]
    · simp [hj, hlt]
      omega

theorem getLsbD_mask {k : Nat} (hk : k < 64) (j : Nat) :
    ((1#64 <<< k) - 1).getLsbD j = decide (j < k) := by
  have hpow : 2 ^ k < 2 ^ 64 := Nat.pow_lt_pow_right (by decide) hk
  have hone : (1#64 <<< k).toNat = 2 ^ k := by
    rw [BitVec.toNat_shiftLeft, BitVec.toNat_ofNat, Nat.shiftLeft_eq, Nat.one_mul]
    exact Nat.mod_eq_of_lt hpow
  have hmask : ((1#64 <<< k) - 1).toNat = 2 ^ k - 1 := by
    rw [BitVec.toNat_sub_of_le, hone]
    · rfl
    · rw [BitVec.le_def, hone]
      exact Nat.one_le_two_pow
  rw [← BitVec.testBit_toNat, hmask, Nat.testBit_two_pow_sub_one]

end Bitmap
