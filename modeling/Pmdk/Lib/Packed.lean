import Mathlib.Algebra.Order.Ring.Nat
import Mathlib.Data.BitVec

/-!
# Packed arrays

An array over the slots `0`, …, `w - 1`, of which only some are occupied, is kept as a bitmap of the
occupied slots and the list of their items. The item of a slot stands at the place that the number
of the set bits below the slot tells. `At bm l i x` says that `x` is the item of the slot `i`.
-/

namespace Packed

open List

variable {w : Nat} {α : Type*}

def bit (w i : Nat) : BitVec w := 1#w <<< i

def popcount (bm : BitVec w) : Nat := (List.range w).countP bm.getLsbD

def offset (bm b : BitVec w) : Nat := popcount (bm &&& (b - 1#w))

/-- The number of the set bits below `i`. -/
def rank (bm : BitVec w) (i : Nat) : Nat := (List.range i).countP bm.getLsbD

def At (bm : BitVec w) (l : List α) (i : Nat) (x : α) : Prop :=
  bm.getLsbD i = true ∧ l[rank bm i]? = some x

variable {bm : BitVec w} {l l' : List α} {i j : Nat} {x y : α}

/-! ## Bits -/

@[simp] theorem getLsbD_bit : (bit w i).getLsbD j = (decide (j < w) && decide (i = j)) := by
  rw [bit, BitVec.getLsbD_shiftLeft, BitVec.getLsbD_one]
  by_cases hj : j < w
  · by_cases hij : i = j
    · subst hij
      simp [hj, Nat.zero_lt_of_lt hj]
    · have hne : j < i ∨ j - i ≠ 0 := by omega
      rcases hne with hlt | hne
      · simp [hlt, hij]
      · simp [hne, hij]
  · simp [hj]

theorem lt_of_getLsbD (h : bm.getLsbD i = true) : i < w := by
  by_contra hi
  rw [BitVec.getLsbD_of_ge bm i (Nat.le_of_not_lt hi)] at h
  cases h

theorem getLsbD_bit_sub_one (hi : i < w) : (bit w i - 1#w).getLsbD j = decide (j < i) := by
  have hpow : 2 ^ i < 2 ^ w := Nat.pow_lt_pow_right (by decide) hi
  have hpos : 0 < 2 ^ i := Nat.two_pow_pos i
  have hbit : (bit w i).toNat = 2 ^ i := by
    rw [bit, BitVec.toNat_shiftLeft, BitVec.toNat_ofNat, Nat.shiftLeft_eq,
      Nat.mod_eq_of_lt (Nat.one_lt_two_pow (Nat.ne_zero_of_lt hi)), Nat.one_mul,
      Nat.mod_eq_of_lt hpow]
  have hone : (1#w).toNat = 1 := by
    rw [BitVec.toNat_ofNat, Nat.mod_eq_of_lt (Nat.one_lt_two_pow (Nat.ne_zero_of_lt hi))]
  have hsub : (bit w i - 1#w).toNat = 2 ^ i - 1 := by
    rw [BitVec.toNat_sub_of_le (BitVec.le_def.mpr (by rw [hbit, hone]; exact hpos)), hbit, hone]
  rw [BitVec.getLsbD, hsub, Nat.testBit_two_pow_sub_one]

/-! ## Ranks -/

@[simp] theorem rank_zero (bm : BitVec w) : rank bm 0 = 0 := rfl

theorem rank_succ (bm : BitVec w) (i : Nat) :
    rank bm (i + 1) = rank bm i + if bm.getLsbD i then 1 else 0 := by
  rw [rank, range_succ, countP_append, countP_singleton]
  rfl

theorem rank_mono (bm : BitVec w) (h : i ≤ j) : rank bm i ≤ rank bm j := by
  induction h with
  | refl => exact le_rfl
  | step _ ih =>
    rw [rank_succ]
    exact ih.trans (Nat.le_add_right _ _)

theorem rank_lt_rank (h : bm.getLsbD i = true) (hij : i < j) : rank bm i < rank bm j := by
  have hsucc := rank_mono bm (Nat.succ_le_of_lt hij)
  rw [Nat.succ_eq_add_one, rank_succ, h] at hsucc
  exact Nat.lt_of_succ_le hsucc

theorem popcount_eq_rank (bm : BitVec w) : popcount bm = rank bm w := rfl

theorem rank_lt_popcount (h : bm.getLsbD i = true) : rank bm i < popcount bm :=
  rank_lt_rank h (lt_of_getLsbD h)

theorem rank_inj (hi : bm.getLsbD i = true) (hj : bm.getLsbD j = true)
    (h : rank bm i = rank bm j) : i = j := by
  rcases Nat.lt_trichotomy i j with hlt | rfl | hlt
  · exact absurd h (rank_lt_rank hi hlt).ne
  · rfl
  · exact absurd h (rank_lt_rank hj hlt).ne'

theorem exists_rank_eq {k n : Nat} (h : k < rank bm n) :
    ∃ i < n, bm.getLsbD i = true ∧ rank bm i = k := by
  induction n with
  | zero => exact absurd h (Nat.not_lt_zero k)
  | succ n ih =>
    by_cases hk : k < rank bm n
    · obtain ⟨i, hi, hbit, hrank⟩ := ih hk
      exact ⟨i, Nat.lt_succ_of_lt hi, hbit, hrank⟩
    · rw [rank_succ] at h
      by_cases hbit : bm.getLsbD n = true
      · rw [if_pos hbit] at h
        exact ⟨n, Nat.lt_succ_self n, hbit, by omega⟩
      · rw [if_neg hbit] at h
        exact absurd h hk

theorem exists_slot {k : Nat} (h : k < popcount bm) : ∃ i, bm.getLsbD i = true ∧ rank bm i = k := by
  obtain ⟨i, -, hbit, hrank⟩ := exists_rank_eq (n := w) h
  exact ⟨i, hbit, hrank⟩

theorem exists_slot_of_ne_zero (h : bm ≠ 0#w) : ∃ i, bm.getLsbD i = true := by
  by_contra hnone
  refine h (BitVec.eq_of_getLsbD_eq fun i _ => ?_)
  rw [BitVec.getLsbD_zero, ← Bool.not_eq_true]
  exact fun hi => hnone ⟨i, hi⟩

theorem slot_unique (h : popcount bm = 1) (hi : bm.getLsbD i = true) (hj : bm.getLsbD j = true) :
    i = j := by
  have hri := rank_lt_popcount hi
  have hrj := rank_lt_popcount hj
  exact rank_inj hi hj (by omega)

theorem exists_two_slots (h : 1 < popcount bm) :
    ∃ i j, i ≠ j ∧ bm.getLsbD i = true ∧ bm.getLsbD j = true := by
  obtain ⟨i, hi, hri⟩ := exists_slot (Nat.zero_lt_of_lt h)
  obtain ⟨j, hj, hrj⟩ := exists_slot h
  refine ⟨i, j, ?_, hi, hj⟩
  rintro rfl
  exact Nat.zero_ne_one (hri.symm.trans hrj)

theorem exists_slot_ne (h : 1 < popcount bm) (i : Nat) : ∃ j, j ≠ i ∧ bm.getLsbD j = true := by
  obtain ⟨j, j', hne, hj, hj'⟩ := exists_two_slots h
  by_cases hji : j = i
  · exact ⟨j', fun h => hne (hji.trans h.symm), hj'⟩
  · exact ⟨j, hji, hj⟩

theorem offset_bit (bm : BitVec w) (hi : i < w) : offset bm (bit w i) = rank bm i := by
  have hsplit : List.range w = List.range i ++ (List.range (w - i)).map (i + ·) := by
    rw [← range_add, Nat.add_sub_cancel' hi.le]
  rw [offset, popcount, hsplit, countP_append, countP_map, rank]
  have habove : (List.range (w - i)).countP
      ((bm &&& (bit w i - 1#w)).getLsbD ∘ fun k => i + k) = 0 := by
    rw [countP_eq_zero]
    intro k _
    simp [BitVec.getLsbD_and, getLsbD_bit_sub_one hi]
  rw [habove, Nat.add_zero]
  refine countP_congr fun j hj => ?_
  simp [BitVec.getLsbD_and, getLsbD_bit_sub_one hi, mem_range.mp hj]

/-! ## Setting and clearing a bit -/

theorem getLsbD_or_bit (hi : i < w) :
    (bm ||| bit w i).getLsbD j = (bm.getLsbD j || decide (i = j)) := by
  by_cases hij : i = j
  · subst hij
    simp [hi]
  · simp [hij]

theorem getLsbD_and_not_bit :
    (bm &&& ~~~bit w i).getLsbD j = (bm.getLsbD j && !decide (i = j)) := by
  rw [BitVec.getLsbD_and, BitVec.getLsbD_not, getLsbD_bit]
  by_cases hj : j < w
  · simp [hj]
  · rw [BitVec.getLsbD_of_ge bm j (Nat.le_of_not_lt hj)]
    rfl

theorem or_bit_and_not_bit (hi : bm.getLsbD i = true) : (bm &&& ~~~bit w i) ||| bit w i = bm := by
  refine BitVec.eq_of_getLsbD_eq fun j _ => ?_
  rw [getLsbD_or_bit (lt_of_getLsbD hi), getLsbD_and_not_bit]
  by_cases hij : i = j
  · subst hij
    simp [hi]
  · simp [hij]

theorem rank_or_bit (hi : bm.getLsbD i = false) (hw : i < w) (j : Nat) :
    rank (bm ||| bit w i) j = rank bm j + if i < j then 1 else 0 := by
  induction j with
  | zero => simp
  | succ j ih =>
    rw [rank_succ, rank_succ, ih, getLsbD_or_bit hw]
    rcases Nat.lt_trichotomy i j with hlt | rfl | hlt
    · have hne : i ≠ j := hlt.ne
      simp only [hlt, hne, Nat.lt_succ_of_lt hlt, if_true, decide_false, Bool.or_false]
      omega
    · simp [hi]
    · have hne : i ≠ j := hlt.ne'
      have hnot : ¬ i < j + 1 := by omega
      simp [hne, hnot, hlt.not_gt]

theorem rank_and_not_bit (hi : bm.getLsbD i = true) (j : Nat) :
    rank bm j = rank (bm &&& ~~~bit w i) j + if i < j then 1 else 0 := by
  have hclear : (bm &&& ~~~bit w i).getLsbD i = false := by
    rw [getLsbD_and_not_bit]
    simp
  have hrank := rank_or_bit hclear (lt_of_getLsbD hi) j
  rwa [or_bit_and_not_bit hi] at hrank

theorem popcount_or_bit (hi : bm.getLsbD i = false) (hw : i < w) :
    popcount (bm ||| bit w i) = popcount bm + 1 := by
  rw [popcount_eq_rank, rank_or_bit hi hw, if_pos hw, popcount_eq_rank]

theorem popcount_and_not_bit (hi : bm.getLsbD i = true) :
    popcount bm = popcount (bm &&& ~~~bit w i) + 1 := by
  rw [popcount_eq_rank, rank_and_not_bit hi, if_pos (lt_of_getLsbD hi), popcount_eq_rank]

/-! ## Items -/

theorem At.bit_eq (h : At bm l i x) : bm.getLsbD i = true := h.1

theorem At.unique (h : At bm l i x) (h' : At bm l i y) : x = y :=
  Option.some.inj (h.2.symm.trans h'.2)

theorem At.mem (h : At bm l i x) : x ∈ l := mem_of_getElem? h.2

theorem exists_at (hl : l.length = popcount bm) (hi : bm.getLsbD i = true) : ∃ x, At bm l i x := by
  have hlt : rank bm i < l.length := hl ▸ rank_lt_popcount hi
  exact ⟨l[rank bm i], hi, getElem?_eq_getElem hlt⟩

theorem mem_iff_at (hl : l.length = popcount bm) : x ∈ l ↔ ∃ i, At bm l i x := by
  constructor
  · intro hx
    obtain ⟨k, hk, rfl⟩ := mem_iff_getElem.mp hx
    obtain ⟨i, hbit, rfl⟩ := exists_slot (hl ▸ hk)
    exact ⟨i, hbit, getElem?_eq_getElem hk⟩
  · rintro ⟨i, hi⟩
    exact hi.mem

theorem eq_of_forall_at (hl : l.length = popcount bm) (hl' : l'.length = popcount bm)
    (h : ∀ i x, At bm l i x → At bm l' i x) : l = l' := by
  refine ext_getElem (hl.trans hl'.symm) fun k hk hk' => ?_
  obtain ⟨i, hbit, rfl⟩ := exists_slot (hl ▸ hk)
  have hat := h i l[rank bm i] ⟨hbit, getElem?_eq_getElem hk⟩
  exact (Option.some.inj ((getElem?_eq_getElem hk').symm.trans hat.2)).symm

theorem at_map_iff {β : Type*} {f : α → β} {z : β} :
    At bm (l.map f) i z ↔ ∃ x, At bm l i x ∧ f x = z := by
  rw [At, getElem?_map, Option.map_eq_some_iff]
  simp only [At, and_assoc, exists_and_left]

@[simp] theorem at_nil : ¬ At bm ([] : List α) i x := by
  simp [At]

theorem at_insertIdx_iff (hl : l.length = popcount bm) (hi : bm.getLsbD i = false) (hw : i < w) :
    At (bm ||| bit w i) (l.insertIdx (rank bm i) x) j y ↔
      (j = i ∧ y = x) ∨ (j ≠ i ∧ At bm l j y) := by
  have hle : rank bm i ≤ l.length := hl ▸ rank_mono bm hw.le
  rw [At, At, getLsbD_or_bit hw, rank_or_bit hi hw]
  rcases Nat.lt_trichotomy i j with hlt | rfl | hlt
  · have hgt : rank bm i < rank bm j + 1 := Nat.lt_succ_of_le (rank_mono bm hlt.le)
    rw [if_pos hlt, getElem?_insertIdx_of_gt hgt]
    simp [hlt.ne, hlt.ne']
  · rw [if_neg (lt_irrefl i), Nat.add_zero, getElem?_insertIdx_self, if_pos hle]
    simp [hi, eq_comm]
  · rw [if_neg hlt.not_gt, Nat.add_zero]
    by_cases hj : bm.getLsbD j = true
    · rw [getElem?_insertIdx_of_lt (rank_lt_rank hj hlt)]
      simp [hlt.ne, hlt.ne']
    · simp [hlt.ne, hlt.ne', hj]

theorem at_eraseIdx_iff (hi : bm.getLsbD i = true) :
    At (bm &&& ~~~bit w i) (l.eraseIdx (rank bm i)) j y ↔ j ≠ i ∧ At bm l j y := by
  rw [At, At, getLsbD_and_not_bit]
  have hrank := rank_and_not_bit hi j
  rcases Nat.lt_trichotomy i j with hlt | rfl | hlt
  · rw [if_pos hlt] at hrank
    have hle : rank bm i ≤ rank (bm &&& ~~~bit w i) j := by
      have := rank_lt_rank hi hlt
      omega
    rw [getElem?_eraseIdx_of_ge hle, ← hrank]
    simp [hlt.ne, hlt.ne']
  · simp
  · rw [if_neg hlt.not_gt, Nat.add_zero] at hrank
    rw [← hrank]
    by_cases hj : bm.getLsbD j = true
    · rw [getElem?_eraseIdx_of_lt (rank_lt_rank hj hlt)]
      simp [hlt.ne, hlt.ne']
    · simp [hj]

section

variable (hl : l.length = popcount bm)

include hl

theorem at_set_iff (hi : bm.getLsbD i = true) :
    At bm (l.set (rank bm i) x) j y ↔ (j = i ∧ y = x) ∨ (j ≠ i ∧ At bm l j y) := by
  have hlt : rank bm i < l.length := hl ▸ rank_lt_popcount hi
  rw [At, At]
  by_cases hji : j = i
  · subst hji
    rw [getElem?_set_self hlt]
    simp [hi, eq_comm]
  · by_cases hj : bm.getLsbD j = true
    · have hne : rank bm i ≠ rank bm j := fun h => hji (rank_inj hi hj h).symm
      rw [getElem?_set_ne hne]
      simp [hji]
    · simp [hj, hji]

theorem length_insertIdx (hi : bm.getLsbD i = false) (hw : i < w) :
    (l.insertIdx (rank bm i) x).length = popcount (bm ||| bit w i) := by
  have hle : rank bm i ≤ l.length := hl ▸ rank_mono bm hw.le
  rw [length_insertIdx_of_le_length hle, hl, popcount_or_bit hi hw]

theorem length_eraseIdx (hi : bm.getLsbD i = true) :
    (l.eraseIdx (rank bm i)).length = popcount (bm &&& ~~~bit w i) := by
  have hlt : rank bm i < l.length := hl ▸ rank_lt_popcount hi
  have hpop := popcount_and_not_bit hi
  rw [length_eraseIdx_of_lt hlt]
  omega

theorem pairwise_of_at {r : α → α → Prop}
    (h : ∀ i j x y, i ≠ j → At bm l i x → At bm l j y → r x y) : l.Pairwise r := by
  refine pairwise_iff_getElem.mpr fun k k' hk hk' hlt => ?_
  obtain ⟨i, hi, hrank⟩ := exists_slot (hl ▸ hk)
  obtain ⟨j, hj, hrank'⟩ := exists_slot (hl ▸ hk')
  subst hrank hrank'
  refine h i j _ _ ?_ ⟨hi, getElem?_eq_getElem hk⟩ ⟨hj, getElem?_eq_getElem hk'⟩
  rintro rfl
  exact lt_irrefl _ hlt

end

/-! ## Small arrays -/

@[simp] theorem rank_empty (w i : Nat) : rank 0#w i = 0 := by
  rw [rank, countP_eq_zero]
  intro j _
  simp

@[simp] theorem popcount_empty (w : Nat) : popcount 0#w = 0 := rank_empty w w

theorem rank_bit (hi : i < w) (j : Nat) : rank (bit w i) j = if i < j then 1 else 0 := by
  have hrank := @rank_or_bit w 0#w i (BitVec.getLsbD_zero) hi j
  rwa [BitVec.zero_or, rank_empty, Nat.zero_add] at hrank

theorem popcount_eq_zero_iff : popcount bm = 0 ↔ bm = 0#w := by
  constructor
  · intro h
    by_contra hne
    obtain ⟨i, hi⟩ := exists_slot_of_ne_zero hne
    exact absurd (rank_lt_popcount hi) (by rw [h]; exact Nat.not_lt_zero _)
  · rintro rfl
    exact popcount_empty w

theorem popcount_bit (hi : i < w) : popcount (bit w i) = 1 := by
  rw [popcount_eq_rank, rank_bit hi, if_pos hi]

theorem at_singleton_iff (hi : i < w) : At (bit w i) [x] j y ↔ j = i ∧ y = x := by
  have hnil : ([] : List α).length = popcount 0#w := (popcount_empty w).symm
  have hat := @at_insertIdx_iff w α 0#w [] i j x y hnil BitVec.getLsbD_zero hi
  rw [BitVec.zero_or, rank_empty] at hat
  rw [← insertIdx_zero, hat]
  simp

theorem at_pair_iff {i' : Nat} {x' : α} (hi : i < w) (hi' : i' < w) (hne : i ≠ i') :
    At (bit w i ||| bit w i') (if i < i' then [x, x'] else [x', x]) j y ↔
      (j = i ∧ y = x) ∨ (j = i' ∧ y = x') := by
  have hbit : (bit w i).getLsbD i' = false := by
    rw [getLsbD_bit, decide_eq_false hne, Bool.and_false]
  have hone : [x].length = popcount (bit w i) := (popcount_bit hi).symm
  have hlist : [x].insertIdx (rank (bit w i) i') x' = if i < i' then [x, x'] else [x', x] := by
    rw [rank_bit hi]
    split <;> rfl
  rw [← hlist, at_insertIdx_iff hone hbit hi', at_singleton_iff hi]
  constructor
  · rintro (h | ⟨-, h⟩)
    · exact .inr h
    · exact .inl h
  · rintro (⟨rfl, rfl⟩ | h)
    · exact .inr ⟨hne, rfl, rfl⟩
    · exact .inl h

theorem popcount_pair {i' : Nat} (hi : i < w) (hi' : i' < w) (hne : i ≠ i') :
    popcount (bit w i ||| bit w i') = 2 := by
  have hbit : (bit w i).getLsbD i' = false := by
    rw [getLsbD_bit, decide_eq_false hne, Bool.and_false]
  rw [popcount_or_bit hbit hi', popcount_bit hi]

end Packed
