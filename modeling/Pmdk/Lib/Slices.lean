import Mathlib.Algebra.Order.Ring.Nat

/-!
# Slices of a list

A list is cut into slices of the width `w`, the last of which may be shorter. The lemmas tell what
the slices are after items were appended, after items were dropped at the end, and after one item
was replaced: only the slice where this happens is another one.
-/

namespace Slices

open List

variable {α : Type*} {w i j n : Nat} {l m : List α}

def slice (w : Nat) (l : List α) (i : Nat) : List α := (l.drop (i * w)).take w

def count (w n : Nat) : Nat := (n + (w - 1)) / w

def slices (w : Nat) (l : List α) : List (List α) :=
  (List.range (count w l.length)).map (slice w l)

theorem lt_count_iff (hw : 0 < w) : i < count w n ↔ i * w < n := by
  rw [count, ← Nat.succ_le_iff, Nat.le_div_iff_mul_le hw, Nat.succ_mul]
  omega

theorem count_le_iff (hw : 0 < w) : count w n ≤ i ↔ n ≤ i * w := by
  rw [← not_lt, lt_count_iff hw, not_lt]

theorem le_count (hw : 0 < w) (h : i * w ≤ n) : i ≤ count w n := by
  rw [count, Nat.le_div_iff_mul_le hw]
  omega

theorem count_eq (hw : 0 < w) (hn : 0 < n) : count w n = (n - 1) / w + 1 := by
  have hsum : n + (w - 1) = n - 1 + w := by omega
  rw [count, hsum, Nat.add_div_right _ hw]

@[simp] theorem length_slices (w : Nat) (l : List α) : (slices w l).length = count w l.length := by
  rw [slices, length_map, length_range]

theorem getElem?_slices (hw : 0 < w) (l : List α) (i : Nat) :
    (slices w l)[i]? = if i * w < l.length then some (slice w l i) else none := by
  rw [slices, getElem?_map]
  by_cases hi : i * w < l.length
  · rw [if_pos hi, getElem?_range ((lt_count_iff hw).mpr hi)]
    rfl
  · rw [if_neg hi, getElem?_eq_none (by simpa [count_le_iff hw] using hi)]
    rfl

@[simp] theorem slices_nil (w : Nat) : slices w ([] : List α) = [] := by
  rcases Nat.eq_zero_or_pos w with rfl | hw
  · simp [slices, count]
  · have hzero : count w 0 = 0 := Nat.div_eq_of_lt (by omega)
    simp [slices, hzero]

theorem length_slice (w : Nat) (l : List α) (i : Nat) :
    (slice w l i).length = min w (l.length - i * w) := by
  rw [slice, length_take, length_drop]

theorem getElem?_slice (w : Nat) (l : List α) (i j : Nat) :
    (slice w l i)[j]? = if j < w then l[i * w + j]? else none := by
  rw [slice, getElem?_take, getElem?_drop]

theorem getElem?_div_mod (hw : 0 < w) (l : List α) (i : Nat) :
    (slice w l (i / w))[i % w]? = l[i]? := by
  rw [getElem?_slice, if_pos (Nat.mod_lt i hw), Nat.div_add_mod']

theorem slice_ext {l l' : List α} (h : ∀ j < w, l[i * w + j]? = l'[i * w + j]?) :
    slice w l i = slice w l' i := by
  refine ext_getElem? fun j => ?_
  rw [getElem?_slice, getElem?_slice]
  by_cases hj : j < w
  · rw [if_pos hj, if_pos hj, h j hj]
  · rw [if_neg hj, if_neg hj]

theorem ext_slices {l l' : List α} (hw : 0 < w) (h : ∀ i, slice w l i = slice w l' i) : l = l' := by
  refine ext_getElem? fun i => ?_
  rw [← getElem?_div_mod hw, h, getElem?_div_mod hw]

theorem slice_eq_nil (h : l.length ≤ i * w) : slice w l i = [] := by
  rw [slice, drop_eq_nil_of_le h, take_nil]

theorem flatten_slices (hw : 0 < w) (l : List α) : (slices w l).flatten = l := by
  have htake : ∀ n, ((List.range n).map (slice w l)).flatten = l.take (n * w) := by
    intro n
    induction n with
    | zero => simp
    | succ n ih =>
      rw [range_succ, map_append, flatten_append, ih, Nat.succ_mul, take_add]
      simp [slice]
  rw [slices, htake, take_of_length_le]
  have hnot := mt (lt_count_iff (n := l.length) hw).mpr (lt_irrefl (count w l.length))
  omega

theorem slices_of_length_le (hl : 0 < l.length) (h : l.length ≤ w) : slices w l = [l] := by
  have hcount : count w l.length = 1 := by
    rw [count_eq (hl.trans_le h) hl, Nat.div_eq_of_lt (by omega)]
  rw [slices, hcount, range_one, map_singleton, slice, Nat.zero_mul, drop_zero, take_of_length_le h]

/-! ## Changes -/

theorem slices_append (hw : 0 < w) (hm : 0 < m.length) (hle : l.length % w + m.length ≤ w) :
    slices w (l ++ m) = (slices w l).take (l.length / w) ++ [slice w l (l.length / w) ++ m] := by
  have hdiv := Nat.div_add_mod' l.length w
  have hlt := Nat.mod_lt l.length hw
  have hcount : l.length / w ≤ (slices w l).length := by
    rw [length_slices]
    exact le_count hw (by omega)
  refine ext_getElem? fun i => ?_
  rw [getElem?_slices hw, length_append]
  rcases Nat.lt_trichotomy i (l.length / w) with hi | rfl | hi
  · have hmul : (i + 1) * w ≤ l.length / w * w := Nat.mul_le_mul_right w hi
    rw [Nat.succ_mul] at hmul
    rw [if_pos (by omega), getElem?_append_left (by rw [length_take]; omega),
      getElem?_take_of_lt hi, getElem?_slices hw, if_pos (by omega)]
    congr 1
    refine slice_ext fun j hj => ?_
    rw [getElem?_append_left (by omega)]
  · rw [if_pos (by omega), getElem?_append_right (by rw [length_take]; omega),
      length_take, Nat.min_eq_left hcount, Nat.sub_self]
    congr 1
    rw [slice, slice, drop_append_of_le_length (by omega), take_of_length_le, take_of_length_le]
    · rw [length_drop]
      omega
    · rw [length_append, length_drop]
      omega
  · have hmul : (l.length / w + 1) * w ≤ i * w := Nat.mul_le_mul_right w hi
    rw [Nat.succ_mul] at hmul
    rw [if_neg (by omega), getElem?_eq_none]
    rw [length_append, length_take, Nat.min_eq_left hcount, length_singleton]
    exact hi

theorem slices_pair (hw : 0 < w) (hlt : w < l.length) (hle : l.length ≤ w + w) :
    slices w l = [l.take w, l.drop w] := by
  have htake : (l.take w).length = w := by
    rw [length_take, Nat.min_eq_left hlt.le]
  have hdrop : (l.drop w).length = l.length - w := length_drop
  have happend := slices_append (l := l.take w) (m := l.drop w) hw (by omega) (by
    rw [htake, Nat.mod_self]
    omega)
  rw [take_append_drop, htake, Nat.div_self hw, slices_of_length_le (by omega) htake.le,
    slice_eq_nil (by omega)] at happend
  rw [happend]
  rfl

theorem slices_take (hw : 0 < w) (hn : n ≤ l.length) :
    slices w (l.take n) = (slices w l).take (n / w) ++
      if n % w = 0 then [] else [(slice w l (n / w)).take (n % w)] := by
  have hdiv := Nat.div_add_mod' n w
  have hlt := Nat.mod_lt n hw
  have hcount : n / w ≤ (slices w l).length := by
    rw [length_slices]
    exact le_count hw (by omega)
  refine ext_getElem? fun i => ?_
  rw [getElem?_slices hw, length_take, Nat.min_eq_left hn]
  rcases Nat.lt_trichotomy i (n / w) with hi | rfl | hi
  · have hmul : (i + 1) * w ≤ n / w * w := Nat.mul_le_mul_right w hi
    rw [Nat.succ_mul] at hmul
    rw [if_pos (by omega), getElem?_append_left (by rw [length_take]; omega),
      getElem?_take_of_lt hi, getElem?_slices hw, if_pos (by omega)]
    congr 1
    refine slice_ext fun j hj => ?_
    rw [getElem?_take_of_lt (by omega)]
  · rw [getElem?_append_right (by rw [length_take]; omega), length_take,
      Nat.min_eq_left hcount, Nat.sub_self]
    by_cases hmod : n % w = 0
    · rw [if_neg (by omega), if_pos hmod]
      rfl
    · rw [if_pos (by omega), if_neg hmod, getElem?_cons_zero]
      congr 1
      rw [slice, slice, drop_take, take_take, take_take]
      congr 1
      omega
  · have hmul : (n / w + 1) * w ≤ i * w := Nat.mul_le_mul_right w hi
    rw [Nat.succ_mul] at hmul
    rw [if_neg (by omega), getElem?_eq_none]
    rw [length_append, length_take, Nat.min_eq_left hcount]
    split
    · exact hi.le
    · exact hi

theorem slices_set (hw : 0 < w) (hi : i < l.length) (x : α) :
    slices w (l.set i x) = (slices w l).set (i / w) ((slice w l (i / w)).set (i % w) x) := by
  have hdiv := Nat.div_add_mod' i w
  have hlt := Nat.mod_lt i hw
  refine ext_getElem? fun j => ?_
  rw [getElem?_slices hw, length_set, getElem?_set, length_slices, getElem?_slices hw]
  by_cases hj : i / w = j
  · subst hj
    rw [if_pos rfl, if_pos (by omega), if_pos ((lt_count_iff hw).mpr (by omega))]
    congr 1
    refine ext_getElem? fun k => ?_
    rw [getElem?_set, getElem?_slice, getElem?_slice, length_slice, getElem?_set]
    by_cases hk : i % w = k
    · subst hk
      rw [if_pos hlt, hdiv, if_pos rfl, if_pos rfl, if_pos hi, if_pos (by omega)]
    · have hne : i ≠ i / w * w + k := by omega
      rw [if_neg hk, if_neg hne]
  · rw [if_neg hj]
    split
    · congr 1
      refine slice_ext fun k hk => ?_
      rw [getElem?_set_ne]
      rintro rfl
      rw [Nat.mul_comm, Nat.mul_add_div hw, Nat.div_eq_of_lt hk] at hj
      exact hj rfl
    · rfl

end Slices
