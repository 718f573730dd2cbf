import Mathlib.Algebra.Order.Ring.Nat
import Mathlib.Data.List.Flatten
import Mathlib.Data.List.Nodup
import Mathlib.Data.List.Perm.Basic
import Mathlib.Data.List.Range

/-!
# Intervals of numbers

A `Span` is a half-open interval. `cut` takes another interval out of it, which leaves at most
two pieces, and `cut_points` and `cutAll_points` state that the points that are left are those
outside of the other interval, each as often as before.
-/

/-- The numbers from `lo` on and below `hi`. -/
structure Span where
  lo : Nat
  hi : Nat
  deriving DecidableEq

namespace Span

open List

variable {b e : Nat} {s : Span}

def points (s : Span) : List Nat := List.range' s.lo (s.hi - s.lo)

theorem mem_points {a : Nat} : a ∈ s.points ↔ s.lo ≤ a ∧ a < s.hi := by
  rw [points, List.mem_range'_1]
  omega

theorem nodup_points (s : Span) : s.points.Nodup := List.nodup_range'

/-- The piece to the left of `b`, if it has a point. -/
def left (b : Nat) (s : Span) : List Span := if s.lo < b then [⟨s.lo, b⟩] else []

/-- The piece from `e` on, if it has a point. -/
def right (e : Nat) (s : Span) : List Span := if e < s.hi then [⟨e, s.hi⟩] else []

theorem mem_left_points {a : Nat} : a ∈ (s.left b).flatMap points ↔ s.lo ≤ a ∧ a < b := by
  unfold left
  split
  · rw [flatMap_singleton, mem_points]
  · simp only [flatMap_nil, not_mem_nil, false_iff]
    omega

theorem mem_right_points {a : Nat} : a ∈ (s.right e).flatMap points ↔ e ≤ a ∧ a < s.hi := by
  unfold right
  split
  · rw [flatMap_singleton, mem_points]
  · simp only [flatMap_nil, not_mem_nil, false_iff]
    omega

theorem nodup_left_points : ((s.left b).flatMap points).Nodup := by
  unfold left
  split
  · rw [flatMap_singleton]
    exact nodup_points _
  · exact nodup_nil

theorem nodup_right_points : ((s.right e).flatMap points).Nodup := by
  unfold right
  split
  · rw [flatMap_singleton]
    exact nodup_points _
  · exact nodup_nil

/-- What is left of an interval when the numbers from `b` on and below `e` are taken out. An
interval that lies apart from them stays as it is. -/
def cut (b e : Nat) (s : Span) : List Span :=
  if s.hi ≤ b ∨ e < s.lo then [s] else s.right e ++ s.left b

theorem cut_points (hbe : b ≤ e) (s : Span) :
    ((s.cut b e).flatMap points).Perm (s.points.filter fun a => ¬ (b ≤ a ∧ a < e)) := by
  unfold cut
  split
  · rename_i happart
    rw [flatMap_singleton, filter_eq_self.mpr]
    intro a ha
    rw [mem_points] at ha
    exact decide_eq_true (by omega)
  · rename_i hmeet
    rw [flatMap_append]
    refine (perm_ext_iff_of_nodup ?_ ((nodup_points s).filter _)).mpr fun a => ?_
    · refine nodup_right_points.append nodup_left_points fun a hr hl => ?_
      rw [mem_right_points] at hr
      rw [mem_left_points] at hl
      omega
    · rw [mem_append, mem_right_points, mem_left_points, mem_filter, mem_points, decide_eq_true_iff]
      omega

theorem cutAll_points (hbe : b ≤ e) (ss : List Span) :
    ((ss.flatMap (cut b e)).flatMap points).Perm
      ((ss.flatMap points).filter fun a => ¬ (b ≤ a ∧ a < e)) := by
  induction ss with
  | nil => exact .refl _
  | cons s ss ih =>
    rw [flatMap_cons, flatMap_append, flatMap_cons, filter_append]
    exact (cut_points hbe s).append ih

theorem lt_of_mem_cut {t : Span} (hs : s.lo < s.hi) (ht : t ∈ s.cut b e) : t.lo < t.hi := by
  unfold cut left right at ht
  split at ht
  · rwa [mem_singleton.mp ht]
  · rw [mem_append] at ht
    rcases ht with ht | ht
    · split at ht
      · rwa [mem_singleton.mp ht]
      · exact absurd ht not_mem_nil
    · split at ht
      · rwa [mem_singleton.mp ht]
      · exact absurd ht not_mem_nil

/-! ## Intervals in a row

`Tiles lo l hi` says that the intervals of `l` lie one behind the other from `lo` to `hi`. Cutting
each of them down to a common interval leaves the points of that interval, each once and in order.
-/

section Row

variable {lo hi : Nat} {l : List Span}

def Tiles : Nat → List Span → Nat → Prop
  | lo, [], hi => lo = hi
  | lo, s :: l, hi => s.lo = lo ∧ s.lo ≤ s.hi ∧ Tiles s.hi l hi

/-- What an interval has in common with the one from `b` to `e`, if they touch. -/
def clip (b e : Nat) (s : Span) : Option Span :=
  if e < s.lo ∨ s.hi < b then none
  else some ⟨if b < s.lo then s.lo else b, if s.hi < e then s.hi else e⟩

theorem clip_mk (lo hi b e : Nat) : (⟨lo, hi⟩ : Span).clip b e = if e < lo ∨ hi < b then none
    else some ⟨if b < lo then lo else b, if hi < e then hi else e⟩ := rfl

theorem lt_of_mem_clip {t : Span} (h : s.clip b e = some t) (hlt : t.lo < t.hi) :
    s.lo ≤ t.lo ∧ t.hi ≤ s.hi := by
  rw [clip] at h
  split at h
  · cases h
  · obtain rfl := Option.some.inj h
    dsimp only at hlt ⊢
    split <;> split <;> omega

theorem Tiles.clip_points (h : Tiles lo l hi) (hbe : b ≤ e) (he : e ≤ hi) :
    (l.filterMap (clip b e)).flatMap Span.points = List.range' (max lo b) (e - max lo b) := by
  induction l generalizing lo with
  | nil =>
    obtain rfl : lo = hi := h
    rw [Nat.sub_eq_zero_of_le (Nat.le_trans he (Nat.le_max_left lo b)), List.range'_zero]
    rfl
  | cons s l ih =>
    obtain ⟨rfl, hle, hrest⟩ := h
    have hrest := ih hrest
    by_cases hnone : e < s.lo ∨ s.hi < b
    · have hclip : s.clip b e = none := if_pos hnone
      rw [filterMap_cons_none hclip, hrest]
      rcases hnone with hlt | hlt
      · rw [Nat.sub_eq_zero_of_le (by omega), Nat.sub_eq_zero_of_le (by omega)]
        rfl
      · rw [Nat.max_eq_right (Nat.le_of_lt hlt), Nat.max_eq_right (by omega)]
    · have hclip : s.clip b e = some ⟨max s.lo b, min s.hi e⟩ := by
        rw [clip, if_neg hnone]
        congr 2
        · split <;> omega
        · split <;> omega
      rw [filterMap_cons_some hclip, flatMap_cons, hrest]
      show List.range' (max s.lo b) (min s.hi e - max s.lo b) ++ _ = _
      by_cases hend : e ≤ s.hi
      · have hzero : e - max s.hi b = 0 := by omega
        rw [Nat.min_eq_right hend, hzero, List.range'_zero, append_nil]
      · have hmax : max s.hi b = max s.lo b + (s.hi - max s.lo b) := by omega
        have hlen : s.hi - max s.lo b + (e - max s.hi b) = e - max s.lo b := by omega
        rw [Nat.min_eq_left (by omega), ← hlen, hmax, ← List.range'_append_1]

theorem Tiles.points_clip (h : Tiles lo l hi) (hb : lo ≤ b) (hbe : b ≤ e) (he : e ≤ hi) :
    (l.filterMap (clip b e)).flatMap Span.points = List.range' b (e - b) := by
  rw [h.clip_points hbe he, Nat.max_eq_right hb]

end Row

end Span
