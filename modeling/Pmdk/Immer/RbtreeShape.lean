import Mathlib.Data.List.Basic
import Pmdk.Immer.Rbtree
import Pmdk.Lib.Slices

/-!
# The shape of a regular tree

The shape is determined by the elements: `build k c` is the tree of the level `k` with the elements
`c`. Its children are built from the slices of `c` that have the size of a full subtree.
-/

namespace Pmdk.Regular

open Slices List

variable {T : Type} {B BL k : Nat}

def cap (B BL k : Nat) : Nat := 2 ^ shiftAt B BL k

def build (B BL : Nat) : Nat → List T → Node T
  | 0, c => .leaf c
  | k + 1, c => .inner ((slices (cap B BL k) c).map (build B BL k))

/-! ## Sizes -/

theorem cap_pos (B BL k : Nat) : 0 < cap B BL k := Nat.two_pow_pos _

theorem cap_zero (B BL : Nat) : cap B BL 0 = 2 ^ BL := by
  rw [cap, shiftAt, Nat.zero_mul, Nat.add_zero]

theorem cap_succ (B BL k : Nat) : cap B BL (k + 1) = cap B BL k * 2 ^ B := by
  rw [cap, cap, shiftAt, shiftAt, Nat.succ_mul, ← Nat.add_assoc, Nat.pow_add]

theorem dvd_cap (B BL k : Nat) : 2 ^ BL ∣ cap B BL k := by
  rw [cap, shiftAt, Nat.pow_add]
  exact Nat.dvd_mul_right _ _

theorem cap_lt_succ (hB : 0 < B) (BL k : Nat) : cap B BL k < cap B BL (k + 1) := by
  rw [cap_succ]
  have hpow : 2 ≤ 2 ^ B := Nat.pow_le_pow_right (n := 2) (by decide) hB
  have hpos := cap_pos B BL k
  calc cap B BL k < cap B BL k * 2 := by omega
    _ ≤ cap B BL k * 2 ^ B := Nat.mul_le_mul_left _ hpow

theorem and_mask (idx b : Nat) : idx &&& mask b = idx % 2 ^ b :=
  Nat.and_two_pow_sub_one_eq_mod idx b

theorem leafIndex_eq (BL idx : Nat) : Pos.leafIndex BL idx = idx % 2 ^ BL := and_mask idx BL

theorem index_eq (B BL k idx : Nat) :
    Pos.index B (shiftAt B BL k) idx = idx / cap B BL k % 2 ^ B := by
  rw [Pos.index, and_mask, Nat.shiftRight_eq_div_pow]
  rfl

theorem mod_cap_succ (B BL k idx : Nat) : idx % cap B BL (k + 1) =
    Pos.index B (shiftAt B BL k) idx * cap B BL k + idx % cap B BL k := by
  rw [index_eq, cap_succ, Nat.mod_mul, Nat.mul_comm, Nat.add_comm]

theorem index_eq_div (B BL k idx : Nat) :
    Pos.index B (shiftAt B BL k) idx = idx % cap B BL (k + 1) / cap B BL k := by
  rw [index_eq, cap_succ, Nat.mod_mul_right_div_self]

theorem mod_cap_mod (B BL k idx : Nat) :
    idx % cap B BL (k + 1) % cap B BL k = idx % cap B BL k := by
  rw [cap_succ, Nat.mod_mul_right_mod]

/-! ## Positions -/

def Covers (B BL k : Nat) : Pos → Nat → Prop
  | .full, n => n = cap B BL k
  | .regular size, n => 0 < size ∧ n = (size - 1) % cap B BL k + 1
  | .sub size, n => 0 < size ∧ n = size ∧ n ≤ cap B BL k

section Covers

variable {p : Pos} {n : Nat}

theorem Covers.pos (h : Covers B BL k p n) : 0 < n := by
  cases p with
  | full => exact h ▸ cap_pos B BL k
  | regular size => exact h.2 ▸ Nat.succ_pos _
  | sub size => exact h.2.1 ▸ h.1

theorem Covers.leafCount_eq (h : Covers B BL 0 p n) : p.leafCount BL = n := by
  cases p with
  | full =>
    rw [h, cap_zero]
    rfl
  | regular size => rw [Pos.leafCount, and_mask, h.2, cap_zero]
  | sub size => exact h.2.1.symm

theorem Covers.count_eq (h : Covers B BL (k + 1) p n) :
    p.count B (shiftAt B BL k) = count (cap B BL k) n := by
  rw [Slices.count_eq (cap_pos B BL k) h.pos]
  cases p with
  | full =>
    have hpos := Nat.two_pow_pos B
    have hcap := cap_pos B BL k
    rw [h, cap_succ, Pos.count, branches]
    have hsub : cap B BL k * 2 ^ B - 1 = cap B BL k - 1 + cap B BL k * (2 ^ B - 1) := by
      rw [Nat.mul_sub, Nat.mul_one]
      have hle : cap B BL k ≤ cap B BL k * 2 ^ B := Nat.le_mul_of_pos_right _ hpos
      omega
    rw [hsub, Nat.add_mul_div_left _ _ hcap, Nat.div_eq_of_lt (by omega)]
    omega
  | regular size =>
    have hindex := index_eq_div B BL k (size - 1)
    rw [h.2, Nat.add_sub_cancel, ← hindex]
    rfl
  | sub size =>
    rw [h.2.1, Pos.count, Nat.shiftRight_eq_div_pow]
    rfl

theorem Covers.size_mod (h : Covers B BL (k + 1) p n) (hne : p ≠ .full) :
    (p.size B (shiftAt B BL k) - 1) % cap B BL (k + 1) = n - 1 ∧
      0 < p.size B (shiftAt B BL k) := by
  cases p with
  | full => exact absurd rfl hne
  | regular size =>
    refine ⟨?_, h.1⟩
    rw [h.2, Nat.add_sub_cancel]
    rfl
  | sub size =>
    obtain ⟨hpos, rfl, hle⟩ := h
    exact ⟨Nat.mod_eq_of_lt (by rw [Pos.size]; omega), hpos⟩

theorem Covers.child (h : Covers B BL (k + 1) p n) {i : Nat} (hi : i < count (cap B BL k) n) :
    Covers B BL k (p.child B (shiftAt B BL k) i) (min (cap B BL k) (n - i * cap B BL k)) := by
  have hcap := cap_pos B BL k
  have hn := h.pos
  have hcount := h.count_eq
  have hlt := (lt_count_iff hcap).mp hi
  have hfull : i + 1 ≠ count (cap B BL k) n →
      min (cap B BL k) (n - i * cap B BL k) = cap B BL k := by
    intro hne
    have hnext : i + 1 < count (cap B BL k) n := by omega
    rw [lt_count_iff hcap, Nat.succ_mul] at hnext
    omega
  have hlast : i + 1 = count (cap B BL k) n →
      min (cap B BL k) (n - i * cap B BL k) = (n - 1) % cap B BL k + 1 := by
    intro heq
    rw [Slices.count_eq hcap hn] at heq
    have hdiv := Nat.div_add_mod' (n - 1) (cap B BL k)
    have hmod := Nat.mod_lt (n - 1) hcap
    rw [← Nat.succ.inj heq] at hdiv
    omega
  have hregular : ∀ size, (size - 1) % cap B BL k = (n - 1) % cap B BL k → 0 < size →
      Covers B BL k (if i + 1 ≠ count (cap B BL k) n then .full else .regular size)
        (min (cap B BL k) (n - i * cap B BL k)) := by
    intro size hsize hpos
    by_cases hne : i + 1 ≠ count (cap B BL k) n
    · rw [if_pos hne]
      exact hfull hne
    · rw [if_neg hne]
      exact ⟨hpos, by rw [hlast (not_not.mp hne), hsize]⟩
  cases p with
  | full =>
    rw [h, cap_succ] at hlt ⊢
    have hle : (i + 1) * cap B BL k ≤ cap B BL k * 2 ^ B := by
      rw [Nat.mul_comm (i + 1)]
      exact Nat.mul_le_mul_left _ (Nat.lt_of_mul_lt_mul_left (by rwa [Nat.mul_comm] at hlt))
    rw [Nat.succ_mul] at hle
    rw [Pos.child, Covers]
    omega
  | regular size =>
    rw [Pos.child, hcount]
    refine hregular size ?_ h.1
    rw [h.2, Nat.add_sub_cancel, mod_cap_mod]
  | sub size =>
    rw [Pos.child, hcount]
    exact hregular size (by rw [h.2.1]) h.1

end Covers

/-! ## Built trees -/

theorem getElem?_build (c : List T) (i : Nat) :
    ((slices (cap B BL k) c).map (build B BL k))[i]? =
      if i * cap B BL k < c.length then some (build B BL k (slice (cap B BL k) c i)) else none := by
  rw [getElem?_map, getElem?_slices (cap_pos B BL k)]
  split <;> rfl

theorem build_injective (B BL k : Nat) : Function.Injective (build B BL k : List T → Node T) := by
  induction k with
  | zero =>
    intro c c' h
    exact Node.leaf.inj h
  | succ k ih =>
    intro c c' h
    have hslices := map_injective_iff.mpr ih (Node.inner.inj h)
    rw [← flatten_slices (cap_pos B BL k) c, hslices, flatten_slices (cap_pos B BL k)]

theorem firstN_of_eq {α : Type} {l : List α} {n : Nat} (h : n = l.length) :
    firstN n l = some l := by
  rw [firstN, if_pos h.le, h, take_length]

/-! ## Visitors

What the visitors do to a tree, told by its elements: reading an element, passing the chunks,
comparing two trees of the same size, and replacing an element.
-/

variable {p : Pos}

theorem mapM_eq_some {α β : Type} {f : α → Option β} {g : α → β} {l : List α}
    (h : ∀ x ∈ l, f x = some (g x)) : l.mapM f = some (l.map g) := by
  induction l with
  | nil => rfl
  | cons x l ih =>
    rw [mapM_cons, h x mem_cons_self, ih fun y hy => h y (mem_cons_of_mem x hy)]
    rfl

theorem allM_eq_some {α : Type} {f : α → Option Bool} {g : α → Bool} {l : List α}
    (h : ∀ x ∈ l, f x = some (g x)) : l.allM f = some (l.all g) := by
  induction l with
  | nil => rfl
  | cons x l ih =>
    rw [List.allM, h x mem_cons_self, ih fun y hy => h y (mem_cons_of_mem x hy), all_cons]
    cases g x with
    | true => rfl
    | false => rfl

/-! ## Reading -/

theorem getVisitor_build (idx : Nat) (cs : List T) :
    getVisitor B BL idx k (build B BL k cs) = cs[idx % cap B BL k]? := by
  induction k generalizing cs with
  | zero => rw [build, getVisitor, leafIndex_eq, cap_zero]
  | succ k ih =>
    have hmod := Nat.mod_lt idx (cap_pos B BL k)
    rw [build, getVisitor, getElem?_build, mod_cap_succ]
    by_cases hi : Pos.index B (shiftAt B BL k) idx * cap B BL k < cs.length
    · rw [if_pos hi, Option.bind_eq_bind, Option.bind_some, ih, getElem?_slice, if_pos hmod]
    · rw [if_neg hi, getElem?_eq_none (by omega)]
      rfl

/-! ## Chunks -/

def leaves (B BL : Nat) : Nat → List T → List (List T)
  | 0, c => [c]
  | k + 1, c => (slices (cap B BL k) c).flatMap (leaves B BL k)

theorem flatten_leaves (c : List T) : (leaves B BL k c).flatten = c := by
  induction k generalizing c with
  | zero => exact append_nil c
  | succ k ih =>
    have hflat : ∀ l : List (List T), (l.flatMap (leaves B BL k)).flatten = l.flatten := by
      intro l
      induction l with
      | nil => rfl
      | cons a l ihl =>
        rw [flatMap_cons, flatten_append, ih, ihl, flatten_cons]
    rw [leaves, hflat, flatten_slices (cap_pos B BL k)]

theorem forEachChunkVisitor_build {c : List T} (h : Covers B BL k p c.length) :
    forEachChunkVisitor B BL k p (build B BL k c) = some (leaves B BL k c) := by
  induction k generalizing p c with
  | zero =>
    rw [build, forEachChunkVisitor, firstN_of_eq h.leafCount_eq]
    rfl
  | succ k ih =>
    have hvisit : ∀ i ∈ List.range (count (cap B BL k) c.length),
        (do
          let child ← ((slices (cap B BL k) c).map (build B BL k))[i]?
          forEachChunkVisitor B BL k (p.child B (shiftAt B BL k) i) child) =
            some (leaves B BL k (slice (cap B BL k) c i)) := by
      intro i hi
      rw [mem_range] at hi
      have hchild := h.child hi
      rw [← length_slice] at hchild
      rw [getElem?_build, if_pos ((lt_count_iff (cap_pos B BL k)).mp hi)]
      exact ih hchild
    rw [build, forEachChunkVisitor, h.count_eq, mapM_eq_some hvisit]
    rw [leaves, slices, flatMap_map]
    rfl

/-! ## Comparing -/

theorem equalsVisitor_build [DecidableEq T] {same : Node T → Node T → Bool}
    (hsame : ∀ a b, same a b = true → a = b) {c c' : List T} (h : Covers B BL k p c.length)
    (hlength : c'.length = c.length) :
    equalsVisitor B BL same k p (build B BL k c) (build B BL k c') = some (decide (c = c')) := by
  induction k generalizing p c c' with
  | zero =>
    rw [build, build, equalsVisitor]
    split
    case isTrue heq =>
      rw [Node.leaf.inj (hsame _ _ heq), decide_eq_true rfl]
    case isFalse =>
      rw [firstN_of_eq h.leafCount_eq, firstN_of_eq (h.leafCount_eq.trans hlength.symm)]
      rfl
  | succ k ih =>
    rw [build, build, equalsVisitor]
    split
    case isTrue heq =>
      have hinj := build_injective B BL (k + 1) (hsame _ _ heq)
      rw [hinj, decide_eq_true rfl]
    case isFalse =>
      have hvisit : ∀ i ∈ List.range (count (cap B BL k) c.length),
          (do
            let a ← ((slices (cap B BL k) c).map (build B BL k))[i]?
            let b ← ((slices (cap B BL k) c').map (build B BL k))[i]?
            equalsVisitor B BL same k (p.child B (shiftAt B BL k) i) a b) =
              some (decide (slice (cap B BL k) c i = slice (cap B BL k) c' i)) := by
        intro i hi
        rw [mem_range] at hi
        have hchild := h.child hi
        rw [← length_slice] at hchild
        have hlt := (lt_count_iff (cap_pos B BL k)).mp hi
        rw [getElem?_build, getElem?_build, hlength, if_pos hlt, if_pos hlt]
        refine ih hchild ?_
        rw [length_slice, length_slice, hlength]
      rw [h.count_eq, allM_eq_some hvisit]
      congr 1
      rw [Bool.eq_iff_iff, all_eq_true, decide_eq_true_eq]
      simp only [mem_range, decide_eq_true_eq, lt_count_iff (cap_pos B BL k)]
      constructor
      · intro hall
        refine ext_slices (cap_pos B BL k) fun i => ?_
        rcases Nat.lt_or_ge (i * cap B BL k) c.length with hi | hi
        · exact hall i hi
        · rw [slice_eq_nil hi, slice_eq_nil (hlength ▸ hi)]
      · rintro rfl i -
        rfl

/-! ## Replacing -/

theorem updateVisitor_build (fn : T → T) {idx : Nat} {cs : List T} {x : T}
    (h : Covers B BL k p cs.length) (hx : cs[idx % cap B BL k]? = some x) :
    updateVisitor B BL fn idx k p (build B BL k cs) =
      some (build B BL k (cs.set (idx % cap B BL k) (fn x))) := by
  induction k generalizing p cs with
  | zero =>
    rw [cap_zero] at hx ⊢
    rw [build, updateVisitor, leafIndex_eq, firstN_of_eq h.leafCount_eq, Option.bind_eq_bind,
      Option.bind_some, hx]
    rfl
  | succ k ih =>
    have hcap := cap_pos B BL k
    have hmod := Nat.mod_lt idx hcap
    have hlt : idx % cap B BL (k + 1) < cs.length := (List.getElem?_eq_some_iff.mp hx).1
    have hsplit := mod_cap_succ B BL k idx
    have hi : Pos.index B (shiftAt B BL k) idx * cap B BL k < cs.length := by omega
    have hchild := h.child ((lt_count_iff hcap).mpr hi)
    rw [← length_slice] at hchild
    have hxs : (slice (cap B BL k) cs (Pos.index B (shiftAt B BL k) idx))[idx % cap B BL k]? =
        some x := by
      rw [getElem?_slice, if_pos hmod, ← hsplit, hx]
    rw [build, updateVisitor, getElem?_build, if_pos hi, Option.bind_eq_bind, Option.bind_some,
      ih hchild hxs, Option.bind_eq_bind, Option.bind_some,
      firstN_of_eq (h.count_eq.trans (by rw [length_map, length_slices])),
      Option.bind_some, build, slices_set hcap hlt, map_set,
      ← index_eq_div, mod_cap_mod]

end Pmdk.Regular
