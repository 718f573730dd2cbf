import Pmdk.Immer.RbtreeShape

/-!
# Growing and shrinking

`push_tail_visitor` adds a leaf at the right end of a tree that is not full, and
`slice_right_visitor` cuts a tree after an element and takes its last leaf off. Both give the tree
that is built from the elements.
-/

namespace Pmdk.Regular

open Slices List

variable {T : Type} {B BL k : Nat} {p : Pos}

/-! ## Multiples of a leaf -/

theorem add_le_of_dvd {w a b : Nat} (ha : w ∣ a) (hb : w ∣ b) (h : a < b) : a + w ≤ b := by
  obtain ⟨i, rfl⟩ := ha
  obtain ⟨j, rfl⟩ := hb
  rw [← Nat.mul_succ]
  exact Nat.mul_le_mul_left w (Nat.lt_of_mul_lt_mul_left h)

theorem dvd_mod_cap {n : Nat} (h : 2 ^ BL ∣ n) : 2 ^ BL ∣ n % cap B BL k :=
  (Nat.dvd_mod_iff (dvd_cap B BL k)).mpr h

/-! ## A new leaf -/

theorem makePath_build {m : List T} (hm : 0 < m.length) (hle : m.length ≤ 2 ^ BL) :
    makePath (.leaf m) k = build B BL k m := by
  induction k with
  | zero => rfl
  | succ k ih =>
    have hcap : m.length ≤ cap B BL k :=
      hle.trans (Nat.le_of_dvd (cap_pos B BL k) (dvd_cap B BL k))
    rw [makePath, build, slices_of_length_le hm hcap, ih]
    rfl

section Push

variable {c m : List T} {n : Nat}

section

variable (h : Covers B BL (k + 1) p n)

include h

theorem Covers.index_last (hne : p ≠ .full) :
    Pos.index B (shiftAt B BL k) (p.size B (shiftAt B BL k) - 1) = (n - 1) / cap B BL k := by
  rw [index_eq_div, (h.size_mod hne).1]

theorem Covers.index_new (hne : p ≠ .full) (hdvd : 2 ^ BL ∣ n) (hlt : n < cap B BL (k + 1)) :
    Pos.index B (shiftAt B BL k) (p.size B (shiftAt B BL k) + branches BL - 1) =
      n / cap B BL k := by
  obtain ⟨hsize, hpos⟩ := h.size_mod hne
  have hleaf := Nat.two_pow_pos BL
  have hn := h.pos
  have hroom := add_le_of_dvd hdvd (dvd_cap B BL (k + 1)) hlt
  have hsum : p.size B (shiftAt B BL k) + branches BL - 1 =
      p.size B (shiftAt B BL k) - 1 + 2 ^ BL := by
    rw [branches]
    omega
  rw [hsum, index_eq_div, ← Nat.mod_add_mod, hsize, Nat.mod_eq_of_lt (by omega)]
  have hdiv := Nat.div_add_mod' n (cap B BL k)
  have hrest := add_le_of_dvd (dvd_mod_cap hdvd) (dvd_cap B BL k) (Nat.mod_lt n (cap_pos B BL k))
  refine Nat.div_eq_of_lt_le ?_ ?_
  · omega
  · rw [Nat.succ_mul]
    omega

/-- The leaf goes to a slot that is in use, unless what is there is full. -/
theorem Covers.index_last_eq_iff :
    (n - 1) / cap B BL k = n / cap B BL k ↔ n % cap B BL k ≠ 0 := by
  have hn := h.pos
  have hcap := cap_pos B BL k
  have hdiv := Nat.div_add_mod' n (cap B BL k)
  have hmod := Nat.mod_lt n hcap
  constructor
  · intro heq hzero
    have hlt : (n - 1) / cap B BL k < n / cap B BL k := by
      rw [Nat.div_lt_iff_lt_mul hcap]
      omega
    exact absurd heq hlt.ne
  · intro hne
    refine Nat.div_eq_of_lt_le ?_ ?_
    · omega
    · rw [Nat.succ_mul]
      omega

theorem Covers.last (hne : p ≠ .full) (hrest : n % cap B BL k ≠ 0) :
    Covers B BL k (.regular (p.size B (shiftAt B BL k))) (n % cap B BL k) := by
  obtain ⟨hsize, hpos⟩ := h.size_mod hne
  have hn := h.pos
  refine ⟨hpos, ?_⟩
  have hdiv := Nat.div_add_mod' n (cap B BL k)
  have hlast := (h.index_last_eq_iff).mpr hrest
  have hdiv' := Nat.div_add_mod' (n - 1) (cap B BL k)
  rw [← mod_cap_mod B BL k (p.size B (shiftAt B BL k) - 1), hsize]
  rw [hlast] at hdiv'
  omega

end

theorem pushTailVisitor_step (hm : m.length = 2 ^ BL) (h : Covers B BL (k + 1) p c.length)
    (hne : p ≠ .full) (hdvd : 2 ^ BL ∣ c.length) (hlt : c.length < cap B BL (k + 1))
    (hchild : c.length % cap B BL k ≠ 0 →
      pushTailVisitor B BL (.leaf m) k (.regular (p.size B (shiftAt B BL k)))
        (build B BL k (slice (cap B BL k) c (c.length / cap B BL k))) =
          some (build B BL k (slice (cap B BL k) c (c.length / cap B BL k) ++ m))) :
    pushTailVisitor B BL (.leaf m) (k + 1) p (build B BL (k + 1) c) =
      some (build B BL (k + 1) (c ++ m)) := by
  have hcap := cap_pos B BL k
  have hdiv := Nat.div_add_mod' c.length (cap B BL k)
  have hleaf := Nat.two_pow_pos BL
  have hrest := add_le_of_dvd (dvd_mod_cap hdvd) (dvd_cap B BL k) (Nat.mod_lt c.length hcap)
  have hslices := slices_append (l := c) (m := m) hcap (by omega) (by omega)
  have hfirst : firstN (c.length / cap B BL k) ((slices (cap B BL k) c).map (build B BL k)) =
      some (((slices (cap B BL k) c).take (c.length / cap B BL k)).map (build B BL k)) := by
    have hle : c.length / cap B BL k ≤ ((slices (cap B BL k) c).map (build B BL k)).length := by
      rw [length_map, length_slices]
      exact le_count hcap (by omega)
    rw [firstN, if_pos hle, map_take]
  rw [build, build, pushTailVisitor, h.index_last hne, h.index_new hne hdvd hlt, hfirst, hslices,
    map_append]
  by_cases hmod : c.length % cap B BL k = 0
  · have hnil : slice (cap B BL k) c (c.length / cap B BL k) = [] := slice_eq_nil (by omega)
    rw [if_neg (fun heq => h.index_last_eq_iff.mp heq hmod), makePath_build (by omega) hm.le, hnil]
    rfl
  · have hlast := h.index_last_eq_iff.mpr hmod
    rw [if_pos hlast, hlast, getElem?_build, if_pos (by omega), Option.bind_eq_bind,
      Option.bind_some, hchild hmod]
    rfl

theorem pushTailVisitor_build (hm : m.length = 2 ^ BL) (h : Covers B BL (k + 1) p c.length)
    (hne : p ≠ .full) (hdvd : 2 ^ BL ∣ c.length) (hlt : c.length < cap B BL (k + 1)) :
    pushTailVisitor B BL (.leaf m) (k + 1) p (build B BL (k + 1) c) =
      some (build B BL (k + 1) (c ++ m)) := by
  induction k generalizing p c with
  | zero =>
    refine pushTailVisitor_step hm h hne hdvd hlt fun hrest => absurd ?_ hrest
    rw [cap_zero]
    exact Nat.mod_eq_zero_of_dvd hdvd
  | succ k ih =>
    refine pushTailVisitor_step hm h hne hdvd hlt fun hrest => ?_
    have hdiv := Nat.div_add_mod' c.length (cap B BL (k + 1))
    have hmod := Nat.mod_lt c.length (cap_pos B BL (k + 1))
    have hlength : (slice (cap B BL (k + 1)) c (c.length / cap B BL (k + 1))).length =
        c.length % cap B BL (k + 1) := by
      rw [length_slice]
      omega
    have hcovers := h.last hne hrest
    rw [← hlength] at hcovers
    exact ih hcovers (by simp) (hlength ▸ dvd_mod_cap hdvd) (hlength ▸ hmod)

end Push

/-! ## A cut -/

section Slice

variable {c : List T} {last j r : Nat}

def restOf (BL r : Nat) : Nat := r / 2 ^ BL * 2 ^ BL

theorem restOf_le (BL r : Nat) : restOf BL r ≤ r := Nat.div_mul_le_self r _

theorem restOf_of_lt (h : r < 2 ^ BL) : restOf BL r = 0 := by
  rw [restOf, Nat.div_eq_of_lt h, Nat.zero_mul]

theorem restOf_add (B BL k j r : Nat) :
    restOf BL (j * cap B BL k + r) = j * cap B BL k + restOf BL r := by
  obtain ⟨u, hu⟩ := dvd_cap B BL k
  have hmul : j * cap B BL k = 2 ^ BL * (j * u) := by
    rw [hu, Nat.mul_left_comm]
  rw [restOf, restOf, hmul, Nat.mul_add_div (Nat.two_pow_pos BL), Nat.add_mul, Nat.mul_comm (j * u)]

theorem firstN_children (h : j * cap B BL k ≤ c.length) :
    firstN j ((slices (cap B BL k) c).map (build B BL k)) =
      some (((slices (cap B BL k) c).take j).map (build B BL k)) := by
  have hle : j ≤ ((slices (cap B BL k) c).map (build B BL k)).length := by
    rw [length_map, length_slices]
    exact le_count (cap_pos B BL k) h
  rw [firstN, if_pos hle, map_take]

theorem build_take (hr : r < cap B BL k) (hle : j * cap B BL k + r ≤ c.length) :
    build B BL (k + 1) (c.take (j * cap B BL k + r)) =
      .inner (((slices (cap B BL k) c).take j).map (build B BL k) ++
        if r = 0 then [] else [build B BL k ((slice (cap B BL k) c j).take r)]) := by
  have hcap := cap_pos B BL k
  have hdiv : (j * cap B BL k + r) / cap B BL k = j := by
    rw [Nat.mul_comm, Nat.mul_add_div hcap, Nat.div_eq_of_lt hr, Nat.add_zero]
  have hmod : (j * cap B BL k + r) % cap B BL k = r := by
    rw [Nat.mul_comm, Nat.mul_add_mod, Nat.mod_eq_of_lt hr]
  rw [build, slices_take hcap hle, hdiv, hmod, map_append]
  split <;> rfl

theorem slice_take_drop {w x y : Nat} (h : x ≤ w) :
    ((slice w c j).take x).drop y = (c.take (j * w + x)).drop (j * w + y) := by
  have htake : (slice w c j).take x = (c.take (j * w + x)).drop (j * w) := by
    rw [slice, take_take, Nat.min_eq_left h, drop_take, Nat.add_sub_cancel_left]
  rw [htake, drop_drop]

theorem sliceRightVisitor_build (h : Covers B BL k p c.length)
    (hlast : last % cap B BL k < c.length) :
    ∃ s, sliceRightVisitor B BL last false k p (build B BL k c) = some ⟨s,
      if restOf BL (last % cap B BL k) = 0 then none
      else some (build B BL k (c.take (restOf BL (last % cap B BL k)))),
      .leaf ((c.take (last % cap B BL k + 1)).drop (restOf BL (last % cap B BL k)))⟩ := by
  induction k generalizing p c with
  | zero =>
    refine ⟨0, ?_⟩
    rw [cap_zero] at hlast ⊢
    have hlt := Nat.mod_lt last (Nat.two_pow_pos BL)
    rw [build, sliceRightVisitor, leafIndex_eq, h.leafCount_eq, restOf_of_lt hlt, if_pos rfl,
      drop_zero]
    by_cases hall : last % 2 ^ BL + 1 = c.length
    · rw [if_pos hall, hall, take_length]
    · rw [if_neg hall, firstN, if_pos (by omega)]
      rfl
  | succ k ih =>
    have hcap := cap_pos B BL k
    have hmod := Nat.mod_lt last hcap
    have hrest := restOf_le BL (last % cap B BL k)
    have hsplit := mod_cap_succ B BL k last
    generalize hj : Pos.index B (shiftAt B BL k) last = j at hsplit
    have hi : j * cap B BL k < c.length := by omega
    have hchild := h.child ((lt_count_iff hcap).mpr hi)
    rw [← length_slice] at hchild
    obtain ⟨s, hs⟩ := ih hchild (by rw [length_slice]; omega)
    refine ⟨shiftAt B BL k, ?_⟩
    rw [build, sliceRightVisitor, hj, getElem?_build, if_pos hi, Option.bind_eq_bind,
      Option.bind_some, if_neg (fun hcollapse => Bool.false_ne_true hcollapse.1), hs,
          Option.bind_eq_bind, Option.bind_some,
      firstN_children hi.le, hsplit, restOf_add, build_take (hrest.trans_lt hmod) (by omega),
      slice_take_drop hmod, Nat.add_assoc]
    by_cases hzero : restOf BL (last % cap B BL k) = 0
    · rw [if_pos hzero, if_pos hzero, hzero, Nat.add_zero, append_nil]
      dsimp only
      by_cases hj0 : j = 0
      · rw [if_pos hj0, if_pos (by rw [hj0, Nat.zero_mul])]
      · rw [if_neg hj0, if_neg (fun hcollapse => Bool.false_ne_true hcollapse.1),
          if_neg (Nat.mul_ne_zero hj0 hcap.ne')]
        rfl
    · rw [if_neg hzero, if_neg hzero, if_neg (Nat.add_pos_right _ (Nat.pos_of_ne_zero hzero)).ne']
      rfl

/-- A tree with the elements of `c` has the smallest shift that is possible. -/
def Smallest (B BL i n : Nat) : Prop := (i = 0 ∨ cap B BL i < n) ∧ n ≤ cap B BL (i + 1)

/-- The cut tree with the elements of `c`, or none where nothing is left. -/
def Cut (B BL : Nat) (c : List T) (s : Sliced T) : Prop :=
  (c = [] ∧ s.root = none) ∨ (c ≠ [] ∧ ∃ i, s.shift = shiftAt B BL i ∧
    s.root = some (build B BL (i + 1) c) ∧ Smallest B BL i c.length)

theorem slice_zero_take {w x : Nat} (h : x ≤ w) : (slice w c 0).take x = c.take x := by
  rw [slice, Nat.zero_mul, drop_zero, take_take, Nat.min_eq_left h]

theorem sliceRightVisitor_collapse (hB : 0 < B) (h : Covers B BL k p c.length)
    (hlast : last % cap B BL k < c.length) :
    ∃ s, sliceRightVisitor B BL last true k p (build B BL k c) = some s ∧
      s.tail = .leaf ((c.take (last % cap B BL k + 1)).drop (restOf BL (last % cap B BL k))) ∧
      Cut B BL (c.take (restOf BL (last % cap B BL k))) s := by
  induction k generalizing p c with
  | zero =>
    rw [cap_zero] at hlast ⊢
    have hlt := Nat.mod_lt last (Nat.two_pow_pos BL)
    rw [build, sliceRightVisitor, leafIndex_eq, h.leafCount_eq, restOf_of_lt hlt,
      drop_zero, take_zero]
    by_cases hall : last % 2 ^ BL + 1 = c.length
    · rw [if_pos hall, hall, take_length]
      exact ⟨_, rfl, rfl, .inl ⟨rfl, rfl⟩⟩
    · rw [if_neg hall, firstN, if_pos (by omega)]
      exact ⟨_, rfl, rfl, .inl ⟨rfl, rfl⟩⟩
  | succ k ih =>
    have hcap := cap_pos B BL k
    have hmod := Nat.mod_lt last hcap
    have hrest := restOf_le BL (last % cap B BL k)
    have hsplit := mod_cap_succ B BL k last
    have hlt := Nat.mod_lt last (cap_pos B BL (k + 1))
    generalize hj : Pos.index B (shiftAt B BL k) last = j at hsplit
    have hi : j * cap B BL k < c.length := by omega
    have hchild := h.child ((lt_count_iff hcap).mpr hi)
    rw [← length_slice] at hchild
    have hlast' : last % cap B BL k < (slice (cap B BL k) c j).length := by
      rw [length_slice]
      omega
    rw [build, sliceRightVisitor, hj, getElem?_build, if_pos hi, Option.bind_eq_bind,
      Option.bind_some]
    by_cases hj0 : j = 0
    · -- the node is dropped, as its first child has what is left
      subst hj0
      obtain ⟨s, hs, htail, hcut⟩ := ih hchild hlast'
      rw [Nat.zero_mul, Nat.zero_add] at hsplit
      rw [slice_zero_take (by omega)] at htail hcut
      rw [if_pos ⟨rfl, rfl⟩, hsplit]
      exact ⟨s, hs, htail, hcut⟩
    · obtain ⟨s, hs⟩ := sliceRightVisitor_build hchild hlast'
      have hone : cap B BL k ≤ j * cap B BL k :=
        Nat.le_mul_of_pos_left _ (Nat.pos_of_ne_zero hj0)
      have hlength : (c.take (j * cap B BL k + restOf BL (last % cap B BL k))).length =
          j * cap B BL k + restOf BL (last % cap B BL k) := by
        rw [length_take]
        omega
      have hne : c.take (j * cap B BL k + restOf BL (last % cap B BL k)) ≠ [] := by
        rw [← length_pos_iff, hlength]
        omega
      have hbuild := build_take (k := k) (j := j) (c := c) (hrest.trans_lt hmod) (by omega)
      rw [if_neg (fun hcollapse => hj0 hcollapse.2), hs, Option.bind_eq_bind, Option.bind_some,
        hsplit, restOf_add, slice_take_drop hmod, Nat.add_assoc]
      by_cases hzero : restOf BL (last % cap B BL k) = 0
      · rw [hzero, Nat.add_zero (j * cap B BL k)] at hlength hne hbuild ⊢
        rw [if_pos rfl, append_nil] at hbuild
        rw [if_pos rfl]
        dsimp only
        rw [if_neg hj0]
        by_cases hroot : j = 1 ∧ shiftAt B BL k > BL
        · -- the first child is the new root
          obtain ⟨rfl, hshift⟩ := hroot
          rw [if_pos ⟨rfl, rfl, hshift⟩, getElem?_build, if_pos (by omega), Option.bind_some]
          refine ⟨_, rfl, rfl, .inr ⟨hne, ?_⟩⟩
          cases k with
          | zero =>
            rw [shiftAt, Nat.zero_mul, Nat.add_zero] at hshift
            exact absurd hshift (lt_irrefl BL)
          | succ k =>
            refine ⟨k, ?_, ?_, .inr ?_, ?_⟩
            · rw [shiftAt, shiftAt, Nat.succ_mul, ← Nat.add_assoc, Nat.add_sub_cancel]
            · rw [Nat.one_mul, slice, Nat.zero_mul, drop_zero]
            · rw [hlength, Nat.one_mul]
              exact cap_lt_succ hB BL k
            · rw [hlength, Nat.one_mul]
        · rw [if_neg (fun hall => hroot hall.2), firstN_children hi.le, Option.bind_eq_bind,
            Option.bind_some]
          refine ⟨_, rfl, rfl, .inr ⟨hne, k, rfl, by rw [hbuild], ?_, ?_⟩⟩
          · rcases Nat.eq_zero_or_pos k with hk | hk
            · exact .inl hk
            · refine .inr ?_
              have hj2 : 2 * cap B BL k ≤ j * cap B BL k := by
                refine Nat.mul_le_mul_right _ ?_
                by_contra hlt2
                refine hroot ⟨by omega, ?_⟩
                rw [shiftAt]
                exact Nat.lt_add_of_pos_right (Nat.mul_pos hk hB)
              rw [hlength]
              omega
          · rw [hlength]
            omega
      · have hpos := Nat.pos_of_ne_zero hzero
        rw [if_neg hzero] at hbuild ⊢
        dsimp only
        rw [firstN_children hi.le, Option.bind_eq_bind, Option.bind_some]
        refine ⟨_, rfl, rfl, .inr ⟨hne, k, rfl, by rw [hbuild], .inr ?_, ?_⟩⟩
        · rw [hlength]
          omega
        · rw [hlength]
          omega

end Slice

end Pmdk.Regular
