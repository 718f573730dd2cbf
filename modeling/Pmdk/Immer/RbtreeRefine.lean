import Mathlib.Data.List.GetD
import Pmdk.Immer.RbtreePush

/-!
# Vectors are lists

A vector that comes from the empty one by `push_back`, `update` and `take` refines the list that
these operations describe. Its shape is determined by the list (`Refines`), and so the visitors
that compare two vectors meet nodes of the same shape.
-/

namespace Pmdk.Regular

open Slices List

variable {T : Type} {B BL k k' : Nat} {t t' : Rbtree T} {l l' : List T}

def offset (BL n : Nat) : Nat := restOf BL (n - 1)

/-- The vector has the elements of the list, and `k + 1` is the level of its root. -/
structure Refines (B BL : Nat) (t : Rbtree T) (l : List T) (k : Nat) : Prop where
  size_eq : t.size = l.length
  shift_eq : t.shift = shiftAt B BL k
  root_eq : t.root = build B BL (k + 1) (l.take (offset BL l.length))
  tail_eq : t.tail = .leaf (l.drop (offset BL l.length))
  smallest : Smallest B BL k (offset BL l.length)

/-! ## Offsets -/

theorem offset_le (BL n : Nat) : offset BL n ≤ n :=
  (restOf_le BL (n - 1)).trans (Nat.sub_le n 1)

theorem offset_lt (BL : Nat) {n : Nat} (hn : 0 < n) : offset BL n < n :=
  (restOf_le BL (n - 1)).trans_lt (Nat.sub_lt hn Nat.one_pos)

theorem dvd_offset (BL n : Nat) : 2 ^ BL ∣ offset BL n := Nat.dvd_mul_left _ _

theorem le_offset_add (BL n : Nat) : n ≤ offset BL n + 2 ^ BL := by
  have hdiv := Nat.div_add_mod' (n - 1) (2 ^ BL)
  have hmod := Nat.mod_lt (n - 1) (Nat.two_pow_pos BL)
  rw [offset, restOf]
  omega

/-- The offset is the multiple of the size of a leaf that is before the last element. -/
theorem offset_eq {n off : Nat} (hdvd : 2 ^ BL ∣ off) (hlt : off < n) (hle : n ≤ off + 2 ^ BL) :
    offset BL n = off := by
  obtain ⟨q, rfl⟩ := hdvd
  have hdiv : (n - 1) / 2 ^ BL = q := by
    refine Nat.div_eq_of_lt_le ?_ ?_
    · rw [Nat.mul_comm]
      omega
    · rw [Nat.succ_mul, Nat.mul_comm]
      omega
  rw [offset, restOf, hdiv, Nat.mul_comm]

theorem offset_zero (BL : Nat) : offset BL 0 = 0 := restOf_of_lt (Nat.two_pow_pos BL)

theorem offset_eq_zero_iff {n : Nat} (hn : 0 < n) : offset BL n = 0 ↔ n ≤ 2 ^ BL := by
  constructor
  · intro h
    have hle := le_offset_add BL n
    omega
  · intro h
    exact offset_eq (Nat.dvd_zero _) hn (by omega)

theorem tailOffset_eq (t : Rbtree T) : t.tailOffset BL = offset BL t.size := by
  rw [Rbtree.tailOffset]
  split
  · rw [Nat.shiftRight_eq_div_pow, Nat.shiftLeft_eq]
    rfl
  · rename_i hsize
    rw [not_not.mp hsize, offset_zero]

theorem Smallest.unique (hB : 0 < B) {i j n : Nat} (hi : Smallest B BL i n)
    (hj : Smallest B BL j n) : i = j := by
  have hmono : StrictMono (cap B BL) := strictMono_nat_of_lt_succ (cap_lt_succ hB BL)
  rcases Nat.lt_trichotomy i j with hlt | rfl | hlt
  · rcases hj.1 with rfl | hcap
    · exact absurd hlt (Nat.not_lt_zero i)
    · exact absurd (hcap.trans_le (hi.2.trans (hmono.monotone hlt))) (lt_irrefl _)
  · rfl
  · rcases hi.1 with rfl | hcap
    · exact absurd hlt (Nat.not_lt_zero j)
    · exact absurd (hcap.trans_le (hj.2.trans (hmono.monotone hlt))) (lt_irrefl _)

section Refines

theorem Refines.tailOffset_eq (h : Refines B BL t l k) : t.tailOffset BL = offset BL l.length := by
  rw [Regular.tailOffset_eq, h.size_eq]

theorem Refines.level_eq (h : Refines B BL t l k) (hB : 0 < B) : t.level B BL = k + 1 := by
  rw [Rbtree.level, h.shift_eq, shiftAt, Nat.add_sub_cancel_left, Nat.mul_div_cancel k hB]

theorem Refines.rootPos (h : Refines B BL t l k) (hoff : offset BL l.length ≠ 0) :
    Covers B BL (k + 1) (t.rootPos BL) (l.take (offset BL l.length)).length := by
  rw [Rbtree.rootPos, h.tailOffset_eq, length_take, Nat.min_eq_left (offset_le BL _)]
  exact ⟨Nat.pos_of_ne_zero hoff, rfl, h.smallest.2⟩

theorem Refines.tailPos (h : Refines B BL t l k) (hl : 0 < l.length) :
    Covers B BL 0 (t.tailPos BL) (l.drop (offset BL l.length)).length := by
  have hlt := offset_lt BL hl
  have hle := le_offset_add BL l.length
  rw [Rbtree.tailPos, h.tailOffset_eq, h.size_eq, length_drop]
  refine ⟨by omega, rfl, ?_⟩
  rw [cap_zero]
  omega

theorem refines_empty (B BL : Nat) : Refines B BL (empty BL : Rbtree T) [] 0 := by
  refine ⟨rfl, ?_, ?_, ?_, .inl rfl, ?_⟩
  · rw [shiftAt, Nat.zero_mul]
    rfl
  · rw [take_nil, build, slices_nil]
    rfl
  · rw [drop_nil]
    rfl
  · rw [length_nil, offset_zero]
    exact Nat.zero_le _

/-! ## Reading -/

theorem Refines.get_eq (h : Refines B BL t l k) (hB : 0 < B) (hshift : t.shift ≤ BL + 5 * B)
    {i : Nat} (hi : i < l.length) : t.get B BL i = l[i]? := by
  rw [Rbtree.get, h.tailOffset_eq, h.level_eq hB, h.tail_eq, h.root_eq]
  by_cases htail : i ≥ offset BL l.length
  · rw [if_pos htail]
    have hle := le_offset_add BL l.length
    have hoff : offset BL (i + 1) = offset BL l.length :=
      offset_eq (dvd_offset BL _) (by omega) (by omega)
    have hdiv := Nat.div_add_mod' i (2 ^ BL)
    have hvisit := @getVisitor_build T B BL 0 i (l.drop (offset BL l.length))
    rw [build, cap_zero, getElem?_drop] at hvisit
    rw [offset, restOf, Nat.add_sub_cancel] at hoff
    rw [hvisit, ← hoff, hdiv]
  · have hk : k ≤ 5 := by
      rw [h.shift_eq, shiftAt] at hshift
      exact Nat.le_of_mul_le_mul_right (Nat.le_of_add_le_add_left hshift) hB
    have hswitch : ((List.range 6).any fun i => t.shift == BL + B * i) = true := by
      refine any_eq_true.mpr ⟨k, mem_range.mpr (Nat.lt_succ_of_le hk), ?_⟩
      rw [beq_iff_eq, h.shift_eq, shiftAt, Nat.mul_comm]
    have hlt : i < cap B BL (k + 1) := by
      have hle := h.smallest.2
      omega
    rw [if_neg htail, if_pos hswitch, getVisitor_build, Nat.mod_eq_of_lt hlt,
      getElem?_take_of_lt (by omega)]

theorem Refines.back_eq (h : Refines B BL t l k) (hl : l ≠ []) : t.back BL = l.getLast? := by
  have hlength := length_pos_iff.mpr hl
  have hdiv := Nat.div_add_mod' (l.length - 1) (2 ^ BL)
  rw [Rbtree.back, h.tail_eq, h.size_eq, List.getLast?_eq_getElem?]
  dsimp only
  rw [and_mask, getElem?_drop, offset, restOf, hdiv]

theorem Refines.forEachChunk (h : Refines B BL t l k) (hB : 0 < B) :
    ∃ chunks, t.forEachChunk B BL = some chunks ∧ chunks.flatten = l := by
  have htail : ∃ chunks, forEachChunkVisitor B BL 0 (t.tailPos BL) t.tail = some chunks ∧
      chunks.flatten = l.drop (offset BL l.length) := by
    rw [h.tail_eq]
    rcases Nat.eq_zero_or_pos l.length with hl | hl
    · rw [length_eq_zero_iff] at hl
      subst hl
      refine ⟨[[]], ?_, by simp⟩
      rw [Rbtree.tailPos, h.size_eq, length_nil, Nat.zero_sub]
      rfl
    · exact ⟨_, forEachChunkVisitor_build (h.tailPos hl), flatten_leaves _⟩
  obtain ⟨last, hlast, hflat⟩ := htail
  rw [Rbtree.forEachChunk, h.tailOffset_eq, hlast, h.level_eq hB, h.root_eq]
  by_cases hoff : offset BL l.length = 0
  · rw [if_neg (fun hne => hne hoff)]
    refine ⟨_, rfl, ?_⟩
    rw [nil_append, hflat, hoff, drop_zero]
  · rw [if_pos hoff, forEachChunkVisitor_build (h.rootPos hoff)]
    refine ⟨_, rfl, ?_⟩
    rw [flatten_append, flatten_leaves, hflat, take_append_drop]

theorem Refines.equals_eq [DecidableEq T] {same : Node T → Node T → Bool}
    (hsame : ∀ a b, same a b = true → a = b) (hB : 0 < B) (h : Refines B BL t l k)
    (h' : Refines B BL t' l' k') : t.equals B BL same t' = some (decide (l = l')) := by
  rw [Rbtree.equals, h.size_eq, h'.size_eq]
  by_cases hlength : l.length = l'.length
  · rw [if_neg (fun hne => hne hlength)]
    rcases Nat.eq_zero_or_pos l.length with hl | hl
    · rw [if_pos hl]
      rw [hl, eq_comm, length_eq_zero_iff] at hlength
      rw [length_eq_zero_iff] at hl
      rw [hl, hlength, decide_eq_true rfl]
    · have hk : k = k' := h.smallest.unique hB (hlength ▸ h'.smallest)
      subst hk
      have htail : equalsVisitor B BL same 0 (t.tailPos BL) t.tail t'.tail =
          some (decide (l.drop (offset BL l.length) = l'.drop (offset BL l.length))) := by
        rw [h.tail_eq, h'.tail_eq, ← hlength]
        refine equalsVisitor_build (k := 0) hsame (h.tailPos hl) ?_
        rw [length_drop, length_drop, hlength]
      rw [if_neg hl.ne', htail]
      by_cases hoff : l.length ≤ branches BL
      · rw [if_pos hoff, (offset_eq_zero_iff hl).mpr hoff]
        rfl
      · have hroot : equalsVisitor B BL same (t.level B BL) (t.rootPos BL) t.root t'.root =
            some (decide (l.take (offset BL l.length) = l'.take (offset BL l.length))) := by
          rw [h.level_eq hB, h.root_eq, h'.root_eq, ← hlength]
          refine equalsVisitor_build hsame (h.rootPos (mt (offset_eq_zero_iff hl).mp hoff)) ?_
          rw [length_take, length_take, hlength]
        have hboth : l = l' ↔ l.take (offset BL l.length) = l'.take (offset BL l.length) ∧
            l.drop (offset BL l.length) = l'.drop (offset BL l.length) := by
          constructor
          · intro heq
            rw [← heq]
            exact ⟨rfl, rfl⟩
          · rintro ⟨htake, hdrop⟩
            rw [← take_append_drop (offset BL l.length) l, htake, hdrop, take_append_drop]
        rw [if_neg hoff, hroot, Option.bind_eq_bind, Option.bind_some]
        dsimp only
        by_cases htake : l.take (offset BL l.length) = l'.take (offset BL l.length)
        · rw [if_pos (decide_eq_true htake)]
          simp only [hboth, htake, true_and]
        · rw [if_neg (fun hdec => htake (of_decide_eq_true hdec))]
          simp only [hboth, htake, false_and, decide_false]
  · rw [if_pos hlength, decide_eq_false]
    rintro rfl
    exact hlength rfl

/-! ## Operations -/

theorem Refines.pushBack (h : Refines B BL t l k) (hB : 0 < B) (x : T) :
    ∃ t' k', t.pushBack B BL x = some t' ∧ Refines B BL t' (l ++ [x]) k' := by
  have hoff := offset_le BL l.length
  have hle := le_offset_add BL l.length
  have hdvd := dvd_offset BL l.length
  rw [Rbtree.pushBack, h.tailOffset_eq, h.size_eq]
  by_cases hroom : l.length - offset BL l.length < branches BL
  · have hlt : l.length < offset BL l.length + 2 ^ BL := by
      rw [branches] at hroom
      omega
    have hsame : offset BL (l ++ [x]).length = offset BL l.length := by
      rw [length_append, length_singleton]
      exact offset_eq hdvd (by omega) hlt
    have hlength : (l.drop (offset BL l.length)).length = l.length - offset BL l.length :=
      length_drop
    rw [if_pos hroom, h.tail_eq]
    dsimp only
    rw [firstN_of_eq hlength.symm]
    refine ⟨_, k, rfl, ?_, h.shift_eq, ?_, ?_, ?_⟩
    · rw [length_append]
      rfl
    · rw [hsame, take_append_of_le_length hoff]
      exact h.root_eq
    · rw [hsame, drop_append_of_le_length hoff]
    · rw [hsame]
      exact h.smallest
  · have hfull : l.length = offset BL l.length + 2 ^ BL := by
      rw [branches] at hroom
      omega
    have hpos := Nat.two_pow_pos BL
    have hnew : offset BL (l ++ [x]).length = l.length := by
      rw [length_append, length_singleton]
      refine offset_eq ?_ (Nat.lt_succ_self _) (by omega)
      rw [hfull]
      exact Nat.dvd_add hdvd (Nat.dvd_refl _)
    have hlast : (l.drop (offset BL l.length)).length = 2 ^ BL := by
      rw [length_drop]
      omega
    have hrefines : ∀ root k', root = build B BL (k' + 1) l → Smallest B BL k' l.length →
        Refines B BL ⟨l.length + 1, shiftAt B BL k', root, .leaf [x]⟩ (l ++ [x]) k' := by
      intro root k' hroot hsmallest
      refine ⟨?_, rfl, ?_, ?_, ?_⟩
      · rw [length_append]
        rfl
      · rw [hnew, take_left, hroot]
      · rw [hnew, drop_left]
      · rw [hnew]
        exact hsmallest
    have htake : (l.take (offset BL l.length)).length = offset BL l.length := by
      rw [length_take, Nat.min_eq_left hoff]
    rw [if_neg hroom, h.level_eq hB, h.tail_eq, h.root_eq, h.shift_eq]
    by_cases htop : offset BL l.length = branches B <<< shiftAt B BL k
    · -- the tree is full, and there is a new root
      have hcap : offset BL l.length = cap B BL (k + 1) := by
        rw [htop, cap_succ, Nat.shiftLeft_eq, Nat.mul_comm]
        rfl
      rw [if_pos htop]
      refine ⟨_, k + 1, rfl, ?_⟩
      have hshift : shiftAt B BL k + B = shiftAt B BL (k + 1) := by
        rw [shiftAt, shiftAt, Nat.succ_mul, Nat.add_assoc]
      rw [hshift]
      refine hrefines _ (k + 1) ?_ ⟨.inr ?_, ?_⟩
      · have hleaf := Nat.le_of_dvd (cap_pos B BL (k + 1)) (dvd_cap B BL (k + 1))
        have hslices := slices_pair (l := l) (cap_pos B BL (k + 1)) (by omega) (by omega)
        have hpath := makePath_build (B := B) (k := k + 1) (by omega) hlast.le
        have hbuild : build B BL (k + 1 + 1) l = .inner
            [build B BL (k + 1) (l.take (offset BL l.length)),
              build B BL (k + 1) (l.drop (offset BL l.length))] := by
          rw [hcap, build, hslices]
          rfl
        rw [hbuild, hpath]
      · omega
      · rw [hfull]
        exact add_le_of_dvd hdvd (dvd_cap B BL _) (hcap ▸ cap_lt_succ hB BL (k + 1))
    · rw [if_neg htop]
      by_cases hzero : offset BL l.length = 0
      · -- the tail is the first leaf
        have hk : k = 0 := by
          rcases h.smallest.1 with hk | hlt
          · exact hk
          · rw [hzero] at hlt
            exact absurd hlt (Nat.not_lt_zero _)
        rw [if_neg (fun hne => hne hzero), hzero, drop_zero]
        rw [hzero, Nat.zero_add] at hfull
        refine ⟨_, k, rfl, hrefines _ k (makePath_build (by omega) hfull.le) ⟨.inl hk, ?_⟩⟩
        rw [hfull]
        exact Nat.le_of_dvd (cap_pos B BL _) (dvd_cap B BL _)
      · have hlt : offset BL l.length < cap B BL (k + 1) := by
          refine lt_of_le_of_ne h.smallest.2 fun hcap => htop ?_
          rw [hcap, cap_succ, Nat.shiftLeft_eq, Nat.mul_comm]
          rfl
        have hpush := pushTailVisitor_build hlast (h.rootPos hzero) (by simp [Rbtree.rootPos])
          (by rwa [htake]) (by rwa [htake])
        rw [if_pos hzero, hpush, take_append_drop]
        refine ⟨_, k, rfl, hrefines _ k rfl ⟨h.smallest.1.imp_right fun hcap => by omega, ?_⟩⟩
        rw [hfull]
        exact add_le_of_dvd hdvd (dvd_cap B BL _) hlt

theorem Refines.update (h : Refines B BL t l k) (hB : 0 < B) (fn : T → T) {idx : Nat} {x : T}
    (hx : l[idx]? = some x) :
    ∃ t', t.update B BL idx fn = some t' ∧ Refines B BL t' (l.set idx (fn x)) k := by
  have hidx : idx < l.length := (List.getElem?_eq_some_iff.mp hx).1
  have hpos : 0 < l.length := Nat.zero_lt_of_lt hidx
  have hle := le_offset_add BL l.length
  have hlength : (l.set idx (fn x)).length = l.length := length_set
  rw [Rbtree.update, h.tailOffset_eq]
  by_cases htail : idx ≥ offset BL l.length
  · have hlt : idx - offset BL l.length < 2 ^ BL := by omega
    have hmod := Nat.mod_eq_of_lt hlt
    have hget : (l.drop (offset BL l.length))[(idx - offset BL l.length) % cap B BL 0]? =
        some x := by
      rw [cap_zero, hmod, getElem?_drop, Nat.add_sub_cancel' htail, hx]
    have hvisit := updateVisitor_build fn (h.tailPos hpos) hget
    rw [build, cap_zero, hmod] at hvisit
    rw [if_pos htail, h.tail_eq, hvisit]
    refine ⟨_, rfl, ?_, h.shift_eq, ?_, ?_, ?_⟩
    · rw [hlength]
      exact h.size_eq
    · rw [hlength, take_set_of_le htail]
      exact h.root_eq
    · rw [hlength, drop_set, if_neg (Nat.not_lt_of_le htail)]
      rfl
    · rw [hlength]
      exact h.smallest
  · have hlt : idx < offset BL l.length := Nat.lt_of_not_le htail
    have hmod : idx % cap B BL (k + 1) = idx := Nat.mod_eq_of_lt (hlt.trans_le h.smallest.2)
    have hget : (l.take (offset BL l.length))[idx % cap B BL (k + 1)]? = some x := by
      rw [hmod, getElem?_take_of_lt hlt, hx]
    rw [if_neg htail, h.level_eq hB, h.root_eq,
      updateVisitor_build fn (h.rootPos (Nat.zero_lt_of_lt hlt).ne') hget, hmod]
    refine ⟨_, rfl, ?_, h.shift_eq, ?_, ?_, ?_⟩
    · rw [hlength]
      exact h.size_eq
    · rw [hlength, take_set]
    · rw [hlength, drop_set, if_pos hlt]
      exact h.tail_eq
    · rw [hlength]
      exact h.smallest

theorem Refines.take (h : Refines B BL t l k) (hB : 0 < B) (n : Nat) :
    ∃ t' k', t.take B BL n = some t' ∧ Refines B BL t' (l.take n) k' := by
  rw [Rbtree.take, h.tailOffset_eq, h.size_eq]
  by_cases hzero : n = 0
  · rw [if_pos hzero, hzero, take_zero]
    exact ⟨_, 0, rfl, refines_empty B BL⟩
  by_cases hall : n ≥ l.length
  · rw [if_neg hzero, if_pos hall, take_of_length_le hall]
    exact ⟨t, k, rfl, h⟩
  have hlength : (l.take n).length = n := by
    rw [length_take]
    omega
  rw [if_neg hzero, if_neg hall]
  by_cases htail : n > offset BL l.length
  · have hle := le_offset_add BL l.length
    have hsame : offset BL n = offset BL l.length :=
      offset_eq (dvd_offset BL _) htail (by omega)
    have hfirst : firstN (n - offset BL l.length) (l.drop (offset BL l.length)) =
        some ((l.drop (offset BL l.length)).take (n - offset BL l.length)) := by
      rw [firstN, if_pos]
      rw [length_drop]
      omega
    rw [if_pos htail, h.tail_eq]
    dsimp only
    rw [hfirst]
    refine ⟨_, k, rfl, hlength.symm, h.shift_eq, ?_, ?_, ?_⟩
    · rw [hlength, hsame, take_take, Nat.min_eq_left htail.le]
      exact h.root_eq
    · rw [hlength, hsame, drop_take]
    · rw [hlength, hsame]
      exact h.smallest
  · have hle : n ≤ offset BL l.length := Nat.le_of_not_lt htail
    have hmod : (n - 1) % cap B BL (k + 1) = n - 1 := by
      refine Nat.mod_eq_of_lt ?_
      have hcap := h.smallest.2
      omega
    have htake : (l.take (offset BL l.length)).length = offset BL l.length := by
      rw [length_take, Nat.min_eq_left (offset_le BL _)]
    have hlast : (n - 1) % cap B BL (k + 1) < (l.take (offset BL l.length)).length := by
      rw [hmod, htake]
      omega
    obtain ⟨s, hs, hstail, hcut⟩ :=
      sliceRightVisitor_collapse hB (h.rootPos (by omega)) hlast
    have hsucc : n - 1 + 1 = n := Nat.sub_add_cancel (Nat.pos_of_ne_zero hzero)
    have hmin : min (restOf BL (n - 1)) (offset BL l.length) = restOf BL (n - 1) := by
      have hrest := restOf_le BL (n - 1)
      omega
    rw [hmod, hsucc, take_take, Nat.min_eq_left hle] at hstail
    rw [hmod, take_take, hmin] at hcut
    rw [if_neg htail, h.level_eq hB, h.root_eq, hs, Option.bind_eq_bind, Option.bind_some]
    have hoffset : (l.take n).take (offset BL n) = l.take (restOf BL (n - 1)) := by
      rw [take_take, offset, Nat.min_eq_left ((restOf_le BL _).trans (Nat.sub_le n 1))]
    have hrest : (l.take (restOf BL (n - 1))).length = offset BL n := by
      rw [length_take, offset]
      have hle' := restOf_le BL (n - 1)
      omega
    rcases hcut with ⟨hnil, hroot⟩ | ⟨-, i, hshift, hroot, hsmallest⟩
    · rw [hnil, length_nil] at hrest
      rw [hroot]
      refine ⟨_, 0, rfl, hlength.symm, ?_, ?_, ?_, .inl rfl, ?_⟩
      · rw [shiftAt, Nat.zero_mul]
        rfl
      · rw [hlength, hoffset, hnil, build, slices_nil]
        rfl
      · rw [hlength, hstail]
        rfl
      · rw [hlength, ← hrest]
        exact Nat.zero_le _
    · rw [hroot]
      refine ⟨_, i, rfl, hlength.symm, hshift, ?_, ?_, ?_⟩
      · rw [hlength, hoffset]
      · rw [hlength, hstail]
        rfl
      · rw [hlength, ← hrest]
        exact hsmallest

end Refines

/-! ## Vectors from the empty one -/

inductive Built (B BL : Nat) : Rbtree T → List T → Prop where
  | empty : Built B BL (empty BL) []
  | pushBack {t t' : Rbtree T} {l : List T} (h : Built B BL t l) (value : T)
      (ht : t.pushBack B BL value = some t') : Built B BL t' (l ++ [value])
  | update {t t' : Rbtree T} {l : List T} (h : Built B BL t l) (fn : T → T) {idx : Nat} {x : T}
      (hx : l[idx]? = some x) (ht : t.update B BL idx fn = some t') :
      Built B BL t' (l.set idx (fn x))
  | take {t t' : Rbtree T} {l : List T} (h : Built B BL t l) (n : Nat)
      (ht : t.take B BL n = some t') : Built B BL t' (l.take n)

theorem Built.refines (hB : 0 < B) (h : Built B BL t l) : ∃ k, Refines B BL t l k := by
  induction h with
  | empty => exact ⟨0, refines_empty B BL⟩
  | pushBack _ value ht ih =>
    obtain ⟨k, hk⟩ := ih
    obtain ⟨t'', k', ht', hk'⟩ := hk.pushBack hB value
    rw [ht, Option.some.injEq] at ht'
    exact ⟨k', ht' ▸ hk'⟩
  | update _ fn hx ht ih =>
    obtain ⟨k, hk⟩ := ih
    obtain ⟨t'', ht', hk'⟩ := hk.update hB fn hx
    rw [ht, Option.some.injEq] at ht'
    exact ⟨k, ht' ▸ hk'⟩
  | take _ n ht ih =>
    obtain ⟨k, hk⟩ := ih
    obtain ⟨t'', k', ht', hk'⟩ := hk.take hB n
    rw [ht, Option.some.injEq] at ht'
    exact ⟨k', ht' ▸ hk'⟩

/-- A vector refines the list of its elements, no operation on it fails, and its shift is the
smallest that is possible. -/
theorem rbtree_refines [DecidableEq T] {same : Node T → Node T → Bool}
    (hsame : ∀ a b, same a b = true → a = b) (hB : 0 < B) (h : Built B BL t l) :
    t.size = l.length ∧
      (t.shift ≤ BL + 5 * B → ∀ i < l.length, t.get B BL i = l[i]?) ∧
      (l ≠ [] → t.back BL = l.getLast?) ∧
      (∃ chunks, t.forEachChunk B BL = some chunks ∧ chunks.flatten = l) ∧
      (∀ t' l', Built B BL t' l' → t.equals B BL same t' = some (decide (l = l'))) ∧
      (∃ k, t.shift = BL + k * B ∧ t.tailOffset BL ≤ 2 ^ (t.shift + B) ∧
        ∀ k', t.tailOffset BL ≤ 2 ^ (BL + k' * B + B) → k ≤ k') ∧
      (∀ value, ∃ t', t.pushBack B BL value = some t') ∧
      (∀ idx < t.size, ∀ fn, ∃ t', t.update B BL idx fn = some t') ∧
      ∀ n, ∃ t', t.take B BL n = some t' := by
  obtain ⟨k, hk⟩ := h.refines hB
  have hcap : ∀ k, 2 ^ (BL + k * B + B) = cap B BL (k + 1) := by
    intro k
    rw [cap, shiftAt, Nat.succ_mul, Nat.add_assoc]
  refine ⟨hk.size_eq, fun hshift i hi => hk.get_eq hB hshift hi, hk.back_eq, hk.forEachChunk hB,
    fun t' l' h' => ?_, ⟨k, hk.shift_eq, ?_, fun k' hk' => ?_⟩, fun value => ?_,
    fun idx hidx fn => ?_, fun n => ?_⟩
  · obtain ⟨k', hk'⟩ := h'.refines hB
    exact hk.equals_eq hsame hB hk'
  · rw [hk.shift_eq, shiftAt, hcap, hk.tailOffset_eq]
    exact hk.smallest.2
  · rw [hcap, hk.tailOffset_eq] at hk'
    by_contra hlt
    have hmono : StrictMono (cap B BL) := strictMono_nat_of_lt_succ (cap_lt_succ hB BL)
    rcases hk.smallest.1 with rfl | hcapk
    · exact hlt (Nat.zero_le k')
    · exact absurd (hcapk.trans_le (hk'.trans (hmono.monotone (Nat.lt_of_not_le hlt))))
        (lt_irrefl _)
  · obtain ⟨t', -, ht', -⟩ := hk.pushBack hB value
    exact ⟨t', ht'⟩
  · rw [hk.size_eq] at hidx
    obtain ⟨t', ht', -⟩ := hk.update hB fn (List.getElem?_eq_getElem hidx)
    exact ⟨t', ht'⟩
  · obtain ⟨t', -, ht', -⟩ := hk.take hB n
    exact ⟨t', ht'⟩

/-- Three elements in leaves of one element, without the last one and with it. -/
theorem rbtree_refines_three : ∃ t t' : Rbtree Nat, Built 1 0 t [7, 8, 9] ∧ Built 1 0 t' [7, 8] ∧
    t.get 1 0 1 = some 8 ∧ t.back 0 = some 9 ∧
    t.equals 1 0 (fun _ _ => false) t' = some false ∧
    t'.equals 1 0 (fun _ _ => false) t' = some true := by
  have htwo := (Built.pushBack (.empty : Built 1 0 (empty 0 : Rbtree Nat) []) 7 rfl).pushBack 8 rfl
  have hthree := htwo.pushBack 9 rfl
  have hsame : ∀ a b : Node Nat, (fun _ _ => false : Node Nat → Node Nat → Bool) a b = true →
      a = b := by simp
  obtain ⟨-, hget, hback, -, hequals, -⟩ := rbtree_refines hsame Nat.one_pos hthree
  obtain ⟨-, -, -, -, hequals', -⟩ := rbtree_refines hsame Nat.one_pos htwo
  exact ⟨_, _, hthree, htwo, hget (by decide) 1 (by decide), hback (by decide),
    hequals _ _ htwo, hequals' _ _ htwo⟩

end Pmdk.Regular
