import Pmdk.Immer.Champ

/-!
# The shape of the trie

`WF` says what holds of every node of a trie: the arrays of an inner node fit its bitmaps, which are
disjoint, every value is in the slot of its hash, and behind every child there are two keys or more.
-/

namespace Pmdk.Hamts

open Packed List

/-! ## Slots -/

section Index

variable {B : Nat} {hash hash' : Hash} {shift : Nat}

theorem index_eq (B : Nat) (hash : Hash) (h : shift < 64) :
    index B hash shift = hash.toNat / 2 ^ shift % 2 ^ B := by
  refine Nat.eq_of_testBit_eq fun k => ?_
  change ((hash &&& (mask B <<< shift)) >>> shift).getLsbD k = _
  have hmask : (mask B).getLsbD k = (decide (k < 64) && decide (k < B)) := by
    rw [mask, BitVec.getLsbD_ofNat, Nat.testBit_two_pow_sub_one]
  rw [BitVec.getLsbD_ushiftRight, BitVec.getLsbD_and, BitVec.getLsbD_shiftLeft,
    Nat.add_sub_cancel_left, hmask, Nat.testBit_mod_two_pow, Nat.testBit_div_two_pow,
    Nat.add_comm k shift]
  by_cases hk : shift + k < 64
  · have hk' : k < 64 := by omega
    simp [hk, hk', BitVec.getLsbD, Bool.and_comm]
  · have hge : hash.getLsbD (shift + k) = false := BitVec.getLsbD_of_ge hash _ (by omega)
    have htest : hash.toNat.testBit (shift + k) = false := hge
    simp [hk, htest]

theorem index_lt (hB : B ≤ 5) (hash : Hash) (h : shift < 64) : index B hash shift < 32 := by
  rw [index_eq B hash h]
  exact (Nat.mod_lt _ (Nat.two_pow_pos B)).trans_le (Nat.pow_le_pow_right (by decide) hB)

theorem chunk_eq_iff : chunk B hash shift = chunk B hash' shift ↔
    index B hash shift = index B hash' shift := by
  constructor
  · intro h
    rw [index, index, h]
  · intro h
    refine BitVec.eq_of_getLsbD_eq fun j _ => ?_
    have hbit := congrArg (Nat.testBit · (j - shift)) h
    change (chunk B hash shift >>> shift).getLsbD (j - shift) =
      (chunk B hash' shift >>> shift).getLsbD (j - shift) at hbit
    rw [BitVec.getLsbD_ushiftRight, BitVec.getLsbD_ushiftRight] at hbit
    by_cases hj : shift ≤ j
    · rwa [Nat.add_sub_cancel' hj] at hbit
    · rw [chunk, chunk, BitVec.getLsbD_and, BitVec.getLsbD_and, BitVec.getLsbD_shiftLeft]
      simp [Nat.lt_of_not_le hj]

def Agree (hash hash' : Hash) (shift : Nat) : Prop :=
  hash.toNat % 2 ^ shift = hash'.toNat % 2 ^ shift

theorem Agree.zero (hash hash' : Hash) : Agree hash hash' 0 := by
  simp [Agree, Nat.mod_one]

theorem Agree.next (h : Agree hash hash' shift) (hshift : shift < 64)
    (hindex : index B hash shift = index B hash' shift) : Agree hash hash' (shift + B) := by
  rw [index_eq B hash hshift, index_eq B hash' hshift] at hindex
  rw [Agree] at h ⊢
  rw [Nat.pow_add, Nat.mod_mul, Nat.mod_mul, h, hindex]

theorem Agree.eq (h : Agree hash hash' shift) (hshift : 64 ≤ shift) : hash = hash' := by
  have hpow : 2 ^ 64 ≤ 2 ^ shift := Nat.pow_le_pow_right (by decide) hshift
  rw [Agree, Nat.mod_eq_of_lt (hash.isLt.trans_le hpow),
    Nat.mod_eq_of_lt (hash'.isLt.trans_le hpow)] at h
  exact BitVec.eq_of_toNat_eq h

theorem le_maxShift (hB : 0 < B) : 64 ≤ maxShift B := by
  rw [maxShift, maxDepth]
  have hdiv := Nat.div_add_mod (64 + B - 1) B
  have hlt := Nat.mod_lt (64 + B - 1) hB
  rw [Nat.mul_comm] at hdiv
  omega

theorem maxDepth_pos (hB : 0 < B) : 0 < maxDepth B := by
  have hle := le_maxShift hB
  rw [maxShift] at hle
  exact Nat.pos_of_mul_pos_right (Nat.lt_of_lt_of_le (by decide) hle)

theorem shift_lt {d : Nat} (h : shift + (d + 1) * B = maxShift B) : shift < 64 := by
  rw [maxShift, maxDepth] at h
  have hle := Nat.div_mul_le_self (64 + B - 1) B
  rw [Nat.succ_mul] at h
  rcases Nat.eq_zero_or_pos B with rfl | hB
  · omega
  · omega

theorem and_bit_ne_zero_iff {bm : Bitmap} {i : Nat} (hi : i < 32) :
    bm &&& bit 32 i ≠ 0 ↔ bm.getLsbD i = true := by
  constructor
  · intro h
    by_contra hbit
    refine h (BitVec.eq_of_getLsbD_eq fun j _ => ?_)
    by_cases hij : i = j
    · subst hij
      simp [hbit]
    · simp [hij]
  · intro hbit h
    have hget : (bm &&& bit 32 i).getLsbD i = false := by
      rw [h]
      exact BitVec.getLsbD_zero
    rw [BitVec.getLsbD_and, getLsbD_bit, hbit, decide_eq_true hi, decide_eq_true rfl] at hget
    cases hget

end Index

/-! ## Well-formed tries -/

variable {T K V : Type}

/-- The values of a node at depth `d` from the last level, in the order of a traversal. -/
def elems : Nat → Node T → List T
  | 0, .collision values => values
  | d + 1, .inner node => node.values ++ node.children.flatMap (elems d)
  | _, _ => []

def HasTwo (l : List (K × V)) : Prop := ∃ x ∈ l, ∃ y ∈ l, x.1 ≠ y.1

structure Inner.Shaped {N : Type} (node : Inner N T) : Prop where
  values_length : node.values.length = popcount node.datamap
  children_length : node.children.length = popcount node.nodemap
  disjoint : ∀ i, node.nodemap.getLsbD i = true → node.datamap.getLsbD i = false

def WF (B : Nat) (hashOf : K → Hash) : Nat → Nat → Node (K × V) → Prop
  | 0, _, .collision values => (values.map Prod.fst).Nodup
  | d + 1, shift, .inner node => node.Shaped ∧
      (∀ i x, At node.datamap node.values i x → index B (hashOf x.1) shift = i) ∧
      ∀ i c, At node.nodemap node.children i c → WF B hashOf d (shift + B) c ∧
        HasTwo (elems d c) ∧ ∀ x ∈ elems d c, index B (hashOf x.1) shift = i
  | _, _, _ => False

section WF

variable {B : Nat} {hashOf : K → Hash} {d shift : Nat} {node : Inner (Node (K × V)) (K × V)}
  {n n' : Node (K × V)} {x y : K × V}

theorem mem_elems_inner (h : node.Shaped) : x ∈ elems (d + 1) (.inner node) ↔
    (∃ i, At node.datamap node.values i x) ∨
      ∃ i c, At node.nodemap node.children i c ∧ x ∈ elems d c := by
  rw [elems, mem_append, mem_iff_at h.values_length, mem_flatMap]
  refine or_congr_right ?_
  constructor
  · rintro ⟨c, hc, hx⟩
    obtain ⟨i, hi⟩ := (mem_iff_at h.children_length).mp hc
    exact ⟨i, c, hi, hx⟩
  · rintro ⟨i, c, hi, hx⟩
    exact ⟨c, hi.mem, hx⟩

section

variable (h : WF B hashOf (d + 1) shift (.inner node))

include h

theorem WF.shaped : node.Shaped := h.1

theorem WF.index_value {i : Nat}
    (hx : At node.datamap node.values i x) : index B (hashOf x.1) shift = i :=
  h.2.1 i x hx

theorem WF.child {i : Nat} {c : Node (K × V)}
    (hc : At node.nodemap node.children i c) : WF B hashOf d (shift + B) c := (h.2.2 i c hc).1

theorem WF.hasTwo {i : Nat} {c : Node (K × V)}
    (hc : At node.nodemap node.children i c) : HasTwo (elems d c) := (h.2.2 i c hc).2.1

theorem WF.index_child {i : Nat}
    {c : Node (K × V)} (hc : At node.nodemap node.children i c) (hx : x ∈ elems d c) :
    index B (hashOf x.1) shift = i :=
  (h.2.2 i c hc).2.2 x hx

theorem WF.mem_elems :
    x ∈ elems (d + 1) (.inner node) ↔
      At node.datamap node.values (index B (hashOf x.1) shift) x ∨
        ∃ c, At node.nodemap node.children (index B (hashOf x.1) shift) c ∧ x ∈ elems d c := by
  rw [mem_elems_inner h.shaped]
  constructor
  · rintro (⟨i, hi⟩ | ⟨i, c, hc, hx⟩)
    · have hindex := h.index_value hi
      subst hindex
      exact .inl hi
    · have hindex := h.index_child hc hx
      subst hindex
      exact .inr ⟨c, hc, hx⟩
  · rintro (hi | ⟨c, hc, hx⟩)
    · exact .inl ⟨_, hi⟩
    · exact .inr ⟨_, c, hc, hx⟩

end

theorem WF.eq_of_key_eq (h : WF B hashOf d shift n) (hx : x ∈ elems d n) (hy : y ∈ elems d n)
    (hkey : x.1 = y.1) : x = y := by
  induction d generalizing shift n with
  | zero =>
    cases n with
    | inner node => exact h.elim
    | collision values => exact inj_on_of_nodup_map h hx hy hkey
  | succ d ih =>
    cases n with
    | collision values => exact h.elim
    | inner node =>
      rw [h.mem_elems] at hx hy
      rw [← hkey] at hy
      rcases hx with hx | ⟨c, hc, hx⟩
      · rcases hy with hy | ⟨c', hc', -⟩
        · exact hx.unique hy
        · exact absurd (h.shaped.disjoint _ hc'.bit_eq) (by rw [hx.bit_eq]; decide)
      · rcases hy with hy | ⟨c', hc', hy⟩
        · exact absurd (h.shaped.disjoint _ hc.bit_eq) (by rw [hy.bit_eq]; decide)
        · obtain rfl := hc.unique hc'
          exact ih (h.child hc) hx hy

theorem WF.nodup (h : WF B hashOf d shift n) : (elems d n).Nodup := by
  induction d generalizing shift n with
  | zero =>
    cases n with
    | inner node => exact h.elim
    | collision values => exact List.Nodup.of_map _ h
  | succ d ih =>
    cases n with
    | collision values => exact h.elim
    | inner node =>
      refine nodup_append.mpr ⟨?_, nodup_flatMap.mpr ⟨?_, ?_⟩, ?_⟩
      · refine pairwise_of_at h.shaped.values_length fun i j x y hij hx hy => ?_
        rintro rfl
        exact hij ((h.index_value hx).symm.trans (h.index_value hy))
      · intro c hc
        obtain ⟨i, hi⟩ := (mem_iff_at h.shaped.children_length).mp hc
        exact ih (h.child hi)
      · refine pairwise_of_at h.shaped.children_length fun i j c c' hij hc hc' => ?_
        intro x hx hx'
        exact hij ((h.index_child hc hx).symm.trans (h.index_child hc' hx'))
      · rintro x hx y hy rfl
        obtain ⟨i, hi⟩ := (mem_iff_at h.shaped.values_length).mp hx
        obtain ⟨c, hc, hxc⟩ := mem_flatMap.mp hy
        obtain ⟨j, hj⟩ := (mem_iff_at h.shaped.children_length).mp hc
        have hij : i = j := (h.index_value hi).symm.trans (h.index_child hj hxc)
        subst hij
        exact absurd (h.shaped.disjoint _ hj.bit_eq) (by rw [hi.bit_eq]; decide)

/-! ## Slots and keys -/

def keys (d : Nat) (n : Node (K × V)) : List K := (elems d n).map Prod.fst

theorem mem_keys_iff {k : K} : k ∈ keys d n ↔ ∃ x ∈ elems d n, x.1 = k := mem_map

section

variable (h : WF B hashOf (d + 1) shift (.inner node))

include h

theorem WF.nodemap_iff {i : Nat} :
    node.nodemap.getLsbD i = true ↔ ∃ k ∈ keys (d + 1) (.inner node),
      ∃ k' ∈ keys (d + 1) (.inner node), k ≠ k' ∧
        index B (hashOf k) shift = i ∧ index B (hashOf k') shift = i := by
  constructor
  · intro hi
    obtain ⟨c, hc⟩ := exists_at h.shaped.children_length hi
    obtain ⟨x, hx, y, hy, hne⟩ := h.hasTwo hc
    have hxn := (mem_elems_inner h.shaped).mpr (.inr ⟨i, c, hc, hx⟩)
    have hyn := (mem_elems_inner h.shaped).mpr (.inr ⟨i, c, hc, hy⟩)
    exact ⟨x.1, mem_keys_iff.mpr ⟨x, hxn, rfl⟩, y.1, mem_keys_iff.mpr ⟨y, hyn, rfl⟩, hne,
      h.index_child hc hx, h.index_child hc hy⟩
  · rintro ⟨k, hk, k', hk', hne, hi, hi'⟩
    obtain ⟨x, hx, rfl⟩ := mem_keys_iff.mp hk
    obtain ⟨y, hy, rfl⟩ := mem_keys_iff.mp hk'
    rw [h.mem_elems] at hx hy
    rw [hi] at hx
    rw [hi'] at hy
    rcases hx with hx | ⟨c, hc, -⟩
    · rcases hy with hy | ⟨c, hc, -⟩
      · exact absurd (congrArg Prod.fst (hx.unique hy)) hne
      · exact hc.bit_eq
    · exact hc.bit_eq

/-- A slot has a value if there is a key for it, but no child. -/
theorem WF.datamap_iff {i : Nat} :
    node.datamap.getLsbD i = true ↔ node.nodemap.getLsbD i = false ∧
      ∃ k ∈ keys (d + 1) (.inner node), index B (hashOf k) shift = i := by
  constructor
  · intro hi
    obtain ⟨x, hx⟩ := exists_at h.shaped.values_length hi
    have hxn : x ∈ elems (d + 1) (.inner node) := (mem_elems_inner h.shaped).mpr (.inl ⟨i, hx⟩)
    refine ⟨?_, x.1, mem_keys_iff.mpr ⟨x, hxn, rfl⟩, h.index_value hx⟩
    by_contra hnode
    rw [Bool.not_eq_false] at hnode
    rw [h.shaped.disjoint i hnode] at hi
    cases hi
  · rintro ⟨hnode, k, hk, hi⟩
    obtain ⟨x, hx, rfl⟩ := mem_keys_iff.mp hk
    rw [h.mem_elems, hi] at hx
    rcases hx with hx | ⟨c, hc, -⟩
    · exact hx.bit_eq
    · rw [hc.bit_eq] at hnode
      cases hnode

theorem WF.mem_keys_child {i : Nat}
    {c : Node (K × V)} (hc : At node.nodemap node.children i c) {k : K} :
    k ∈ keys d c ↔ k ∈ keys (d + 1) (.inner node) ∧ index B (hashOf k) shift = i := by
  rw [mem_keys_iff, mem_keys_iff]
  constructor
  · rintro ⟨x, hx, rfl⟩
    exact ⟨⟨x, (mem_elems_inner h.shaped).mpr (.inr ⟨i, c, hc, hx⟩), rfl⟩, h.index_child hc hx⟩
  · rintro ⟨⟨x, hx, rfl⟩, hi⟩
    rw [h.mem_elems, hi] at hx
    rcases hx with hx | ⟨c', hc', hx⟩
    · exact absurd (h.shaped.disjoint i hc.bit_eq) (by rw [hx.bit_eq]; decide)
    · obtain rfl := hc.unique hc'
      exact ⟨x, hx, rfl⟩

end

end WF

theorem WF.maps_eq {W : Type} {B d shift : Nat} {hashOf : K → Hash}
    {a : Inner (Node (K × V)) (K × V)} {b : Inner (Node (K × W)) (K × W)}
    (ha : WF B hashOf (d + 1) shift (.inner a)) (hb : WF B hashOf (d + 1) shift (.inner b))
    (h : ∀ k, k ∈ keys (d + 1) (.inner a) ↔ k ∈ keys (d + 1) (.inner b)) :
    a.nodemap = b.nodemap ∧ a.datamap = b.datamap := by
  have hnode : ∀ i, a.nodemap.getLsbD i = b.nodemap.getLsbD i := by
    intro i
    rw [Bool.eq_iff_iff, ha.nodemap_iff, hb.nodemap_iff]
    simp only [h]
  refine ⟨BitVec.eq_of_getLsbD_eq fun i _ => hnode i, BitVec.eq_of_getLsbD_eq fun i _ => ?_⟩
  rw [Bool.eq_iff_iff, ha.datamap_iff, hb.datamap_iff, hnode]
  simp only [h]

/-! ## Changing one slot -/

/-- The slot `i` becomes the value `v` or the child `c`, and the other slots stay. -/
structure Inner.Sets {N : Type} (i : Nat) (v : Option T) (c : Option N)
    (node node' : Inner N T) : Prop where
  shaped : node'.Shaped
  value_other : ∀ j x, j ≠ i →
    (At node'.datamap node'.values j x ↔ At node.datamap node.values j x)
  child_other : ∀ j c', j ≠ i →
    (At node'.nodemap node'.children j c' ↔ At node.nodemap node.children j c')
  value : ∀ x, At node'.datamap node'.values i x ↔ v = some x
  child : ∀ c', At node'.nodemap node'.children i c' ↔ c = some c'

section Copies

variable {N : Type} {node : Inner N T} {i : Nat} {v : T} {c : N}

theorem Inner.Shaped.not_value (h : node.Shaped) (hi : node.nodemap.getLsbD i = true) (x : T) :
    ¬ At node.datamap node.values i x := by
  intro hx
  exact absurd (h.disjoint i hi) (by rw [hx.bit_eq]; decide)

theorem not_at_of_getLsbD {α : Type} {bm : Bitmap} {l : List α} {x : α}
    (h : bm.getLsbD i = false) : ¬ At bm l i x := by
  intro hx
  rw [hx.bit_eq] at h
  cases h

section

variable (h : node.Shaped)

include h

theorem Inner.Shaped.copyInnerReplace (hi : node.nodemap.getLsbD i = true) :
    node.Sets i none (some c) (node.copyInnerReplace (offset node.nodemap (bit 32 i)) c) := by
  rw [offset_bit _ (lt_of_getLsbD hi)]
  refine ⟨⟨h.values_length, ?_, h.disjoint⟩, fun j x _ => Iff.rfl, fun j c' hj => ?_,
    fun x => ?_, fun c' => ?_⟩
  · exact length_set.trans h.children_length
  · exact (at_set_iff h.children_length hi).trans (by simp [hj])
  · exact iff_of_false (h.not_value hi x) (by simp)
  · exact (at_set_iff h.children_length hi).trans (by simp [eq_comm])

theorem Inner.Shaped.copyInnerReplaceValue
    (hi : node.datamap.getLsbD i = true) (hni : node.nodemap.getLsbD i = false) :
    node.Sets i (some v) none (node.copyInnerReplaceValue (offset node.datamap (bit 32 i)) v) := by
  rw [offset_bit _ (lt_of_getLsbD hi)]
  refine ⟨⟨?_, h.children_length, h.disjoint⟩, fun j x hj => ?_, fun j c' _ => Iff.rfl,
    fun x => ?_, fun c' => ?_⟩
  · exact length_set.trans h.values_length
  · exact (at_set_iff h.values_length hi).trans (by simp [hj])
  · exact (at_set_iff h.values_length hi).trans (by simp [eq_comm])
  · exact iff_of_false (not_at_of_getLsbD hni) (by simp)

theorem Inner.Shaped.copyInnerReplaceMerged
    (hi : node.datamap.getLsbD i = true) (hni : node.nodemap.getLsbD i = false) :
    node.Sets i none (some c)
      (node.copyInnerReplaceMerged (bit 32 i) (offset node.datamap (bit 32 i)) c) := by
  have hw := lt_of_getLsbD hi
  rw [Inner.copyInnerReplaceMerged, offset_bit _ hw, offset_bit _ hw]
  refine ⟨⟨?_, ?_, fun j hj => ?_⟩, fun j x hj => ?_, fun j c' hj => ?_, fun x => ?_, fun c' => ?_⟩
  · exact length_eraseIdx h.values_length hi
  · exact length_insertIdx h.children_length hni hw
  · rw [getLsbD_or_bit hw, Bool.or_eq_true, decide_eq_true_eq] at hj
    rw [getLsbD_and_not_bit]
    rcases hj with hj | rfl
    · rw [h.disjoint j hj, Bool.false_and]
    · simp
  · exact (at_eraseIdx_iff hi).trans (by simp [hj])
  · exact (at_insertIdx_iff h.children_length hni hw).trans (by simp [hj])
  · exact (at_eraseIdx_iff hi).trans (by simp)
  · exact (at_insertIdx_iff h.children_length hni hw).trans (by simp [eq_comm])

theorem Inner.Shaped.copyInnerReplaceInline (hi : node.nodemap.getLsbD i = true) :
    node.Sets i (some v) none
      (node.copyInnerReplaceInline (bit 32 i) (offset node.nodemap (bit 32 i)) v) := by
  have hw := lt_of_getLsbD hi
  have hdi := h.disjoint i hi
  rw [Inner.copyInnerReplaceInline, offset_bit _ hw, offset_bit _ hw]
  refine ⟨⟨?_, ?_, fun j hj => ?_⟩, fun j x hj => ?_, fun j c' hj => ?_, fun x => ?_, fun c' => ?_⟩
  · exact length_insertIdx h.values_length hdi hw
  · exact length_eraseIdx h.children_length hi
  · rw [getLsbD_and_not_bit, Bool.and_eq_true, Bool.not_eq_true', decide_eq_false_iff_not] at hj
    rw [getLsbD_or_bit hw, h.disjoint j hj.1, decide_eq_false hj.2, Bool.false_or]
  · exact (at_insertIdx_iff h.values_length hdi hw).trans (by simp [hj])
  · exact (at_eraseIdx_iff hi).trans (by simp [hj])
  · exact (at_insertIdx_iff h.values_length hdi hw).trans (by simp [eq_comm])
  · exact (at_eraseIdx_iff hi).trans (by simp)

theorem Inner.Shaped.withoutValue
    (hi : node.datamap.getLsbD i = true) (hni : node.nodemap.getLsbD i = false) :
    node.Sets i none none (node.withoutValue (bit 32 i) (offset node.datamap (bit 32 i))) := by
  rw [Inner.withoutValue, offset_bit _ (lt_of_getLsbD hi)]
  refine ⟨⟨?_, h.children_length, fun j hj => ?_⟩, fun j x hj => ?_, fun j c' _ => Iff.rfl,
    fun x => ?_, fun c' => ?_⟩
  · exact length_eraseIdx h.values_length hi
  · rw [getLsbD_and_not_bit, h.disjoint j hj, Bool.false_and]
  · exact (at_eraseIdx_iff hi).trans (by simp [hj])
  · exact (at_eraseIdx_iff hi).trans (by simp)
  · exact iff_of_false (not_at_of_getLsbD hni) (by simp)

theorem Inner.Shaped.copyInnerInsertValue (hw : i < 32)
    (hi : node.datamap.getLsbD i = false) (hni : node.nodemap.getLsbD i = false) :
    node.Sets i (some v) none (node.copyInnerInsertValue (bit 32 i) v) := by
  rw [Inner.copyInnerInsertValue, offset_bit _ hw]
  refine ⟨⟨?_, h.children_length, fun j hj => ?_⟩, fun j x hj => ?_, fun j c' _ => Iff.rfl,
    fun x => ?_, fun c' => ?_⟩
  · exact length_insertIdx h.values_length hi hw
  · rw [getLsbD_or_bit hw, h.disjoint j hj, Bool.false_or, decide_eq_false_iff_not]
    rintro rfl
    rw [hni] at hj
    cases hj
  · exact (at_insertIdx_iff h.values_length hi hw).trans (by simp [hj])
  · exact (at_insertIdx_iff h.values_length hi hw).trans (by simp [eq_comm])
  · exact iff_of_false (not_at_of_getLsbD hni) (by simp)

end

end Copies

section Sets

variable {B : Nat} {hashOf : K → Hash} {d shift i : Nat}
  {node node' : Inner (Node (K × V)) (K × V)} {v : Option (K × V)} {c : Option (Node (K × V))}
  {x : K × V}

def Rest (d i : Nat) (node : Inner (Node (K × V)) (K × V)) (x : K × V) : Prop :=
  (∃ j, j ≠ i ∧ At node.datamap node.values j x) ∨
    ∃ j c, j ≠ i ∧ At node.nodemap node.children j c ∧ x ∈ elems d c

theorem mem_elems_slot (h : node.Shaped) (i : Nat) : x ∈ elems (d + 1) (.inner node) ↔
    (At node.datamap node.values i x ∨
      ∃ c, At node.nodemap node.children i c ∧ x ∈ elems d c) ∨ Rest d i node x := by
  rw [mem_elems_inner h, Rest]
  constructor
  · rintro (⟨j, hj⟩ | ⟨j, c, hc, hx⟩)
    · by_cases hji : j = i
      · subst hji
        exact .inl (.inl hj)
      · exact .inr (.inl ⟨j, hji, hj⟩)
    · by_cases hji : j = i
      · subst hji
        exact .inl (.inr ⟨c, hc, hx⟩)
      · exact .inr (.inr ⟨j, c, hji, hc, hx⟩)
  · rintro ((hi | ⟨c, hc, hx⟩) | ⟨j, -, hj⟩ | ⟨j, c, -, hc, hx⟩)
    · exact .inl ⟨i, hi⟩
    · exact .inr ⟨i, c, hc, hx⟩
    · exact .inl ⟨j, hj⟩
    · exact .inr ⟨j, c, hc, hx⟩

theorem Rest.index_ne (h : WF B hashOf (d + 1) shift (.inner node)) (hx : Rest d i node x) :
    index B (hashOf x.1) shift ≠ i := by
  rcases hx with ⟨j, hji, hj⟩ | ⟨j, c, hji, hc, hx⟩
  · rwa [h.index_value hj]
  · rwa [h.index_child hc hx]

theorem Inner.Sets.mem_elems (hs : node.Sets i v c node') :
    x ∈ elems (d + 1) (.inner node') ↔
      (v = some x ∨ ∃ c', c = some c' ∧ x ∈ elems d c') ∨ Rest d i node x := by
  rw [mem_elems_slot hs.shaped i, Rest, Rest, hs.value]
  simp only [hs.child]
  refine or_congr_right (or_congr ?_ ?_)
  · exact exists_congr fun j => and_congr_right fun hj => hs.value_other j x hj
  · exact exists_congr fun j => exists_congr fun c' => and_congr_right fun hj =>
      and_congr_left fun _ => hs.child_other j c' hj

theorem WF.sets (h : WF B hashOf (d + 1) shift (.inner node)) (hs : node.Sets i v c node')
    (hv : ∀ x, v = some x → index B (hashOf x.1) shift = i)
    (hc : ∀ c', c = some c' → WF B hashOf d (shift + B) c' ∧ HasTwo (elems d c') ∧
      ∀ x ∈ elems d c', index B (hashOf x.1) shift = i) :
    WF B hashOf (d + 1) shift (.inner node') := by
  refine ⟨hs.shaped, fun j x hx => ?_, fun j c' hc' => ?_⟩
  · by_cases hji : j = i
    · subst hji
      exact hv x ((hs.value x).mp hx)
    · exact h.index_value ((hs.value_other j x hji).mp hx)
  · by_cases hji : j = i
    · subst hji
      exact hc c' ((hs.child c').mp hc')
    · exact h.2.2 j c' ((hs.child_other j c' hji).mp hc')

end Sets

end Pmdk.Hamts
