import Pmdk.Immer.ChampPut

/-!
# Removal

`do_sub` removes the key and nothing else, and the trie stays well-formed. It faults exactly if the
key is the only value of a node with children (`Alone`).
-/

namespace Pmdk.Hamts

open Packed List

variable {K V : Type} {B : Nat} {hashOf : K → Hash} {d shift : Nat}

def Removes (B : Nat) (hashOf : K → Hash) (k : K) (d shift : Nat) (n : Node (K × V)) :
    SubResult (K × V) → Prop
  | .nothing => k ∉ keys d n
  | .singleton x => k ∈ keys d n ∧ 0 < shift ∧ ∀ y, y = x ↔ y.1 ≠ k ∧ y ∈ elems d n
  | .tree n' => k ∈ keys d n ∧ WF B hashOf d shift n' ∧
      (∀ x, x ∈ elems d n' ↔ x.1 ≠ k ∧ x ∈ elems d n) ∧ (0 < shift → HasTwo (elems d n'))

/-- The key is the only value of a node with children. -/
def Alone (k : K) : Nat → Node (K × V) → Prop
  | d + 1, .inner node => (node.children ≠ [] ∧ node.values.map Prod.fst = [k]) ∨
      ∃ c ∈ node.children, Alone k d c
  | _, _ => False

variable {l : List (K × V)}

theorem HasTwo.mono {l' : List (K × V)} (h : HasTwo l) (hsub : ∀ x ∈ l, x ∈ l') : HasTwo l' := by
  obtain ⟨x, hx, y, hy, hne⟩ := h
  exact ⟨x, hsub x hx, y, hsub y hy, hne⟩

theorem HasTwo.one_lt_length (h : HasTwo l) : 1 < l.length := by
  obtain ⟨x, hx, y, hy, hne⟩ := h
  cases l with
  | nil => cases hx
  | cons a l =>
    cases l with
    | nil =>
      rw [mem_singleton] at hx hy
      exact absurd (by rw [hx, hy]) hne
    | cons b l => exact Nat.one_lt_succ_succ _

theorem hasTwo_of_nodup (h : (l.map Prod.fst).Nodup) (hl : 1 < l.length) :
    HasTwo l := by
  cases l with
  | nil => cases hl
  | cons a l =>
    cases l with
    | nil => exact absurd hl (lt_irrefl 1)
    | cons b l =>
      refine ⟨a, by simp, b, by simp, fun heq => (nodup_cons.mp h).1 ?_⟩
      rw [heq]
      exact mem_cons_self

/-! ## Pairs -/

theorem other_lt (i : Nat) : other i < 2 := by
  rw [other]
  split <;> decide

theorem other_ne (i : Nat) : other i ≠ i := by
  rw [other]
  split <;> omega

theorem eq_other {i j : Nat} (hi : i < 2) (hj : j < 2) (hne : j ≠ i) : j = other i := by
  rw [other]
  split <;> omega

theorem eraseIdx_pair {T : Type} {l : List T} {i : Nat} {x : T} (hl : l.length = 2) (hi : i < 2)
    (hx : l[other i]? = some x) : l.eraseIdx i = [x] := by
  obtain ⟨a, b, rfl⟩ := length_eq_two.mp hl
  obtain rfl | rfl : i = 0 ∨ i = 1 := by omega
  · simpa [other] using hx
  · simpa [other] using hx

/-! ## Inner nodes -/

theorem Inner.Shaped.children_eq_nil_iff {T N : Type} {node : Inner N T} (h : node.Shaped) :
    node.children = [] ↔ node.nodemap = 0#32 := by
  rw [← length_eq_zero_iff, h.children_length, popcount_eq_zero_iff]

theorem Alone.mem_keys {k : K} {n : Node (K × V)} (h : Alone k d n) : k ∈ keys d n := by
  induction d generalizing n with
  | zero => cases n <;> exact h.elim
  | succ d ih =>
    cases n with
    | collision values => exact h.elim
    | inner node =>
      rw [keys, elems, map_append, mem_append, map_flatMap]
      rcases h with ⟨-, hvalues⟩ | ⟨c, hc, hk⟩
      · exact .inl (hvalues ▸ mem_singleton_self k)
      · exact .inr (mem_flatMap.mpr ⟨c, hc, ih hk⟩)

section Slot

variable {k : K} {i : Nat} {node node' : Inner (Node (K × V)) (K × V)} {v : Option (K × V)}
  {c : Option (Node (K × V))} {p : K × V → Prop}

section

variable (h : WF B hashOf (d + 1) shift (.inner node))

include h

theorem Inner.Sets.mem_elems_removed (hs : node.Sets (index B (hashOf k) shift) v c node')
    (hp : ∀ x, x ∈ elems (d + 1) (.inner node) ↔ p x ∨ Rest d (index B (hashOf k) shift) node x)
    (hslot : ∀ x, (v = some x ∨ ∃ c', c = some c' ∧ x ∈ elems d c') ↔ x.1 ≠ k ∧ p x) (x : K × V) :
    x ∈ elems (d + 1) (.inner node') ↔ x.1 ≠ k ∧ x ∈ elems (d + 1) (.inner node) := by
  have hrest : Rest d (index B (hashOf k) shift) node x → x.1 ≠ k := fun hx heq =>
    hx.index_ne h (by rw [heq])
  rw [hs.mem_elems, hslot, hp, and_or_left]
  refine or_congr_right ?_
  exact ⟨fun hx => ⟨hrest hx, hx⟩, And.right⟩

theorem WF.mem_elems_only_child {c : Node (K × V)}
    (hc : At node.nodemap node.children i c) (hd : node.datamap = 0#32)
    (hn : popcount node.nodemap = 1) (x : K × V) :
    x ∈ elems (d + 1) (.inner node) ↔ x ∈ elems d c := by
  rw [h.mem_elems_child hc]
  refine or_iff_left ?_
  rintro (⟨j, -, hj⟩ | ⟨j, c', hji, hc', -⟩)
  · have hbit := hj.bit_eq
    rw [hd, BitVec.getLsbD_zero] at hbit
    cases hbit
  · exact hji (slot_unique hn hc'.bit_eq hc.bit_eq)

theorem WF.exists_rest (hi : node.nodemap.getLsbD i = true)
    (hnot : ¬ (node.datamap = 0#32 ∧ popcount node.nodemap = 1)) : ∃ x, Rest d i node x := by
  by_cases hd : node.datamap = 0#32
  · have hpos := rank_lt_popcount hi
    have hlt : 1 < popcount node.nodemap := by
      have hne : popcount node.nodemap ≠ 1 := fun hn => hnot ⟨hd, hn⟩
      omega
    obtain ⟨j, hji, hj⟩ := exists_slot_ne hlt i
    obtain ⟨c, hc⟩ := exists_at h.shaped.children_length hj
    obtain ⟨x, hx, -⟩ := h.hasTwo hc
    exact ⟨x, .inr ⟨j, c, hji, hc, hx⟩⟩
  · obtain ⟨j, hj⟩ := exists_slot_of_ne_zero hd
    obtain ⟨x, hx⟩ := exists_at h.shaped.values_length hj
    refine ⟨x, .inl ⟨j, ?_, hx⟩⟩
    rintro rfl
    exact h.shaped.not_value hi x hx

theorem WF.hasTwo_removed
    (hi : node.nodemap.getLsbD i = false) (hdi : node.datamap.getLsbD i = true)
    (hs : node.Sets i none none node') (hmore : node.nodemap ≠ 0#32 ∨ 2 < popcount node.datamap) :
    HasTwo (elems (d + 1) (.inner node')) := by
  have hrest : ∀ x, Rest d i node x → x ∈ elems (d + 1) (.inner node') := fun x hx =>
    hs.mem_elems.mpr (.inr hx)
  rcases hmore with hn | hd
  · obtain ⟨j, hj⟩ := exists_slot_of_ne_zero hn
    have hji : j ≠ i := by
      rintro rfl
      rw [hi] at hj
      cases hj
    obtain ⟨c, hc⟩ := exists_at h.shaped.children_length hj
    exact (h.hasTwo hc).mono fun x hx => hrest x (.inr ⟨j, c, hji, hc, hx⟩)
  · have hlt : 1 < popcount (node.datamap &&& ~~~bit 32 i) := by
      have hpop := popcount_and_not_bit hdi
      omega
    obtain ⟨j, j', hne, hj, hj'⟩ := exists_two_slots hlt
    rw [getLsbD_and_not_bit, Bool.and_eq_true, Bool.not_eq_true', decide_eq_false_iff_not]
      at hj hj'
    obtain ⟨x, hx⟩ := exists_at h.shaped.values_length hj.1
    obtain ⟨y, hy⟩ := exists_at h.shaped.values_length hj'.1
    refine ⟨x, hrest x (.inl ⟨j, Ne.symm hj.2, hx⟩), y, hrest y (.inl ⟨j', Ne.symm hj'.2, hy⟩),
      fun heq => hne ?_⟩
    rw [← h.index_value hx, ← h.index_value hy, heq]

/-- A node with two values and no child: the other value is what is left. -/
theorem WF.exists_other {v : V}
    (hval : At node.datamap node.values (index B (hashOf k) shift) (k, v))
    (hn : node.nodemap = 0#32) (hd : popcount node.datamap = 2) :
    ∃ x, node.values[other (rank node.datamap (index B (hashOf k) shift))]? = some x ∧
      ∀ y, y = x ↔ y.1 ≠ k ∧ y ∈ elems (d + 1) (.inner node) := by
  obtain ⟨j, hj, hrank⟩ := exists_slot (hd ▸ other_lt
    (rank node.datamap (index B (hashOf k) shift)))
  obtain ⟨x, hx⟩ := exists_at h.shaped.values_length hj
  have hxj := h.index_value hx
  refine ⟨x, hrank ▸ hx.2, fun y => ⟨?_, ?_⟩⟩
  · rintro rfl
    refine ⟨fun heq => ?_, (mem_elems_inner h.shaped).mpr (.inl ⟨j, hx⟩)⟩
    rw [heq] at hxj
    rw [hxj] at hrank
    exact other_ne _ hrank.symm
  · rintro ⟨hne, hy⟩
    rcases (mem_elems_inner h.shaped).mp hy with ⟨j', hy⟩ | ⟨j', c, hc, -⟩
    · have hlt := rank_lt_popcount hy.bit_eq
      have hlt' := rank_lt_popcount hval.bit_eq
      rw [hd] at hlt hlt'
      have hother : rank node.datamap j' ≠ rank node.datamap (index B (hashOf k) shift) := by
        intro hsame
        have hj' := rank_inj hy.bit_eq hval.bit_eq hsame
        subst hj'
        exact hne (congrArg Prod.fst (hy.unique hval))
      have hj' := rank_inj hy.bit_eq hj ((eq_other hlt' hlt hother).trans hrank.symm)
      subst hj'
      exact hy.unique hx
    · have hbit := hc.bit_eq
      rw [hn, BitVec.getLsbD_zero] at hbit
      cases hbit

theorem WF.alone_child {c : Node (K × V)}
    (hc : At node.nodemap node.children (index B (hashOf k) shift) c) :
    Alone k (d + 1) (.inner node) ↔ Alone k d c := by
  refine ⟨?_, fun hk => .inr ⟨c, hc.mem, hk⟩⟩
  rintro (⟨-, hvalues⟩ | ⟨c', hc', hk⟩)
  · obtain ⟨x, hx, rfl⟩ := mem_map.mp (hvalues ▸ mem_singleton_self k)
    obtain ⟨i, hi⟩ := (mem_iff_at h.shaped.values_length).mp hx
    have hindex := h.index_value hi
    subst hindex
    exact (h.shaped.not_value hc.bit_eq _ hi).elim
  · obtain ⟨i, hi⟩ := (mem_iff_at h.shaped.children_length).mp hc'
    have hindex := ((h.mem_keys_child hi).mp hk.mem_keys).2
    subst hindex
    exact hi.unique hc ▸ hk

theorem WF.alone_value {v : V}
    (hval : At node.datamap node.values (index B (hashOf k) shift) (k, v)) :
    Alone k (d + 1) (.inner node) ↔ node.nodemap ≠ 0#32 ∧ popcount node.datamap = 1 := by
  rw [Ne, ← h.shaped.children_eq_nil_iff, ← h.shaped.values_length]
  constructor
  · rintro (⟨hchildren, hvalues⟩ | ⟨c, hc, hk⟩)
    · exact ⟨hchildren, by rw [← length_map, hvalues, length_singleton]⟩
    · obtain ⟨i, hi⟩ := (mem_iff_at h.shaped.children_length).mp hc
      have hindex := ((h.mem_keys_child hi).mp hk.mem_keys).2
      subst hindex
      exact (h.shaped.not_value hi.bit_eq _ hval).elim
  · rintro ⟨hchildren, hlength⟩
    obtain ⟨x, hx⟩ := length_eq_one_iff.mp hlength
    have hmem := hval.mem
    rw [hx, mem_singleton] at hmem
    exact .inl ⟨hchildren, by rw [hx, ← hmem]; rfl⟩

end

theorem Inner.Shaped.removeValue_pair {T N : Type} {node : Inner N T} (h : node.Shaped)
    (hi : node.datamap.getLsbD i = true) (hn : node.nodemap = 0#32) (hd : popcount node.datamap = 2)
    {x : T} (hx : node.values[other (rank node.datamap i)]? = some x) :
    node.withoutValue (bit 32 i) (rank node.datamap i) =
      ⟨0, node.datamap &&& ~~~bit 32 i, [x], []⟩ := by
  have hlength := h.values_length.trans hd
  rw [Inner.withoutValue, eraseIdx_pair hlength (hd ▸ rank_lt_popcount hi) hx, hn,
    h.children_eq_nil_iff.mpr hn]
  rfl

theorem Inner.Shaped.removeValue_single {T N : Type} {node : Inner N T} (h : node.Shaped)
    (hi : node.datamap.getLsbD i = true) (hn : node.nodemap = 0#32)
    (hd : popcount node.datamap = 1) :
    node.withoutValue (bit 32 i) (rank node.datamap i) = .empty := by
  have hmap : node.datamap &&& ~~~bit 32 i = 0#32 := by
    by_contra hne
    obtain ⟨j, hj⟩ := exists_slot_of_ne_zero hne
    rw [getLsbD_and_not_bit, Bool.and_eq_true, Bool.not_eq_true', decide_eq_false_iff_not] at hj
    exact hj.2 (slot_unique hd hi hj.1)
  have hvalues : node.values.eraseIdx (rank node.datamap i) = [] := by
    rw [← length_eq_zero_iff, length_eraseIdx h.values_length hi, hmap, popcount_empty]
  rw [Inner.withoutValue, hmap, hvalues, hn, h.children_eq_nil_iff.mpr hn]
  rfl

end Slot

section Sub

variable [DecidableEq K] {k : K} {n : Node (K × V)}

/-! ## Collision nodes -/

theorem doSub_collision {values : List (K × V)}
    (hatMost : AtMostIn hashOf (2 ^ B) (values.map Prod.fst)) (hshift : 64 ≤ shift)
    (h : WF B hashOf 0 shift (.collision values))
    (hroutes : Routes hashOf k 0 shift (.collision values)) (htwo : HasTwo values) :
    ∃ res, doSub B hashOf k 0 shift (.collision values) = some res ∧
      Removes B hashOf k 0 shift (.collision values) res := by
  rw [doSub]
  cases hfind : values.findIdx? fun x => x.1 = k with
  | none =>
    refine ⟨.nothing, rfl, fun hk => ?_⟩
    obtain ⟨x, hx, hxk⟩ := mem_keys_iff.mp hk
    exact of_decide_eq_false (findIdx?_eq_none_iff.mp hfind x hx) hxk
  | some cur =>
    obtain ⟨l₁, old, l₂, rfl, rfl, -, herase, hcur⟩ := exists_split hfind
    have hk : old.1 ∈ keys 0 (.collision (l₁ ++ old :: l₂)) :=
      mem_keys_iff.mpr ⟨old, by simp [elems], rfl⟩
    have hkeys : ((l₁ ++ old :: l₂).map Prod.fst).Nodup := h
    have hnodup : (old.1 :: (l₁ ++ l₂).map Prod.fst).Nodup := by
      rwa [map_append, map_cons, nodup_middle, ← map_append] at hkeys
    have hlength : (l₁ ++ old :: l₂).length = (l₁ ++ l₂).length + 1 := by
      simp [Nat.add_assoc]
    dsimp only
    by_cases hmany : (l₁ ++ old :: l₂).length > 2
    · have hsub : Routes hashOf old.1 0 shift (.collision (l₁ ++ l₂)) := fun x hx =>
        hroutes x ((mem_append_iff h).mp hx).2
      have hroom : AtMostIn hashOf (2 ^ B) (old.1 :: (l₁ ++ old :: l₂).map Prod.fst) :=
        hatMost.mono (by simp)
      have hle := hsub.length_le hroom.of_insert hshift hnodup
      rw [if_pos hmany, herase, makeCollisionN_eq (Nat.le_of_succ_le hle)]
      refine ⟨_, rfl, hk, (nodup_cons.mp hnodup).2, fun x => mem_append_iff h, fun _ => ?_⟩
      rw [hlength] at hmany
      have hlt : 1 < (l₁ ++ l₂).length := by omega
      exact hasTwo_of_nodup (nodup_cons.mp hnodup).2 hlt
    · have htwo' : (l₁ ++ old :: l₂).length = 2 := by
        have hlt := HasTwo.one_lt_length htwo
        omega
      have hcur2 : cur < 2 := by
        rw [hcur, ← htwo', length_append, length_cons]
        omega
      have hother : other cur < (l₁ ++ old :: l₂).length := htwo' ▸ other_lt cur
      have hget := getElem?_eq_getElem hother
      rw [if_neg hmany, hget, Option.bind_eq_bind, Option.bind_some]
      refine ⟨_, rfl, hk, Nat.lt_of_lt_of_le (by decide) hshift, fun y => ?_⟩
      rw [elems, ← mem_append_iff h, ← herase, eraseIdx_pair htwo' hcur2 hget, mem_singleton]

/-! ## The operation -/

section Inner

variable {node : Inner (Node (K × V)) (K × V)}

theorem WF.doSub_child (h : WF B hashOf (d + 1) shift (.inner node)) (hB0 : 0 < B)
    (hw : index B (hashOf k) shift < 32) {c : Node (K × V)}
    (hc : At node.nodemap node.children (index B (hashOf k) shift) c)
    {res : SubResult (K × V)} (hsub : doSub B hashOf k d (shift + B) c = some res)
    (hres : Removes B hashOf k d (shift + B) c res) :
    ∃ res, doSub B hashOf k (d + 1) shift (.inner node) = some res ∧
      Removes B hashOf k (d + 1) shift (.inner node) res := by
  have hn := hc.bit_eq
  have hmem := h.mem_keys_child hc (k := k)
  have hget : node.children[offset node.nodemap (bit 32 (index B (hashOf k) shift))]? = some c := by
    rw [offset_bit _ hw]
    exact hc.2
  rw [doSub, if_pos ((and_bit_ne_zero_iff hw).mpr hn), hget, Option.bind_eq_bind,
    Option.bind_some, hsub, Option.bind_eq_bind, Option.bind_some]
  cases res with
  | nothing => exact ⟨.nothing, rfl, fun hk => hres (hmem.mpr ⟨hk, rfl⟩)⟩
  | singleton x =>
    obtain ⟨hk, -, hx⟩ := hres
    dsimp only
    by_cases honly : node.datamap = 0 ∧ popcount node.nodemap = 1 ∧ shift > 0
    · rw [if_pos honly]
      refine ⟨_, rfl, (hmem.mp hk).1, honly.2.2, fun y => ?_⟩
      rw [hx, h.mem_elems_only_child hc honly.1 honly.2.1]
    · rw [if_neg honly]
      have hs := h.shaped.copyInnerReplaceInline (v := x) hn
      have hxi := h.index_child hc ((hx x).mp rfl).2
      refine ⟨_, rfl, (hmem.mp hk).1, h.sets hs ?_ ?_,
        hs.mem_elems_removed h (h.mem_elems_child hc) ?_, fun hpos => ?_⟩
      · rintro _ ⟨rfl⟩
        exact hxi
      · intro c' hc'
        cases hc'
      · intro y
        rw [← hx]
        simp [eq_comm]
      · obtain ⟨y, hy⟩ := h.exists_rest hn fun hboth => honly ⟨hboth.1, hboth.2, hpos⟩
        refine ⟨x, hs.mem_elems.mpr (.inl (.inl rfl)), y, hs.mem_elems.mpr (.inr hy),
          fun heq => hy.index_ne h ?_⟩
        rw [← heq]
        exact hxi
  | tree t =>
    obtain ⟨hk, hwf, ht, htwo⟩ := hres
    have htwo' := htwo (Nat.add_pos_right shift hB0)
    have hs := h.shaped.copyInnerReplace (c := t) hn
    refine ⟨_, rfl, (hmem.mp hk).1, h.sets hs ?_ ?_,
      hs.mem_elems_removed h (h.mem_elems_child hc) ?_, fun _ => ?_⟩
    · intro x hx
      cases hx
    · rintro _ ⟨rfl⟩
      exact ⟨hwf, htwo', fun x hx => h.index_child hc ((ht x).mp hx).2⟩
    · intro y
      rw [← ht]
      simp
    · exact htwo'.mono fun x hx => hs.mem_elems.mpr (.inl (.inr ⟨t, rfl, hx⟩))

theorem WF.doSub_value (h : WF B hashOf (d + 1) shift (.inner node)) {v : V}
    (hw : index B (hashOf k) shift < 32)
    (hval : At node.datamap node.values (index B (hashOf k) shift) (k, v))
    (hn : node.nodemap.getLsbD (index B (hashOf k) shift) = false)
    (htwo : 0 < shift → HasTwo (elems (d + 1) (.inner node)))
    (hnot : ¬ Alone k (d + 1) (.inner node)) :
    ∃ res, doSub B hashOf k (d + 1) shift (.inner node) = some res ∧
      Removes B hashOf k (d + 1) shift (.inner node) res := by
  have hd := hval.bit_eq
  have hget : node.values[rank node.datamap (index B (hashOf k) shift)]? = some (k, v) := hval.2
  have hs := h.shaped.withoutValue hd hn
  have hk : k ∈ keys (d + 1) (.inner node) :=
    mem_keys_iff.mpr ⟨(k, v), (h.mem_elems_value hval _).mpr (.inl rfl), rfl⟩
  have hslot : ∀ x : K × V, ((none : Option (K × V)) = some x ∨
      ∃ c', (none : Option (Node (K × V))) = some c' ∧ x ∈ elems d c') ↔
        x.1 ≠ k ∧ x = (k, v) := by
    intro x
    refine iff_of_false (by simp) ?_
    rintro ⟨hne, rfl⟩
    exact hne rfl
  have hremoved := hs.mem_elems_removed h (h.mem_elems_value hval) hslot
  have hwf := h.sets hs (by simp) (by simp)
  rw [doSub, if_neg (by rw [and_bit_ne_zero_iff hw, hn]; decide),
    if_pos ((and_bit_ne_zero_iff hw).mpr hd)]
  rw [offset_bit _ hw] at hwf hremoved hs ⊢
  rw [hget, Option.bind_eq_bind, Option.bind_some, if_pos rfl]
  by_cases hmore : node.nodemap ≠ 0 ∨ popcount node.datamap > 2
  · have hone : popcount node.datamap ≠ 1 := fun hone =>
      hnot ((h.alone_value hval).mpr ⟨hmore.resolve_right (by omega), hone⟩)
    rw [if_pos hmore, Inner.copyInnerRemoveValue, if_neg hone]
    exact ⟨_, rfl, hk, hwf, hremoved, fun _ => h.hasTwo_removed hn hd hs hmore⟩
  · have hzero : node.nodemap = 0#32 := by
      by_contra hne
      exact hmore (.inl hne)
    have hle : popcount node.datamap ≤ 2 := Nat.le_of_not_lt fun hlt => hmore (.inr hlt)
    have hpos := rank_lt_popcount hd
    rw [if_neg hmore]
    by_cases hpair : popcount node.datamap = 2
    · obtain ⟨x, hx, hother⟩ := h.exists_other hval hzero hpair
      rw [if_pos hpair, hx, Option.bind_some]
      by_cases hshift : shift > 0
      · rw [if_pos hshift]
        exact ⟨_, rfl, hk, hshift, hother⟩
      · rw [if_neg hshift, ← h.shaped.removeValue_pair hd hzero hpair hx]
        exact ⟨_, rfl, hk, hwf, hremoved, fun hlt => absurd hlt hshift⟩
    · have hone : popcount node.datamap = 1 := by omega
      rw [if_neg hpair]
      by_cases hshift : shift = 0
      · rw [if_pos hshift, ← h.shaped.removeValue_single hd hzero hone]
        exact ⟨_, rfl, hk, hwf, hremoved, fun hlt => absurd hshift hlt.ne'⟩
      · have hlength := (htwo (Nat.pos_of_ne_zero hshift)).one_lt_length
        rw [elems, h.shaped.children_eq_nil_iff.mpr hzero, flatMap_nil, append_nil,
          h.shaped.values_length, hone] at hlength
        exact absurd hlength (lt_irrefl 1)

end Inner

theorem doSub_spec (hB0 : 0 < B) (hB : B ≤ 5) (k : K) {n : Node (K × V)}
    (hatMost : AtMostIn hashOf (2 ^ B) (keys d n)) (hshift : shift + d * B = maxShift B)
    (h : WF B hashOf d shift n) (hroutes : Routes hashOf k d shift n)
    (htwo : 0 < shift → HasTwo (elems d n)) (hnot : ¬ Alone k d n) :
    ∃ res, doSub B hashOf k d shift n = some res ∧ Removes B hashOf k d shift n res := by
  induction d generalizing shift n with
  | zero =>
    cases n with
    | inner node => exact h.elim
    | collision values =>
      rw [Nat.zero_mul, Nat.add_zero] at hshift
      have hge : 64 ≤ shift := hshift ▸ le_maxShift hB0
      exact doSub_collision hatMost hge h hroutes (htwo (Nat.lt_of_lt_of_le (by decide) hge))
  | succ d ih =>
    cases n with
    | collision values => exact h.elim
    | inner node =>
      have hlt := shift_lt hshift
      have hw := index_lt hB (hashOf k) hlt
      have hnext : shift + B + d * B = maxShift B := by rw [← hshift, Nat.succ_mul]; omega
      by_cases hn : node.nodemap.getLsbD (index B (hashOf k) shift) = true
      · obtain ⟨c, hc⟩ := exists_at h.shaped.children_length hn
        have hroom := hatMost.mono fun k' hk' => (h.keys_subset hc k' hk')
        obtain ⟨res, hsub, hres⟩ :=
          ih hroom hnext (h.child hc) (hroutes.child h hlt hc) (fun _ => h.hasTwo hc)
            (mt (h.alone_child hc).mpr hnot)
        exact h.doSub_child hB0 hw hc hsub hres
      · rw [Bool.not_eq_true] at hn
        by_cases hd : node.datamap.getLsbD (index B (hashOf k) shift) = true
        · obtain ⟨⟨k', v⟩, hval⟩ := exists_at h.shaped.values_length hd
          by_cases hk : k' = k
          · subst hk
            exact h.doSub_value hw hval hn htwo hnot
          · have hget : node.values[rank node.datamap (index B (hashOf k) shift)]? =
                some (k', v) := hval.2
            rw [doSub, if_neg (by rw [and_bit_ne_zero_iff hw, hn]; decide),
              if_pos ((and_bit_ne_zero_iff hw).mpr hd), offset_bit _ hw, hget,
              Option.bind_eq_bind, Option.bind_some, if_neg hk]
            refine ⟨.nothing, rfl, fun hmem => ?_⟩
            obtain ⟨x, hx, rfl⟩ := mem_keys_iff.mp hmem
            rcases (h.mem_elems_value hval x).mp hx with rfl | hx
            · exact hk rfl
            · exact hx.index_ne h rfl
        · rw [Bool.not_eq_true] at hd
          rw [doSub, if_neg (by rw [and_bit_ne_zero_iff hw, hn]; decide),
            if_neg (by rw [and_bit_ne_zero_iff hw, hd]; decide)]
          refine ⟨.nothing, rfl, fun hmem => ?_⟩
          obtain ⟨x, hx, rfl⟩ := mem_keys_iff.mp hmem
          rcases (h.mem_elems_empty hd hn x).mp hx with hx | hx
          · exact hx.elim
          · exact hx.index_ne h rfl

theorem doSub_eq_none (hB : B ≤ 5) {k : K} {n : Node (K × V)}
    (hshift : shift + d * B = maxShift B) (h : WF B hashOf d shift n) (hk : Alone k d n) :
    doSub B hashOf k d shift n = none := by
  induction d generalizing shift n with
  | zero => cases n <;> exact hk.elim
  | succ d ih =>
    cases n with
    | collision values => exact hk.elim
    | inner node =>
      have hw := index_lt hB (hashOf k) (shift_lt hshift)
      have hnext : shift + B + d * B = maxShift B := by rw [← hshift, Nat.succ_mul]; omega
      obtain ⟨x, hx, rfl⟩ := mem_keys_iff.mp hk.mem_keys
      rcases h.mem_elems.mp hx with hval | ⟨c, hc, -⟩
      · obtain ⟨hn, hone⟩ := (h.alone_value hval).mp hk
        have hbit := mt (h.shaped.disjoint _) (by rw [hval.bit_eq]; decide)
        rw [doSub, if_neg (mt (and_bit_ne_zero_iff hw).mp hbit),
          if_pos ((and_bit_ne_zero_iff hw).mpr hval.bit_eq), offset_bit _ hw, hval.2,
          Option.bind_eq_bind, Option.bind_some, if_pos rfl, if_pos (.inl hn),
          Inner.copyInnerRemoveValue, if_pos hone]
        rfl
      · rw [doSub, if_pos ((and_bit_ne_zero_iff hw).mpr hc.bit_eq), offset_bit _ hw, hc.2,
          Option.bind_eq_bind, Option.bind_some, ih hnext (h.child hc) ((h.alone_child hc).mp hk)]
        rfl

end Sub

end Pmdk.Hamts
