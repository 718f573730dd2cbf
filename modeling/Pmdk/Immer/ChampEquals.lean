import Pmdk.Immer.ChampMap

/-!
# Equality

`equals` compares the nodes of two tries place by place. That is enough, as the place of a key is
determined by the set of the keys: a slot has a child if two keys lead to it, and a value if one
does. So the shape of a trie depends on its keys only, however it came about.
-/

namespace Pmdk.Hamts

open Packed List

variable {K V : Type} {B : Nat} {hashOf : K → Hash} {d shift : Nat}

def equalValue [DecidableEq K] [DecidableEq V] (x y : K × V) : Bool :=
  decide (x.1 = y.1) && decide (x.2 = y.2)

theorem equalValue_iff [DecidableEq K] [DecidableEq V] {x y : K × V} :
    equalValue x y = true ↔ x = y := by
  simp [equalValue, Prod.ext_iff]

/-! ## Comparing the arrays -/

section Zip

variable {w : Nat} {α : Type} {bm : BitVec w} {l l' : List α}

theorem equalItems_iff (hl : l.length = popcount bm) (hl' : l'.length = popcount bm)
    (eq : α → α → Bool) : equalItems eq (popcount bm) l l' = true ↔
      ∀ i x y, At bm l i x → At bm l' i y → eq x y = true := by
  rw [equalItems, all_eq_true]
  constructor
  · intro h i x y hx hy
    have hi := h (rank bm i) (mem_range.mpr (rank_lt_popcount hx.bit_eq))
    rwa [hx.2, hy.2] at hi
  · intro h k hk
    obtain ⟨i, hi, rfl⟩ := exists_slot (mem_range.mp hk)
    obtain ⟨x, hx⟩ := exists_at hl hi
    obtain ⟨y, hy⟩ := exists_at hl' hi
    rw [hx.2, hy.2]
    exact h i x y hx hy

theorem exists_at_congr (hl : l.length = popcount bm) (hl' : l'.length = popcount bm)
    {p q : α → Prop} (h : ∀ i x y, At bm l i x → At bm l' i y → (p x ↔ q y)) (i : Nat) :
    (∃ x, At bm l i x ∧ p x) ↔ ∃ y, At bm l' i y ∧ q y := by
  constructor
  · rintro ⟨x, hx, hp⟩
    obtain ⟨y, hy⟩ := exists_at hl' hx.bit_eq
    exact ⟨y, hy, (h i x y hx hy).mp hp⟩
  · rintro ⟨y, hy, hq⟩
    obtain ⟨x, hx⟩ := exists_at hl hy.bit_eq
    exact ⟨x, hx, (h i x y hx hy).mpr hq⟩

end Zip

/-! ## Equal nodes -/

variable {node : Inner (Node (K × V)) (K × V)}

theorem WF.mem_child_iff (h : WF B hashOf (d + 1) shift (.inner node)) {i : Nat} {c : Node (K × V)}
    (hc : At node.nodemap node.children i c) (x : K × V) :
    x ∈ elems d c ↔ x ∈ elems (d + 1) (.inner node) ∧ index B (hashOf x.1) shift = i := by
  constructor
  · intro hx
    exact ⟨(h.mem_elems_child hc x).mpr (.inl hx), h.index_child hc hx⟩
  · rintro ⟨hx, hi⟩
    rcases (h.mem_elems_child hc x).mp hx with hx | hx
    · exact hx
    · exact absurd hi (hx.index_ne h)

theorem WF.at_value_iff
    (h : WF B hashOf (d + 1) shift (.inner node)) {i : Nat} (hi : node.datamap.getLsbD i = true)
    (x : K × V) : At node.datamap node.values i x ↔
      x ∈ elems (d + 1) (.inner node) ∧ index B (hashOf x.1) shift = i := by
  obtain ⟨y, hy⟩ := exists_at h.shaped.values_length hi
  constructor
  · intro hx
    exact ⟨(h.mem_elems_value hx x).mpr (.inl rfl), h.index_value hx⟩
  · rintro ⟨hx, hxi⟩
    rcases (h.mem_elems_value hy x).mp hx with rfl | hx
    · exact hy
    · exact absurd hxi (hx.index_ne h)

section Equals

variable [DecidableEq K] [DecidableEq V] {same : Node (K × V) → Node (K × V) → Bool}

theorem equalsTree_collision (hsame : ∀ a b, same a b = true → a = b) {a b : List (K × V)}
    (ha : (a.map Prod.fst).Nodup) (hb : (b.map Prod.fst).Nodup) :
    equalsTree same equalValue 0 (.collision a) (.collision b) = true ↔ ∀ x, x ∈ a ↔ x ∈ b := by
  have hda := List.Nodup.of_map _ ha
  have hdb := List.Nodup.of_map _ hb
  have hall : equalsCollisions equalValue a b = true ↔ a ⊆ b := by
    simp [equalsCollisions, equalValue_iff, subset_def]
  rw [equalsTree, Bool.or_eq_true, Bool.and_eq_true, beq_iff_eq, hall]
  constructor
  · rintro (heq | ⟨hlength, hsub⟩)
    · obtain rfl : a = b := Node.collision.inj (hsame _ _ heq)
      exact fun x => Iff.rfl
    · have hperm := (subperm_of_subset hda hsub).perm_of_length_le hlength.ge
      exact fun x => hperm.mem_iff
  · intro h
    refine .inr ⟨?_, fun x hx => (h x).mp hx⟩
    exact ((perm_ext_iff_of_nodup hda hdb).mpr h).length_eq

theorem equalsTree_inner (hsame : ∀ a b, same a b = true → a = b)
    {a b : Inner (Node (K × V)) (K × V)} (ha : WF B hashOf (d + 1) shift (.inner a))
    (hb : WF B hashOf (d + 1) shift (.inner b))
    (ih : ∀ {a b : Node (K × V)}, WF B hashOf d (shift + B) a → WF B hashOf d (shift + B) b →
      (equalsTree same equalValue d a b = true ↔ ∀ x, x ∈ elems d a ↔ x ∈ elems d b)) :
    equalsTree same equalValue (d + 1) (.inner a) (.inner b) = true ↔
      ∀ x, x ∈ elems (d + 1) (.inner a) ↔ x ∈ elems (d + 1) (.inner b) := by
  rw [equalsTree, Bool.or_eq_true, Bool.and_eq_true, Bool.and_eq_true, Bool.and_eq_true,
    beq_iff_eq, beq_iff_eq]
  constructor
  · rintro (heq | ⟨⟨⟨hn, hd⟩, hchildren⟩, hvalues⟩)
    · obtain rfl : a = b := Node.inner.inj (hsame _ _ heq)
      exact fun x => Iff.rfl
    · have hbn := hb.shaped.children_length
      have hbd := hb.shaped.values_length
      rw [← hn] at hbn
      rw [← hd] at hbd
      rw [equalItems_iff ha.shaped.children_length hbn] at hchildren
      rw [equalItems_iff ha.shaped.values_length hbd] at hvalues
      intro x
      rw [mem_elems_inner ha.shaped, mem_elems_inner hb.shaped, ← hn, ← hd]
      refine or_congr (exists_congr fun i => ?_) (exists_congr fun i => ?_)
      · have hat := exists_at_congr ha.shaped.values_length hbd (p := (· = x)) (q := (· = x))
          (fun i y y' hy hy' => by rw [equalValue_iff.mp (hvalues i y y' hy hy')]) i
        simpa using hat
      · refine exists_at_congr ha.shaped.children_length hbn (fun i c c' hc hc' => ?_) i
        have hc'' : At b.nodemap b.children i c' := hn ▸ hc'
        exact (ih (ha.child hc) (hb.child hc'')).mp (hchildren i c c' hc hc') x
  · intro h
    have hkeys : ∀ k, k ∈ keys (d + 1) (.inner a) ↔ k ∈ keys (d + 1) (.inner b) := by
      intro k
      rw [mem_keys_iff, mem_keys_iff]
      exact exists_congr fun x => and_congr_left fun _ => h x
    obtain ⟨hn, hd⟩ := ha.maps_eq hb hkeys
    have hbn := hb.shaped.children_length
    have hbd := hb.shaped.values_length
    rw [← hn] at hbn
    rw [← hd] at hbd
    refine .inr ⟨⟨⟨hn, hd⟩, ?_⟩, ?_⟩
    · refine (equalItems_iff ha.shaped.children_length hbn _).mpr fun i c c' hc hc' => ?_
      rw [hn] at hc'
      refine (ih (ha.child hc) (hb.child hc')).mpr fun x => ?_
      rw [ha.mem_child_iff hc, hb.mem_child_iff hc', h]
    · refine (equalItems_iff ha.shaped.values_length hbd _).mpr fun i x y hx hy => ?_
      have hbit := hx.bit_eq
      rw [hd] at hy hbit
      have hxa := (ha.at_value_iff hx.bit_eq x).mp hx
      rw [h] at hxa
      exact equalValue_iff.mpr (((hb.at_value_iff hbit x).mpr hxa).unique hy)

theorem equalsTree_iff (hsame : ∀ a b, same a b = true → a = b) {a b : Node (K × V)}
    (ha : WF B hashOf d shift a) (hb : WF B hashOf d shift b) :
    equalsTree same equalValue d a b = true ↔ ∀ x, x ∈ elems d a ↔ x ∈ elems d b := by
  induction d generalizing shift a b with
  | zero =>
    cases a with
    | inner a => exact ha.elim
    | collision a =>
      cases b with
      | inner b => exact hb.elim
      | collision b => exact equalsTree_collision hsame ha hb
  | succ d ih =>
    cases a with
    | collision a => exact ha.elim
    | inner a =>
      cases b with
      | collision b => exact hb.elim
      | inner b => exact equalsTree_inner hsame ha hb ih

theorem Represents.equals_iff (hsame : ∀ a b, same a b = true → a = b) {a b : Champ (K × V)}
    {m m' : K → Option V} (ha : Represents B hashOf a m) (hb : Represents B hashOf b m') :
    equals B same equalValue a b = true ↔ m = m' := by
  have helems : (∀ x, x ∈ elems (maxDepth B) a.root ↔ x ∈ elems (maxDepth B) b.root) ↔
      m = m' := by
    constructor
    · intro h
      funext k
      refine Option.ext fun v => ?_
      rw [← ha.mem_elems, ← hb.mem_elems, h]
    · rintro rfl ⟨k, v⟩
      rw [ha.mem_elems, hb.mem_elems]
  rw [equals, Bool.and_eq_true, beq_iff_eq, equalsTree_iff hsame ha.wf hb.wf, helems]
  refine and_iff_right_of_imp fun hm => ?_
  rw [ha.size_eq, hb.size_eq]
  exact ((perm_ext_iff_of_nodup ha.wf.nodup hb.wf.nodup).mpr (helems.mpr hm)).length_eq

end Equals

/-! ## Shapes -/

def shape {T : Type} : Nat → Node T → Node Unit
  | 0, .collision values => .collision (values.map fun _ => ())
  | d + 1, .inner node => .inner
      ⟨node.nodemap, node.datamap, node.values.map fun _ => (), node.children.map (shape d)⟩
  | _, _ => .inner .empty

theorem map_unit_eq {α β : Type} {l : List α} {l' : List β} (h : l.length = l'.length) :
    (l.map fun _ => ()) = l'.map fun _ => () := by
  rw [List.map_const', List.map_const', h]

theorem WF.shape_eq {W : Type} {a : Node (K × V)} {b : Node (K × W)}
    (ha : WF B hashOf d shift a) (hb : WF B hashOf d shift b)
    (h : ∀ k, k ∈ keys d a ↔ k ∈ keys d b) : shape d a = shape d b := by
  induction d generalizing shift a b with
  | zero =>
    cases a with
    | inner a => exact ha.elim
    | collision a =>
      cases b with
      | inner b => exact hb.elim
      | collision b =>
        have hlength :=
          ((perm_ext_iff_of_nodup ha.nodup_keys hb.nodup_keys).mpr h).length_eq
        rw [length_keys, length_keys] at hlength
        exact congrArg Node.collision (map_unit_eq hlength)
  | succ d ih =>
    cases a with
    | collision a => exact ha.elim
    | inner a =>
      cases b with
      | collision b => exact hb.elim
      | inner b =>
        obtain ⟨hn, hd⟩ := ha.maps_eq hb h
        have hbn := hb.shaped.children_length
        rw [← hn] at hbn
        have hvalues : a.values.length = b.values.length := by
          rw [ha.shaped.values_length, hb.shaped.values_length, hd]
        have hchildren : a.children.map (shape d) = b.children.map (shape d) := by
          refine eq_of_forall_at ((length_map _).trans ha.shaped.children_length)
            ((length_map _).trans hbn) fun i z hz => ?_
          obtain ⟨c, hc, rfl⟩ := at_map_iff.mp hz
          obtain ⟨c', hc'⟩ := exists_at hbn hc.bit_eq
          have hb' : At b.nodemap b.children i c' := hn ▸ hc'
          refine at_map_iff.mpr ⟨c', hc', ?_⟩
          refine (ih (ha.child hc) (hb.child hb') fun k => ?_).symm
          rw [ha.mem_keys_child hc, hb.mem_keys_child hb', h]
        rw [shape, shape, hn, hd, map_unit_eq hvalues, hchildren]

/-- The node `m`, at depth `d'` from the last level, is below the node `n` at depth `d`. -/
inductive Below {T : Type} : Nat → Node T → Nat → Node T → Prop where
  | child {d : Nat} {node : Inner (Node T) T} {c : Node T} (hc : c ∈ node.children) :
      Below (d + 1) (.inner node) d c
  | step {d d' : Nat} {node : Inner (Node T) T} {c m : Node T} (hc : c ∈ node.children)
      (h : Below d c d' m) : Below (d + 1) (.inner node) d' m

theorem WF.hasTwo_below {n m : Node (K × V)} {d' : Nat} (h : WF B hashOf d shift n)
    (hm : Below d n d' m) : HasTwo (elems d' m) := by
  induction hm generalizing shift with
  | child hc =>
    obtain ⟨i, hi⟩ := (mem_iff_at h.shaped.children_length).mp hc
    exact h.hasTwo hi
  | step hc _ ih =>
    obtain ⟨i, hi⟩ := (mem_iff_at h.shaped.children_length).mp hc
    exact ih (h.child hi)

theorem HasTwo.not_lone (h : HasTwo (elems d (.inner node))) :
    ¬ (node.values.length = 1 ∧ node.children = []) := by
  rintro ⟨hvalues, hchildren⟩
  have hlength := h.one_lt_length
  cases d with
  | zero => exact absurd hlength (Nat.not_lt_zero 1)
  | succ d =>
    rw [elems, hchildren, flatMap_nil, append_nil, hvalues] at hlength
    exact lt_irrefl 1 hlength

theorem Represents.mem_keys_iff {c : Champ (K × V)} {m : K → Option V} (h : Represents B hashOf c m)
    (k : K) : k ∈ keys (maxDepth B) c.root ↔ (m k).isSome = true := by
  rw [Hamts.mem_keys_iff, Option.isSome_iff_exists]
  constructor
  · rintro ⟨x, hx, rfl⟩
    exact ⟨x.2, (h.mem_elems x.1 x.2).mp hx⟩
  · rintro ⟨v, hv⟩
    exact ⟨(k, v), (h.mem_elems k v).mpr hv, rfl⟩

/-- Two tries are equal if they represent the same map, they have the same shape if they have the
same keys, and behind every node below the root there are two keys. -/
theorem champ_canonical [DecidableEq K] [DecidableEq V] {same : Node (K × V) → Node (K × V) → Bool}
    (hsame : ∀ a b, same a b = true → a = b) (hB0 : 0 < B) (hB : B ≤ 5)
    (hatMost : AtMost hashOf (2 ^ B)) (dflt : V) {opsa opsb : List (Op K V)}
    {a b : Champ (K × V)} (hruna : run B hashOf dflt opsa = some a)
    (hrunb : run B hashOf dflt opsb = some b) :
    (∀ k, get B hashOf k a = some (meaning dflt opsa k)) ∧
      (∀ k, get B hashOf k b = some (meaning dflt opsb k)) ∧
      (equals B same equalValue a b = true ↔ meaning dflt opsa = meaning dflt opsb) ∧
      ((∀ k, (meaning dflt opsa k).isSome = (meaning dflt opsb k).isSome) →
        shape (maxDepth B) a.root = shape (maxDepth B) b.root) ∧
      ∀ d n, Below (maxDepth B) a.root d n → HasTwo (elems d n) ∧
        ∀ node, n = .inner node → ¬ (node.values.length = 1 ∧ node.children = []) := by
  have ha := run_represents hB0 hB hatMost dflt hruna
  have hb := run_represents hB0 hB hatMost dflt hrunb
  refine ⟨ha.get_eq hB, hb.get_eq hB, ha.equals_iff hsame hb, fun h => ?_, fun d n hn => ?_⟩
  · refine ha.wf.shape_eq hb.wf fun k => ?_
    rw [ha.mem_keys_iff, hb.mem_keys_iff, h]
  · have htwo := ha.wf.hasTwo_below hn
    refine ⟨htwo, ?_⟩
    rintro node rfl
    exact htwo.not_lone

/-- A key that comes and goes leaves no trace. -/
theorem champ_canonical_detour :
    ∃ a b : Champ (Hash × Nat), run 2 id 0 [.add (1, 7), .add (17, 8), .sub 17] = some a ∧
      run 2 id 0 [.update 1 fun v => v + 7] = some b ∧
      equals 2 (fun _ _ => false) equalValue a b = true := by
  have hsame : ∀ a b, (fun _ _ => false : Node (Hash × Nat) → Node (Hash × Nat) → Bool) a b =
      true → a = b := by simp
  have hatMost : AtMost (id : Hash → Hash) (2 ^ 2) :=
    atMost_of_injective Function.injective_id (by decide)
  obtain ⟨a, ha⟩ := Option.isSome_iff_exists.mp (show (run (K := Hash) 2 id 0
    [.add (1, 7), .add (17, 8), .sub 17]).isSome = true by decide +kernel)
  obtain ⟨b, hb⟩ := Option.isSome_iff_exists.mp (show (run (K := Hash) 2 id 0
    [.update 1 fun v => v + 7]).isSome = true by decide +kernel)
  obtain ⟨-, -, heq, -⟩ := champ_canonical hsame (by decide) (by decide) hatMost 0 ha hb
  refine ⟨a, b, ha, hb, heq.mpr ?_⟩
  funext k
  by_cases hk : k = 17
  · subst hk
    decide
  · simp only [meaning, List.foldl_cons, List.foldl_nil, Op.meaning]
    rw [Function.update_of_ne hk, Function.update_of_ne hk]
    rfl

end Pmdk.Hamts
