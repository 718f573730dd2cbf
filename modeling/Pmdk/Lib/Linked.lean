import Mathlib.Algebra.Order.Ring.Nat
import Mathlib.Data.List.Nodup
import Mathlib.Data.List.Perm.Subperm

/-!
# Chains of blocks

Blocks are addressed by offsets, and each block holds the offset of the next one, zero for none.
`walk` follows the offsets; `Chain blocks a l` says that the blocks met from `a` on are those of
`l`, each with its offset.
-/

namespace Linked

open List

variable {N : Type*} (next : N → Nat)

/-- Follow the offsets. A missing block, or running out of fuel, is answered with `none`. -/
def walk (blocks : Nat → Option N) : Nat → Nat → Option (List (Nat × N))
  | 0, _ => none
  | fuel + 1, a =>
    if a = 0 then some []
    else match blocks a with
      | none => none
      | some n => (walk blocks fuel (next n)).map ((a, n) :: ·)

def Chain (blocks : Nat → Option N) : Nat → List (Nat × N) → Prop
  | a, [] => a = 0
  | a, x :: l => a = x.1 ∧ x.1 ≠ 0 ∧ blocks x.1 = some x.2 ∧ Chain blocks (next x.2) l

variable {next} {blocks blocks' : Nat → Option N} {a : Nat} {l l' : List (Nat × N)}

theorem Chain.unique (h : Chain next blocks a l) (h' : Chain next blocks a l') : l = l' := by
  induction l generalizing a l' with
  | nil =>
    cases l' with
    | nil => rfl
    | cons x l' => exact absurd ((h'.1.symm.trans h)) h'.2.1
  | cons x l ih =>
    cases l' with
    | nil => exact absurd (h.1.symm.trans h') h.2.1
    | cons x' l' =>
      obtain ⟨hx, -, hbx, hl⟩ := h
      obtain ⟨hx', -, hbx', hl'⟩ := h'
      obtain ⟨o, n⟩ := x
      obtain ⟨o', n'⟩ := x'
      obtain rfl : o = o' := hx.symm.trans hx'
      obtain rfl : n = n' := Option.some.inj (hbx.symm.trans hbx')
      rw [ih hl hl']

theorem chain_of_walk {fuel : Nat} (h : walk next blocks fuel a = some l) :
    Chain next blocks a l := by
  induction fuel generalizing a l with
  | zero => cases h
  | succ fuel ih =>
    unfold walk at h
    split at h
    · rename_i ha
      cases h
      exact ha
    · rename_i ha
      split at h
      · cases h
      · rename_i n hn
        obtain ⟨r, hr, rfl⟩ := Option.map_eq_some_iff.mp h
        exact ⟨rfl, ha, hn, ih hr⟩

theorem Chain.walk_eq (h : Chain next blocks a l) {fuel : Nat} (hfuel : l.length < fuel) :
    walk next blocks fuel a = some l := by
  induction l generalizing a fuel with
  | nil =>
    cases fuel with
    | zero => exact absurd hfuel (Nat.not_lt_zero _)
    | succ fuel =>
      obtain rfl : a = 0 := h
      rfl
  | cons x l ih =>
    cases fuel with
    | zero => exact absurd hfuel (Nat.not_lt_zero _)
    | succ fuel =>
      obtain ⟨rfl, hne, hb, hl⟩ := h
      rw [walk, if_neg hne, hb]
      dsimp only
      rw [ih hl (Nat.lt_of_succ_lt_succ hfuel)]
      rfl

theorem Chain.mem (h : Chain next blocks a l) {x : Nat × N} (hx : x ∈ l) :
    x.1 ≠ 0 ∧ blocks x.1 = some x.2 := by
  induction l generalizing a with
  | nil => cases hx
  | cons y l ih =>
    rcases mem_cons.mp hx with rfl | hx
    · exact ⟨h.2.1, h.2.2.1⟩
    · exact ih h.2.2.2 hx

theorem Chain.drop (h : Chain next blocks a (l ++ l')) : ∃ b, Chain next blocks b l' := by
  induction l generalizing a with
  | nil => exact ⟨a, h⟩
  | cons x l ih => exact ih h.2.2.2

theorem Chain.nodup (h : Chain next blocks a l) : (l.map Prod.fst).Nodup := by
  induction l generalizing a with
  | nil => exact nodup_nil
  | cons x l ih =>
    refine nodup_cons.mpr ⟨fun hmem => ?_, ih h.2.2.2⟩
    -- otherwise a part of the chain would be as long as the whole
    obtain ⟨y, hy, hyx⟩ := mem_map.mp hmem
    obtain ⟨l₁, l₂, rfl⟩ := append_of_mem hy
    obtain ⟨b, hb⟩ := h.2.2.2.drop
    have hbx : b = a := hb.1.trans (hyx.trans h.1.symm)
    have hlen := congrArg List.length ((hbx ▸ hb).unique h)
    simp only [length_cons, length_append] at hlen
    omega

theorem Chain.length_le (h : Chain next blocks a l) {size : Nat} (hlt : ∀ x ∈ l, x.1 < size) :
    l.length ≤ size := by
  have hsub : l.map Prod.fst ⊆ List.range size := by
    intro o ho
    obtain ⟨x, hx, rfl⟩ := mem_map.mp ho
    exact mem_range.mpr (hlt x hx)
  have hle := (subperm_of_subset h.nodup hsub).length_le
  rwa [length_map, length_range] at hle

theorem Chain.congr (h : Chain next blocks a l)
    (heq : ∀ x ∈ l, blocks' x.1 = blocks x.1) : Chain next blocks' a l := by
  induction l generalizing a with
  | nil => exact h
  | cons x l ih =>
    rw [forall_mem_cons] at heq
    exact ⟨h.1, h.2.1, heq.1.trans h.2.2.1, ih h.2.2.2 heq.2⟩

variable {o : Nat}

theorem Chain.update_of_notMem (h : Chain next blocks a l) {v : Option N}
    (ho : ∀ x ∈ l, x.1 ≠ o) : Chain next (Function.update blocks o v) a l :=
  h.congr fun x hx => Function.update_of_ne (ho x hx) v blocks

variable {n n' n₁ : N}

theorem Chain.update_mid (h : Chain next blocks a (l ++ (o, n) :: l')) (hnext : next n' = next n) :
    Chain next (Function.update blocks o (some n')) a (l ++ (o, n') :: l') := by
  have hnodup := h.nodup
  induction l generalizing a with
  | nil =>
    obtain ⟨ha, hne, -, hl'⟩ := h
    refine ⟨ha, hne, Function.update_self .., ?_⟩
    rw [hnext]
    refine hl'.update_of_notMem fun x hx hxo => ?_
    exact (nodup_cons.mp hnodup).1 (mem_map.mpr ⟨x, hx, hxo⟩)
  | cons y l ih =>
    obtain ⟨ha, hne, hb, hrest⟩ := h
    rw [cons_append, map_cons, nodup_cons] at hnodup
    refine ⟨ha, hne, ?_, ih hrest hnodup.2⟩
    rw [Function.update_of_ne _ _ _, hb]
    rintro hyo
    apply hnodup.1
    simp [hyo]

theorem Chain.cut (h : Chain next blocks a (l ++ (o, n) :: l')) (hnext : next n' = 0) :
    Chain next (Function.update blocks o (some n')) a (l ++ [(o, n')]) := by
  have hnodup := h.nodup
  induction l generalizing a with
  | nil =>
    obtain ⟨ha, hne, -, -⟩ := h
    exact ⟨ha, hne, Function.update_self .., hnext⟩
  | cons y l ih =>
    obtain ⟨ha, hne, hb, hrest⟩ := h
    rw [cons_append, map_cons, nodup_cons] at hnodup
    refine ⟨ha, hne, ?_, ih hrest hnodup.2⟩
    rw [Function.update_of_ne _ _ _, hb]
    rintro hyo
    apply hnodup.1
    simp [hyo]

/-- The last block is freed, and the one before it becomes the last. -/
theorem Chain.free_last {o' : Nat}
    (h : Chain next blocks a (l ++ [(o, n), (o', n')])) (hn₁ : next n₁ = 0) :
    Chain next (Function.update (Function.update blocks o' none) o (some n₁)) a
      (l ++ [(o, n₁)]) := by
  have hnodup := h.nodup
  rw [map_append, nodup_append] at hnodup
  obtain ⟨-, hlast, hdisj⟩ := hnodup
  have hne : o ≠ o' := fun heq => by simp [heq] at hlast
  rw [Function.update_comm hne.symm]
  refine (h.cut hn₁).update_of_notMem fun x hx => ?_
  rcases mem_append.mp hx with hx | hx
  · exact hdisj x.1 (mem_map_of_mem hx) o' (by simp)
  · rw [mem_singleton.mp hx]
    exact hne

theorem Chain.extend {o' : Nat} (h : Chain next blocks a (l ++ [(o, n)]))
    (hfree : blocks o' = none) (ho' : o' ≠ 0) (hn₁ : next n₁ = o') (hn' : next n' = 0) :
    Chain next (Function.update (Function.update blocks o (some n₁)) o' (some n')) a
      (l ++ [(o, n₁), (o', n')]) := by
  have hne : ∀ x ∈ l ++ [(o, n)], x.1 ≠ o' := fun x hx hxo => by
    rw [← hxo, (h.mem hx).2] at hfree
    cases hfree
  have hnodup := h.nodup
  induction l generalizing a with
  | nil =>
    obtain ⟨ha, hne₀, -, -⟩ := h
    refine ⟨ha, hne₀, ?_, hn₁, ho', Function.update_self .., hn'⟩
    rw [Function.update_of_ne (hne (o, n) mem_cons_self), Function.update_self]
  | cons y l ih =>
    obtain ⟨ha, hne₀, hb, hrest⟩ := h
    rw [cons_append, map_cons, nodup_cons] at hnodup
    refine ⟨ha, hne₀, ?_, ih hrest (fun x hx => hne x (mem_cons_of_mem y hx)) hnodup.2⟩
    rw [Function.update_of_ne (hne y mem_cons_self), Function.update_of_ne, hb]
    rintro hyo
    apply hnodup.1
    simp [hyo]

/-!
## Disjoint chains in one heap

A family of chains, each from a head of its own, that share the heap but no block. A change to
the blocks of one chain leaves the others as they are, and a new block belongs to the chain that
it is linked to.
-/

variable {M κ : Type*}

section Map

variable {next : N → Nat} {next' : M → Nat} {blocks : Nat → Option N} {a : Nat}

/-- A chain of what is seen of the blocks is one of the blocks. -/
theorem Chain.of_map (next : N → Nat) {f : N → M} (hf : ∀ n, next' (f n) = next n)
    {l : List (Nat × M)} (h : Chain next' (fun o => (blocks o).map f) a l) :
    ∃ m, Chain next blocks a m ∧ m.map (Prod.map id f) = l := by
  induction l generalizing a with
  | nil => exact ⟨[], h, rfl⟩
  | cons x l ih =>
    obtain ⟨ha, hne, hb, hl⟩ := h
    obtain ⟨n, hn, hx⟩ := Option.map_eq_some_iff.mp hb
    rw [← hx, hf] at hl
    obtain ⟨m, hm, rfl⟩ := ih hl
    exact ⟨(x.1, n) :: m, ⟨ha, hne, hn, hm⟩, by rw [map_cons, Prod.map_apply, hx]; rfl⟩

theorem Chain.head_eq {l : List (Nat × N)} (h : Chain next blocks a l) :
    (l.map Prod.fst).head?.getD 0 = a := by
  cases l with
  | nil => exact h.symm
  | cons x l => exact h.1.symm

end Map

/-- The chain of `k` is `l k`. -/
structure Forest (next : N → Nat) (blocks : Nat → Option N) (head : κ → Nat)
    (l : κ → List (Nat × N)) : Prop where
  chain : ∀ k, Chain next blocks (head k) (l k)
  disjoint : ∀ {k k'}, k ≠ k' → ∀ x ∈ l k, ∀ y ∈ l k', x.1 ≠ y.1

variable {l₀ : List (Nat × N)}

section Forest

variable {next : N → Nat} {blocks blocks' : Nat → Option N} {head head' : κ → Nat}
  {l : κ → List (Nat × N)} {k : κ}

theorem Forest.ne_of_free (h : Forest next blocks head l) {o : Nat} (ho : blocks o = none)
    (k' : κ) : ∀ x ∈ l k', x.1 ≠ o := by
  rintro x hx rfl
  rw [((h.chain k').mem hx).2] at ho
  cases ho

variable [DecidableEq κ]

section

variable (h : Forest next blocks head l)

include h

/-- One chain is replaced by one that has the same blocks and new ones. -/
theorem Forest.replace {l₁ : List (Nat × N)}
    (hchain : Chain next blocks' (head' k) l₁) (hhead : ∀ k', k' ≠ k → head' k' = head k')
    (hblocks : ∀ k', k' ≠ k → ∀ x ∈ l k', blocks' x.1 = blocks x.1)
    (hmem : ∀ x ∈ l₁, x.1 ∈ (l k).map Prod.fst ∨ blocks x.1 = none) :
    Forest next blocks' head' (Function.update l k l₁) := by
  have hother : ∀ x ∈ l₁, ∀ k', k' ≠ k → ∀ y ∈ l k', x.1 ≠ y.1 := by
    intro x hx k' hk' y hy heq
    rcases hmem x hx with hin | hnone
    · obtain ⟨z, hz, hzx⟩ := mem_map.mp hin
      exact h.disjoint (Ne.symm hk') z hz y hy (hzx.trans heq)
    · rw [heq, ((h.chain k').mem hy).2] at hnone
      cases hnone
  constructor
  · intro k'
    rcases eq_or_ne k' k with rfl | hk'
    · rw [Function.update_self]
      exact hchain
    · rw [Function.update_of_ne hk', hhead k' hk']
      exact (h.chain k').congr (hblocks k' hk')
  · intro k₁ k₂ hne x hx y hy
    rcases eq_or_ne k₁ k with rfl | hk₁
    · rw [Function.update_self] at hx
      rw [Function.update_of_ne (Ne.symm hne)] at hy
      exact hother x hx k₂ (Ne.symm hne) y hy
    · rw [Function.update_of_ne hk₁] at hx
      rcases eq_or_ne k₂ k with rfl | hk₂
      · rw [Function.update_self] at hy
        exact (hother y hy k₁ hk₁ x hx).symm
      · rw [Function.update_of_ne hk₂] at hy
        exact h.disjoint hne x hx y hy

theorem Forest.begin {o : Nat} (ho : blocks o = none) (hne : o ≠ 0) (hn : next n = 0) :
    Forest next (Function.update blocks o (some n)) (Function.update head k o)
      (Function.update l k [(o, n)]) := by
  refine h.replace ?_ (fun k' hk' => Function.update_of_ne hk' ..) (fun k' _ x hx => ?_) ?_
  · exact ⟨Function.update_self .., hne, Function.update_self .., hn⟩
  · exact Function.update_of_ne (h.ne_of_free ho k' x hx) ..
  · intro x hx
    rw [mem_singleton.mp hx]
    exact .inr ho

theorem Forest.extend {o a : Nat} (hk : l k = l₀ ++ [(a, n)]) (ho : blocks o = none) (hne : o ≠ 0)
    (hn₁ : next n₁ = o) (hn' : next n' = 0) :
    Forest next (Function.update (Function.update blocks a (some n₁)) o (some n')) head
      (Function.update l k (l₀ ++ [(a, n₁), (o, n')])) := by
  have hchain := h.chain k
  rw [hk] at hchain
  refine h.replace (hchain.extend ho hne hn₁ hn') (fun _ _ => rfl) (fun k' hk' x hx => ?_) ?_
  · have ha : x.1 ≠ a := fun hxa =>
      h.disjoint hk' x hx (a, n) (by rw [hk]; simp) hxa
    rw [Function.update_of_ne (h.ne_of_free ho k' x hx), Function.update_of_ne ha]
  · intro x hx
    rw [hk]
    simp only [mem_append, mem_cons, not_mem_nil, or_false] at hx
    rcases hx with hx | rfl | rfl
    · exact .inl (by simp [mem_map_of_mem hx])
    · exact .inl (by simp)
    · exact .inr ho

theorem Forest.free_last {o a : Nat} (hk : l k = l₀ ++ [(a, n), (o, n')]) (hn₁ : next n₁ = 0) :
    Forest next (Function.update (Function.update blocks o none) a (some n₁)) head
      (Function.update l k (l₀ ++ [(a, n₁)])) := by
  have hchain := h.chain k
  rw [hk] at hchain
  refine h.replace (hchain.free_last hn₁) (fun _ _ => rfl) (fun k' hk' x hx => ?_) ?_
  · have ha : x.1 ≠ a := fun hxa => h.disjoint hk' x hx (a, n) (by rw [hk]; simp) hxa
    have ho : x.1 ≠ o := fun hxo => h.disjoint hk' x hx (o, n') (by rw [hk]; simp) hxo
    rw [Function.update_of_ne ha, Function.update_of_ne ho]
  · intro x hx
    rw [hk]
    rcases mem_append.mp hx with hx | hx
    · exact .inl (by simp [mem_map_of_mem hx])
    · rw [mem_singleton.mp hx]
      exact .inl (by simp)

end

end Forest

end Linked
