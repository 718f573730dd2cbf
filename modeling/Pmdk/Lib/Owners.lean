import Mathlib.Algebra.Order.Ring.Nat
import Mathlib.Data.List.Nodup
import Mathlib.Data.List.Perm.Basic

/-!
# Numbers with owners

The numbers below a bound are given out one by one, and what is given back is kept in a list to be
given out again.
-/

namespace Owners

open Function List

variable {ι : Type*} {owned : ι → Option Nat} {freed : List Nat} {bound n : Nat} {i : ι}

structure Shared (bound : Nat) (freed : List Nat) (owned : ι → Option Nat) : Prop where
  nodup : freed.Nodup
  freed_lt : ∀ n ∈ freed, n < bound
  owned_lt : ∀ i n, owned i = some n → n < bound
  owned_notMem : ∀ i n, owned i = some n → n ∉ freed
  injective : ∀ i j n, owned i = some n → owned j = some n → i = j
  covers : ∀ n < bound, n ∈ freed ∨ ∃ i, owned i = some n

theorem shared_zero : Shared 0 [] fun _ : ι => none :=
  ⟨nodup_nil, fun _ h => (not_mem_nil h).elim, fun _ _ h => (Option.some_ne_none _ h.symm).elim,
    fun _ _ h => (Option.some_ne_none _ h.symm).elim,
    fun _ _ _ h => (Option.some_ne_none _ h.symm).elim, fun n h => (Nat.not_lt_zero n h).elim⟩

variable [DecidableEq ι]

theorem update_cases {v : Option Nat} {j : ι} (h : update owned i v j = some n) :
    j = i ∧ v = some n ∨ j ≠ i ∧ owned j = some n := by
  by_cases hj : j = i
  · rw [hj, update_self] at h
    exact Or.inl ⟨hj, h⟩
  · rw [update_of_ne hj] at h
    exact Or.inr ⟨hj, h⟩

theorem Shared.update_injective (h : Shared bound freed owned) (hfree : ∀ j, owned j ≠ some n)
    {j k : ι} {m : Nat} (hj : update owned i (some n) j = some m)
    (hk : update owned i (some n) k = some m) : j = k := by
  rcases update_cases hj with ⟨hji, hmn⟩ | ⟨-, hj'⟩
  · rcases update_cases hk with ⟨hki, -⟩ | ⟨-, hk'⟩
    · exact hji.trans hki.symm
    · exact (hfree k (hk'.trans hmn.symm)).elim
  · rcases update_cases hk with ⟨-, hmn⟩ | ⟨-, hk'⟩
    · exact (hfree j (hj'.trans hmn.symm)).elim
    · exact h.injective j k m hj' hk'

theorem covers_update {m : Nat} (hnew : owned i = none) (h : ∃ j, owned j = some m) :
    ∃ j, update owned i (some n) j = some m := by
  obtain ⟨j, hj⟩ := h
  have hne : j ≠ i := fun heq => Option.some_ne_none m (hj.symm.trans (heq ▸ hnew))
  exact ⟨j, by rw [update_of_ne hne, hj]⟩

theorem Shared.reuse (h : Shared bound (n :: freed) owned) (hnew : owned i = none) :
    Shared bound freed (update owned i (some n)) := by
  have hnodup := nodup_cons.mp h.nodup
  have hfree : ∀ j, owned j ≠ some n := fun j hj => h.owned_notMem j n hj mem_cons_self
  refine ⟨hnodup.2, fun m hm => h.freed_lt m (mem_cons_of_mem n hm), fun j m hj => ?_,
    fun j m hj => ?_, fun j k m hj hk => h.update_injective hfree hj hk, fun m hm => ?_⟩
  · rcases update_cases hj with ⟨-, hj⟩ | ⟨-, hj⟩
    · exact Option.some.inj hj ▸ h.freed_lt n mem_cons_self
    · exact h.owned_lt j m hj
  · rcases update_cases hj with ⟨-, hj⟩ | ⟨-, hj⟩
    · exact Option.some.inj hj ▸ hnodup.1
    · exact fun hm => h.owned_notMem j m hj (mem_cons_of_mem n hm)
  · rcases h.covers m hm with hmem | howned
    · rcases mem_cons.mp hmem with rfl | hmem
      · exact Or.inr ⟨i, update_self i _ owned⟩
      · exact Or.inl hmem
    · exact Or.inr (covers_update hnew howned)

theorem Shared.fresh (h : Shared bound freed owned) (hnew : owned i = none) :
    Shared (bound + 1) freed (update owned i (some bound)) := by
  have hfree : ∀ j, owned j ≠ some bound := fun j hj => Nat.lt_irrefl _ (h.owned_lt j bound hj)
  refine ⟨h.nodup, fun m hm => Nat.lt_succ_of_lt (h.freed_lt m hm), fun j m hj => ?_,
    fun j m hj => ?_, fun j k m hj hk => h.update_injective hfree hj hk, fun m hm => ?_⟩
  · rcases update_cases hj with ⟨-, hj⟩ | ⟨-, hj⟩
    · exact Option.some.inj hj ▸ Nat.lt_succ_self bound
    · exact Nat.lt_succ_of_lt (h.owned_lt j m hj)
  · rcases update_cases hj with ⟨-, hj⟩ | ⟨-, hj⟩
    · exact fun hm => Nat.lt_irrefl bound (h.freed_lt bound (Option.some.inj hj ▸ hm))
    · exact h.owned_notMem j m hj
  · rcases Nat.lt_succ_iff_lt_or_eq.mp hm with hm | rfl
    · exact (h.covers m hm).imp_right (covers_update hnew)
    · exact Or.inr ⟨i, update_self i _ owned⟩

theorem Shared.release (h : Shared bound freed owned) (hold : owned i = some n) :
    Shared bound (freed ++ [n]) (update owned i none) := by
  have hmem : ∀ m, m ∈ freed ++ [n] ↔ m ∈ freed ∨ m = n := fun m => by
    rw [mem_append, mem_singleton]
  have hother : ∀ j m, update owned i none j = some m → j ≠ i ∧ owned j = some m :=
    fun j m hj => (update_cases hj).resolve_left fun heq => Option.some_ne_none m heq.2.symm
  refine ⟨?_, fun m hm => ?_, fun j m hj => h.owned_lt j m (hother j m hj).2, fun j m hj hm => ?_,
    fun j k m hj hk => h.injective j k m (hother j m hj).2 (hother k m hk).2, fun m hm => ?_⟩
  · refine List.nodup_append'.mpr ⟨h.nodup, nodup_singleton n, ?_⟩
    intro m hm hmn
    exact h.owned_notMem i n hold (mem_singleton.mp hmn ▸ hm)
  · rcases (hmem m).mp hm with hm | rfl
    · exact h.freed_lt m hm
    · exact h.owned_lt i m hold
  · obtain ⟨hne, hj⟩ := hother j m hj
    rcases (hmem m).mp hm with hm | rfl
    · exact h.owned_notMem j m hj hm
    · exact hne (h.injective j i m hj hold)
  · rw [hmem]
    rcases h.covers m hm with hfreed | ⟨j, hj⟩
    · exact Or.inl (Or.inl hfreed)
    · by_cases heq : j = i
      · exact Or.inl (Or.inr (Option.some.inj (hj.symm.trans (heq ▸ hold))))
      · exact Or.inr ⟨j, by rw [update_of_ne heq, hj]⟩

/-! ## Marks

Numbers that are marked while they are owned. -/

structure Exclusive (owned : ι → Option Nat) (marked : Nat → Bool) : Prop where
  injective : ∀ i j n, owned i = some n → owned j = some n → i = j
  marked_iff : ∀ n, marked n = true ↔ ∃ i, owned i = some n

theorem Exclusive.take {marked : Nat → Bool} (h : Exclusive owned marked) (hnew : owned i = none)
    (hn : marked n = false) : Exclusive (update owned i (some n)) (update marked n true) := by
  have hfree : ∀ j, owned j ≠ some n := fun j hj =>
    Bool.false_ne_true (hn.symm.trans ((h.marked_iff n).mpr ⟨j, hj⟩))
  refine ⟨fun j k m hj hk => ?_, fun m => ?_⟩
  · rcases update_cases hj with ⟨hji, hm⟩ | ⟨-, hj'⟩ <;>
      rcases update_cases hk with ⟨hki, hm'⟩ | ⟨-, hk'⟩
    · exact hji.trans hki.symm
    · exact (hfree k (hk'.trans hm.symm)).elim
    · exact (hfree j (hj'.trans hm'.symm)).elim
    · exact h.injective j k m hj' hk'
  · by_cases hm : m = n
    · subst hm
      exact iff_of_true (update_self ..) ⟨i, update_self ..⟩
    · rw [update_of_ne hm, h.marked_iff]
      refine ⟨covers_update hnew, fun ⟨j, hj⟩ => ⟨j, ((update_cases hj).resolve_left ?_).2⟩⟩
      exact fun heq => hm (Option.some.inj heq.2).symm

theorem Exclusive.giveBack {marked : Nat → Bool} (h : Exclusive owned marked)
    (hold : owned i = some n) : Exclusive (update owned i none) (update marked n false) := by
  have hother : ∀ j m, update owned i none j = some m ↔ j ≠ i ∧ owned j = some m := fun j m => by
    by_cases hj : j = i <;> simp [hj]
  refine ⟨fun j k m hj hk => h.injective j k m ((hother j m).mp hj).2 ((hother k m).mp hk).2,
    fun m => ?_⟩
  simp only [hother]
  by_cases hm : m = n
  · subst hm
    rw [update_self]
    exact iff_of_false Bool.false_ne_true fun ⟨j, hne, hj⟩ => hne (h.injective j i m hj hold)
  · rw [update_of_ne hm, h.marked_iff]
    refine exists_congr fun j => (and_iff_right_of_imp ?_).symm
    rintro hj rfl
    exact hm (Option.some.inj (hj.symm.trans hold))

end Owners

/-!
## First come, first served

Requests `0, 1, …` come one after another. Each one gets a place that nobody has, or is put on a
list.
-/

namespace FirstCome

open List

variable {α β : Type*}

theorem perm_collect (own : Nat → Option β) (key : Nat → α) (places : Nat → List β)
    (refused : Nat → List α)
    (hsome : ∀ i x, own i = some x → places (i + 1) = x :: places i ∧ refused (i + 1) = refused i)
    (hnone : ∀ i, own i = none → places (i + 1) = places i ∧ refused (i + 1) = key i :: refused i)
    (n : Nat) :
    (places n).Perm ((List.range n).filterMap own ++ places 0) ∧
      (refused n).Perm (((List.range n).filter fun i => (own i).isNone).map key ++ refused 0) := by
  induction n with
  | zero => exact ⟨List.Perm.refl _, List.Perm.refl _⟩
  | succ n ih =>
    rw [range_succ, filterMap_append, filter_append, map_append]
    cases hown : own n with
    | some x =>
      rw [(hsome n x hown).1, (hsome n x hown).2]
      simp only [filterMap_cons, hown, filterMap_nil, filter_cons,
        Option.isNone_some, Bool.false_eq_true, if_false, filter_nil, map_nil,
        append_nil, append_assoc, singleton_append]
      exact ⟨(ih.1.cons x).trans perm_middle.symm, ih.2⟩
    | none =>
      rw [(hnone n hown).1, (hnone n hown).2]
      simp only [filterMap_cons, hown, filterMap_nil, filter_cons,
        Option.isNone_none, if_true, filter_nil, map_cons, map_nil,
        append_nil, append_assoc, singleton_append]
      exact ⟨ih.1, (ih.2.cons (key n)).trans perm_middle.symm⟩

theorem perm_leftover [DecidableEq β] {l places : List β} (hl : l.Nodup) (hplaces : places.Nodup)
    (hsub : places ⊆ l) : l.Perm (places ++ l.filter (· ∉ places)) := by
  refine (perm_ext_iff_of_nodup hl ?_).mpr fun x => ?_
  · refine hplaces.append (hl.filter _) fun x hx hx' => ?_
    exact absurd hx (of_decide_eq_true (mem_filter.mp hx').2)
  · rw [mem_append, mem_filter, decide_eq_true_eq]
    constructor
    · intro hx
      by_cases hmem : x ∈ places
      · exact .inl hmem
      · exact .inr ⟨hx, hmem⟩
    · rintro (hx | ⟨hx, -⟩)
      · exact hsub hx
      · exact hx

theorem length_collect (own : Nat → Option β) (n : Nat) :
    ((List.range n).filterMap own).length +
      ((List.range n).filter fun i => (own i).isNone).length = n := by
  induction n with
  | zero => rfl
  | succ n ih =>
    rw [range_succ, filterMap_append, filter_append, length_append, length_append]
    cases hown : own n with
    | some x =>
      simp only [filterMap_cons, hown, filterMap_nil, filter_cons,
        Option.isNone_some, Bool.false_eq_true, if_false, filter_nil, length_singleton,
        length_nil]
      omega
    | none =>
      simp only [filterMap_cons, hown, filterMap_nil, filter_cons,
        Option.isNone_none, if_true, filter_nil, length_singleton, length_nil]
      omega

/-- Requests that keep the place that they took, and the others with what they are handed out. -/
theorem perm_handOut {own : Nat → Option β} {final : Nat → β} {n : Nat}
    (h : ∀ i < n, ∀ x, own i = some x → final i = x) :
    ((List.range n).map final).Perm ((List.range n).filterMap own ++
      ((List.range n).filter fun i => (own i).isNone).map final) := by
  induction n with
  | zero => exact List.Perm.refl _
  | succ n ih =>
    have ih := ih fun i hi => h i (Nat.lt_succ_of_lt hi)
    rw [range_succ, map_append, filterMap_append, filter_append, map_append]
    cases hown : own n with
    | some x =>
      simp only [filterMap_cons, hown, filterMap_nil, filter_cons,
        Option.isNone_some, Bool.false_eq_true, if_false, filter_nil, map_cons,
        map_nil, append_nil, h n (Nat.lt_succ_self n) x hown]
      refine (ih.append_right [x]).trans ?_
      rw [append_assoc, append_assoc]
      exact List.Perm.append_left _ perm_append_comm
    | none =>
      simp only [filterMap_cons, hown, filterMap_nil, filter_cons,
        Option.isNone_none, if_true, filter_nil, map_cons, map_nil,
        append_nil]
      rw [← append_assoc]
      exact ih.append_right _

theorem perm_exchange {f g : α → β} {l : List α} {a : α} (hl : l.Nodup) (ha : a ∈ l)
    (h : ∀ b ∈ l, b ≠ a → g b = f b) : (l.map g ++ [f a]).Perm (l.map f ++ [g a]) := by
  induction l with
  | nil => exact absurd ha not_mem_nil
  | cons b l ih =>
    obtain ⟨hb, hl⟩ := nodup_cons.mp hl
    obtain ⟨hhead, h⟩ := forall_mem_cons.mp h
    by_cases hba : b = a
    · subst hba
      have hmap : l.map g = l.map f :=
        map_congr_left fun c hc => h c hc fun heq => hb (heq ▸ hc)
      rw [map_cons, map_cons, hmap, cons_append, cons_append]
      refine ((perm_append_singleton (f b) (l.map f)).cons (g b)).trans ?_
      exact (List.Perm.swap _ _ _).trans ((perm_append_singleton (g b) (l.map f)).symm.cons (f b))
    · rw [map_cons, map_cons, hhead hba]
      exact (ih hl ((mem_cons.mp ha).resolve_left (Ne.symm hba)) h).cons (f b)

end FirstCome
