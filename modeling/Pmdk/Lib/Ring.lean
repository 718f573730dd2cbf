import Mathlib.Algebra.Order.Ring.Nat
import Mathlib.Data.List.Chain
import Mathlib.Data.List.Nodup
import Mathlib.Data.Nat.ModEq

/-!
# Circular doubly linked lists

A pair of functions `next prev : α → α` links the nodes of a list into a ring when each node points
to its successor and back, and the last node points to the first one in the same way.

The two operations are `IsRing.unlink`, which takes the front node out of a ring with at least two
nodes, and `IsRing.linkBefore`, which puts a new node before the front one.
-/

namespace Ring

open Function List

variable {α : Type*}

/-- `a` is followed by `b`. -/
def Link (next prev : α → α) (a b : α) : Prop :=
  next a = b ∧ prev b = a

/-- The nodes of `l` form a ring in the order of the list. -/
def IsRing (next prev : α → α) (l : List α) : Prop :=
  l.IsChain (Link next prev) ∧ ∀ e ∈ l.getLast?, ∀ a ∈ l.head?, Link next prev e a

variable {next prev next' prev' : α → α} {l l₁ l₂ : List α}

@[simp] theorem isRing_nil : IsRing next prev ([] : List α) := by
  simp [IsRing]

@[simp] theorem isRing_singleton {a : α} : IsRing next prev [a] ↔ next a = a ∧ prev a = a := by
  simp [IsRing, Link]

theorem isRing_append_comm : IsRing next prev (l₁ ++ l₂) ↔ IsRing next prev (l₂ ++ l₁) := by
  cases l₁ with
  | nil => simp
  | cons a s =>
    cases l₂ with
    | nil => simp
    | cons b t =>
      simp only [IsRing, isChain_append, getLast?_append, head?_append, head?_cons, Option.some_or]
      simp only [getLast?_cons, Option.some_or]
      constructor
      · rintro ⟨⟨h₁, h₂, h⟩, h'⟩
        exact ⟨⟨h₂, h₁, h'⟩, h⟩
      · rintro ⟨⟨h₁, h₂, h⟩, h'⟩
        exact ⟨⟨h₂, h₁, h'⟩, h⟩

theorem isChain_link_congr (hnext : ∀ a ∈ l.dropLast, next' a = next a)
    (hprev : ∀ b ∈ l.tail, prev' b = prev b) (h : l.IsChain (Link next prev)) :
    l.IsChain (Link next' prev') := by
  induction l with
  | nil => exact List.IsChain.nil
  | cons a l ih =>
    cases l with
    | nil => exact List.IsChain.singleton a
    | cons b l =>
      rw [isChain_cons_cons] at h ⊢
      rw [dropLast_cons_cons, forall_mem_cons] at hnext
      rw [tail_cons, forall_mem_cons] at hprev
      refine ⟨⟨hnext.1.trans h.1.1, hprev.1.trans h.1.2⟩, ?_⟩
      exact ih hnext.2 hprev.2 h.2

theorem IsRing.congr (h : IsRing next prev l) (hnext : ∀ a ∈ l, next' a = next a)
    (hprev : ∀ a ∈ l, prev' a = prev a) : IsRing next' prev' l := by
  refine ⟨isChain_link_congr (fun a ha => hnext a (dropLast_subset _ ha))
    (fun b hb => hprev b (mem_of_mem_tail hb)) h.1, ?_⟩
  intro e he a ha
  obtain ⟨h₁, h₂⟩ := h.2 e he a ha
  exact ⟨(hnext e (mem_of_getLast? he)).trans h₁, (hprev a (mem_of_head? ha)).trans h₂⟩

variable {s : List α}

theorem IsRing.prev_front {d : α} (h : IsRing next prev (d :: s)) :
    prev d = (d :: s).getLast (cons_ne_nil d s) :=
  (h.2 _ (getLast?_eq_some_getLast _) d rfl).2

theorem IsRing.next_front {x b : α} (h : IsRing next prev (x :: b :: s)) :
    next x = b :=
  (isChain_cons_cons.mp h.1).1.1

theorem IsRing.neighbours {a : α} (h : IsRing next prev l) (ha : a ∈ l) :
    (next a ∈ l ∧ prev (next a) = a) ∧ (prev a ∈ l ∧ next (prev a) = a) := by
  obtain ⟨l₁, l₂, rfl⟩ := append_of_mem ha
  have hring : IsRing next prev (a :: (l₂ ++ l₁)) := isRing_append_comm.mp h
  have hmem : ∀ b ∈ a :: (l₂ ++ l₁), b ∈ l₁ ++ a :: l₂ := by
    intro b hb
    simp only [mem_append, mem_cons] at hb ⊢
    tauto
  have hwrap := hring.2 _ (getLast?_eq_some_getLast (cons_ne_nil _ _)) a rfl
  refine ⟨?_, ?_, ?_⟩
  · cases hrest : l₂ ++ l₁ with
    | nil =>
      rw [hrest, isRing_singleton] at hring
      rw [hring.1]
      exact ⟨ha, hring.2⟩
    | cons b t =>
      rw [hrest] at hring
      obtain ⟨⟨hnext, hprev⟩, -⟩ := isChain_cons_cons.mp hring.1
      rw [hnext]
      exact ⟨hmem b (by simp [hrest]), hprev⟩
  · rw [hwrap.2]
    exact hmem _ (getLast_mem _)
  · rw [hwrap.2]
    exact hwrap.1

theorem ne_getLast_of_mem_dropLast {a : α} (hne : l ≠ []) (hnodup : l.Nodup)
    (ha : a ∈ l.dropLast) : a ≠ l.getLast hne := by
  rintro rfl
  rw [← dropLast_append_getLast hne, nodup_append] at hnodup
  exact hnodup.2.2 _ ha _ (mem_singleton_self _) rfl

theorem ne_front_of_mem_tail {a b : α} (hnodup : (b :: s).Nodup) (ha : a ∈ s) :
    a ≠ b := by
  rintro rfl
  exact (nodup_cons.mp hnodup).1 ha

variable [DecidableEq α]

theorem IsRing.unlink {x b : α} (h : IsRing next prev (x :: b :: s))
    (hnodup : (x :: b :: s).Nodup) :
    IsRing (update next (prev x) (next x)) (update prev (next x) (prev x)) (b :: s) := by
  have hlast : prev x = (b :: s).getLast (cons_ne_nil b s) := by
    rw [h.prev_front, getLast_cons (cons_ne_nil b s)]
  have hnodup' : (b :: s).Nodup := (nodup_cons.mp hnodup).2
  rw [h.next_front]
  refine ⟨isChain_link_congr ?_ ?_ (isChain_cons_cons.mp h.1).2, ?_⟩
  · intro a ha
    have hne := ne_getLast_of_mem_dropLast (cons_ne_nil b s) hnodup' ha
    rw [update_of_ne (hlast ▸ hne)]
  · intro a ha
    rw [update_of_ne (ne_front_of_mem_tail hnodup' ha)]
  · intro e he a ha
    rw [getLast?_eq_some_getLast (cons_ne_nil b s), Option.mem_some_iff] at he
    rw [head?_cons, Option.mem_some_iff] at ha
    subst he
    subst ha
    rw [← hlast]
    exact ⟨update_self _ _ _, update_self _ _ _⟩

theorem IsRing.linkBefore {d x : α} (h : IsRing next prev (d :: s))
    (hnodup : (d :: s).Nodup) (hx : x ∉ d :: s) :
    IsRing (update (update next (prev d) x) x d)
      (update (update prev d x) x (prev d)) (x :: d :: s) := by
  have hlast : prev d = (d :: s).getLast (cons_ne_nil d s) := h.prev_front
  have hmem : prev d ∈ d :: s := hlast ▸ getLast_mem _
  have hne : ∀ a ∈ d :: s, a ≠ x := fun a ha hax => hx (hax ▸ ha)
  refine ⟨isChain_cons_cons.mpr ⟨⟨update_self _ _ _, ?_⟩, isChain_link_congr ?_ ?_ h.1⟩, ?_⟩
  · rw [update_of_ne (hne d mem_cons_self), update_self]
  · intro a ha
    have hlast' := ne_getLast_of_mem_dropLast (cons_ne_nil d s) hnodup ha
    rw [update_of_ne (hne a (dropLast_subset _ ha)), update_of_ne (hlast ▸ hlast')]
  · intro a ha
    rw [update_of_ne (hne a (mem_cons_of_mem d ha)), update_of_ne (ne_front_of_mem_tail hnodup ha)]
  · intro e he a ha
    rw [getLast?_cons_cons, getLast?_eq_some_getLast (cons_ne_nil d s), Option.mem_some_iff] at he
    rw [head?_cons, Option.mem_some_iff] at ha
    subst he
    subst ha
    rw [← hlast]
    refine ⟨?_, update_self _ _ _⟩
    rw [update_of_ne (hne _ hmem), update_self]

end Ring

/-!
## Walks around a cycle

A walk that goes from every place of one cycle to the next, while another cycle is gone through
once, and that comes to no place twice, is a rotation of the other cycle.
-/

namespace Cyclic

variable {m n i : Nat}

/-- The place behind `i` on a cycle of `n` places, and the one before it. -/
def next (n i : Nat) : Nat := (n + i + 1) % n

def prev (n i : Nat) : Nat := (n + i - 1) % n

theorem next_of_lt (h : i + 1 < n) : next n i = i + 1 := by
  rw [next, Nat.add_assoc, Nat.add_mod_left, Nat.mod_eq_of_lt h]

theorem next_last (h : 0 < n) : next n (n - 1) = 0 := by
  rw [next, Nat.add_assoc, Nat.sub_add_cancel h, Nat.add_mod_left, Nat.mod_self]

theorem next_mod (n i : Nat) : next n (i % n) = (i + 1) % n := by
  rw [next, Nat.add_assoc, Nat.add_mod_left, Nat.mod_add_mod]

theorem next_add_mod (i k : Nat) : (next n i + k) % n = next n ((i + k) % n) := by
  rw [next_mod, next, Nat.mod_add_mod, Nat.add_right_comm, Nat.add_assoc n, Nat.add_assoc n,
    Nat.add_mod_left]

theorem prev_add_mod (hi : i < n) (k : Nat) : (prev n i + k) % n = prev n ((i + k) % n) := by
  have hn := Nat.zero_lt_of_lt hi
  have hmod := Nat.div_add_mod (i + k) n
  have hlt := Nat.mod_lt (i + k) hn
  rw [prev, prev, Nat.mod_add_mod, ← Nat.add_mul_mod_self_left (n + (i + k) % n - 1) n
      ((i + k) / n)]
  congr 1
  omega

variable {f : Nat → Nat}

theorem eq_add_mod (h0 : f 0 < n) (hnext : ∀ i < m, f (next m i) = next n (f i)) (hi : i < m) :
    f i = (i + f 0) % n := by
  induction i with
  | zero => rw [Nat.zero_add, Nat.mod_eq_of_lt h0]
  | succ i ih =>
    have hlt := Nat.lt_of_succ_lt hi
    rw [← next_of_lt hi, hnext i hlt, ih hlt, next_mod, next_of_lt hi, Nat.add_right_comm]

/-- A walk without repetition that comes back is a rotation. -/
theorem rotation (hm : 0 < m) (h0 : f 0 < n) (hnext : ∀ i < m, f (next m i) = next n (f i))
    (hinj : ∀ i < m, ∀ j < m, f i = f j → i = j) : m = n ∧ ∀ i < m, f i = (i + f 0) % n := by
  have hwalk : ∀ i < m, f i = (i + f 0) % n := fun i => eq_add_mod h0 hnext
  have hback : f 0 = (m + f 0) % n := by
    have hlast := hnext (m - 1) (Nat.sub_one_lt_of_lt hm)
    rw [next_last hm, hwalk (m - 1) (Nat.sub_one_lt_of_lt hm), next_mod, Nat.add_right_comm,
      Nat.sub_add_cancel hm] at hlast
    exact hlast
  have hdvd : n ∣ m := by
    have hmod : (0 + f 0) % n = (m + f 0) % n := by
      rw [Nat.zero_add, Nat.mod_eq_of_lt h0]
      exact hback
    exact (Nat.modEq_zero_iff_dvd).mp (Nat.ModEq.add_right_cancel' (f 0) hmod).symm
  have hle : m ≤ n := by
    by_contra hlt
    have hlt := Nat.not_le.mp hlt
    have hsame : f n = f 0 := by
      rw [hwalk n hlt, Nat.add_mod_left, Nat.mod_eq_of_lt h0]
    exact Nat.ne_of_gt (Nat.zero_lt_of_lt h0) (hinj n hlt 0 hm hsame)
  exact ⟨Nat.le_antisymm hle (Nat.le_of_dvd hm hdvd), hwalk⟩

end Cyclic
