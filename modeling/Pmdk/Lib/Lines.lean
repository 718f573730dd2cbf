import Mathlib.Algebra.Order.Ring.Nat
import Mathlib.Data.List.TakeWhile

/-!
# Lines and words of a text

A text is split behind every separator. The lines keep the separators that end them, so what is
behind the last one is a line only if it is not empty. A line is made of words with blanks around
and between them; `words_eq` takes the first one off.
-/

namespace Lines

open List

variable {α : Type*} [DecidableEq α] (sep : α)

def first : List α → List α
  | [] => []
  | a :: l => if a = sep then [a] else a :: first l

def split : List α → List (List α)
  | [] => []
  | a :: l =>
    if a = sep then [a] :: split l
    else match split l with
      | [] => [[a]]
      | line :: lines => (a :: line) :: lines

variable {sep} {l : List α}

theorem first_ne_nil (h : l ≠ []) : first sep l ≠ [] := by
  cases l with
  | nil => exact (h rfl).elim
  | cons a l =>
    rw [first]
    split <;> exact cons_ne_nil _ _

theorem first_prefix (sep : α) (l : List α) : first sep l <+: l := by
  induction l with
  | nil => exact prefix_refl []
  | cons a l ih =>
    rw [first]
    split
    · exact prefix_append [a] l
    · exact prefix_cons_inj a |>.mpr ih

theorem split_eq (h : l ≠ []) :
    split sep l = first sep l :: split sep (l.drop (first sep l).length) := by
  induction l with
  | nil => exact (h rfl).elim
  | cons a l ih =>
    rw [split, first]
    by_cases ha : a = sep
    · rw [if_pos ha, if_pos ha]
      rfl
    · rw [if_neg ha, if_neg ha]
      by_cases hl : l = []
      · rw [hl]
        rfl
      · rw [ih hl]
        rfl

theorem split_append (h : sep ∉ l) (t : List α) :
    split sep (l ++ sep :: t) = (l ++ [sep]) :: split sep t := by
  induction l with
  | nil => rw [nil_append, nil_append, split, if_pos rfl]
  | cons a l ih =>
    rw [mem_cons, not_or] at h
    obtain ⟨hne, hl⟩ := h
    rw [cons_append, split, if_neg (Ne.symm hne), ih hl]
    rfl

theorem first_eq_self (h : (first sep l).getLast? ≠ some sep) : first sep l = l := by
  induction l with
  | nil => rfl
  | cons a l ih =>
    rw [first] at h ⊢
    by_cases ha : a = sep
    · rw [if_pos ha, getLast?_singleton, ha] at h
      exact (h rfl).elim
    · rw [if_neg ha] at h ⊢
      by_cases hl : l = []
      · rw [hl]
        rfl
      · rw [getLast?_cons_of_ne_nil (first_ne_nil hl)] at h
        rw [ih h]

theorem take_first_getLast? {n : Nat} (h : n < (first sep l).length) :
    ((first sep l).take n).getLast? ≠ some sep := by
  induction l generalizing n with
  | nil => exact (Nat.not_lt_zero n h).elim
  | cons a l ih =>
    rw [first] at h ⊢
    by_cases ha : a = sep
    · rw [if_pos ha, length_singleton, Nat.lt_one_iff] at h
      rw [h, take_zero]
      exact (Option.some_ne_none sep).symm
    · rw [if_neg ha] at h ⊢
      cases n with
      | zero => exact (Option.some_ne_none sep).symm
      | succ n =>
        rw [length_cons] at h
        rw [take_succ_cons]
        by_cases hnil : (first sep l).take n = []
        · rw [hnil, getLast?_singleton]
          exact fun heq => ha (Option.some.inj heq)
        · rw [getLast?_cons_of_ne_nil hnil]
          exact ih (Nat.lt_of_succ_lt_succ h)

theorem first_drop {n : Nat} (h : n < (first sep l).length) :
    first sep (l.drop n) = (first sep l).drop n := by
  induction n generalizing l with
  | zero => rfl
  | succ n ih =>
    cases l with
    | nil => exact (Nat.not_lt_zero _ h).elim
    | cons a l =>
      rw [first] at h ⊢
      by_cases ha : a = sep
      · rw [if_pos ha, length_singleton] at h
        omega
      · rw [if_neg ha] at h ⊢
        rw [drop_succ_cons, drop_succ_cons, ih (Nat.lt_of_succ_lt_succ h)]

end Lines

namespace Words

open List

variable {α : Type*} (blank : α → Bool)

def words (l : List α) : List (List α) := (l.splitOnP blank).filter (· ≠ [])

def skip (l : List α) : List α := l.dropWhile blank

def head (l : List α) : List α := l.takeWhile (!blank ·)

def tail (l : List α) : List α := (l.dropWhile (!blank ·)).tail

variable {blank} {l : List α}

@[simp] theorem words_nil : words blank [] = [] := by simp [words]

theorem words_cons_of_blank {a : α} (h : blank a = true) :
    words blank (a :: l) = words blank l := by
  simp [words, splitOnP_cons_eq_if_modifyHead, h]

theorem words_skip (l : List α) : words blank (skip blank l) = words blank l := by
  induction l with
  | nil => rfl
  | cons a l ih =>
    cases h : blank a with
    | false => rw [skip, dropWhile_cons_of_neg (by simp [h])]
    | true => rw [skip, dropWhile_cons_of_pos h, ← skip, ih, words_cons_of_blank h]

theorem forall_mem_head : ∀ a ∈ head blank l, blank a = false := by
  intro a ha
  simpa using mem_takeWhile_imp ha

theorem words_of_head (h : head blank l ≠ []) :
    words blank l = head blank l :: words blank (tail blank l) := by
  have hsplit : head blank l ++ l.dropWhile (!blank ·) = l := takeWhile_append_dropWhile
  cases hrest : l.dropWhile (!blank ·) with
  | nil =>
    rw [hrest, append_nil] at hsplit
    have hall : ∀ a ∈ l, blank a = false := by
      rw [← hsplit]
      exact forall_mem_head
    have hl : l ≠ [] := hsplit ▸ h
    rw [tail, hrest, tail_nil, words_nil, hsplit, words, splitOnP_eq_singleton hall]
    simp [hl]
  | cons a rest =>
    have ha : blank a = true := by
      have := head?_dropWhile_not (!blank ·) l
      rw [hrest] at this
      simpa using this
    rw [tail, hrest, tail_cons]
    conv_lhs => rw [← hsplit, hrest]
    rw [words, splitOnP_append_cons_of_forall_mem forall_mem_head a ha]
    simp [h, words]

theorem head_skip_ne_nil (h : skip blank l ≠ []) : head blank (skip blank l) ≠ [] := by
  intro hnil
  cases hskip : skip blank l with
  | nil => exact h hskip
  | cons a rest =>
    have ha := head?_dropWhile_not blank l
    rw [← skip, hskip] at ha
    rw [hskip, head, takeWhile_cons_of_pos (by simpa using ha)] at hnil
    cases hnil

theorem words_eq (l : List α) :
    words blank l = if skip blank l = [] then []
      else head blank (skip blank l) :: words blank (tail blank (skip blank l)) := by
  split
  next h => rw [← words_skip, h, words_nil]
  next h => rw [← words_skip, words_of_head (head_skip_ne_nil h)]

theorem words_append {k : List α} (hk : k ≠ []) (h : ∀ a ∈ k, blank a = false) (l : List α) :
    words blank (k ++ l) = (k ++ head blank l) :: words blank (tail blank l) := by
  have hpos : ∀ a ∈ k, (!blank a) = true := fun a ha => by rw [h a ha, Bool.not_false]
  have hhead : head blank (k ++ l) = k ++ head blank l := takeWhile_append_of_pos hpos
  have htail : tail blank (k ++ l) = tail blank l := by
    rw [tail, dropWhile_append_of_pos hpos, tail]
  rw [words_of_head (by rw [hhead]; exact append_ne_nil_of_left_ne_nil hk _), hhead, htail]

theorem words_of_head_nil (h : head blank l = []) : words blank (tail blank l) = words blank l := by
  cases l with
  | nil => rfl
  | cons a l =>
    cases ha : blank a with
    | false => simp [head, ha] at h
    | true => simp [tail, ha, words_cons_of_blank ha]

end Words
