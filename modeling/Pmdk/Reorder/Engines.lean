import Mathlib.Data.List.Sublists

/-!
# Reorder engines

Which sequences of the stores between two barriers are tried. The engines are made of the iterators
of `itertools` and of `random.sample`, and they know nothing of the stores: each sequence has every
element of the list at most once.
-/

namespace Pmdk.Reorder

open List

variable {α : Type*}

/-! ## Iterators -/

def picks : List α → List (α × List α)
  | [] => []
  | x :: l => (x, l) :: (picks l).map fun (y, rest) => (y, x :: rest)

def permutations : Nat → List α → List (List α)
  | 0, _ => [[]]
  | r + 1, l => (picks l).flatMap fun (x, rest) => (permutations r rest).map (x :: ·)

def combinations : Nat → List α → List (List α)
  | 0, _ => [[]]
  | _ + 1, [] => []
  | r + 1, x :: l => (combinations r l).map (x :: ·) ++ combinations (r + 1) l

def chain (f : Nat → List (List α)) (n : Nat) : List (List α) :=
  (List.range (n + 1)).flatMap f

/-- `itertools.islice` with `step ≥ 1`. -/
def islice (l : List α) (start : Nat) (stop : Option Nat) (step : Nat) : List α :=
  (l.zipIdx.filter fun x => start ≤ x.2 && stop.all (x.2 < ·) && (x.2 - start) % step == 0).map
    Prod.fst

/-- What `random.sample` may choose: different positions in a population. -/
structure Sampling where
  positions : Nat → Nat → List Nat
  length : ∀ n k, k ≤ n → (positions n k).length = k
  nodup : ∀ n k, (positions n k).Nodup
  lt : ∀ n k, ∀ i ∈ positions n k, i < n

def Sampling.sample (choice : Sampling) (population : List α) (k : Nat) : List α :=
  (choice.positions population.length k).filterMap (population[·]?)

/-! ## Engines -/

/-- The filters of `FilterPartialReorderEngine`, with their arguments. -/
inductive FilterFun
  | minElem (kwarg1 : Nat)
  | maxElem (kwarg1 : Nat)
  | betweenElem (kwarg1 kwarg2 : Nat)

def FilterFun.accepts : FilterFun → List α → Bool
  | minElem kwarg1, l => kwarg1 ≤ l.length
  | maxElem kwarg1, l => l.length ≤ kwarg1
  | betweenElem kwarg1 kwarg2, l => kwarg1 ≤ l.length && l.length ≤ kwarg2

inductive Engine
  | full
  | accumulative
  | accumulativeReverse
  | slicePartial (start : Nat) (stop : Option Nat) (step : {n : Nat // 0 < n})
  | filterPartial (func : FilterFun)
  | randomPartial (maxSeq : Nat)
  | noReorder
  | noChecker

def Engine.testOnBarrier : Engine → Bool
  | noChecker => false
  | _ => true

def Engine.generateSequence (choice : Sampling) (storeList : List α) : Engine → List (List α)
  | full => chain (fun length => permutations length storeList) storeList.length
  | accumulative => (List.range (storeList.length + 1)).map storeList.take
  | accumulativeReverse => (List.range (storeList.length + 1)).map storeList.reverse.take
  | slicePartial start stop step =>
    islice (chain (fun x => combinations x storeList) storeList.length) start stop step
  | filterPartial func =>
    (chain (fun x => combinations x storeList) storeList.length).filter func.accepts
  | randomPartial maxSeq =>
    let population := chain (fun x => (combinations x storeList).take 1000) storeList.length
    choice.sample population
      (if maxSeq ≤ population.length then maxSeq else population.length)
  | noReorder => [storeList]
  | noChecker => [storeList]

/-! ## No element is used twice -/

variable {l seq : List α} {r n : Nat}

theorem perm_of_mem_picks {p : α × List α} (h : p ∈ picks l) : (p.1 :: p.2).Perm l := by
  induction l generalizing p with
  | nil => exact absurd h not_mem_nil
  | cons x l ih =>
    rcases mem_cons.mp h with rfl | h
    · exact .refl _
    · obtain ⟨q, hq, rfl⟩ := mem_map.mp h
      exact (List.Perm.swap x q.1 q.2).trans ((ih hq).cons x)

theorem permutations_subperm (h : seq ∈ permutations r l) : seq.Subperm l := by
  induction r generalizing l seq with
  | zero =>
    obtain rfl := mem_singleton.mp h
    exact nil_subperm
  | succ r ih =>
    obtain ⟨p, hp, h⟩ := mem_flatMap.mp h
    obtain ⟨rest, hrest, rfl⟩ := mem_map.mp h
    exact ((subperm_cons p.1).mpr (ih hrest)).trans (perm_of_mem_picks hp).subperm

theorem combinations_sublist (h : seq ∈ combinations r l) : seq.Sublist l := by
  induction l generalizing r seq with
  | nil =>
    cases r with
    | zero => exact mem_singleton.mp h ▸ .slnil
    | succ r => exact absurd h not_mem_nil
  | cons x l ih =>
    cases r with
    | zero => exact mem_singleton.mp h ▸ nil_sublist _
    | succ r =>
      rcases mem_append.mp h with h | h
      · obtain ⟨rest, hrest, rfl⟩ := mem_map.mp h
        exact (ih hrest).cons_cons x
      · exact (ih h).cons x

theorem mem_of_mem_chain {f : Nat → List (List α)} (h : seq ∈ chain f n) : ∃ r, seq ∈ f r := by
  obtain ⟨r, -, h⟩ := mem_flatMap.mp h
  exact ⟨r, h⟩

theorem combinations_chain_subperm (h : seq ∈ chain (fun x => combinations x l) n) :
    seq.Subperm l := by
  obtain ⟨r, h⟩ := mem_of_mem_chain h
  exact (combinations_sublist h).subperm

/-- Every engine generates sequences of different elements of the list. -/
theorem Engine.generateSequence_subperm (engine : Engine) (choice : Sampling)
    (h : seq ∈ engine.generateSequence choice l) : seq.Subperm l := by
  cases engine with
  | full =>
    obtain ⟨r, h⟩ := mem_of_mem_chain h
    exact permutations_subperm h
  | accumulative =>
    obtain ⟨i, -, rfl⟩ := mem_map.mp h
    exact (take_sublist i l).subperm
  | accumulativeReverse =>
    obtain ⟨i, -, rfl⟩ := mem_map.mp h
    exact (take_sublist i l.reverse).subperm.trans (reverse_perm l).subperm
  | slicePartial start stop step =>
    obtain ⟨x, hx, rfl⟩ := mem_map.mp h
    exact combinations_chain_subperm (fst_mem_of_mem_zipIdx (mem_of_mem_filter hx))
  | filterPartial func => exact combinations_chain_subperm (mem_of_mem_filter h)
  | randomPartial maxSeq =>
    obtain ⟨i, -, hi⟩ := mem_filterMap.mp h
    obtain ⟨r, h⟩ := mem_of_mem_chain (mem_of_getElem? hi)
    exact (combinations_sublist (mem_of_mem_take h)).subperm
  | noReorder => exact mem_singleton.mp h ▸ List.Subperm.refl l
  | noChecker => exact mem_singleton.mp h ▸ List.Subperm.refl l

/-! ## Nothing is left out -/

theorem exists_mem_picks {x : α} (h : x ∈ l) : ∃ rest, (x, rest) ∈ picks l := by
  induction l with
  | nil => exact absurd h not_mem_nil
  | cons y l ih =>
    rcases mem_cons.mp h with rfl | h
    · exact ⟨l, mem_cons_self⟩
    · obtain ⟨rest, hrest⟩ := ih h
      exact ⟨y :: rest, mem_cons_of_mem _ (mem_map.mpr ⟨(x, rest), hrest, rfl⟩)⟩

theorem mem_permutations (h : seq.Subperm l) : seq ∈ permutations seq.length l := by
  induction seq generalizing l with
  | nil => exact mem_singleton_self []
  | cons x seq ih =>
    obtain ⟨rest, hrest⟩ := exists_mem_picks (h.subset mem_cons_self)
    have hperm : l.Perm (x :: rest) := (perm_of_mem_picks hrest).symm
    refine mem_flatMap.mpr ⟨(x, rest), hrest, mem_map_of_mem (ih ?_)⟩
    exact (subperm_cons x).mp (h.trans hperm.subperm)

/-- The full engine generates the elements of every part of the list in every order. -/
theorem Engine.mem_full_iff {choice : Sampling} :
    seq ∈ full.generateSequence choice l ↔ seq.Subperm l :=
  ⟨full.generateSequence_subperm choice, fun h =>
    mem_flatMap.mpr ⟨_, List.mem_range.mpr (Nat.lt_succ_of_le h.length_le), mem_permutations h⟩⟩

def Sampling.first : Sampling where
  positions n k := (List.range n).take k
  length n k h := by rw [length_take, length_range, Nat.min_eq_left h]
  nodup n k := nodup_range.sublist (take_sublist k _)
  lt _ _ _ hi := mem_range.mp (mem_of_mem_take hi)

example : Engine.full.generateSequence .first ['a', 'b'] =
    [[], ['a'], ['b'], ['a', 'b'], ['b', 'a']] := by decide

end Pmdk.Reorder
