import Mathlib.Data.List.Induction
import Pmdk.Immer.RebalancePlan

/-!
# Merging by the plan

`ConcatMerger` takes the slots of the nodes of a level and fills new nodes with them, as many
slots for each as the plan says. It does not look at the end of the plan, nor at the room in its
result: it relies on the plan, whose sum is the number of the slots.
-/

namespace Pmdk.Rbts

open List

/-! ## The code -/

/-- The nodes that a `concat_center_pos` has room for. -/
def maxChildren : Nat := 3

/-- A relaxed inner node that is being filled. It was allocated for `room` children; a child is
given by its slots. -/
structure RelaxedNode (α : Type) where
  room : Nat
  children : List (List α)
  sizes : List Nat

/-- `concat_merger`: the counts from `curr_` on, the nodes of `result_` before the last one and
their sizes, the last one and its size, and the node `to_`, given by
the slots that were copied. -/
structure ConcatMerger (α : Type) where
  curr : List Nat
  n : Nat
  nodes : List (RelaxedNode α)
  sizes : List Nat
  parent : RelaxedNode α
  size : Nat
  toNode : Option (List α)
  toSize : Nat

namespace ConcatMerger

variable {α : Type}

def init (B : Nat) (counts : List Nat) : ConcatMerger α where
  curr := counts
  n := counts.length
  nodes := []
  sizes := []
  parent := ⟨min counts.length (2 ^ B), [], []⟩
  size := 0
  toNode := none
  toSize := 0

def newParent (B : Nat) (m : ConcatMerger α) : ConcatMerger α :=
  { m with
    n := m.n - 2 ^ B
    nodes := m.nodes ++ [m.parent]
    sizes := m.sizes ++ [m.size]
    parent := ⟨min (m.n - 2 ^ B) (2 ^ B), [], []⟩ }

def nextParent (B : Nat) (m : ConcatMerger α) : Option (ConcatMerger α) :=
  if m.parent.children.length = 2 ^ B then
    if m.nodes.length + 1 < maxChildren then some (m.newParent B) else none
  else some m

def withChild (p : List α) (size : Nat) (m : ConcatMerger α) : ConcatMerger α :=
  { m with
    curr := m.curr.tail
    size := m.size + size
    parent := { m.parent with
      children := m.parent.children ++ [p]
      sizes := m.parent.sizes ++ [size + m.parent.sizes.getLastD 0] } }

def putChild (p : List α) (size : Nat) (m : ConcatMerger α) : Option (ConcatMerger α) :=
  if m.parent.children.length < m.parent.room then some (m.withChild p size) else none

def addChild (B : Nat) (p : List α) (size : Nat) (m : ConcatMerger α) : Option (ConcatMerger α) :=
  (m.nextParent B).bind (putChild p size)

/-- A turn of the loop of `merge_leaf` and `merge_inner`; `w` is the size of a slot. The result has
the slots that are left. -/
def mergeTurn (B : Nat) (w : α → Nat) (slots : List α) (m : ConcatMerger α) :
    Option (List α × ConcatMerger α) := do
  let curr ← m.curr.head?
  let copied := m.toNode.getD []
  let toSize := if m.toNode.isSome then m.toSize else 0
  let toCopy := min slots.length (curr - copied.length)
  let copied' := copied ++ slots.take toCopy
  let toSize' := toSize + ((slots.take toCopy).map w).sum
  if curr = copied'.length then
    let m ← m.addChild B copied' toSize'
    some (slots.drop toCopy, { m with toNode := none })
  else some (slots.drop toCopy, { m with toNode := some copied', toSize := toSize' })

/-- The loop of `merge_leaf` and `merge_inner`. A turn copies a slot, so that there are no more
turns than slots. -/
def mergeLoop (B : Nat) (w : α → Nat) : Nat → List α → ConcatMerger α → Option (ConcatMerger α)
  | 0, _, _ => none
  | fuel + 1, slots, m => do
    let (slots, m) ← mergeTurn B w slots m
    if slots.isEmpty then some m else mergeLoop B w fuel slots m

/-- `merge_leaf` and `merge_inner`: a node that is as long as the plan says is taken as it is. -/
def mergeSub (B : Nat) (w : α → Nat) (m : ConcatMerger α) (slots : List α) :
    Option (ConcatMerger α) := do
  let curr ← m.curr.head?
  if m.toNode.isNone ∧ curr = slots.length then m.addChild B slots (slots.map w).sum
  else mergeLoop B w slots.length slots m

def mergeLeaf (B : Nat) : ConcatMerger α → List α → Option (ConcatMerger α) :=
  mergeSub B fun _ => 1

def mergeInner (B : Nat) :
    ConcatMerger (α × Nat) → List (α × Nat) → Option (ConcatMerger (α × Nat)) :=
  mergeSub B Prod.snd

/-- The nodes of the result; an assertion says that there is no `to_`. -/
def finish (m : ConcatMerger α) : Option (List (RelaxedNode α) × List Nat) :=
  if m.toNode.isNone then some (m.nodes ++ [m.parent], m.sizes ++ [m.size]) else none

end ConcatMerger

def mergedSubs {α : Type} (lpos cpos rpos : List (List α)) : List (List α) :=
  lpos.dropLast ++ cpos ++ rpos.tail

def RebalancePlan.merge {α : Type} (B : Nat)
    (visit : ConcatMerger α → List α → Option (ConcatMerger α)) (p : RebalancePlan)
    (lpos cpos rpos : List (List α)) : Option (List (RelaxedNode α) × List Nat) := do
  let m ← (mergedSubs lpos cpos rpos).foldlM visit (.init B p.counts)
  m.finish

/-! ## Sizes -/

def cumulative (l : List Nat) : List Nat :=
  (List.range l.length).map fun k => (l.take (k + 1)).sum

@[simp] theorem cumulative_nil : cumulative [] = [] := rfl

@[simp] theorem cumulative_append_singleton (l : List Nat) (x : Nat) :
    cumulative (l ++ [x]) = cumulative l ++ [l.sum + x] := by
  rw [cumulative, length_append, length_singleton, range_succ, map_append,
    map_singleton, take_of_length_le (by simp), sum_append, sum_singleton]
  congr 1
  refine map_congr_left fun k hk => ?_
  rw [take_append_of_le_length (mem_range.mp hk)]

@[simp] theorem getLast?_cumulative (l : List Nat) : (cumulative l).getLast?.getD 0 = l.sum := by
  induction l using List.reverseRecOn with
  | nil => rfl
  | append_singleton l x _ => simp

section Weight

variable {α : Type} (w : α → Nat)

def weight (child : List α) : Nat := (child.map w).sum

def RelaxedNode.weight (node : RelaxedNode α) : Nat := (node.children.map (Rbts.weight w)).sum

def RelaxedNode.Sized (node : RelaxedNode α) : Prop :=
  node.sizes = cumulative (node.children.map (Rbts.weight w))

end Weight

namespace ConcatMerger

variable {α : Type} {B : Nat} {w : α → Nat} {counts : List Nat} {m : ConcatMerger α}

def placed (m : ConcatMerger α) : List (List α) :=
  m.nodes.flatMap RelaxedNode.children ++ m.parent.children

structure Placed (B : Nat) (w : α → Nat) (counts : List Nat) (m : ConcatMerger α) : Prop where
  plan : m.placed.map List.length ++ m.curr = counts
  full : ∀ node ∈ m.nodes, node.children.length = 2 ^ B
  parent_le : m.parent.children.length ≤ 2 ^ B
  n_eq : m.n + m.nodes.length * 2 ^ B = counts.length
  room_eq : m.parent.room = min m.n (2 ^ B)
  nodes_lt : m.nodes.length < maxChildren
  sized : ∀ node ∈ m.nodes, node.Sized w
  parent_sized : m.parent.Sized w
  sizes_eq : m.sizes = cumulative (m.nodes.map (RelaxedNode.weight w))
  size_eq : m.size = (m.nodes.map (RelaxedNode.weight w)).sum + m.parent.weight w

theorem Placed.length_placed (h : Placed B w counts m) :
    m.placed.length = m.nodes.length * 2 ^ B + m.parent.children.length := by
  have hsum : (m.nodes.map fun node => node.children.length).sum = m.nodes.length * 2 ^ B := by
    rw [map_congr_left h.full, List.map_const', sum_replicate_nat]
  rw [placed, length_append, length_flatMap, hsum]

theorem Placed.nextParent (h : Placed B w counts m) (hcounts : counts.length ≤ 2 * 2 ^ B + 1)
    (hmore : m.placed.length < counts.length) :
    ∃ m', m.nextParent B = some m' ∧ Placed B w counts m' ∧ m'.placed = m.placed ∧
      m'.curr = m.curr ∧ m'.toNode = m.toNode ∧ m'.parent.children.length < m'.parent.room ∧
      m'.parent.children.length < 2 ^ B := by
  have hpow : 0 < 2 ^ B := Nat.two_pow_pos B
  have hn := h.n_eq
  rw [h.length_placed] at hmore
  by_cases hfull : m.parent.children.length = 2 ^ B
  · have hfew : m.nodes.length + 1 < maxChildren := by
      by_contra hmany
      have htwo : 2 ≤ m.nodes.length := by
        rw [maxChildren] at hmany
        omega
      have hmul := Nat.mul_le_mul_right (2 ^ B) htwo
      omega
    refine ⟨m.newParent B, by rw [ConcatMerger.nextParent, if_pos hfull, if_pos hfew], ?_, ?_, rfl,
      rfl, ?_, hpow⟩
    · refine ⟨?_, ?_, Nat.zero_le _, ?_, rfl, ?_, ?_, rfl, ?_, ?_⟩
      · simpa [placed, newParent] using h.plan
      · intro node hnode
        rcases mem_append.mp hnode with hnode | hnode
        · exact h.full node hnode
        · rw [mem_singleton.mp hnode]
          exact hfull
      · simp only [newParent, length_append, length_singleton, Nat.succ_mul]
        omega
      · simpa [newParent] using hfew
      · intro node hnode
        rcases mem_append.mp hnode with hnode | hnode
        · exact h.sized node hnode
        · rw [mem_singleton.mp hnode]
          exact h.parent_sized
      · simp [newParent, h.sizes_eq, h.size_eq]
      · simp [newParent, h.size_eq, RelaxedNode.weight]
    · simp [placed, newParent]
    · exact Nat.lt_min.mpr ⟨by simp only [newParent, length_nil]; omega, hpow⟩
  · have hlt : m.parent.children.length < 2 ^ B := lt_of_le_of_ne h.parent_le hfull
    refine ⟨m, by rw [ConcatMerger.nextParent, if_neg hfull], h, rfl, rfl, rfl, ?_, hlt⟩
    rw [h.room_eq]
    exact Nat.lt_min.mpr ⟨by omega, hlt⟩

theorem Placed.addChild (h : Placed B w counts m) (hcounts : counts.length ≤ 2 * 2 ^ B + 1)
    {p : List α} {curr : List Nat} (hcurr : m.curr = p.length :: curr) :
    ∃ m', m.addChild B p (weight w p) = some m' ∧ Placed B w counts m' ∧
      m'.placed = m.placed ++ [p] ∧ m'.curr = curr ∧ m'.toNode = m.toNode := by
  have hmore : m.placed.length < counts.length := by
    rw [← h.plan, hcurr, length_append, length_map, length_cons]
    omega
  obtain ⟨m', hnext, h', hplaced, hcurr', hto, hroom, hlt⟩ := h.nextParent hcounts hmore
  have hplaced' : (m'.withChild p (weight w p)).placed = m.placed ++ [p] := by
    rw [← hplaced, placed, placed, append_assoc]
    rfl
  refine ⟨m'.withChild p (weight w p),
    by rw [ConcatMerger.addChild, hnext, Option.bind_some, putChild, if_pos hroom], ?_, hplaced',
    by rw [withChild, hcurr', hcurr, tail_cons], hto⟩
  refine ⟨?_, h'.full, ?_, h'.n_eq, h'.room_eq, h'.nodes_lt, h'.sized, ?_, h'.sizes_eq, ?_⟩
  · rw [hplaced', withChild, hcurr', hcurr, ← h.plan, hcurr]
    simp
  · simpa [withChild] using Nat.succ_le_of_lt hlt
  · have hsized := h'.parent_sized
    rw [RelaxedNode.Sized] at hsized ⊢
    simp [withChild, hsized, Nat.add_comm]
  · simp [withChild, h'.size_eq, RelaxedNode.weight, Nat.add_assoc]

/-! ## The loops -/

/-- The slots `rest` are still to come; those that came before are in the children of the result
and in `to_`. -/
structure Merges (B : Nat) (w : α → Nat) (counts : List Nat) (all rest : List α)
    (m : ConcatMerger α) : Prop extends Placed B w counts m where
  slots : m.placed.flatten ++ m.toNode.getD [] ++ rest = all
  toNode_lt : ∀ copied, m.toNode = some copied → ∃ c curr, m.curr = c :: curr ∧ copied.length < c
  toSize_eq : ∀ copied, m.toNode = some copied → m.toSize = weight w copied

variable {all rest later slots : List α}

theorem Placed.withNode (h : Placed B w counts m) (toNode : Option (List α)) (toSize : Nat) :
    Placed B w counts { m with toNode := toNode, toSize := toSize } :=
  ⟨h.plan, h.full, h.parent_le, h.n_eq, h.room_eq, h.nodes_lt, h.sized, h.parent_sized,
    h.sizes_eq, h.size_eq⟩

theorem Merges.sum_curr (h : Merges B w counts all rest m) (hsum : counts.sum = all.length) :
    m.curr.sum = (m.toNode.getD []).length + rest.length := by
  have hlength := congrArg List.length h.slots
  have hplan := congrArg List.sum h.plan
  rw [sum_append] at hplan
  simp only [length_append, length_flatten] at hlength
  omega

theorem Merges.exists_curr (h : Merges B w counts all rest m) (hsum : counts.sum = all.length)
    (hlegal : ∀ c ∈ counts, 1 ≤ c) (hrest : rest ≠ []) :
    ∃ c curr, m.curr = c :: curr ∧ (m.toNode.getD []).length < c := by
  have hcurr := h.sum_curr hsum
  have hpos := length_pos_of_ne_nil hrest
  cases hto : m.toNode with
  | some copied => exact h.toNode_lt copied hto
  | none =>
    obtain ⟨c, curr, hc⟩ : ∃ c curr, m.curr = c :: curr := by
      refine exists_cons_of_ne_nil fun hnil => ?_
      rw [hnil, sum_nil] at hcurr
      omega
    have hmem : c ∈ counts := by
      rw [← h.plan, hc]
      exact mem_append_right _ mem_cons_self
    exact ⟨c, curr, hc, hlegal c hmem⟩

section

variable (h : Merges B w counts all (slots ++ later) m)

include h

theorem Merges.mergeTurn (hcounts : counts.length ≤ 2 * 2 ^ B + 1) (hsum : counts.sum = all.length)
    (hlegal : ∀ c ∈ counts, 1 ≤ c) (hslots : slots ≠ []) :
    ∃ slots' m', ConcatMerger.mergeTurn B w slots m = some (slots', m') ∧
      Merges B w counts all (slots' ++ later) m' ∧ slots'.length < slots.length := by
  obtain ⟨c, curr, hcurr, hlt⟩ := h.exists_curr hsum hlegal (by simp [hslots])
  have hpos := length_pos_of_ne_nil hslots
  have hsize : (if m.toNode.isSome then m.toSize else 0) = weight w (m.toNode.getD []) := by
    cases hto : m.toNode with
    | none => rfl
    | some copied => exact h.toSize_eq copied hto
  generalize hcopied : m.toNode.getD [] = copied at hlt hsize
  generalize htoCopy : min slots.length (c - copied.length) = toCopy
  have hadd : weight w copied + ((slots.take toCopy).map w).sum =
      weight w (copied ++ slots.take toCopy) := by
    rw [weight, weight, map_append, sum_append]
  have hdrop : (slots.drop toCopy).length < slots.length := by
    rw [length_drop]
    omega
  have hslots' : (copied ++ slots.take toCopy) ++ (slots.drop toCopy ++ later) =
      copied ++ (slots ++ later) := by
    rw [append_assoc, ← append_assoc (slots.take toCopy), take_append_drop]
  have hall := h.slots
  rw [hcopied, append_assoc, ← hslots'] at hall
  have hturn : ConcatMerger.mergeTurn B w slots m =
      if c = (copied ++ slots.take toCopy).length then
        (m.addChild B (copied ++ slots.take toCopy) (weight w (copied ++ slots.take toCopy))).bind
          fun m => some (slots.drop toCopy, { m with toNode := none })
      else some (slots.drop toCopy, { m with
        toNode := some (copied ++ slots.take toCopy)
        toSize := weight w (copied ++ slots.take toCopy) }) := by
    rw [ConcatMerger.mergeTurn, hcurr, ← hadd, ← hsize, ← htoCopy, ← hcopied]
    rfl
  by_cases hdone : c = (copied ++ slots.take toCopy).length
  · obtain ⟨m', hm', hplaced', hplaced, -, -⟩ :=
      h.toPlaced.addChild hcounts (by rw [hcurr, ← hdone])
    refine ⟨_, _, by rw [hturn, if_pos hdone, hm', Option.bind_some], ?_, hdrop⟩
    refine ⟨hplaced'.withNode none m'.toSize, ?_, by simp, by simp⟩
    change m'.placed.flatten ++ [] ++ (slots.drop toCopy ++ later) = all
    rw [hplaced, flatten_append, append_nil, flatten_singleton, append_assoc]
    exact hall
  · refine ⟨_, _, by rw [hturn, if_neg hdone], ?_, hdrop⟩
    refine ⟨h.toPlaced.withNode _ _, ?_, ?_, ?_⟩
    · change m.placed.flatten ++ (copied ++ slots.take toCopy) ++ (slots.drop toCopy ++ later) = all
      rw [append_assoc]
      exact hall
    · intro copied' hcopied'
      obtain rfl := Option.some.inj hcopied'
      refine ⟨c, curr, hcurr, lt_of_le_of_ne ?_ (Ne.symm hdone)⟩
      rw [length_append, length_take]
      omega
    · intro copied' hcopied'
      obtain rfl := Option.some.inj hcopied'
      rfl

theorem Merges.mergeLoop (hcounts : counts.length ≤ 2 * 2 ^ B + 1) (hsum : counts.sum = all.length)
    (hlegal : ∀ c ∈ counts, 1 ≤ c) (hslots : slots ≠ []) {fuel : Nat}
    (hfuel : slots.length ≤ fuel) :
    ∃ m', ConcatMerger.mergeLoop B w fuel slots m = some m' ∧ Merges B w counts all later m' := by
  induction fuel generalizing slots m with
  | zero => exact absurd (length_eq_zero_iff.mp (Nat.le_zero.mp hfuel)) hslots
  | succ fuel ih =>
    obtain ⟨slots', m', hturn, h', hlt⟩ := h.mergeTurn hcounts hsum hlegal hslots
    rw [ConcatMerger.mergeLoop, hturn]
    cases slots' with
    | nil => exact ⟨m', rfl, h'⟩
    | cons a slots' => exact ih h' (cons_ne_nil a slots') (by omega)

theorem Merges.mergeSub (hcounts : counts.length ≤ 2 * 2 ^ B + 1) (hsum : counts.sum = all.length)
    (hlegal : ∀ c ∈ counts, 1 ≤ c) (hslots : slots ≠ []) :
    ∃ m', ConcatMerger.mergeSub B w m slots = some m' ∧ Merges B w counts all later m' := by
  obtain ⟨c, curr, hcurr, hlt⟩ := h.exists_curr hsum hlegal (by simp [hslots])
  rw [ConcatMerger.mergeSub, hcurr]
  by_cases hwhole : m.toNode.isNone ∧ c = slots.length
  · obtain ⟨hnone, rfl⟩ := hwhole
    obtain ⟨m', hm', hplaced', hplaced, -, hto⟩ := h.toPlaced.addChild hcounts hcurr
    have hto' : m'.toNode = none := hto.trans (Option.isNone_iff_eq_none.mp hnone)
    refine ⟨m', (if_pos ⟨hnone, rfl⟩).trans hm', hplaced', ?_, ?_, ?_⟩
    · have hall := h.slots
      rw [Option.isNone_iff_eq_none.mp hnone] at hall
      rw [hplaced, hto', flatten_append, flatten_singleton, ← hall]
      simp
    · intro copied hcopied
      rw [hto'] at hcopied
      cases hcopied
    · intro copied hcopied
      rw [hto'] at hcopied
      cases hcopied
  · obtain ⟨m', hm', h'⟩ := h.mergeLoop hcounts hsum hlegal hslots le_rfl
    exact ⟨m', (if_neg hwhole).trans hm', h'⟩

end

theorem Merges.foldlM {subs : List (List α)} (h : Merges B w counts all subs.flatten m)
    (hcounts : counts.length ≤ 2 * 2 ^ B + 1) (hsum : counts.sum = all.length)
    (hlegal : ∀ c ∈ counts, 1 ≤ c) (hsubs : ∀ sub ∈ subs, sub ≠ []) :
    ∃ m', subs.foldlM (ConcatMerger.mergeSub B w) m = some m' ∧ Merges B w counts all [] m' := by
  induction subs generalizing m with
  | nil => exact ⟨m, rfl, h⟩
  | cons sub subs ih =>
    obtain ⟨hsub, hsubs⟩ := forall_mem_cons.mp hsubs
    obtain ⟨m', hm', h'⟩ := h.mergeSub hcounts hsum hlegal hsub
    obtain ⟨m'', hm'', h''⟩ := ih h' hsubs
    refine ⟨m'', ?_, h''⟩
    rw [foldlM_cons, hm']
    exact hm''

theorem merges_init (B : Nat) (w : α → Nat) (counts : List Nat) (all : List α) :
    Merges B w counts all all (init B counts) where
  plan := rfl
  full := by simp [init]
  parent_le := Nat.zero_le _
  n_eq := by simp [init]
  room_eq := rfl
  nodes_lt := Nat.zero_lt_succ _
  sized := by simp [init]
  parent_sized := rfl
  sizes_eq := rfl
  size_eq := rfl
  slots := rfl
  toNode_lt := by simp [init]
  toSize_eq := by simp [init]

/-- When all slots are merged, there is no node left that is only filled in part. -/
theorem Merges.finish (h : Merges B w counts all [] m) (hsum : counts.sum = all.length)
    (hlegal : ∀ c ∈ counts, 1 ≤ c) : m.toNode = none ∧ m.curr = [] := by
  have hcurr := h.sum_curr hsum
  have hto : m.toNode = none := by
    cases hto : m.toNode with
    | none => rfl
    | some copied =>
      obtain ⟨c, curr, hc, hlt⟩ := h.toNode_lt copied hto
      rw [hto, hc, sum_cons] at hcurr
      simp only [Option.getD_some, length_nil] at hcurr
      omega
  refine ⟨hto, eq_nil_iff_forall_not_mem.mpr fun c hc => ?_⟩
  rw [hto] at hcurr
  have hmem : c ∈ counts := by
    rw [← h.plan]
    exact mem_append_right _ hc
  have hzero := List.sum_eq_zero_iff_forall_eq_nat.mp hcurr c hc
  exact absurd (hlegal c hmem) (by rw [hzero]; decide)

end ConcatMerger

/-! ## Plan and merger -/

variable {α : Type}

structure Merged (B : Nat) (w : α → Nat) (counts : List Nat) (subs : List (List α))
    (nodes : List (RelaxedNode α)) (sizes : List Nat) : Prop where
  length_le : nodes.length ≤ maxChildren
  children_le : ∀ node ∈ nodes, node.children.length ≤ 2 ^ B
  slots : (nodes.flatMap RelaxedNode.children).flatten = subs.flatten
  lengths : (nodes.flatMap RelaxedNode.children).map List.length = counts
  sized : ∀ node ∈ nodes, node.Sized w
  sizes_eq : sizes = cumulative (nodes.map (RelaxedNode.weight w))

/-- The merger goes along with a plan that has the sum of the slots. -/
theorem RebalancePlan.merge_spec {B : Nat} (w : α → Nat) {p : RebalancePlan}
    {lpos cpos rpos : List (List α)} (hcounts : p.counts.length ≤ 2 * 2 ^ B + 1)
    (hlegal : ∀ c ∈ p.counts, 1 ≤ c)
    (hsum : p.counts.sum = (mergedSubs lpos cpos rpos).flatten.length)
    (hsubs : ∀ sub ∈ mergedSubs lpos cpos rpos, sub ≠ []) :
    ∃ nodes sizes, p.merge B (ConcatMerger.mergeSub B w) lpos cpos rpos = some (nodes, sizes) ∧
      Merged B w p.counts (mergedSubs lpos cpos rpos) nodes sizes := by
  obtain ⟨m, hm, h⟩ := (ConcatMerger.merges_init B w p.counts
    (mergedSubs lpos cpos rpos).flatten).foldlM hcounts hsum hlegal hsubs
  obtain ⟨hto, hcurr⟩ := h.finish hsum hlegal
  have hplaced : (m.nodes ++ [m.parent]).flatMap RelaxedNode.children = m.placed := by
    simp [ConcatMerger.placed]
  refine ⟨m.nodes ++ [m.parent], m.sizes ++ [m.size], ?_, ?_, ?_, ?_, ?_, ?_, ?_⟩
  · rw [RebalancePlan.merge, hm]
    exact if_pos (by rw [hto]; rfl)
  · rw [length_append]
    exact h.nodes_lt
  · intro node hnode
    rcases mem_append.mp hnode with hnode | hnode
    · exact (h.full node hnode).le
    · rw [mem_singleton.mp hnode]
      exact h.parent_le
  · have hslots := h.slots
    rw [hto] at hslots
    rw [hplaced, ← hslots]
    simp
  · have hplan := h.plan
    rw [hcurr, append_nil] at hplan
    rw [hplaced, hplan]
  · intro node hnode
    rcases mem_append.mp hnode with hnode | hnode
    · exact h.sized node hnode
    · rw [mem_singleton.mp hnode]
      exact h.parent_sized
  · simp [h.sizes_eq, h.size_eq]

/-- A shuffled plan is not longer than the plan, for no prefix of it has fewer slots. -/
theorem RebalancePlan.Shuffled.length_le_length {branches : Nat} {p p' : RebalancePlan}
    (h : p.Shuffled branches p') (hsum : p.total.toNat = p.counts.sum) :
    p'.counts.length ≤ p.counts.length := by
  have hdominates := h.dominates p.counts.length
  rw [take_length, ← hsum, ← h.sum_eq] at hdominates
  have hsplit := congrArg List.sum (take_append_drop p.counts.length p'.counts)
  rw [sum_append] at hsplit
  have hzero : (p'.counts.drop p.counts.length).sum = 0 := by omega
  have hnil : p'.counts.drop p.counts.length = [] := by
    refine eq_nil_iff_forall_not_mem.mpr fun c hc => ?_
    have hone := (h.legal c (mem_of_mem_drop hc)).1
    rw [List.sum_eq_zero_iff_forall_eq_nat.mp hzero c hc] at hone
    exact absurd hone (by decide)
  exact drop_eq_nil_iff.mp hnil

/-- The plan of a concatenation is sound: `shuffle` ends with every access in bounds, and with a
plan that the merger can rely on. -/
theorem RebalancePlan.Fits.merges_shuffled {B BL shift : Nat} (w : α → Nat) {p : RebalancePlan}
    (h : p.Fits (2 ^ planBits B BL shift)) (hcounts : p.counts.length ≤ 2 * 2 ^ B + 1) :
    ∃ p', p.shuffle B BL shift = some p' ∧ Shuffled (2 ^ planBits B BL shift) p p' ∧
      ∀ lpos cpos rpos, (mergedSubs lpos cpos rpos).map List.length = p.counts →
        ∃ nodes sizes, p'.merge B (ConcatMerger.mergeSub B w) lpos cpos rpos = some (nodes, sizes) ∧
          Merged B w p'.counts (mergedSubs lpos cpos rpos) nodes sizes := by
  obtain ⟨p', hshuffle, hshuffled⟩ := h.shuffle
  refine ⟨p', hshuffle, hshuffled, fun lpos cpos rpos hlengths => ?_⟩
  refine RebalancePlan.merge_spec w ((hshuffled.length_le_length h.total_eq).trans hcounts)
    (fun c hc => (hshuffled.legal c hc).1) ?_ ?_
  · rw [hshuffled.sum_eq, h.total_eq, List.length_flatten, hlengths]
  · rintro sub hsub rfl
    have hmem : 0 ∈ p.counts := by
      rw [← hlengths]
      exact List.mem_map_of_mem hsub
    exact absurd (h.legal 0 hmem).1 (by decide)

def shortNodes : RebalancePlan := .fill [1, 1, 1, 1, 1]

theorem shortNodes_fits : shortNodes.Fits (2 ^ planBits 1 0 1) where
  legal := by
    intro c hc
    obtain rfl : c = 1 := by simpa [shortNodes, RebalancePlan.fill] using hc
    exact ⟨le_rfl, by decide⟩
  total_eq := by decide

theorem shortNodes_merges : ∃ p', shortNodes.shuffle 1 0 1 = some p' ∧
    shortNodes.Shuffled (2 ^ planBits 1 0 1) p' ∧
    ∀ lpos cpos rpos, (mergedSubs lpos cpos rpos).map List.length = shortNodes.counts →
      ∃ nodes sizes, p'.merge 1 (ConcatMerger.mergeSub 1 fun _ : Nat => 1) lpos cpos rpos =
          some (nodes, sizes) ∧
        Merged 1 (fun _ : Nat => 1) p'.counts (mergedSubs lpos cpos rpos) nodes sizes :=
  shortNodes_fits.merges_shuffled (fun _ => 1) (by decide)

end Pmdk.Rbts
