import Mathlib.Algebra.Order.Ring.Nat
import Mathlib.Data.List.Pairwise

/-!
# Ravl trees

The relaxed AVL trees of `ravl.c`. A node is named by its key, and the tree is kept without the
parents' pointers: the walk of `ravl_balance` from a new node to the root is the return from the
recursion that inserted it.
-/

namespace Pmdk.Ravl

open List

/-- `struct ravl_node`, with the null pointer. -/
inductive Tree (α : Type)
  | nil
  | node (left : Tree α) (rank : Int) (data : α) (right : Tree α)
  deriving DecidableEq

inductive Predicate
  | equal
  | greater
  | less
  | lessEqual
  | greaterEqual
  deriving DecidableEq

namespace Predicate

/-- `flags & RAVL_PREDICATE_EQUAL`. -/
def hasEqual (p : Predicate) : Bool := p = equal ∨ p = lessEqual ∨ p = greaterEqual

/-- `flags & RAVL_PREDICATE_GREATER`. -/
def hasGreater (p : Predicate) : Bool := p = greater ∨ p = greaterEqual

/-- `flags & RAVL_PREDICATE_LESS`. -/
def hasLess (p : Predicate) : Bool := p = less ∨ p = lessEqual

end Predicate

namespace Tree

variable {α κ : Type} [LinearOrder κ] (key : α → κ)

/-- The data in order, as `ravl_clear_node` visits them. -/
def toList : Tree α → List α
  | nil => []
  | node left _ data right => left.toList ++ data :: right.toList

@[simp] theorem toList_nil : (nil : Tree α).toList = [] := rfl

@[simp] theorem toList_node (left : Tree α) (rank : Int) (data : α) (right : Tree α) :
    (node left rank data right).toList = left.toList ++ data :: right.toList := rfl

def rank : Tree α → Int
  | nil => -1
  | node _ rank _ _ => rank

/-- `ravl_node_type_most` for the left slot. -/
def leftMost : Tree α → Option α
  | nil => none
  | node left _ data _ => some (left.leftMost.getD data)

/-- `ravl_node_type_most` for the right slot. -/
def rightMost : Tree α → Option α
  | nil => none
  | node _ _ data right => some (right.rightMost.getD data)

/-- `ravl_find`. The result so far is the last node at which the search turned towards the side
that the predicate asks for, so it is also the successor or predecessor that
`ravl_node_cessor` finds above a node without a child on that side. -/
def find (p : Predicate) (x : κ) : Tree α → Option α → Option α
  | nil, ret => ret
  | node left _ data right, ret =>
    match compare x (key data) with
    | .eq =>
      if p.hasEqual then some data
      else if p.hasGreater then right.leftMost.or ret
      else if p.hasLess then left.rightMost.or ret
      else left.find p x ret
    | .lt => left.find p x (if p.hasGreater then some data else ret)
    | .gt => right.find p x (if p.hasLess then some data else ret)

/-- `ravl_node_is` with 0 and 1. -/
def isZeroOne (rank : Int) (left right : Tree α) : Bool :=
  (rank - left.rank = 0 ∧ rank - right.rank = 1) ∨ (rank - left.rank = 1 ∧ rank - right.rank = 0)

/-- `ravl_balance` at the parent of a left child: the parent is promoted and the walk goes on, or
the rotations end it. -/
def balanceLeft (n : Tree α) (rank : Int) (data : α) (s : Tree α) : Tree α × Bool :=
  if isZeroOne rank n s then (node n (rank + 1) data s, true)
  else if rank - n.rank = 0 ∧ rank - s.rank > 1 then
    match n with
    | nil => (node n rank data s, false)
    | node a nrank ndata nil => (node a nrank ndata (node nil (rank - 1) data s), false)
    | node a nrank ndata (node b zrank zdata c) =>
      if nrank - zrank = 2 then
        (node a nrank ndata (node (node b zrank zdata c) (rank - 1) data s), false)
      else if nrank - zrank = 1 then
        (node (node a (nrank - 1) ndata b) (zrank + 1) zdata (node c (rank - 1) data s), false)
      else (node n rank data s, false)
  else (node n rank data s, false)

/-- `ravl_balance` at the parent of a right child. -/
def balanceRight (s : Tree α) (rank : Int) (data : α) (n : Tree α) : Tree α × Bool :=
  if isZeroOne rank s n then (node s (rank + 1) data n, true)
  else if rank - n.rank = 0 ∧ rank - s.rank > 1 then
    match n with
    | nil => (node s rank data n, false)
    | node nil nrank ndata a => (node (node s (rank - 1) data nil) nrank ndata a, false)
    | node (node c zrank zdata b) nrank ndata a =>
      if nrank - zrank = 2 then
        (node (node s (rank - 1) data (node c zrank zdata b)) nrank ndata a, false)
      else if nrank - zrank = 1 then
        (node (node s (rank - 1) data c) (zrank + 1) zdata (node b (nrank - 1) ndata a), false)
      else (node s rank data n, false)
  else (node s rank data n, false)

/-- The walk of `ravl_emplace` down the tree and of `ravl_balance` up. The result tells whether
the walk up has not ended; it is `none` for `EEXIST`. -/
def emplaceWalk (new : α) : Tree α → Option (Tree α × Bool)
  | nil => some (node nil 0 new nil, true)
  | node left rank data right =>
    match compare (key new) (key data) with
    | .eq => none
    | .lt => (left.emplaceWalk new).map fun (left, up) =>
      if up then balanceLeft left rank data right else (node left rank data right, false)
    | .gt => (right.emplaceWalk new).map fun (right, up) =>
      if up then balanceRight left rank data right else (node left rank data right, false)

/-- `ravl_emplace_copy`. -/
def emplace (new : α) (t : Tree α) : Option (Tree α) := (t.emplaceWalk key new).map Prod.fst

/-- A node without a left child is replaced by its right child: `ravl_remove` of the left-most
node. -/
def removeLeftMost : Tree α → Tree α
  | nil => nil
  | node nil _ _ right => right
  | node (node a r d b) rank data right => node (removeLeftMost (node a r d b)) rank data right

/-- `ravl_remove` of a node with two subtrees. If both are there, it is the data of the successor
that takes the place of the node's data, and the successor is removed. -/
def removeNode (rank : Int) : Tree α → Tree α → Tree α
  | nil, right => right
  | node a r d b, right =>
    match right.leftMost with
    | none => node a r d b
    | some s => node (node a r d b) rank s right.removeLeftMost

def remove (x : κ) : Tree α → Tree α
  | nil => nil
  | node left rank data right =>
    match compare x (key data) with
    | .lt => node (left.remove x) rank data right
    | .gt => node left rank data (right.remove x)
    | .eq => removeNode rank left right

def modify (x : κ) (f : α → α) : Tree α → Tree α
  | nil => nil
  | node left rank data right =>
    match compare x (key data) with
    | .lt => node (left.modify x f) rank data right
    | .gt => node left rank data (right.modify x f)
    | .eq => node left rank (f data) right

/-! ## The data in order -/

theorem leftMost_eq_head? (t : Tree α) : t.leftMost = t.toList.head? := by
  induction t with
  | nil => rfl
  | node left rank data right ihl _ =>
    rw [leftMost, ihl, toList_node]
    cases left.toList with
    | nil => rfl
    | cons a l => rfl

theorem rightMost_eq_getLast? (t : Tree α) : t.rightMost = t.toList.getLast? := by
  induction t with
  | nil => rfl
  | node left rank data right _ ihr =>
    rw [rightMost, ihr, toList_node, getLast?_append, getLast?_cons]
    rfl

theorem toList_removeLeftMost (t : Tree α) : t.removeLeftMost.toList = t.toList.tail := by
  induction t with
  | nil => rfl
  | node left rank data right ihl _ =>
    cases left with
    | nil => rfl
    | node a r d b =>
      have hne : (node a r d b).toList ≠ [] := by simp
      rw [removeLeftMost, toList_node, ihl, toList_node (node a r d b), tail_append_of_ne_nil hne]

theorem toList_balanceLeft (n : Tree α) (rank : Int) (data : α) (s : Tree α) :
    (balanceLeft n rank data s).1.toList = n.toList ++ data :: s.toList := by
  unfold balanceLeft
  split
  · rfl
  · split
    · split
      · rfl
      · simp
      · split
        · simp
        · split <;> simp
    · rfl

theorem toList_balanceRight (s : Tree α) (rank : Int) (data : α) (n : Tree α) :
    (balanceRight s rank data n).1.toList = s.toList ++ data :: n.toList := by
  unfold balanceRight
  split
  · rfl
  · split
    · split
      · rfl
      · simp
      · split
        · simp
        · split <;> simp
    · rfl

theorem toList_removeNode (rank : Int) (left right : Tree α) :
    (removeNode rank left right).toList = left.toList ++ right.toList := by
  cases left with
  | nil => rfl
  | node a r d b =>
    have hhead := leftMost_eq_head? right
    rw [removeNode]
    cases hleft : right.leftMost with
    | none =>
      rw [hleft, eq_comm, head?_eq_none_iff] at hhead
      rw [hhead, append_nil]
    | some s =>
      rw [hleft, eq_comm, head?_eq_some_iff] at hhead
      obtain ⟨l, hl⟩ := hhead
      dsimp only
      rw [toList_node (node a r d b), toList_removeLeftMost, hl]
      rfl

def Sorted (t : Tree α) : Prop := t.toList.Pairwise fun a b => key a < key b

section Sorted

variable {key} {t left right : Tree α} {rank : Int} {data : α} {x : κ}

theorem sorted_node : (node left rank data right).Sorted key ↔ left.Sorted key ∧
    right.Sorted key ∧ (∀ a ∈ left.toList, key a < key data) ∧
      ∀ b ∈ right.toList, key data < key b := by
  unfold Sorted
  rw [toList_node, pairwise_append, pairwise_cons]
  constructor
  · rintro ⟨hl, ⟨hdata, hr⟩, hlt⟩
    exact ⟨hl, hr, fun a ha => hlt a ha data mem_cons_self, hdata⟩
  · rintro ⟨hl, hr, hlt, hdata⟩
    refine ⟨hl, ⟨hdata, hr⟩, fun a ha b hb => ?_⟩
    rcases mem_cons.mp hb with rfl | hb
    · exact hlt a ha
    · exact (hlt a ha).trans (hdata b hb)

section

variable (h : t.Sorted key)

include h

theorem find_less (ret : Option α) :
    t.find key .less x ret = (t.toList.filter fun a => key a < x).getLast?.or ret := by
  induction t generalizing ret with
  | nil => rfl
  | node left rank data right ihl ihr =>
    obtain ⟨hl, hr, hlt, hgt⟩ := sorted_node.mp h
    rw [find, toList_node, filter_append]
    rcases lt_trichotomy x (key data) with hx | rfl | hx
    · have hright : right.toList.filter (fun a => key a < x) = [] :=
        filter_eq_nil_iff.mpr fun a ha => by simpa using (hx.trans (hgt a ha)).le
      rw [compare_lt_iff_lt.mpr hx, filter_cons_of_neg (by simpa using hx.le), hright, append_nil]
      exact ihl hl ret
    · have hleft : left.toList.filter (fun a => key a < key data) = left.toList :=
        filter_eq_self.mpr fun a ha => by simpa using hlt a ha
      have hright : right.toList.filter (fun a => key a < key data) = [] :=
        filter_eq_nil_iff.mpr fun a ha => by simpa using (hgt a ha).le
      rw [compare_eq_iff_eq.mpr rfl, filter_cons_of_neg (by simp), hleft, hright,
        append_nil, rightMost_eq_getLast?]
      rfl
    · have hleft : left.toList.filter (fun a => key a < x) = left.toList :=
        filter_eq_self.mpr fun a ha => by simpa using (hlt a ha).trans hx
      rw [compare_gt_iff_gt.mpr hx, filter_cons_of_pos (by simpa using hx), hleft,
        getLast?_append, getLast?_cons]
      refine (ihr hr (some data)).trans ?_
      cases (right.toList.filter fun a => key a < x).getLast? with
      | none => rfl
      | some a => rfl

theorem find_lessEqual (ret : Option α) :
    t.find key .lessEqual x ret = (t.toList.filter fun a => key a ≤ x).getLast?.or ret := by
  induction t generalizing ret with
  | nil => rfl
  | node left rank data right ihl ihr =>
    obtain ⟨hl, hr, hlt, hgt⟩ := sorted_node.mp h
    rw [find, toList_node, filter_append]
    rcases lt_trichotomy x (key data) with hx | rfl | hx
    · have hright : right.toList.filter (fun a => key a ≤ x) = [] :=
        filter_eq_nil_iff.mpr fun a ha => by simpa using hx.trans (hgt a ha)
      rw [compare_lt_iff_lt.mpr hx, filter_cons_of_neg (by simpa using hx), hright, append_nil]
      exact ihl hl ret
    · have hright : right.toList.filter (fun a => key a ≤ key data) = [] :=
        filter_eq_nil_iff.mpr fun a ha => by simpa using hgt a ha
      rw [compare_eq_iff_eq.mpr rfl, filter_cons_of_pos (by simp), hright,
        getLast?_append, getLast?_singleton]
      rfl
    · have hleft : left.toList.filter (fun a => key a ≤ x) = left.toList :=
        filter_eq_self.mpr fun a ha => by simpa using ((hlt a ha).trans hx).le
      rw [compare_gt_iff_gt.mpr hx, filter_cons_of_pos (by simpa using hx.le), hleft,
        getLast?_append, getLast?_cons]
      refine (ihr hr (some data)).trans ?_
      cases (right.toList.filter fun a => key a ≤ x).getLast? with
      | none => rfl
      | some a => rfl

theorem find_equal :
    t.find key .equal x none = t.toList.find? fun a => key a = x := by
  induction t with
  | nil => rfl
  | node left rank data right ihl ihr =>
    obtain ⟨hl, hr, hlt, hgt⟩ := sorted_node.mp h
    rw [find, toList_node, find?_append]
    rcases lt_trichotomy x (key data) with hx | rfl | hx
    · have hright : (data :: right.toList).find? (fun a => key a = x) = none := by
        refine find?_eq_none.mpr fun a ha => ?_
        rcases mem_cons.mp ha with rfl | ha
        · simpa using hx.ne'
        · simpa using (hx.trans (hgt a ha)).ne'
      rw [compare_lt_iff_lt.mpr hx, hright]
      refine (ihl hl).trans ?_
      rw [Option.or_none]
    · have hleft : left.toList.find? (fun a => key a = key data) = none :=
        find?_eq_none.mpr fun a ha => by simpa using (hlt a ha).ne
      rw [compare_eq_iff_eq.mpr rfl, hleft, find?_cons_of_pos (by simp)]
      rfl
    · have hleft : left.toList.find? (fun a => key a = x) = none :=
        find?_eq_none.mpr fun a ha => by simpa using ((hlt a ha).trans hx).ne
      rw [compare_gt_iff_gt.mpr hx, hleft, find?_cons_of_neg (by simpa using hx.ne)]
      exact ihr hr

theorem emplace_spec {new : α} (hnew : ∀ a ∈ t.toList, key a ≠ key new) :
    ∃ t', t.emplace key new = some t' ∧ t'.toList =
      t.toList.filter (fun a => key a < key new) ++ new ::
        t.toList.filter (fun a => key new < key a) := by
  suffices hwalk : ∃ r, t.emplaceWalk key new = some r ∧ r.1.toList =
      t.toList.filter (fun a => key a < key new) ++ new ::
        t.toList.filter (fun a => key new < key a) by
    obtain ⟨r, hr, hlist⟩ := hwalk
    exact ⟨r.1, by rw [emplace, hr]; rfl, hlist⟩
  induction t with
  | nil => exact ⟨_, rfl, rfl⟩
  | node left rank data right ihl ihr =>
    obtain ⟨hl, hr, hlt, hgt⟩ := sorted_node.mp h
    rw [emplaceWalk, toList_node, filter_append, filter_append]
    rcases lt_trichotomy (key new) (key data) with hx | hx | hx
    · obtain ⟨⟨left', up⟩, heq, hlist⟩ := ihl hl fun a ha => hnew a (by simp [ha])
      have hless : right.toList.filter (fun a => key a < key new) = [] :=
        filter_eq_nil_iff.mpr fun a ha => by simpa using (hx.trans (hgt a ha)).le
      have hmore : right.toList.filter (fun a => key new < key a) = right.toList :=
        filter_eq_self.mpr fun a ha => by simpa using hx.trans (hgt a ha)
      rw [compare_lt_iff_lt.mpr hx, filter_cons_of_neg (by simpa using hx.le), hless,
        filter_cons_of_pos (by simpa using hx), hmore, append_nil]
      dsimp only
      rw [heq]
      cases up with
      | true =>
        refine ⟨_, rfl, (toList_balanceLeft left' rank data right).trans ?_⟩
        rw [hlist, append_assoc, cons_append]
      | false =>
        refine ⟨_, rfl, ?_⟩
        show left'.toList ++ data :: right.toList = _
        rw [hlist, append_assoc, cons_append]
    · exact absurd hx.symm (hnew data (by simp))
    · obtain ⟨⟨right', up⟩, heq, hlist⟩ := ihr hr fun a ha => hnew a (by simp [ha])
      have hless : left.toList.filter (fun a => key a < key new) = left.toList :=
        filter_eq_self.mpr fun a ha => by simpa using (hlt a ha).trans hx
      have hmore : left.toList.filter (fun a => key new < key a) = [] :=
        filter_eq_nil_iff.mpr fun a ha => by simpa using ((hlt a ha).trans hx).le
      rw [compare_gt_iff_gt.mpr hx, filter_cons_of_pos (by simpa using hx), hless,
        filter_cons_of_neg (by simpa using hx.le), hmore, nil_append]
      dsimp only
      rw [heq]
      cases up with
      | true =>
        refine ⟨_, rfl, (toList_balanceRight left rank data right').trans ?_⟩
        rw [hlist, append_assoc, cons_append]
      | false =>
        refine ⟨_, rfl, ?_⟩
        show left.toList ++ data :: right'.toList = _
        rw [hlist, append_assoc, cons_append]

theorem toList_remove :
    (t.remove key x).toList = t.toList.filter fun a => key a ≠ x := by
  induction t with
  | nil => rfl
  | node left rank data right ihl ihr =>
    obtain ⟨hl, hr, hlt, hgt⟩ := sorted_node.mp h
    rw [remove, toList_node, filter_append]
    rcases lt_trichotomy x (key data) with hx | rfl | hx
    · have hright : right.toList.filter (fun a => key a ≠ x) = right.toList :=
        filter_eq_self.mpr fun a ha => by simpa using (hx.trans (hgt a ha)).ne'
      rw [compare_lt_iff_lt.mpr hx, filter_cons_of_pos (by simpa using hx.ne'), hright]
      exact congrArg (· ++ data :: right.toList) (ihl hl)
    · have hleft : left.toList.filter (fun a => key a ≠ key data) = left.toList :=
        filter_eq_self.mpr fun a ha => by simpa using (hlt a ha).ne
      have hright : right.toList.filter (fun a => key a ≠ key data) = right.toList :=
        filter_eq_self.mpr fun a ha => by simpa using (hgt a ha).ne'
      rw [compare_eq_iff_eq.mpr rfl, filter_cons_of_neg (by simp), hleft, hright]
      exact toList_removeNode rank left right
    · have hleft : left.toList.filter (fun a => key a ≠ x) = left.toList :=
        filter_eq_self.mpr fun a ha => by simpa using ((hlt a ha).trans hx).ne
      rw [compare_gt_iff_gt.mpr hx, filter_cons_of_pos (by simpa using hx.ne), hleft]
      exact congrArg (left.toList ++ data :: ·) (ihr hr)

theorem toList_modify (f : α → α) :
    (t.modify key x f).toList = t.toList.map fun a => if key a = x then f a else a := by
  induction t with
  | nil => rfl
  | node left rank data right ihl ihr =>
    obtain ⟨hl, hr, hlt, hgt⟩ := sorted_node.mp h
    have hother : ∀ s : Tree α, (∀ a ∈ s.toList, key a ≠ x) →
        (s.toList.map fun a => if key a = x then f a else a) = s.toList := fun s hs =>
      (map_congr_left fun a ha => if_neg (hs a ha)).trans (List.map_id' _)
    rw [modify, toList_node, map_append, map_cons]
    rcases lt_trichotomy x (key data) with hx | rfl | hx
    · rw [compare_lt_iff_lt.mpr hx, if_neg hx.ne',
        hother right fun a ha => (hx.trans (hgt a ha)).ne']
      exact congrArg (· ++ data :: right.toList) (ihl hl)
    · rw [compare_eq_iff_eq.mpr rfl, if_pos rfl, hother left fun a ha => (hlt a ha).ne,
        hother right fun a ha => (hgt a ha).ne']
      rfl
    · rw [compare_gt_iff_gt.mpr hx, if_neg hx.ne, hother left fun a ha =>
        ((hlt a ha).trans hx).ne]
      exact congrArg (left.toList ++ data :: ·) (ihr hr)

end

/-! ## The data before and after a key -/

theorem filter_append_of {l r : List α} {p : α → Bool} (hl : ∀ a ∈ l, p a = true)
    (hr : ∀ a ∈ r, p a = false) : (l ++ r).filter p = l := by
  have hright : r.filter p = [] := filter_eq_nil_iff.mpr fun a ha => by simp [hr a ha]
  rw [filter_append, filter_eq_self.mpr hl, hright, append_nil]

theorem find_less_append {l r : List α} (h : t.Sorted key) (ht : t.toList = l ++ r)
    (hl : ∀ a ∈ l, key a < x) (hr : ∀ a ∈ r, x ≤ key a) : t.find key .less x none = l.getLast? := by
  rw [find_less h, ht, filter_append_of (fun a ha => by simpa using hl a ha)
    (fun a ha => by simpa using hr a ha), Option.or_none]

theorem find_lessEqual_append {l r : List α} (h : t.Sorted key) (ht : t.toList = l ++ r)
    (hl : ∀ a ∈ l, key a ≤ x) (hr : ∀ a ∈ r, x < key a) :
    t.find key .lessEqual x none = l.getLast? := by
  rw [find_lessEqual h, ht, filter_append_of (fun a ha => by simpa using hl a ha)
    (fun a ha => by simpa using hr a ha), Option.or_none]

theorem emplace_append {new : α} {l r : List α} (h : t.Sorted key) (ht : t.toList = l ++ r)
    (hl : ∀ a ∈ l, key a < key new) (hr : ∀ a ∈ r, key new < key a) :
    ∃ t', t.emplace key new = some t' ∧ t'.toList = l ++ new :: r := by
  have hnew : ∀ a ∈ t.toList, key a ≠ key new := by
    intro a ha
    rw [ht, mem_append] at ha
    rcases ha with ha | ha
    · exact (hl a ha).ne
    · exact (hr a ha).ne'
  obtain ⟨t', heq, hlist⟩ := emplace_spec h hnew
  have hleft : l.filter (fun a => key new < key a) = [] :=
    filter_eq_nil_iff.mpr fun a ha => by simpa using (hl a ha).le
  refine ⟨t', heq, ?_⟩
  rw [hlist, ht, filter_append_of (fun a ha => by simpa using hl a ha)
    (fun a ha => by simpa using (hr a ha).le), filter_append, hleft, nil_append,
    filter_eq_self.mpr fun a ha => by simpa using hr a ha]

section Middle

variable {l r : List α} {m : α}

theorem Sorted.ne_of_append (h : t.Sorted key) (ht : t.toList = l ++ m :: r) :
    (∀ a ∈ l, key a ≠ key m) ∧ ∀ a ∈ r, key a ≠ key m := by
  unfold Sorted at h
  rw [ht, pairwise_append, pairwise_cons] at h
  exact ⟨fun a ha => (h.2.2 a ha m mem_cons_self).ne, fun a ha => (h.2.1.1 a ha).ne'⟩

theorem find_equal_append (h : t.Sorted key) (ht : t.toList = l ++ m :: r) :
    t.find key .equal (key m) none = some m := by
  have hnone : l.find? (fun a => key a = key m) = none :=
    find?_eq_none.mpr fun a ha => by simpa using (h.ne_of_append ht).1 a ha
  rw [find_equal h, ht, find?_append, hnone, find?_cons_of_pos (by simp)]
  rfl

theorem toList_remove_append (h : t.Sorted key) (ht : t.toList = l ++ m :: r) :
    (t.remove key (key m)).toList = l ++ r := by
  obtain ⟨hl, hr⟩ := h.ne_of_append ht
  rw [toList_remove h, ht, filter_append, filter_cons_of_neg (by simp),
    filter_eq_self.mpr fun a ha => by simpa using hl a ha,
    filter_eq_self.mpr fun a ha => by simpa using hr a ha]

theorem toList_modify_append (h : t.Sorted key) (ht : t.toList = l ++ m :: r) (f : α → α) :
    (t.modify key (key m) f).toList = l ++ f m :: r := by
  obtain ⟨hl, hr⟩ := h.ne_of_append ht
  have hother : ∀ s : List α, (∀ a ∈ s, key a ≠ key m) →
      (s.map fun a => if key a = key m then f a else a) = s := fun s hs =>
    (map_congr_left fun a ha => if_neg (hs a ha)).trans (List.map_id' _)
  rw [toList_modify h, ht, map_append, map_cons, if_pos rfl, hother l hl, hother r hr]

end Middle

theorem Sorted.modify (h : t.Sorted key) {f : α → α} (hf : ∀ a, key (f a) = key a) :
    (t.modify key x f).Sorted key := by
  unfold Sorted
  rw [toList_modify h, pairwise_map]
  refine List.Pairwise.imp (fun {a b} hab => ?_) h
  have hkey : ∀ a, key (if key a = x then f a else a) = key a := by
    intro a
    split
    · exact hf a
    · rfl
  rw [hkey, hkey]
  exact hab

end Sorted

end Tree

end Pmdk.Ravl
