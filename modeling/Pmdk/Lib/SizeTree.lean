import Mathlib.Algebra.Order.Ring.Nat
import Mathlib.Data.List.Perm.Basic

/-!
# Binary trees of sized entries

Entries with a natural number as their size are kept in a binary tree, the smaller ones to the left.
What a client needs to know of the shape is nothing: the tree is the collection `toList` of its
entries, of which `upperBound` finds one that is large enough.
-/

inductive SizeTree (α : Type*)
  | leaf
  | node (left : SizeTree α) (entry : α) (right : SizeTree α)

namespace SizeTree

open List

variable {α : Type*}

def toList : SizeTree α → List α
  | leaf => []
  | node left entry right => left.toList ++ entry :: right.toList

@[simp] theorem toList_leaf : (leaf : SizeTree α).toList = [] := rfl

@[simp] theorem toList_node (left : SizeTree α) (entry : α) (right : SizeTree α) :
    (node left entry right).toList = left.toList ++ entry :: right.toList := rfl

def add (size : α → Nat) (new : α) : SizeTree α → SizeTree α
  | leaf => node leaf new leaf
  | node left entry right =>
    if size new < size entry then node (left.add size new) entry right
    else node left entry (right.add size new)

theorem toList_add (size : α → Nat) (new : α) (t : SizeTree α) :
    (t.add size new).toList.Perm (new :: t.toList) := by
  induction t with
  | leaf => exact .refl _
  | node left entry right ihl ihr =>
    rw [add]
    split
    · exact ihl.append_right _
    · calc left.toList ++ entry :: (right.add size new).toList
        _ |>.Perm (left.toList ++ entry :: (new :: right.toList)) :=
            (ihr.cons entry).append_left _
        _ |>.Perm (left.toList ++ new :: (entry :: right.toList)) :=
            (List.Perm.swap new entry right.toList).append_left _
        _ |>.Perm (new :: (left.toList ++ entry :: right.toList)) := perm_middle

def takeMin (entry : α) (right : SizeTree α) : SizeTree α → α × SizeTree α
  | leaf => (entry, right)
  | node left entry' right' =>
    let (m, rest) := takeMin entry' right' left
    (m, node rest entry right)

theorem toList_takeMin (left : SizeTree α) (entry : α) (right : SizeTree α) :
    (takeMin entry right left).1 :: (takeMin entry right left).2.toList =
      left.toList ++ entry :: right.toList := by
  induction left generalizing entry right with
  | leaf => rfl
  | node left entry' right' ihl _ =>
    rw [takeMin, toList_node, toList_node, ← ihl entry' right']
    rfl

def join (left right : SizeTree α) : SizeTree α :=
  match left, right with
  | leaf, _ => right
  | _, leaf => left
  | _, node l e r => node left (takeMin e r l).1 (takeMin e r l).2

theorem toList_join (left right : SizeTree α) :
    (join left right).toList = left.toList ++ right.toList := by
  cases left with
  | leaf => rfl
  | node ll el lr =>
    cases right with
    | leaf => exact (append_nil _).symm
    | node l e r =>
      show (node (node ll el lr) (takeMin e r l).1 (takeMin e r l).2).toList = _
      rw [toList_node, toList_takeMin, toList_node l]

def del [DecidableEq α] (e : α) : SizeTree α → SizeTree α
  | leaf => leaf
  | node left entry right =>
    if entry = e then join left right
    else if e ∈ left.toList then node (left.del e) entry right
    else node left entry (right.del e)

variable {t : SizeTree α}

theorem toList_del [DecidableEq α] {e : α} (h : e ∈ t.toList) :
    t.toList.Perm (e :: (t.del e).toList) := by
  induction t with
  | leaf => cases h
  | node left entry right ihl ihr =>
    rw [del]
    split
    · rename_i heq
      rw [toList_join, heq]
      exact perm_middle
    · rename_i hne
      split
      · rename_i hleft
        exact (ihl hleft).append_right _
      · rename_i hleft
        have hright : e ∈ right.toList := by
          rw [toList_node, mem_append, mem_cons] at h
          rcases h with hl | heq | hr
          · exact absurd hl hleft
          · exact absurd heq.symm hne
          · exact hr
        calc left.toList ++ entry :: right.toList
          _ |>.Perm (left.toList ++ entry :: (e :: (right.del e).toList)) :=
              ((ihr hright).cons entry).append_left _
          _ |>.Perm (left.toList ++ e :: (entry :: (right.del e).toList)) :=
              (List.Perm.swap e entry _).append_left _
          _ |>.Perm (e :: (left.toList ++ entry :: (right.del e).toList)) := perm_middle

/-- Follow the sizes down to an entry of size `req`; if there is none, the last entry on the way
that was larger. -/
def upperBound (size : α → Nat) (req : Nat) : SizeTree α → Option α → Option α
  | leaf, lastLarger => lastLarger
  | node left entry right, lastLarger =>
    if size entry = req then some entry
    else if size entry < req then right.upperBound size req lastLarger
    else left.upperBound size req (some entry)

theorem upperBound_spec {size : α → Nat} {req : Nat} {last : Option α} {e : α}
    (h : t.upperBound size req last = some e) : (e ∈ t.toList ∧ req ≤ size e) ∨ last = some e := by
  induction t generalizing last with
  | leaf => exact .inr h
  | node left entry right ihl ihr =>
    rw [upperBound] at h
    rw [toList_node, mem_append, mem_cons]
    split at h
    · rename_i heq
      cases h
      exact .inl ⟨.inr (.inl rfl), Nat.le_of_eq heq.symm⟩
    · split at h
      · rcases ihr h with ⟨hmem, hle⟩ | hlast
        · exact .inl ⟨.inr (.inr hmem), hle⟩
        · exact .inr hlast
      · rename_i hlt
        rcases ihl h with ⟨hmem, hle⟩ | hlast
        · exact .inl ⟨.inl hmem, hle⟩
        · cases hlast
          exact .inl ⟨.inr (.inl rfl), Nat.le_of_not_lt hlt⟩

theorem mem_of_upperBound {size : α → Nat} {req : Nat} {e : α}
    (h : t.upperBound size req none = some e) : e ∈ t.toList ∧ req ≤ size e := by
  rcases upperBound_spec h with hmem | hnone
  · exact hmem
  · cases hnone

end SizeTree
