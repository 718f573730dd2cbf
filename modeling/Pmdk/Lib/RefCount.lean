import Mathlib.Algebra.Order.Ring.Nat
import Mathlib.Data.List.Count
import Mathlib.Data.List.Perm.Basic

/-!
# Reference counts

A heap of objects that refer to other objects, each with a count of the references to it. A cell
whose count is zero is dying: its references are `owned` by the one that lets it die. `Counted`
relates all the counts to the references that are left and to the owned ones. If objects only refer
to older ones, the positive counts are those of the objects that can be reached
(`Counted.pos_iff_reaches`).
-/

namespace RefCount

open List

structure Cell (α : Type) where
  refs : Nat
  freed : Bool
  obj : α

abbrev Heap (α : Type) := List (Cell α)

section Code

variable {α : Type} (a : Nat) (h : Heap α)

def refs : Nat := (h[a]?.map Cell.refs).getD 0

def obj : Option α := h[a]?.map Cell.obj

def cell : Option (Cell α) := h[a]?.filter fun c => !c.freed

def read : Option α := (cell a h).map Cell.obj

def alloc (x : α) : Nat × Heap α := (h.length, h ++ [⟨1, false, x⟩])

def inc : Option (Heap α) := do
  let c ← cell a h
  some (h.set a { c with refs := c.refs + 1 })

def dec : Option (Bool × Heap α) := do
  let c ← cell a h
  if c.refs = 0 then none else some (c.refs == 1, h.set a { c with refs := c.refs - 1 })

def free : Option (Heap α) := do
  let c ← cell a h
  some (h.set a { c with freed := true })

end Code

section Spec

variable {α : Type} (out : α → List Nat)

def Cell.outs (c : Cell α) : List Nat := if c.refs = 0 then [] else out c.obj

def edges (h : Heap α) : List Nat := h.flatMap (Cell.outs out)

def Counted (h : Heap α) (owned : List Nat) : Prop :=
  ∀ a, refs a h = (edges out h).count a + owned.count a

def Older (h : Heap α) : Prop := ∀ a x, obj a h = some x → ∀ b ∈ out x, b < a

inductive Reaches (h : Heap α) : Nat → Nat → Prop where
  | self (a : Nat) : Reaches h a a
  | step {a b c : Nat} {x : α} (hx : obj a h = some x) (hb : b ∈ out x) (h' : Reaches h b c) :
      Reaches h a c

def Extends (h h' : Heap α) : Prop := ∀ a x, obj a h = some x → obj a h' = some x

end Spec

variable {α : Type} {out : α → List Nat} {h h' : Heap α} {a b : Nat} {c c' : Cell α} {x : α}
  {owned : List Nat}

/-! ## Cells -/

theorem cell_eq_some_iff : cell a h = some c ↔ h[a]? = some c ∧ c.freed = false := by
  simp [cell, Option.filter_eq_some_iff]

theorem refs_of_getElem? (hc : h[a]? = some c) : refs a h = c.refs := by
  simp [refs, hc]

theorem obj_of_getElem? (hc : h[a]? = some c) : obj a h = some c.obj := by
  simp [obj, hc]

theorem exists_cell (hpos : 0 < refs a h) : ∃ c, h[a]? = some c ∧ 0 < c.refs := by
  cases hc : h[a]? with
  | none => simp [refs, hc] at hpos
  | some c => exact ⟨c, rfl, by rwa [refs_of_getElem? hc] at hpos⟩

theorem lt_length_of_refs (hpos : 0 < refs a h) : a < h.length := by
  obtain ⟨c, hc, -⟩ := exists_cell hpos
  exact (List.getElem?_eq_some_iff.mp hc).1

theorem refs_set (hc : h[a]? = some c) :
    refs b (h.set a c') = if b = a then c'.refs else refs b h := by
  have hlt := (List.getElem?_eq_some_iff.mp hc).1
  by_cases hb : b = a
  · subst hb
    simp [refs, hlt]
  · simp [refs, getElem?_set_ne (Ne.symm hb), hb]

theorem refs_alloc : refs b (alloc h x).2 = if b = h.length then 1 else refs b h := by
  rw [alloc, refs]
  by_cases hb : b = h.length
  · simp [hb]
  · rw [if_neg hb, refs]
    rcases Nat.lt_or_gt_of_ne hb with hlt | hgt
    · rw [getElem?_append_left hlt]
    · rw [getElem?_eq_none (by simp; omega), getElem?_eq_none (by omega)]

theorem count_edges_set (out : α → List Nat) (c' : Cell α) (b : Nat) (hc : h[a]? = some c) :
    (edges out (h.set a c')).count b + (c.outs out).count b =
      (edges out h).count b + (c'.outs out).count b := by
  induction h generalizing a with
  | nil => simp at hc
  | cons d h ih =>
    cases a with
    | zero =>
      obtain rfl : d = c := by simpa using hc
      simp only [set_cons_zero, edges, flatMap_cons, List.count_append]
      omega
    | succ a =>
      have hrest := ih (by simpa using hc)
      simp only [edges] at hrest
      simp only [set_cons_succ, edges, flatMap_cons, List.count_append]
      omega

/-! ## Objects stay -/

theorem Extends.refl (h : Heap α) : Extends h h := fun _ _ hx => hx

theorem Extends.trans {h'' : Heap α} (hh : Extends h h') (hh' : Extends h' h'') : Extends h h'' :=
  fun a x hx => hh' a x (hh a x hx)

theorem extends_set (hc : h[a]? = some c) (hobj : c'.obj = c.obj) : Extends h (h.set a c') := by
  have hlt := (List.getElem?_eq_some_iff.mp hc).1
  intro b x hx
  by_cases hb : b = a
  · subst hb
    rw [obj_of_getElem? hc, Option.some.injEq] at hx
    rw [← hx, ← hobj]
    exact obj_of_getElem? (getElem?_set_self hlt)
  · rw [obj, getElem?_set_ne (Ne.symm hb)]
    exact hx

theorem extends_alloc : Extends h (alloc h x).2 := by
  intro b y hy
  obtain ⟨c, hc, hcy⟩ := Option.map_eq_some_iff.mp hy
  have hlt := (List.getElem?_eq_some_iff.mp hc).1
  rw [alloc, obj, getElem?_append_left hlt]
  exact hy

theorem obj_alloc : obj (alloc h x).1 (alloc h x).2 = some x := by
  simp [alloc, obj]

theorem Reaches.mono (hr : Reaches out h a b) (hh : Extends h h') : Reaches out h' a b := by
  induction hr with
  | self a => exact .self a
  | step hx hb _ ih => exact .step (hh _ _ hx) hb ih

theorem Reaches.trans {d : Nat} (hr : Reaches out h a b) (hr' : Reaches out h b d) :
    Reaches out h a d := by
  induction hr with
  | self a => exact hr'
  | step hx hb _ ih => exact .step hx hb (ih hr')

theorem older_of_extends (ho : Older out h) (hh : Extends h h')
    (hlength : h'.length = h.length) : Older out h' := by
  intro a x hx b hb
  cases hy : obj a h with
  | some y =>
    rw [hh a y hy, Option.some.injEq] at hx
    exact ho a y hy b (hx ▸ hb)
  | none =>
    have hnone : h[a]? = none := Option.map_eq_none_iff.mp hy
    rw [List.getElem?_eq_none_iff, ← hlength, ← List.getElem?_eq_none_iff] at hnone
    simp [obj, hnone] at hx

/-! ## Counts -/

theorem Counted.perm {owned' : List Nat} (hc : Counted out h owned) (hp : owned.Perm owned') :
    Counted out h owned' := fun a => by
  rw [hc a, hp.count_eq]

theorem Counted.pos_of_mem (hc : Counted out h owned) (ha : a ∈ owned) : 0 < refs a h := by
  have hpos := count_pos_iff.mpr ha
  rw [hc a]
  omega

theorem mem_edges (hpos : 0 < refs a h) (hx : obj a h = some x) (hb : b ∈ out x) :
    b ∈ edges out h := by
  obtain ⟨c, hac, hcpos⟩ := exists_cell hpos
  rw [obj_of_getElem? hac, Option.some.injEq] at hx
  refine mem_flatMap.mpr ⟨c, mem_of_getElem? hac, ?_⟩
  rw [Cell.outs, if_neg hcpos.ne', hx]
  exact hb

theorem Counted.pos_of_out (hc : Counted out h owned) (hpos : 0 < refs a h)
    (hx : obj a h = some x) (hb : b ∈ out x) : 0 < refs b h := by
  have hcount := count_pos_iff.mpr (@mem_edges _ out _ _ _ _ hpos hx hb)
  rw [hc b]
  omega

theorem Counted.one_lt (hc : Counted out h owned) (hpos : 0 < refs a h) (hx : obj a h = some x)
    (hb : b ∈ out x) (hmem : b ∈ owned) : 1 < refs b h := by
  have hcount := count_pos_iff.mpr (@mem_edges _ out _ _ _ _ hpos hx hb)
  have hcount' := count_pos_iff.mpr hmem
  rw [hc b]
  omega

theorem Counted.pos_of_reaches (hc : Counted out h owned) (hpos : 0 < refs a h)
    (hr : Reaches out h a b) : 0 < refs b h := by
  induction hr with
  | self a => exact hpos
  | step hx hb _ ih => exact ih (hc.pos_of_out hpos hx hb)

/-- A new object takes over the references that it is made of. -/
theorem Counted.alloc (hc : Counted out h (out x ++ owned)) :
    Counted out (alloc h x).2 ((alloc h x).1 :: owned) := by
  intro b
  have hb := hc b
  rw [List.count_append] at hb
  have hedges : (edges out (RefCount.alloc h x).2).count b =
      (edges out h).count b + (out x).count b := by
    simp [RefCount.alloc, edges, Cell.outs]
  rw [hedges, refs_alloc, List.count_cons]
  by_cases hlength : b = h.length
  · have hzero : refs b h = 0 := by
      by_contra hne
      exact absurd (lt_length_of_refs (Nat.pos_of_ne_zero hne)) (by omega)
    rw [if_pos hlength, if_pos (by simp [RefCount.alloc, hlength])]
    omega
  · rw [if_neg hlength, if_neg (by simpa [RefCount.alloc] using Ne.symm hlength)]
    omega

theorem Counted.inc (hc : Counted out h owned) (hac : h[a]? = some c) (hpos : 0 < c.refs) :
    Counted out (h.set a { c with refs := c.refs + 1 }) (a :: owned) := by
  intro b
  have hb := hc b
  have hset := count_edges_set out { c with refs := c.refs + 1 } b hac
  simp only [Cell.outs, if_neg hpos.ne', if_neg c.refs.succ_ne_zero] at hset
  rw [refs_set hac]
  by_cases hba : b = a
  · subst hba
    rw [refs_of_getElem? hac] at hb
    rw [if_pos rfl, count_cons_self]
    dsimp only
    omega
  · rw [if_neg hba, count_cons_of_ne (Ne.symm hba)]
    omega

theorem Counted.dec (hc : Counted out h (a :: owned)) (hac : h[a]? = some c) (hpos : 1 < c.refs) :
    Counted out (h.set a { c with refs := c.refs - 1 }) owned := by
  intro b
  have hb := hc b
  have hset := count_edges_set out { c with refs := c.refs - 1 } b hac
  simp only [Cell.outs, if_neg (Nat.ne_of_gt (Nat.zero_lt_of_lt hpos)),
    if_neg (Nat.sub_ne_zero_of_lt hpos)] at hset
  rw [refs_set hac]
  by_cases hba : b = a
  · subst hba
    rw [refs_of_getElem? hac, count_cons_self] at hb
    rw [if_pos rfl]
    dsimp only
    omega
  · rw [count_cons_of_ne (Ne.symm hba)] at hb
    rw [if_neg hba]
    omega

/-- With its last reference an object lets its own references go. -/
theorem Counted.last (hc : Counted out h (a :: owned)) (hac : h[a]? = some c) (hone : c.refs = 1) :
    Counted out (h.set a { c with refs := c.refs - 1 }) (out c.obj ++ owned) := by
  intro b
  have hb := hc b
  have hzero : c.refs - 1 = 0 := by rw [hone]
  have hset := count_edges_set out { c with refs := c.refs - 1 } b hac
  simp only [Cell.outs, if_neg (Nat.ne_of_gt (hone ▸ Nat.one_pos)), if_pos hzero,
    List.count_nil] at hset
  rw [refs_set hac, List.count_append]
  by_cases hba : b = a
  · subst hba
    rw [refs_of_getElem? hac, count_cons_self] at hb
    rw [if_pos rfl]
    dsimp only
    omega
  · rw [count_cons_of_ne (Ne.symm hba)] at hb
    rw [if_neg hba]
    omega

theorem Counted.set (hc : Counted out h owned) (hac : h[a]? = some c) (hrefs : c'.refs = c.refs)
    (hobj : c'.obj = c.obj) : Counted out (h.set a c') owned := by
  intro b
  have hb := hc b
  have hset := count_edges_set out c' b hac
  rw [Cell.outs, Cell.outs, hrefs, hobj] at hset
  rw [refs_set hac]
  by_cases hba : b = a
  · subst hba
    rw [refs_of_getElem? hac] at hb
    rw [if_pos rfl, hrefs]
    omega
  · rw [if_neg hba]
    omega

/-! ## What can be reached -/

theorem Counted.exists_owned (hc : Counted out h owned) (ho : Older out h) (hpos : 0 < refs b h) :
    ∃ a ∈ owned, Reaches out h a b := by
  have hlt := lt_length_of_refs hpos
  obtain ⟨n, hn⟩ : ∃ n, n = h.length - b := ⟨_, rfl⟩
  induction n using Nat.strong_induction_on generalizing b with
  | _ n ih =>
    have hcount := hc b
    by_cases hmem : b ∈ owned
    · exact ⟨b, hmem, .self b⟩
    · rw [count_eq_zero.mpr hmem] at hcount
      have hedge : b ∈ edges out h := count_pos_iff.mp (by omega)
      obtain ⟨c, hcmem, hb⟩ := mem_flatMap.mp hedge
      obtain ⟨p, hp⟩ := mem_iff_getElem?.mp hcmem
      have hrefs : c.refs ≠ 0 := by
        intro hzero
        rw [Cell.outs, if_pos hzero] at hb
        cases hb
      rw [Cell.outs, if_neg hrefs] at hb
      have hpb := ho p c.obj (obj_of_getElem? hp) b hb
      have hplt := (List.getElem?_eq_some_iff.mp hp).1
      have hppos : 0 < refs p h := by
        rw [refs_of_getElem? hp]
        exact Nat.pos_of_ne_zero hrefs
      obtain ⟨a, ha, hr⟩ := ih (h.length - p) (by omega) hppos hplt rfl
      exact ⟨a, ha, hr.trans (.step (obj_of_getElem? hp) hb (.self b))⟩

theorem Counted.pos_iff_reaches (hc : Counted out h owned) (ho : Older out h) :
    0 < refs b h ↔ ∃ a ∈ owned, Reaches out h a b := by
  constructor
  · exact hc.exists_owned ho
  · rintro ⟨a, ha, hr⟩
    exact hc.pos_of_reaches (hc.pos_of_mem ha) hr

end RefCount
