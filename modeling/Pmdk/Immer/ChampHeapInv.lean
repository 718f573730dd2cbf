import Pmdk.Immer.ChampHeap

/-!
# Reference counts of hash tries

`Inv` says that the counts are those of the references, and that the values of an object that was
freed were destroyed, those of a collision node twice. The operations on counts keep it, with the
references that the caller owns.
-/

namespace Pmdk.Hamts

open RefCount Packed List

variable {T : Type} {m m' : Mem T} {a p : Nat} {x : Obj T} {owned dying : List Nat}

/-! ## The invariant -/

def Obj.deaths : Obj T → Nat
  | .inner _ => 1
  | .collision _ => 2
  | .array _ => 1

def Cell.deaths (c : Cell (Obj T)) (i : Nat) : Nat :=
  if c.freed = true ∧ i < c.obj.stored.length then c.obj.deaths else 0

/-- The references in `owned` are counted but not in the memory; the objects in `dying` have no
references left and are not freed yet. -/
structure Mem.Inv (m : Mem T) (owned dying : List Nat) : Prop where
  counted : Counted Obj.out m.heap owned
  older : Older Obj.out m.heap
  freed : ∀ a c, m.heap[a]? = some c → (c.freed = true ↔ c.refs = 0 ∧ a ∉ dying)
  dying : ∀ a ∈ dying, ∃ c, m.heap[a]? = some c ∧ c.refs = 0
  destroyed : ∀ a i, m.destroyed a i = (m.heap[a]?.map fun c => Cell.deaths c i).getD 0

structure Mem.Keeps (m m' : Mem T) : Prop where
  extends_heap : Extends m.heap m'.heap
  live : ∀ a, 0 < refs a m.heap → 0 < refs a m'.heap
  freed : ∀ (a : Nat) (c' : Cell (Obj T)), m'.heap[a]? = some c' → c'.freed = true →
    ∃ c : Cell (Obj T), m.heap[a]? = some c ∧ c.freed = true

structure Mem.Frames (m m' : Mem T) : Prop where
  extends_heap : Extends m.heap m'.heap
  length_eq : m'.heap.length = m.heap.length

namespace Mem

theorem Keeps.refl (m : Mem T) : m.Keeps m :=
  ⟨Extends.refl _, fun _ hpos => hpos, fun _ c hc hfreed => ⟨c, hc, hfreed⟩⟩

theorem Keeps.trans {m'' : Mem T} (h : m.Keeps m') (h' : m'.Keeps m'') : m.Keeps m'' := by
  refine ⟨h.extends_heap.trans h'.extends_heap, fun a hpos => h'.live a (h.live a hpos), ?_⟩
  intro a c'' hc'' hfreed''
  obtain ⟨c', hc', hfreed'⟩ := h'.freed a c'' hc'' hfreed''
  exact h.freed a c' hc' hfreed'

theorem Frames.refl (m : Mem T) : m.Frames m := ⟨Extends.refl _, rfl⟩

theorem Frames.trans {m'' : Mem T} (h : m.Frames m') (h' : m'.Frames m'') : m.Frames m'' :=
  ⟨h.extends_heap.trans h'.extends_heap, h'.length_eq.trans h.length_eq⟩

section

variable (h : m.Inv owned dying)

include h

theorem Inv.perm {owned' : List Nat} (hp : owned.Perm owned') :
    m.Inv owned' dying :=
  { h with counted := h.counted.perm hp }

/-! ## Access -/

theorem Inv.cell_eq (hpos : 0 < refs a m.heap) :
    ∃ c, m.heap[a]? = some c ∧ 0 < c.refs ∧ cell a m.heap = some c := by
  obtain ⟨c, hc, hcpos⟩ := exists_cell hpos
  refine ⟨c, hc, hcpos, cell_eq_some_iff.mpr ⟨hc, ?_⟩⟩
  by_contra hfreed
  have hzero := ((h.freed a c hc).mp (by simpa using hfreed)).1
  omega

theorem Inv.read_eq (hpos : 0 < refs a m.heap)
    (hx : obj a m.heap = some x) : read a m.heap = some x := by
  obtain ⟨c, hc, -, hcell⟩ := h.cell_eq hpos
  rw [RefCount.read, hcell, ← hx, obj_of_getElem? hc]
  rfl

theorem Inv.cell_dying (ha : a ∈ dying) (hx : obj a m.heap = some x) :
    ∃ c, m.heap[a]? = some c ∧ c.refs = 0 ∧ c.obj = x ∧ c.freed = false ∧
      cell a m.heap = some c := by
  obtain ⟨c, hc, hrefs⟩ := h.dying a ha
  have hcx : c.obj = x := by
    rw [obj_of_getElem? hc] at hx
    exact Option.some.inj hx
  have hfreed : c.freed = false := by
    rw [← Bool.not_eq_true, h.freed a c hc]
    exact fun hboth => hboth.2 ha
  exact ⟨c, hc, hrefs, hcx, hfreed, cell_eq_some_iff.mpr ⟨hc, hfreed⟩⟩

theorem Inv.read_dying (ha : a ∈ dying) (hx : obj a m.heap = some x) :
    read a m.heap = some x := by
  obtain ⟨c, -, -, hcx, -, hcell⟩ := h.cell_dying ha hx
  rw [RefCount.read, hcell, ← hcx]
  rfl

end

/-! ## Counting -/

theorem Inv.alloc (h : m.Inv (x.out ++ owned) dying) :
    (m.alloc x).2.Inv ((m.alloc x).1 :: owned) dying ∧ m.Keeps (m.alloc x).2 ∧
      obj (m.alloc x).1 (m.alloc x).2.heap = some x := by
  have hout : ∀ b ∈ x.out, b < m.heap.length := fun b hb =>
    lt_length_of_refs (h.counted.pos_of_mem (mem_append_left _ hb))
  have hget : ∀ {b : Nat} {c : Cell (Obj T)}, (m.heap ++ [⟨1, false, x⟩])[b]? = some c →
      m.heap[b]? = some c ∨ b = m.heap.length ∧ c = ⟨1, false, x⟩ := by
    intro b c hc
    rcases Nat.lt_trichotomy b m.heap.length with hlt | rfl | hgt
    · rw [getElem?_append_left hlt] at hc
      exact .inl hc
    · simp only [getElem?_concat_length, Option.some.injEq] at hc
      exact .inr ⟨rfl, hc.symm⟩
    · rw [getElem?_eq_none (by simp; omega)] at hc
      cases hc
  have hlive : ∀ b, 0 < refs b m.heap → refs b (RefCount.alloc m.heap x).2 = refs b m.heap := by
    intro b hpos
    rw [refs_alloc, if_neg (lt_length_of_refs hpos).ne]
  refine ⟨⟨h.counted.alloc, ?_, ?_, ?_, ?_⟩, ⟨extends_alloc, ?_, ?_⟩, obj_alloc⟩
  · intro b y hy c hc
    obtain ⟨d, hd, rfl⟩ := Option.map_eq_some_iff.mp hy
    rcases hget hd with hd | ⟨rfl, rfl⟩
    · exact h.older b d.obj (obj_of_getElem? hd) c hc
    · exact hout c hc
  · intro b c hc
    rcases hget hc with hc | ⟨rfl, rfl⟩
    · exact h.freed b c hc
    · simp
  · intro b hb
    obtain ⟨c, hc, hrefs⟩ := h.dying b hb
    have hlt := (List.getElem?_eq_some_iff.mp hc).1
    exact ⟨c, (getElem?_append_left hlt).trans hc, hrefs⟩
  · intro b i
    refine (h.destroyed b i).trans ?_
    change _ = ((RefCount.alloc m.heap x).2[b]?.map fun c => Cell.deaths c i).getD 0
    cases hc : (RefCount.alloc m.heap x).2[b]? with
    | none =>
      have hnone : m.heap[b]? = none := by
        rw [List.getElem?_eq_none_iff] at hc ⊢
        simp only [RefCount.alloc, length_append] at hc
        omega
      rw [hnone]
    | some c =>
      rcases hget hc with hc' | ⟨rfl, rfl⟩
      · rw [hc']
      · simp [Cell.deaths]
  · intro b hpos
    exact (hlive b hpos).symm ▸ hpos
  · intro b c hc hfreed
    rcases hget hc with hc | ⟨rfl, rfl⟩
    · exact ⟨c, hc, hfreed⟩
    · cases hfreed

theorem Inv.setRefs {owned' : List Nat} {c : Cell (Obj T)} {n : Nat} (h : m.Inv owned dying)
    (hc : m.heap[a]? = some c) (hpos : 0 < c.refs) (hn : 0 < n)
    (hcounted : Counted Obj.out (m.heap.set a { c with refs := n }) owned') :
    Inv { m with heap := m.heap.set a { c with refs := n } } owned' dying ∧
      m.Keeps { m with heap := m.heap.set a { c with refs := n } } ∧
      m.Frames { m with heap := m.heap.set a { c with refs := n } } := by
  have hlt := (List.getElem?_eq_some_iff.mp hc).1
  have hext : Extends m.heap (m.heap.set a { c with refs := n }) := extends_set hc rfl
  refine ⟨⟨hcounted, older_of_extends h.older hext length_set, ?_, ?_, ?_⟩, ⟨hext, ?_, ?_⟩,
    hext, length_set⟩
  · intro b d hd
    by_cases hb : b = a
    · subst hb
      rw [getElem?_set_self hlt, Option.some.injEq] at hd
      have hfreed := h.freed b c hc
      rw [← hd, hfreed]
      simp only
      rw [iff_false_intro hpos.ne', iff_false_intro hn.ne']
    · rw [getElem?_set_ne (Ne.symm hb)] at hd
      exact h.freed b d hd
  · intro b hb
    obtain ⟨d, hd, hrefs⟩ := h.dying b hb
    have hne : b ≠ a := by
      rintro rfl
      rw [hc, Option.some.injEq] at hd
      exact hpos.ne' (hd ▸ hrefs)
    exact ⟨d, (getElem?_set_ne (Ne.symm hne)).trans hd, hrefs⟩
  · intro b i
    refine (h.destroyed b i).trans ?_
    by_cases hb : b = a
    · subst hb
      rw [getElem?_set_self hlt, hc]
      rfl
    · rw [getElem?_set_ne (Ne.symm hb)]
  · intro b hb
    rw [refs_set hc]
    split
    · exact hn
    · exact hb
  · intro b d hd hfreed
    by_cases hb : b = a
    · subst hb
      rw [getElem?_set_self hlt, Option.some.injEq] at hd
      exact ⟨c, hc, by rw [← hd] at hfreed; exact hfreed⟩
    · rw [getElem?_set_ne (Ne.symm hb)] at hd
      exact ⟨d, hd, hfreed⟩

theorem Inv.inc (h : m.Inv owned dying) (hpos : 0 < refs a m.heap) :
    ∃ m', m.inc a = some m' ∧ m'.Inv (a :: owned) dying ∧ m.Keeps m' := by
  obtain ⟨c, hc, hcpos, hcell⟩ := h.cell_eq hpos
  obtain ⟨h', hkeeps, -⟩ := h.setRefs hc hcpos c.refs.succ_pos (h.counted.inc hc hcpos)
  refine ⟨_, ?_, h', hkeeps⟩
  rw [Mem.inc, RefCount.inc, hcell]
  rfl

theorem Inv.dec (h : m.Inv (a :: owned) dying) (hmany : 1 < refs a m.heap) :
    ∃ m', m.dec a = some (false, m') ∧ m'.Inv owned dying ∧ m.Keeps m' ∧ m.Frames m' := by
  obtain ⟨c, hc, hcpos, hcell⟩ := h.cell_eq (Nat.zero_lt_of_lt hmany)
  rw [refs_of_getElem? hc] at hmany
  refine ⟨_, ?_, h.setRefs hc hcpos (Nat.sub_pos_of_lt hmany) (h.counted.dec hc hmany)⟩
  have hne : (c.refs == 1) = false := by simpa using hmany.ne'
  rw [Mem.dec, RefCount.dec, hcell, Option.bind_eq_bind, Option.bind_some, if_neg hcpos.ne', hne]
  rfl

theorem Inv.decUnsafe (h : m.Inv (a :: owned) dying) (hmany : 1 < refs a m.heap) :
    ∃ m', m.decUnsafe a = some m' ∧ m'.Inv owned dying ∧ m.Keeps m' := by
  obtain ⟨m', hdec, h', hkeeps, -⟩ := h.dec hmany
  refine ⟨m', ?_, h', hkeeps⟩
  rw [Mem.decUnsafe, hdec]
  rfl

theorem Inv.last (h : m.Inv (a :: owned) dying) (hone : refs a m.heap = 1)
    (hx : obj a m.heap = some x) :
    ∃ m', m.dec a = some (true, m') ∧ m'.Inv (x.out ++ owned) (a :: dying) ∧ a ∉ dying ∧
      m.Frames m' := by
  obtain ⟨c, hc, hcpos, hcell⟩ := h.cell_eq (hone ▸ Nat.one_pos)
  have ha : a ∉ dying := by
    intro ha
    obtain ⟨d, hd, hrefs⟩ := h.dying a ha
    rw [hc, Option.some.injEq] at hd
    exact hcpos.ne' (hd ▸ hrefs)
  have hlt := (List.getElem?_eq_some_iff.mp hc).1
  rw [obj_of_getElem? hc, Option.some.injEq] at hx
  rw [refs_of_getElem? hc] at hone
  have hext : Extends m.heap (m.heap.set a { c with refs := c.refs - 1 }) := extends_set hc rfl
  refine ⟨{ m with heap := m.heap.set a { c with refs := c.refs - 1 } }, ?_,
    ⟨hx ▸ h.counted.last hc hone, older_of_extends h.older hext length_set, ?_, ?_, ?_⟩, ha,
    hext, length_set⟩
  · rw [Mem.dec, RefCount.dec, hcell, Option.bind_eq_bind, Option.bind_some, if_neg hcpos.ne']
    simp [hone]
  · intro b d hd
    by_cases hb : b = a
    · subst hb
      rw [getElem?_set_self hlt, Option.some.injEq] at hd
      have hfreed := h.freed b c hc
      rw [← hd, hfreed]
      simp [hone]
    · rw [getElem?_set_ne (Ne.symm hb)] at hd
      rw [h.freed b d hd, mem_cons, not_or]
      exact ⟨fun hboth => ⟨hboth.1, hb, hboth.2⟩, fun hboth => ⟨hboth.1, hboth.2.2⟩⟩
  · intro b hb
    by_cases hba : b = a
    · subst hba
      exact ⟨_, getElem?_set_self hlt, by simp [hone]⟩
    · obtain ⟨d, hd, hrefs⟩ := h.dying b ((mem_cons.mp hb).resolve_left hba)
      exact ⟨d, (getElem?_set_ne (Ne.symm hba)).trans hd, hrefs⟩
  · intro b i
    refine (h.destroyed b i).trans ?_
    by_cases hb : b = a
    · subst hb
      rw [getElem?_set_self hlt, hc]
      rfl
    · rw [getElem?_set_ne (Ne.symm hb)]

theorem Inv.incNodes (h : m.Inv owned dying) {l : List Nat} (hpos : ∀ b ∈ l, 0 < refs b m.heap) :
    ∃ m', m.incNodes l = some m' ∧ m'.Inv (l ++ owned) dying ∧ m.Keeps m' := by
  induction l generalizing m owned with
  | nil => exact ⟨m, rfl, h, .refl m⟩
  | cons b l ih =>
    obtain ⟨m₁, hinc, h₁, hkeeps₁⟩ := h.inc (hpos b mem_cons_self)
    obtain ⟨m₂, hrest, h₂, hkeeps₂⟩ :=
      ih h₁ fun c hc => hkeeps₁.live c (hpos c (mem_cons_of_mem b hc))
    refine ⟨m₂, ?_, h₂.perm perm_middle, hkeeps₁.trans hkeeps₂⟩
    rw [Mem.incNodes, foldlM_cons, hinc]
    exact hrest

/-! ## Freeing -/

theorem Inv.deallocate {destroyed : Nat → Nat → Nat} (h : m.Inv owned (a :: dying))
    (ha : a ∉ dying) (hx : obj a m.heap = some x)
    (hdestroyed : ∀ b i, destroyed b i =
      if b = a ∧ i < x.stored.length then x.deaths else m.destroyed b i) :
    ∃ m', deallocate { m with destroyed := destroyed } a = some m' ∧ m'.Inv owned dying ∧
      m.Frames m' := by
  obtain ⟨c, hc, hrefs, hcx, hfreed, hcell⟩ := h.cell_dying mem_cons_self hx
  have hlt := (List.getElem?_eq_some_iff.mp hc).1
  have hext : Extends m.heap (m.heap.set a { c with freed := true }) := extends_set hc rfl
  refine ⟨⟨m.heap.set a { c with freed := true }, destroyed⟩, ?_,
    ⟨h.counted.set hc rfl rfl, older_of_extends h.older hext length_set, ?_, ?_, ?_⟩, hext,
    length_set⟩
  · rw [Mem.deallocate, RefCount.free, hcell]
    rfl
  · intro b d hd
    by_cases hb : b = a
    · subst hb
      rw [getElem?_set_self hlt, Option.some.injEq] at hd
      rw [← hd]
      simp [hrefs, ha]
    · rw [getElem?_set_ne (Ne.symm hb)] at hd
      rw [h.freed b d hd, mem_cons, or_iff_right hb]
  · intro b hb
    have hne : b ≠ a := fun heq => ha (heq ▸ hb)
    obtain ⟨d, hd, hdrefs⟩ := h.dying b (mem_cons_of_mem a hb)
    exact ⟨d, (getElem?_set_ne (Ne.symm hne)).trans hd, hdrefs⟩
  · intro b i
    refine (hdestroyed b i).trans ?_
    rw [h.destroyed b i]
    by_cases hb : b = a
    · subst hb
      rw [getElem?_set_self hlt, hc]
      simp [Cell.deaths, hcx, hfreed]
    · rw [getElem?_set_ne (Ne.symm hb), if_neg fun hboth => hb hboth.1]

theorem Inv.destroyed_dying (h : m.Inv owned dying) (ha : a ∈ dying) (hx : obj a m.heap = some x)
    (i : Nat) : m.destroyed a i = 0 := by
  obtain ⟨c, hc, -, -, hfreed, -⟩ := h.cell_dying ha hx
  rw [h.destroyed a i, hc]
  simp [Cell.deaths, hfreed]

theorem Inv.destroyN (h : m.Inv owned dying) (ha : a ∈ dying) (hx : obj a m.heap = some x)
    (destroyed : Nat → Nat → Nat) :
    destroyN { m with destroyed := destroyed } a x.stored.length =
      some { m with destroyed := fun b i =>
        if b = a ∧ i < x.stored.length then destroyed b i + 1 else destroyed b i } := by
  rw [Mem.destroyN, h.read_dying ha hx, Option.bind_eq_bind, Option.bind_some, if_pos le_rfl]

theorem Inv.deallocateValues {values : List T} (h : m.Inv owned (a :: dying)) (ha : a ∉ dying)
    (hx : obj a m.heap = some (.array values)) :
    ∃ m', m.deallocateValues a values.length = some m' ∧ m'.Inv owned dying ∧
      m.Frames m' := by
  have hdestroyN := h.destroyN mem_cons_self hx m.destroyed
  rw [Mem.deallocateValues, show m.destroyN a values.length = _ from hdestroyN,
    Option.bind_eq_bind, Option.bind_some]
  refine h.deallocate ha hx fun b i => ?_
  split
  · rename_i hboth
    rw [hboth.1, h.destroyed_dying mem_cons_self hx]
    rfl
  · rfl

theorem Inv.deleteCollision {values : List T} (h : m.Inv owned (a :: dying)) (ha : a ∉ dying)
    (hx : obj a m.heap = some (.collision values)) :
    ∃ m', m.deleteCollision a = some m' ∧ m'.Inv owned dying ∧ m.Frames m' := by
  have hdestroyN := h.destroyN mem_cons_self hx
  have hcollisions : m.collisions a = some values := by
    rw [collisions, h.read_dying mem_cons_self hx]
    rfl
  rw [Mem.deleteCollision, hcollisions, Option.bind_eq_bind, Option.bind_some]
  dsimp only
  rw [show m.destroyN a values.length = _ from hdestroyN m.destroyed, Option.bind_eq_bind,
    Option.bind_some, deallocateCollision, show Mem.destroyN _ a values.length = _ from hdestroyN _,
    Option.bind_eq_bind, Option.bind_some]
  refine h.deallocate ha hx fun b i => ?_
  split
  · rename_i hboth
    rw [hboth.1, h.destroyed_dying mem_cons_self hx]
    rfl
  · rfl

theorem Inv.header_dying {node : Header} (h : m.Inv owned dying) (ha : a ∈ dying)
    (hx : obj a m.heap = some (.inner node)) : m.header a = some node := by
  rw [header, h.read_dying ha hx]
  rfl

theorem Inv.deallocateInner {node : Header} (h : m.Inv owned (a :: dying)) (ha : a ∉ dying)
    (hx : obj a m.heap = some (.inner node)) :
    ∃ m', m.deallocateInner a = some m' ∧ m'.Inv owned dying ∧ m.Frames m' :=
  h.deallocate ha hx fun b i => by simp [Obj.stored]

/-- The array of the values goes with the last node that shares it. -/
theorem Inv.deleteInner {node : Header} (h : m.Inv (node.values.toList ++ owned) (a :: dying))
    (ha : a ∉ dying) (hx : obj a m.heap = some (.inner node))
    (hvalues : ∀ p, node.values = some p → ∃ values, obj p m.heap = some (.array values) ∧
      values.length = popcount node.datamap) :
    ∃ m', m.deleteInner a = some m' ∧ m'.Inv owned dying ∧ m.Frames m' := by
  rw [Mem.deleteInner, h.header_dying mem_cons_self hx, Option.bind_eq_bind, Option.bind_some]
  cases hp : node.values with
  | none =>
    rw [hp] at h
    exact h.deallocateInner ha hx
  | some p =>
    obtain ⟨values, hpx, hlength⟩ := hvalues p hp
    rw [hp] at h
    have hpos := h.counted.pos_of_mem (a := p) (by simp)
    by_cases hmany : 1 < refs p m.heap
    · obtain ⟨m₁, hdec, h₁, -, hframes₁⟩ := Inv.dec h hmany
      obtain ⟨m₂, hfree, h₂, hframes₂⟩ := h₁.deallocateInner ha (hframes₁.extends_heap a _ hx)
      refine ⟨m₂, ?_, h₂, hframes₁.trans hframes₂⟩
      simp only [hdec, Option.bind_eq_bind, Option.bind_some]
      exact hfree
    · obtain ⟨m₁, hdec, h₁, hp₁, hframes₁⟩ := Inv.last h (by omega) hpx
      obtain ⟨m₂, hdelete, h₂, hframes₂⟩ :=
        h₁.deallocateValues hp₁ (hframes₁.extends_heap p _ hpx)
      have hframes := hframes₁.trans hframes₂
      obtain ⟨m₃, hfree, h₃, hframes₃⟩ := h₂.deallocateInner ha (hframes.extends_heap a _ hx)
      refine ⟨m₃, ?_, h₃, hframes.trans hframes₃⟩
      simp only [hdec, Option.bind_eq_bind, Option.bind_some, if_true, deleteValues, ← hlength,
        hdelete]
      exact hfree

end Mem

end Pmdk.Hamts
