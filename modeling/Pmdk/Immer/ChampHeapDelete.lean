import Pmdk.Immer.ChampHeapInv
import Pmdk.Immer.ChampEquals

/-!
# Deleting hash tries

An address denotes a node of the trie if the objects in the memory have its fields. Where the last
reference to a node goes, `delete_deep` frees the node and what only the node refers to.
-/

namespace Pmdk.Hamts

open RefCount Packed

variable {T : Type} {m m' : Mem T} {a c d : Nat} {n : Node T} {owned dying : List Nat}

/-! ## What an address denotes -/

structure Inner.Alike {N N' : Type} (r : N → N' → Prop) (x : Inner N T)
    (y : Inner N' T) : Prop where
  nodemap_eq : x.nodemap = y.nodemap
  datamap_eq : x.datamap = y.datamap
  values_eq : x.values = y.values
  children : List.Forall₂ r x.children y.children

namespace Mem

def Contents (m : Mem T) (p : Option Nat) (values : List T) : Prop :=
  match p with
  | none => values = []
  | some p => obj p m.heap = some (.array values)

def Views (m : Mem T) (a : Nat) (node : Inner Nat T) : Prop :=
  ∃ p, obj a m.heap = some (.inner ⟨node.nodemap, node.datamap, p, node.children⟩) ∧
    m.Contents p node.values

def Denotes (m : Mem T) : Nat → Nat → Node T → Prop
  | 0, a, .collision values => obj a m.heap = some (.collision values)
  | d + 1, a, .inner node => ∃ node', m.Views a node' ∧ node'.Alike (Denotes m d) node
  | _, _, _ => False

theorem Contents.mono {p : Option Nat} {values : List T} (h : m.Contents p values)
    (hext : Extends m.heap m'.heap) : m'.Contents p values := by
  cases p with
  | none => exact h
  | some p => exact hext p _ h

theorem Views.mono {node : Inner Nat T} (h : m.Views a node) (hext : Extends m.heap m'.heap) :
    m'.Views a node := by
  obtain ⟨p, hx, hp⟩ := h
  exact ⟨p, hext a _ hx, hp.mono hext⟩

theorem Denotes.mono (h : m.Denotes d a n) (hext : Extends m.heap m'.heap) : m'.Denotes d a n := by
  induction d generalizing a n with
  | zero =>
    cases n with
    | inner node => exact h
    | collision values => exact hext a _ h
  | succ d ih =>
    cases n with
    | collision values => exact h
    | inner node =>
      obtain ⟨node', hview, halike⟩ := h
      exact ⟨node', hview.mono hext, { halike with
        children := halike.children.imp fun b n hb => ih hb }⟩

theorem Views.unique {node node' : Inner Nat T} (h : m.Views a node) (h' : m.Views a node') :
    node = node' := by
  obtain ⟨p, hx, hp⟩ := h
  obtain ⟨p', hx', hp'⟩ := h'
  obtain ⟨nodemap, datamap, values, children⟩ := node
  obtain ⟨nodemap', datamap', values', children'⟩ := node'
  cases hx.symm.trans hx'
  cases p with
  | none => rw [show values = [] from hp, show values' = [] from hp']
  | some p =>
    cases (show obj p m.heap = _ from hp).symm.trans hp'
    rfl

theorem Denotes.unique {n' : Node T} (h : m.Denotes d a n) (h' : m.Denotes d a n') : n = n' := by
  induction d generalizing a n n' with
  | zero =>
    cases n <;> cases n'
    case collision.collision => cases (show obj a m.heap = _ from h).symm.trans h'; rfl
    all_goals first | exact h.elim | exact h'.elim
  | succ d ih =>
    cases n <;> cases n'
    case inner.inner x y =>
      obtain ⟨node, hv, halike⟩ := h
      obtain ⟨node', hv', halike'⟩ := h'
      cases hv.unique hv'
      obtain ⟨nodemap, datamap, values, children⟩ := x
      obtain ⟨nodemap', datamap', values', children'⟩ := y
      obtain ⟨rfl, rfl, rfl, hc⟩ := halike
      obtain ⟨rfl, rfl, rfl, hc'⟩ := halike'
      have hunique : Relator.RightUnique (m.Denotes d) := fun _ _ _ hb hb' => ih hb hb'
      rw [show children = children' from List.right_unique_forall₂' hunique hc hc']
    all_goals first | exact h.elim | exact h'.elim

theorem forall₂_mono {l : List Nat} {ns : List (Node T)} (h : List.Forall₂ (m.Denotes d) l ns)
    (hext : Extends m.heap m'.heap) : List.Forall₂ (m'.Denotes d) l ns :=
  h.imp fun _ _ hb => hb.mono hext

end Mem

/-! ## Deleting -/

def Sized : Nat → Node T → Prop
  | 0, _ => True
  | d + 1, .inner node =>
    node.values.length = popcount node.datamap ∧ ∀ c ∈ node.children, Sized d c
  | _, _ => True

theorem WF.sized {K V : Type} {B shift : Nat} {hashOf : K → Hash} {n : Node (K × V)}
    (h : WF B hashOf d shift n) : Sized d n := by
  induction d generalizing shift n with
  | zero => trivial
  | succ d ih =>
    cases n with
    | collision values => trivial
    | inner node =>
      refine ⟨h.shaped.values_length, fun c hc => ?_⟩
      obtain ⟨i, hi⟩ := (mem_iff_at h.shaped.children_length).mp hc
      exact ih (h.child hi)

namespace Mem

/-- `dec`, and `delete_deep` with the last reference. -/
def release (d : Nat) (m : Mem T) (c : Nat) : Option (Mem T) := do
  let r ← m.dec c
  if r.1 then deleteDeep d c r.2 else some r.2

def Frees (delete : Nat → Mem T → Option (Mem T)) (d : Nat) : Prop :=
  ∀ (m : Mem T) (p : Nat) (n : Node T) (x : Obj T) (owned dying : List Nat),
    m.Inv (x.out ++ owned) (p :: dying) → p ∉ dying → obj p m.heap = some x → m.Denotes d p n →
    Sized d n → ∃ m', delete p m = some m' ∧ m'.Inv owned dying ∧ m.Frames m'

theorem Denotes.exists_obj (h : m.Denotes d a n) : ∃ x, obj a m.heap = some x := by
  cases d with
  | zero =>
    cases n with
    | inner node => exact h.elim
    | collision values => exact ⟨_, h⟩
  | succ d =>
    cases n with
    | collision values => exact h.elim
    | inner node =>
      obtain ⟨node', ⟨p, hx, -⟩, -⟩ := h
      exact ⟨_, hx⟩

theorem Inv.release (hd : Frees (deleteDeep (T := T) d) d) (h : m.Inv (c :: owned) dying)
    (hc : m.Denotes d c n) (hn : Sized d n) :
    ∃ m', m.release d c = some m' ∧ m'.Inv owned dying ∧ m.Frames m' := by
  have hpos := h.counted.pos_of_mem List.mem_cons_self
  rw [Mem.release]
  by_cases hmany : 1 < refs c m.heap
  · obtain ⟨m', hdec, h', -, hframes⟩ := h.dec hmany
    refine ⟨m', ?_, h', hframes⟩
    rw [hdec]
    rfl
  · obtain ⟨x, hx⟩ := hc.exists_obj
    obtain ⟨m₁, hdec, h₁, hc₁, hframes₁⟩ := h.last (by omega) hx
    obtain ⟨m₂, hdelete, h₂, hframes₂⟩ := hd m₁ c n x owned dying h₁ hc₁
      (hframes₁.extends_heap c x hx) (hc.mono hframes₁.extends_heap) hn
    refine ⟨m₂, ?_, h₂, hframes₁.trans hframes₂⟩
    rw [hdec]
    exact hdelete

theorem Inv.releaseAll (hd : Frees (deleteDeep (T := T) d) d) {l : List Nat} {ns : List (Node T)}
    (h : m.Inv (l ++ owned) dying) (hl : List.Forall₂ (m.Denotes d) l ns)
    (hns : ∀ n ∈ ns, Sized d n) :
    ∃ m', l.foldlM (Mem.release d) m = some m' ∧ m'.Inv owned dying ∧
      m.Frames m' := by
  induction l generalizing m ns with
  | nil => exact ⟨m, rfl, h, .refl m⟩
  | cons c l ih =>
    cases hl with
    | cons hc hl =>
      rename_i n ns
      obtain ⟨m₁, hrelease, h₁, hframes₁⟩ := Inv.release hd h hc (hns n List.mem_cons_self)
      obtain ⟨m₂, hrest, h₂, hframes₂⟩ := ih h₁ (forall₂_mono hl hframes₁.extends_heap)
        fun n' hn' => hns n' (List.mem_cons_of_mem n hn')
      refine ⟨m₂, ?_, h₂, hframes₁.trans hframes₂⟩
      rw [List.foldlM_cons, hrelease]
      exact hrest

theorem frees_deleteDeep (d : Nat) : Frees (deleteDeep (T := T) d) d := by
  induction d with
  | zero =>
    intro m p n x owned dying h hp hx hn _
    cases n with
    | inner node => exact hn.elim
    | collision values =>
      have hx' : obj p m.heap = some (.collision values) := hn
      rw [hx, Option.some.injEq] at hx'
      subst hx'
      exact h.deleteCollision hp hx
  | succ d ih =>
    intro m p n x owned dying h hp hx hn hsized
    cases n with
    | collision values => exact hn.elim
    | inner node =>
      obtain ⟨node', ⟨q, hview, hcontents⟩, halike⟩ := hn
      rw [hx, Option.some.injEq] at hview
      subst hview
      obtain ⟨hlength, hchildren⟩ := hsized
      rw [Obj.out, List.append_assoc] at h
      obtain ⟨m₁, hrelease, h₁, hframes₁⟩ := Inv.releaseAll ih h halike.children hchildren
      have hvalues : ∀ r, q = some r → ∃ values, obj r m₁.heap = some (.array values) ∧
          values.length = popcount node'.datamap := by
        rintro r rfl
        refine ⟨node'.values, hframes₁.extends_heap r _ hcontents, ?_⟩
        rw [halike.values_eq, halike.datamap_eq]
        exact hlength
      obtain ⟨m₂, hdelete, h₂, hframes₂⟩ :=
        h₁.deleteInner hp (hframes₁.extends_heap p _ hx) hvalues
      refine ⟨m₂, ?_, h₂, hframes₁.trans hframes₂⟩
      rw [deleteDeep, h.header_dying List.mem_cons_self hx, Option.bind_eq_bind, Option.bind_some]
      change (node'.children.foldlM (Mem.release d) m).bind _ = _
      rw [hrelease]
      exact hdelete

end Mem

end Pmdk.Hamts
