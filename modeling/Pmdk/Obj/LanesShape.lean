import Pmdk.Obj.Lanes

/-!
# The chains of the logs

What matters to the contexts of the lanes is where the ulogs are, how they are chained and how
large they are. Most steps leave all this as it is; a redo log of the allocator that is processed
adds a ulog at the end of a chain or frees the last one.
-/

namespace Pmdk.Lanes

open Undo (Loc Ctx Job Write laneUndoSize)
open List
open Function

def shape (u : Ulog) : Nat × Nat := (u.next, u.capacity)

def Pool.heap (p : Pool) (o : Nat) : Option (Nat × Nat) := (p.blocks o).map shape

def Pool.head (p : Pool) (k : Log) : Nat := (p.ulog k).next

structure SameShape (p q : Pool) : Prop where
  head : q.head = p.head
  heap : q.heap = p.heap
  undo : ∀ i, (q.ulog ⟨i, .undo⟩).capacity = (p.ulog ⟨i, .undo⟩).capacity
  size : q.size = p.size
  nlanes : q.nlanes = p.nlanes

/-- The log `k` is chained along `l k`. -/
structure Chains (p : Pool) (l : Log → List (Nat × Nat × Nat)) : Prop where
  forest : Linked.Forest Prod.fst p.heap p.head l
  block : ∀ {o x}, p.heap o = some x → o < p.size ∧ 64 ≤ x.2 ∧ x.2 % 64 = 0
  undo : ∀ i, (p.ulog ⟨i, .undo⟩).capacity = laneUndoSize
  internal : ∀ i, l ⟨i, .internal⟩ = []

variable {l₀ m : List (Nat × Nat × Nat)} {ws : List UInt64} {u : Ulog}

section Same

variable {p q r : Pool} {l : Log → List (Nat × Nat × Nat)} {k : Log}

theorem SameShape.refl (p : Pool) : SameShape p p := ⟨rfl, rfl, fun _ => rfl, rfl, rfl⟩

theorem SameShape.trans (h : SameShape p q) (h' : SameShape q r) : SameShape p r :=
  ⟨h'.head.trans h.head, h'.heap.trans h.heap, fun i => (h'.undo i).trans (h.undo i),
    h'.size.trans h.size, h'.nlanes.trans h.nlanes⟩

theorem Chains.congr (h : Chains p l) (hpq : SameShape p q) : Chains q l where
  forest := by
    rw [hpq.heap, hpq.head]
    exact h.forest
  block := by
    rw [hpq.heap, hpq.size]
    exact h.block
  undo i := (hpq.undo i).trans (h.undo i)
  internal := h.internal

theorem SameShape.of_base {redo : Log → Redo} (hnext : u.next = (p.ulog k).next)
    (hcap : k.slot = .undo → u.capacity = (p.ulog k).capacity) :
    SameShape p { p with ulog := update p.ulog k u, redo } := by
  refine ⟨?_, rfl, fun i => ?_, rfl, rfl⟩
  · funext k'
    show (update p.ulog k u k').next = (p.ulog k').next
    rw [update_apply]
    split
    · rename_i heq
      rw [heq]
      exact hnext
    · rfl
  · show (update p.ulog k u ⟨i, .undo⟩).capacity = _
    rw [update_apply]
    split
    · rename_i heq
      rw [heq]
      exact hcap (heq ▸ rfl)
    · rfl

theorem SameShape.of_blocks {blocks : Nat → Option Ulog}
    (h : ∀ o, (blocks o).map shape = (p.blocks o).map shape) : SameShape p { p with blocks } :=
  ⟨rfl, funext h, fun _ => rfl, rfl, rfl⟩

theorem heap_update_self {blocks : Nat → Option Ulog} {o : Nat} {v : Ulog}
    (hu : blocks o = some u) (hv : shape v = shape u) (o' : Nat) :
    (update blocks o (some v) o').map shape = (blocks o').map shape := by
  rw [update_apply]
  split
  · rename_i heq
    rw [heq, hu, Option.map_some, Option.map_some, hv]
  · rfl

theorem SameShape.of_set {loc : Loc} {v : Ulog} (hu : (p.view k).get loc = some u)
    (hv : shape v = shape u) : SameShape p (p.put k ((p.view k).set v loc)) := by
  obtain ⟨hnext, hcap⟩ := Prod.mk.inj hv
  cases loc with
  | base =>
    cases hu
    exact SameShape.of_base hnext fun _ => hcap
  | ext o =>
    have hblocks := SameShape.of_blocks (p := p) (heap_update_self hu hv)
    refine hblocks.trans (SameShape.of_base (p := { p with blocks := _ }) rfl fun _ => rfl)

/-! ## The vector of a context -/

def capacities (l : List (Nat × Nat × Nat)) : Nat := (l.map fun x => x.2.2).sum

theorem Chains.view_chain (h : Chains p l) (k : Log) :
    ∃ m, (p.view k).chain = some m ∧ m.map (Prod.map id shape) = l k := by
  obtain ⟨m, hm, heq⟩ := (h.forest.chain k).of_map Ulog.next (f := shape) fun _ => rfl
  refine ⟨m, hm.walk_eq (Nat.lt_succ_of_le (hm.length_le fun x hx => ?_)), heq⟩
  have hx' : p.heap x.1 = some (shape x.2) := by
    rw [Pool.heap, (hm.mem hx).2, Option.map_some]
  exact (h.block hx').1

theorem Chains.operationNew_eq (h : Chains p l) (baseNbytes : Nat) (k : Log) :
    Undo.operationNew baseNbytes (p.view k) = some
      { next := (l k).map Prod.fst, ulogCapacity := baseNbytes + capacities (l k), curr := none,
        currOffset := 0, currCapacity := 0, totalLogged := 0 } := by
  obtain ⟨m, hm, heq⟩ := h.view_chain k
  rw [Undo.operationNew, hm, Option.map_some, ← heq, capacities, map_map, map_map]
  rfl

theorem reserved_of_chain {baseNbytes a : Nat} (h : Linked.Chain Prod.fst p.heap a m) :
    Undo.reserved baseNbytes (p.view k) (m.map Prod.fst) = some (baseNbytes + capacities m) := by
  induction m generalizing a with
  | nil => rfl
  | cons x m ih =>
    obtain ⟨-, -, hx, hm⟩ := h
    obtain ⟨u, hu, hux⟩ := Option.map_eq_some_iff.mp hx
    rw [map_cons, Undo.reserved]
    show (p.blocks x.1).bind _ = _
    rw [hu, Option.bind_some, ih hm, Option.map_some, capacities, capacities, map_cons,
      sum_cons, ← hux]
    congr 1
    show u.capacity + _ = _ + (u.capacity + _)
    omega

theorem Chains.reserved_eq (h : Chains p l) (baseNbytes : Nat) (k : Log) :
    Undo.reserved baseNbytes (p.view k) ((l k).map Prod.fst) =
      some (baseNbytes + capacities (l k)) :=
  reserved_of_chain (h.forest.chain k)

/-! ## Storing and emptying redo logs -/

theorem storeNext_shape {blocks blocks' : Nat → Option Ulog} {next : List Nat}
    (h : storeNext blocks next ws = some blocks') (o : Nat) :
    (blocks' o).map shape = (blocks o).map shape := by
  induction next generalizing blocks ws with
  | nil =>
    cases ws with
    | nil =>
      cases h
      rfl
    | cons w ws => cases h
  | cons offset next ih =>
    cases ws with
    | nil =>
      cases h
      rfl
    | cons w ws =>
      obtain ⟨u, hu, h⟩ := Option.bind_eq_some_iff.mp h
      exact (ih h).trans
        (heap_update_self (v := u.store 0 ((w :: ws).take (u.capacity / 8))) hu rfl o)

theorem ulogStore_sameShape {next : List Nat} {c : Change} (hnext : next.head?.getD 0 = p.head k)
    (hk : k.slot ≠ .undo) (h : p.ulogStore k next ws c = some q) : SameShape p q := by
  obtain ⟨blocks, hblocks, rfl⟩ := Option.map_eq_some_iff.mp h
  have hsame := SameShape.of_blocks (p := p) (storeNext_shape hblocks)
  exact hsame.trans (SameShape.of_base (p := { p with blocks }) hnext fun hundo =>
    absurd hundo hk)

theorem ulogStore_redo {next : List Nat} {c : Change} (h : p.ulogStore k next ws c = some q) :
    q.redo = update p.redo k (.stored c) := by
  obtain ⟨blocks, -, rfl⟩ := Option.map_eq_some_iff.mp h
  rfl

theorem ulogClobber_sameShape {next : Nat} (hnext : next = p.head k) (hk : k.slot ≠ .undo) :
    SameShape p (p.ulogClobber k next) :=
  SameShape.of_base hnext fun hundo => absurd hundo hk

theorem zero_sameShape {loc : Loc} {nbytes : Nat} {v : Undo.Pool}
    (h : (Write.zero loc nbytes).apply (p.view k) = some v) : SameShape p (p.put k v) := by
  obtain ⟨u, hu, rfl⟩ := Option.map_eq_some_iff.mp h
  exact SameShape.of_set hu rfl

theorem publish_sameShape {i : Nat} {first : Bool}
    (h : (Change.publish i first).apply p = some q) : SameShape p q ∧ q.redo = p.redo := by
  cases h
  split
  · exact ⟨SameShape.of_base rfl fun _ => rfl, rfl⟩
  · exact ⟨SameShape.refl p, rfl⟩

end Same

/-! ## Linking and freeing ulogs -/

def lastLoc (l : List (Nat × Nat × Nat)) : Loc :=
  match l.getLast? with
  | none => .base
  | some x => .ext x.1

theorem last_eq_lastLoc {ctx : Ctx} (h : ctx.next = m.map Prod.fst) : ctx.last = lastLoc m := by
  rw [Ctx.last, h, getLast?_map, lastLoc]
  cases m.getLast? <;> rfl

theorem lastLoc_concat (m : List (Nat × Nat × Nat)) (x : Nat × Nat × Nat) :
    lastLoc (m ++ [x]) = .ext x.1 := by
  rw [lastLoc, getLast?_concat]

theorem heap_update (blocks : Nat → Option Ulog) (o : Nat) (v : Option Ulog) :
    (fun o' => (update blocks o v o').map shape) =
      update (fun o' => (blocks o').map shape) o (v.map shape) := by
  funext o'
  rw [update_apply, update_apply]
  split <;> rfl

theorem heap_update_update (blocks : Nat → Option Ulog) (o₁ o₂ : Nat) (v₁ v₂ : Option Ulog) :
    (fun o' => (update (update blocks o₁ v₁) o₂ v₂ o').map shape) =
      update (update (fun o' => (blocks o').map shape) o₁ (v₁.map shape)) o₂ (v₂.map shape) := by
  rw [heap_update, heap_update]

theorem head_update (ulog : Log → Ulog) (k : Log) (u : Ulog) :
    (fun k' => (update ulog k u k').next) =
      update (fun k' => (ulog k').next) k u.next := by
  funext k'
  rw [update_apply, update_apply]
  split <;> rfl

section Link

variable {p q : Pool} {l : Log → List (Nat × Nat × Nat)} {k : Log} {loc : Loc}
  {offset capacity a : Nat}

structure SameLogs (p q : Pool) : Prop where
  undo : ∀ i, (q.ulog ⟨i, .undo⟩).capacity = (p.ulog ⟨i, .undo⟩).capacity
  redo : q.redo = p.redo
  size : q.size = p.size
  nlanes : q.nlanes = p.nlanes

theorem SameLogs.put {u : Undo.Pool} (hcap : u.undo.capacity = (p.ulog k).capacity) :
    SameLogs p (p.put k u) := by
  refine ⟨fun i => ?_, rfl, rfl, rfl⟩
  show (update p.ulog k u.undo ⟨i, .undo⟩).capacity = _
  rw [update_apply]
  split
  · rename_i heq
    rw [heq, hcap]
  · rfl

theorem link_apply_base (hfree : p.blocks offset = none)
    (happly : (Change.link k .base offset capacity).apply p = some q) :
    q.head = update p.head k offset ∧
      q.heap = update p.heap offset (some (0, capacity)) ∧ SameLogs p q := by
  cases happly
  refine ⟨head_update .., ?_, SameLogs.put rfl⟩
  have hnone : (p.blocks offset).isNone = true := by rw [hfree]; rfl
  show (fun o => ((if (p.blocks offset).isNone then _ else _ : Nat → Option Ulog) o).map shape) = _
  rw [if_pos hnone]
  exact heap_update ..

theorem link_apply_ext (hu : p.blocks a = some u) (hne : offset ≠ a)
    (hfree : p.blocks offset = none)
    (happly : (Change.link k (.ext a) offset capacity).apply p = some q) :
    q.head = p.head ∧ q.heap = update
      (update p.heap a (some (offset, u.capacity))) offset (some (0, capacity)) ∧
      SameLogs p q := by
  obtain ⟨u', hu', rfl⟩ := Option.map_eq_some_iff.mp happly
  obtain rfl : u = u' := Option.some.inj (hu.symm.trans hu')
  refine ⟨?_, ?_, SameLogs.put rfl⟩
  · funext k'
    exact congrArg Ulog.next (congrFun (update_eq_self k p.ulog) k')
  · have hnone : (update p.blocks a (some { u with next := offset }) offset).isNone =
        true := by
      rw [update_of_ne hne, hfree]
      rfl
    show (fun o => ((if Option.isNone (update p.blocks a _ offset) then _ else _ :
      Nat → Option Ulog) o).map shape) = _
    rw [if_pos hnone]
    exact heap_update_update ..

theorem unlink_apply_ext (hu : p.blocks a = some u)
    (happly : (Change.unlink k (.ext a) offset).apply p = some q) :
    q.head = p.head ∧ q.heap = update (update p.heap offset none) a
      (some (0, u.capacity)) ∧ SameLogs p q := by
  obtain ⟨u', hu', rfl⟩ := Option.map_eq_some_iff.mp happly
  obtain rfl : u = u' := Option.some.inj (hu.symm.trans hu')
  refine ⟨?_, ?_, SameLogs.put rfl⟩
  · funext k'
    exact congrArg Ulog.next (congrFun (update_eq_self k p.ulog) k')
  · exact heap_update_update ..

section

variable (h : Chains p l)

include h

theorem Chains.of_sameLogs (hlogs : SameLogs p q) (hk : k.slot ≠ .internal)
    (hforest : Linked.Forest Prod.fst q.heap q.head (update l k m))
    (hblock : ∀ {o x}, q.heap o = some x → o < p.size ∧ 64 ≤ x.2 ∧ x.2 % 64 = 0) :
    Chains q (update l k m) where
  forest := hforest
  block := by
    rw [hlogs.size]
    exact hblock
  undo i := (hlogs.undo i).trans (h.undo i)
  internal i := by
    rw [update_of_ne, h.internal]
    rintro rfl
    exact hk rfl

theorem Chains.get_block {x : Nat × Nat × Nat} (hx : x ∈ l k) :
    ∃ u, p.blocks x.1 = some u ∧ shape u = x.2 :=
  Option.map_eq_some_iff.mp ((h.forest.chain k).mem hx).2

theorem link_chains (hk : k.slot ≠ .internal) (hfree : p.heap offset = none)
    (hne : offset ≠ 0) (hlt : offset < p.size) (hcap : 64 ≤ capacity ∧ capacity % 64 = 0)
    (happly : (Change.link k (lastLoc (l k)) offset capacity).apply p = some q) :
    ∃ m, m.map (fun x => (x.1, x.2.2)) = (l k).map (fun x => (x.1, x.2.2)) ∧
      lastLoc m = lastLoc (l k) ∧ Chains q (update l k (m ++ [(offset, 0, capacity)])) ∧
      SameLogs p q ∧ ∀ o, o ≠ offset → p.heap o = none → q.heap o = none := by
  have hnone : p.blocks offset = none := Option.map_eq_none_iff.mp hfree
  rcases eq_nil_or_concat (l k) with hnil | ⟨l₀, ⟨a, n⟩, hl₀⟩
  · rw [hnil] at happly
    obtain ⟨hhead, hheap, hlogs⟩ := link_apply_base hnone happly
    refine ⟨[], by rw [hnil], by rw [hnil],
      h.of_sameLogs hlogs hk ?_ fun {o x} hx => ?_, hlogs, fun o ho hoff => ?_⟩
    · rw [hhead, hheap]
      exact h.forest.begin hfree hne rfl
    · rw [hheap, update_apply] at hx
      split at hx
      · rename_i heq
        cases hx
        exact ⟨heq ▸ hlt, hcap⟩
      · exact h.block hx
    · rw [hheap, update_of_ne ho, hoff]
  · rw [concat_eq_append] at hl₀
    have hmem : (a, n) ∈ l k := by simp [hl₀]
    obtain ⟨u, hu, hun⟩ := h.get_block hmem
    have hoa : offset ≠ a := (h.forest.ne_of_free hfree k _ hmem).symm
    rw [hl₀, lastLoc_concat] at happly
    obtain ⟨hhead, hheap, hlogs⟩ := link_apply_ext hu hoa hnone happly
    have hn : n.2 = u.capacity := (congrArg Prod.snd hun).symm
    refine ⟨l₀ ++ [(a, offset, u.capacity)], by simp [hl₀, hn],
      by rw [hl₀, lastLoc_concat, lastLoc_concat],
      h.of_sameLogs hlogs hk ?_ fun {o x} hx => ?_, hlogs, fun o ho hoff => ?_⟩
    · rw [hhead, hheap, append_assoc]
      exact h.forest.extend hl₀ hfree hne rfl rfl
    · rw [hheap, update_apply] at hx
      split at hx
      · rename_i heq
        cases hx
        exact ⟨heq ▸ hlt, hcap⟩
      · rw [update_apply] at hx
        split at hx
        · rename_i heq
          cases hx
          have hblock := h.block ((h.forest.chain k).mem hmem).2
          rw [heq, ← hn]
          exact hblock
        · exact h.block hx
    · have hoa' : o ≠ a := (h.forest.ne_of_free hoff k _ hmem).symm
      rw [hheap, update_of_ne ho, update_of_ne hoa', hoff]

theorem unlink_chains (hk : k.slot ≠ .internal)
    {n n' : Nat × Nat} (hl₀ : l k = l₀ ++ [(a, n), (offset, n')])
    (happly : (Change.unlink k (.ext a) offset).apply p = some q) :
    Chains q (update l k (l₀ ++ [(a, 0, n.2)])) ∧ SameLogs p q ∧
      q.heap offset = none ∧ ∀ o, p.heap o = none → q.heap o = none := by
  have hmem : (a, n) ∈ l k := by simp [hl₀]
  obtain ⟨u, hu, hun⟩ := h.get_block hmem
  have hn : n.2 = u.capacity := (congrArg Prod.snd hun).symm
  have hnodup := (h.forest.chain k).nodup
  have hne : offset ≠ a := by
    intro heq
    rw [hl₀, map_append, nodup_append] at hnodup
    simp [heq] at hnodup
  obtain ⟨hhead, hheap, hlogs⟩ := unlink_apply_ext hu happly
  refine ⟨h.of_sameLogs hlogs hk ?_ fun {o x} hx => ?_, hlogs, ?_, fun o hoff => ?_⟩
  · rw [hhead, hheap, hn]
    exact h.forest.free_last hl₀ rfl
  · rw [hheap, update_apply] at hx
    split at hx
    · rename_i heq
      cases hx
      have hblock := h.block ((h.forest.chain k).mem hmem).2
      rw [heq, ← hn]
      exact hblock
    · rw [update_apply] at hx
      split at hx
      · cases hx
      · exact h.block hx
  · rw [hheap, update_of_ne hne, update_self]
  · have hoa : o ≠ a := (h.forest.ne_of_free hoff k _ hmem).symm
    rw [hheap, update_of_ne hoa, update_apply]
    split
    · rfl
    · exact hoff

theorem Chains.get_next {l₁ : List (Nat × Nat × Nat)} (hl : l k = l₀ ++ l₁) :
    ∃ u, (p.view k).get (lastLoc l₀) = some u ∧ u.next = (l₁.map Prod.fst).head?.getD 0 := by
  have hchain := h.forest.chain k
  rw [hl] at hchain
  rcases eq_nil_or_concat l₀ with rfl | ⟨l₀, x, rfl⟩
  · exact ⟨p.ulog k, rfl, hchain.head_eq.symm⟩
  · rw [concat_eq_append, append_assoc] at hchain
    rw [concat_eq_append, lastLoc_concat]
    obtain ⟨b, -, -, hb, hl₁⟩ := hchain.drop
    obtain ⟨u, hu, hux⟩ := Option.map_eq_some_iff.mp hb
    rw [← hux] at hl₁
    exact ⟨u, hu, hl₁.head_eq.symm⟩

theorem relink_sameShape {x : Nat × Nat} (hl : l k = l₀ ++ [(offset, x)])
    (happly : (Change.link k (lastLoc l₀) offset capacity).apply p = some q) :
    SameShape p q ∧ q.redo = p.redo := by
  obtain ⟨u, hu, rfl⟩ := Option.map_eq_some_iff.mp happly
  obtain ⟨v, hv, hnext⟩ := h.get_next hl
  obtain rfl : v = u := Option.some.inj (hv.symm.trans hu)
  obtain rfl : v.next = offset := hnext
  have hsame := SameShape.of_set (v := { v with next := v.next }) hu rfl
  have hblock : ((p.view k).set { v with next := v.next } (lastLoc l₀)).blocks v.next ≠ none := by
    intro hnone
    have hmem := ((h.forest.chain k).mem (show (v.next, x) ∈ l k by simp [hl])).2
    have hheap := congrFun hsame.heap v.next
    rw [hmem] at hheap
    obtain ⟨w, hw, -⟩ := Option.map_eq_some_iff.mp hheap
    exact absurd (hnone.symm.trans hw) nofun
  refine ⟨?_, rfl⟩
  dsimp only
  rw [if_neg fun hnone => hblock (Option.isNone_iff_eq_none.mp hnone)]
  exact hsame

theorem reunlink_sameShape {n : Nat × Nat} (hl : l k = l₀ ++ [(a, n)])
    (hfree : p.heap offset = none) (happly : (Change.unlink k (.ext a) offset).apply p = some q) :
    SameShape p q ∧ q.redo = p.redo := by
  have hmem : (a, n) ∈ l k := by simp [hl]
  obtain ⟨u, hu, hnext⟩ := h.get_next (show l k = l₀ ++ [(a, n)] ++ [] by rw [append_nil, hl])
  rw [lastLoc_concat] at hu
  obtain ⟨hhead, hheap, hlogs⟩ := unlink_apply_ext hu happly
  have hua : p.heap a = some (0, u.capacity) := by
    have hu' : p.blocks a = some u := hu
    rw [Pool.heap, hu', Option.map_some, shape, hnext]
    rfl
  refine ⟨⟨hhead, ?_, hlogs.undo, hlogs.size, hlogs.nlanes⟩, hlogs.redo⟩
  rw [hheap, ← hfree, update_eq_self, ← hua, update_eq_self]

end

end Link

end Pmdk.Lanes
