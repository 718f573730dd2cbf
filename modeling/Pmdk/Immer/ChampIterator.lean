import Pmdk.Immer.ChampMap

/-!
# Iteration

`champ_iterator` walks the nodes in preorder. It has the pointers `cur_` and `end_` into the values
of a node, and in `path_` the places of the children that lead there. What is left of the walk is a
list of nodes: those to the right of the path (`Chain`).

An access outside of an array, or to the part of a node that it does not have, is `none`.
-/

namespace Pmdk.Hamts

open Packed

variable {T : Type} {B : Nat}

/-! ## The iterator -/

structure Slot (T : Type) where
  children : List (Node T)
  i : Nat

def Slot.node (s : Slot T) : Option (Node T) := s.children[s.i]?

/-- The pointers `cur_` and `end_` into `values` are null at the end. -/
structure Iterator (T : Type) where
  values : List T
  cur : Option Nat
  last : Option Nat
  depth : Nat
  path : List (Option (Slot T))

namespace Iterator

variable (B)

def slot (it : Iterator T) (depth : Nat) : Option (Slot T) := it.path[depth]?.join

/-- `path_[depth_] = s`, for a new depth. -/
def setSlot (it : Iterator T) (depth : Nat) (s : Slot T) : Option (Iterator T) :=
  if depth < it.path.length then
    some { it with depth := depth, path := it.path.set depth (some s) }
  else none

def enter (it : Iterator T) : Node T → Option (Iterator T)
  | .inner child =>
    if it.depth < maxDepth B then
      some { it with values := child.values, cur := some 0, last := some (popcount child.datamap) }
    else none
  | .collision values =>
    if it.depth < maxDepth B then none
    else some { it with values := values, cur := some 0, last := some values.length }

def stepDown (it : Iterator T) : Option (Iterator T × Bool) :=
  if it.depth < maxDepth B then do
    let slot ← it.slot it.depth
    match ← slot.node with
    | .inner parent =>
      if parent.nodemap ≠ 0 then do
        let it ← it.setSlot (it.depth + 1) ⟨parent.children, 0⟩
        let child ← Slot.node ⟨parent.children, 0⟩
        let it ← it.enter B child
        some (it, true)
      else some (it, false)
    | .collision _ => none
  else some (it, false)

def stepRight (it : Iterator T) : Nat → Option (Iterator T × Bool)
  | 0 => some ({ it with depth := 0 }, false)
  | depth + 1 => do
    let above ← it.slot depth
    match ← above.node with
    | .inner parent =>
      let slot ← it.slot (depth + 1)
      if slot.i + 1 < popcount parent.nodemap then do
        let it ← it.setSlot (depth + 1) ⟨slot.children, slot.i + 1⟩
        let child ← Slot.node ⟨slot.children, slot.i + 1⟩
        let it ← it.enter B child
        some (it, true)
      else stepRight it depth
    | .collision _ => none

/-- The loop over `step_down`: whether a value was found. -/
def descend : Nat → Iterator T → Option (Iterator T × Bool)
  | 0, _ => none
  | n + 1, it => do
    let down ← it.stepDown B
    if down.2 then
      if down.1.cur ≠ down.1.last then some down else descend n down.1
    else some down

def ensureValid : Nat → Iterator T → Option (Iterator T)
  | 0, _ => none
  | fuel + 1, it =>
    if it.cur = it.last then do
      let down ← it.descend B (maxDepth B + 1)
      if down.2 then some down.1
      else do
        let right ← down.1.stepRight B down.1.depth
        if right.2 then ensureValid fuel right.1
        else if right.1.depth = 0 then some { right.1 with cur := none, last := none }
        else none
    else some it

def begin (fuel : Nat) (c : Champ T) : Option (Iterator T) :=
  match c.root with
  | .inner root => ensureValid B fuel
      ⟨root.values, some 0, some (popcount root.datamap), 0,
        some ⟨[c.root], 0⟩ :: List.replicate (maxDepth B) none⟩
  | .collision _ => none

def increment (fuel : Nat) (it : Iterator T) : Option (Iterator T) := do
  let cur ← it.cur
  ensureValid B fuel { it with cur := some (cur + 1) }

def dereference (it : Iterator T) : Option T := do
  let cur ← it.cur
  it.values[cur]?

def isEnd (it : Iterator T) : Bool := it.cur.isNone

def visit (fuel : Nat) : Nat → Iterator T → Option (List T)
  | 0, it => if it.isEnd then some [] else none
  | n + 1, it =>
    if it.isEnd then none
    else do
      let x ← it.dereference
      let it ← it.increment B fuel
      let xs ← visit fuel n it
      some (x :: xs)

end Iterator

/-- `for_each_chunk_traversal`: the chunks that it passes on. -/
def forEachChunk : Nat → Node T → Option (List (List T))
  | 0, .collision values => some [values]
  | d + 1, .inner node =>
    if popcount node.datamap ≤ node.values.length ∧
        popcount node.nodemap ≤ node.children.length then do
      let below ← (node.children.take (popcount node.nodemap)).mapM (forEachChunk d)
      some ((if node.datamap ≠ 0 then [node.values.take (popcount node.datamap)] else []) ++
        below.flatten)
    else none
  | _, _ => none

/-!
## The walk of the iterator

The iterator visits the elements in the order of `elems`: its own node first, then what is below
it, then what is to the right of its path. The invariant `On` says where the iterator is and which
nodes are left.
-/

open List

variable {d depth : Nat} {n root : Node T} {node : Inner (Node T) T}

/-! ## Nodes that are left -/

def Fits : Nat → Node T → Prop
  | 0, .collision _ => True
  | d + 1, .inner node => node.Shaped ∧ ∀ c ∈ node.children, Fits d c
  | _, _ => False

theorem WF.fits {K V : Type} {hashOf : K → Hash} {shift : Nat} {n : Node (K × V)}
    (h : WF B hashOf d shift n) : Fits d n := by
  induction d generalizing shift n with
  | zero =>
    cases n with
    | inner node => exact h.elim
    | collision values => trivial
  | succ d ih =>
    cases n with
    | collision values => exact h.elim
    | inner node =>
      refine ⟨h.shaped, fun c hc => ?_⟩
      obtain ⟨i, hi⟩ := (mem_iff_at h.shaped.children_length).mp hc
      exact ih (h.child hi)

abbrev Forest (T : Type) := List (Nat × Node T)

def own : Node T → List T
  | .inner node => node.values
  | .collision values => values

def beneath : Nat → Node T → Forest T
  | d + 1, .inner node => node.children.map (Prod.mk d)
  | _, _ => []

def flat (f : Forest T) : List T := f.flatMap fun p => elems p.1 p.2

def nodes : Nat → Node T → Nat
  | d + 1, .inner node => 1 + (node.children.map (nodes d)).sum
  | _, _ => 1

def count (f : Forest T) : Nat := (f.map fun p => nodes p.1 p.2).sum

@[simp] theorem flat_nil : flat ([] : Forest T) = [] := rfl

@[simp] theorem flat_cons (p : Nat × Node T) (f : Forest T) :
    flat (p :: f) = elems p.1 p.2 ++ flat f := flatMap_cons

@[simp] theorem flat_append (f g : Forest T) : flat (f ++ g) = flat f ++ flat g :=
  flatMap_append

@[simp] theorem count_nil : count ([] : Forest T) = 0 := rfl

@[simp] theorem count_cons (p : Nat × Node T) (f : Forest T) :
    count (p :: f) = nodes p.1 p.2 + count f := sum_cons

@[simp] theorem count_append (f g : Forest T) : count (f ++ g) = count f + count g := by
  rw [count, map_append, sum_append]
  rfl

theorem elems_eq (h : Fits d n) : elems d n = own n ++ flat (beneath d n) := by
  cases d with
  | zero =>
    cases n with
    | inner node => exact h.elim
    | collision values => exact (append_nil values).symm
  | succ d =>
    cases n with
    | collision values => exact h.elim
    | inner node => rw [elems, own, beneath, flat, flatMap_map]

theorem nodes_eq (d : Nat) (n : Node T) : nodes d n = 1 + count (beneath d n) := by
  cases d with
  | zero => rfl
  | succ d =>
    cases n with
    | collision values => rfl
    | inner node =>
      rw [nodes, beneath, count, map_map]
      rfl

/-! ## The path -/

inductive Chain (B : Nat) (root : Node T) (path : List (Option (Slot T))) :
    Nat → Node T → Forest T → Prop where
  | root (h : path[0]?.join = some ⟨[root], 0⟩) : Chain B root path 0 root []
  | child {depth i : Nat} {node : Inner (Node T) T} {rest : Forest T} {c : Node T}
      (above : Chain B root path depth (.inner node) rest)
      (h : path[depth + 1]?.join = some ⟨node.children, i⟩) (hc : node.children[i]? = some c) :
      Chain B root path (depth + 1) c
        ((node.children.drop (i + 1)).map (Prod.mk (maxDepth B - (depth + 1))) ++ rest)

section Chain

variable {path path' : List (Option (Slot T))} {rest : Forest T}

section

variable (h : Chain B root path depth n rest)

include h

theorem Chain.slot :
    ∃ s : Slot T, path[depth]?.join = some s ∧ s.node = some n := by
  cases h with
  | root h => exact ⟨_, h, rfl⟩
  | child _ h hc => exact ⟨_, h, hc⟩

theorem Chain.congr
    (hpath : ∀ j ≤ depth, path'[j]? = path[j]?) : Chain B root path' depth n rest := by
  induction h with
  | root h => exact .root (by rw [hpath 0 le_rfl, h])
  | child above h hc ih =>
    exact .child (ih fun j hj => hpath j (Nat.le_succ_of_le hj)) (by rw [hpath _ le_rfl, h]) hc

theorem Chain.set {j : Nat} (hj : depth < j)
    (s : Option (Slot T)) : Chain B root (path.set j s) depth n rest :=
  h.congr fun _ hk => getElem?_set_ne (Nat.lt_of_le_of_lt hk hj).ne'

theorem Chain.fits (hroot : Fits (maxDepth B) root) :
    depth ≤ maxDepth B ∧ Fits (maxDepth B - depth) n := by
  induction h with
  | root h => exact ⟨Nat.zero_le _, hroot⟩
  | @child depth i node rest c above h hc ih =>
    obtain ⟨hle, hfits⟩ := ih
    cases hd : maxDepth B - depth with
    | zero =>
      rw [hd] at hfits
      exact hfits.elim
    | succ d =>
      rw [hd] at hfits
      have hsub : maxDepth B - (depth + 1) = d := by omega
      rw [hsub]
      exact ⟨by omega, hfits.2 c (mem_of_getElem? hc)⟩

theorem Chain.count_le (hroot : Fits (maxDepth B) root) :
    count (beneath (maxDepth B - depth) n ++ rest) < nodes (maxDepth B) root := by
  induction h with
  | root h =>
    rw [nodes_eq, append_nil, Nat.sub_zero]
    omega
  | @child depth i node rest c above h hc ih =>
    refine lt_of_lt_of_le ?_ ih.le
    obtain ⟨hle, hfits⟩ := above.fits hroot
    cases hd : maxDepth B - depth with
    | zero =>
      rw [hd] at hfits
      exact hfits.elim
    | succ d =>
      have hsub : maxDepth B - (depth + 1) = d := by omega
      obtain ⟨hi, hget⟩ := List.getElem?_eq_some_iff.mp hc
      have hsplit : node.children = node.children.take i ++ c :: node.children.drop (i + 1) := by
        rw [← hget, getElem_cons_drop, take_append_drop]
      have hbelow : beneath (d + 1) (.inner node) = (node.children.take i).map (Prod.mk d) ++
            (d, c) :: (node.children.drop (i + 1)).map (Prod.mk d) := by
        rw [beneath]
        nth_rewrite 1 [hsplit]
        rw [map_append, map_cons]
      rw [hsub, hbelow]
      simp only [count_append, count_cons, nodes_eq]
      omega

end

end Chain

/-! ## Steps -/

structure On (B : Nat) (root : Node T) (it : Iterator T) (n : Node T) (rest : Forest T) :
    Prop where
  chain : Chain B root it.path it.depth n rest
  values : it.values = own n
  last : it.last = some it.values.length
  length : it.path.length = maxDepth B + 1

def Moves (B : Nat) (root : Node T) (rest : Forest T) : Forest T → Iterator T × Bool → Prop
  | [], res => res.2 = false
  | (d, c) :: more, res => res.2 = true ∧ res.1.cur = some 0 ∧ d = maxDepth B - res.1.depth ∧
      On B root res.1 c (more ++ rest)

section Steps

variable {it : Iterator T} {rest : Forest T}

theorem enter_eq {c : Node T} (hle : it.depth ≤ maxDepth B)
    (hfits : Fits (maxDepth B - it.depth) c) : it.enter B c =
      some { it with values := own c, cur := some 0, last := some (own c).length } := by
  cases hd : maxDepth B - it.depth with
  | zero =>
    rw [hd] at hfits
    have hge : ¬ it.depth < maxDepth B := by omega
    cases c with
    | inner node => exact hfits.elim
    | collision values => exact if_neg hge
  | succ d =>
    rw [hd] at hfits
    have hlt : it.depth < maxDepth B := by omega
    cases c with
    | collision values => exact hfits.elim
    | inner node =>
      rw [Iterator.enter, if_pos hlt, ← hfits.1.values_length]
      rfl

theorem On.enter (above : Chain B root it.path depth (.inner node) rest)
    (hroot : Fits (maxDepth B) root) (hlength : it.path.length = maxDepth B + 1) {i : Nat}
    {c : Node T} (hc : node.children[i]? = some c) :
    ∃ it₁ it₂, it.setSlot (depth + 1) ⟨node.children, i⟩ = some it₁ ∧
      it₁.enter B c = some it₂ ∧ it₂.cur = some 0 ∧ it₂.depth = depth + 1 ∧
      On B root it₂ c ((node.children.drop (i + 1)).map
        (Prod.mk (maxDepth B - (depth + 1))) ++ rest) := by
  have hchild : Chain B root (it.path.set (depth + 1) (some ⟨node.children, i⟩)) (depth + 1) c
      ((node.children.drop (i + 1)).map (Prod.mk (maxDepth B - (depth + 1))) ++ rest) := by
    obtain ⟨hle, hfits⟩ := above.fits hroot
    have hlt : depth + 1 < it.path.length := by
      rcases Nat.lt_or_eq_of_le hle with hlt | rfl
      · rw [hlength]
        exact Nat.succ_lt_succ hlt
      · rw [Nat.sub_self] at hfits
        exact hfits.elim
    refine .child (above.set (Nat.lt_succ_self depth) _) ?_ hc
    rw [getElem?_set_self hlt]
    rfl
  have hfits := hchild.fits hroot
  have hlt : depth + 1 < it.path.length := hlength ▸ Nat.lt_succ_of_le hfits.1
  refine ⟨_, _, if_pos hlt, enter_eq hfits.1 hfits.2, rfl, rfl, hchild, rfl, rfl, ?_⟩
  exact (length_set).trans hlength

theorem On.stepDown (h : On B root it n rest) (hroot : Fits (maxDepth B) root) :
    ∃ res, it.stepDown B = some res ∧
      Moves B root rest (beneath (maxDepth B - it.depth) n) res ∧ (res.2 = false → res.1 = it) := by
  obtain ⟨hle, hfits⟩ := h.chain.fits hroot
  obtain ⟨s, hs, hn⟩ := h.chain.slot
  cases hd : maxDepth B - it.depth with
  | zero =>
    have hge : ¬ it.depth < maxDepth B := by omega
    refine ⟨(it, false), if_neg hge, ?_, fun _ => rfl⟩
    rw [beneath.eq_def]
    rfl
  | succ d =>
    rw [hd] at hfits
    have hlt : it.depth < maxDepth B := by omega
    cases n with
    | collision values => exact hfits.elim
    | inner node =>
      have hlength := hfits.1.children_length
      rw [beneath, Iterator.stepDown, if_pos hlt, Iterator.slot, hs, Option.bind_eq_bind,
        Option.bind_some, hn, Option.bind_eq_bind, Option.bind_some]
      cases hchildren : node.children with
      | nil =>
        rw [hchildren] at hlength
        have hzero : node.nodemap = 0#32 := popcount_eq_zero_iff.mp hlength.symm
        exact ⟨(it, false), if_neg fun hne => hne hzero, rfl, fun _ => rfl⟩
      | cons c more =>
        have hne : node.nodemap ≠ 0 := by
          intro hzero
          rw [hchildren, popcount_eq_zero_iff.mpr hzero] at hlength
          cases hlength
        have hc : node.children[0]? = some c := by
          rw [hchildren]
          rfl
        obtain ⟨it₁, it₂, hset, henter, hcur, hdepth, hon⟩ :=
          On.enter h.chain hroot h.length hc
        have hd' : maxDepth B - (it.depth + 1) = d := by omega
        rw [hchildren, drop_one, tail_cons, hd'] at hon
        refine ⟨(it₂, true), ?_, ⟨rfl, hcur, by rw [hdepth, hd'], hon⟩, by simp⟩
        rw [hchildren] at hset
        dsimp only
        have hnode : Slot.node ⟨c :: more, 0⟩ = some c := rfl
        rw [if_pos hne, hchildren, hset, Option.bind_eq_bind, Option.bind_some, hnode,
          Option.bind_some, henter]
        rfl

theorem Chain.stepRight (h : Chain B root it.path depth n rest)
    (hroot : Fits (maxDepth B) root) (hlength : it.path.length = maxDepth B + 1) :
    ∃ res, it.stepRight B depth = some res ∧ Moves B root [] rest res ∧
      (res.2 = false → res.1.depth = 0) := by
  induction h with
  | root h => exact ⟨_, rfl, rfl, fun _ => rfl⟩
  | @child depth i node rest c above h hc ih =>
    obtain ⟨s, hs, hn⟩ := above.slot
    have hcount : popcount node.nodemap = node.children.length := by
      obtain ⟨-, hfits⟩ := above.fits hroot
      cases hd : maxDepth B - depth with
      | zero =>
        rw [hd] at hfits
        exact hfits.elim
      | succ d =>
        rw [hd] at hfits
        exact hfits.1.children_length.symm
    rw [Iterator.stepRight, Iterator.slot, Iterator.slot, hs, h, Option.bind_eq_bind,
      Option.bind_some, hn, Option.bind_eq_bind, Option.bind_some]
    dsimp only
    rw [Option.bind_some, hcount]
    cases hdrop : node.children.drop (i + 1) with
    | nil =>
      have hge : ¬ i + 1 < node.children.length := by
        rw [drop_eq_nil_iff] at hdrop
        omega
      rw [if_neg hge]
      exact ih
    | cons c' more =>
      have hlt : i + 1 < node.children.length := by
        by_contra hge
        rw [drop_eq_nil_of_le (Nat.le_of_not_lt hge)] at hdrop
        cases hdrop
      have hc' : node.children[i + 1]? = some c' := by
        rw [← head?_drop, hdrop]
        rfl
      have hmore : node.children.drop (i + 1 + 1) = more := by
        rw [← tail_drop, hdrop]
        rfl
      obtain ⟨it₁, it₂, hset, henter, hcur, hdepth, hon⟩ := On.enter above hroot hlength hc'
      rw [hmore, ← append_nil (_ ++ rest)] at hon
      refine ⟨(it₂, true), ?_, ⟨rfl, hcur, by rw [hdepth], hon⟩, by simp⟩
      have hnode : Slot.node ⟨node.children, i + 1⟩ = some c' := hc'
      rw [if_pos hlt, hset, Option.bind_eq_bind, Option.bind_some, hnode, Option.bind_some, henter]
      rfl

theorem beneath_cons {d' : Nat} {c : Node T} {more : Forest T}
    (h : beneath d n = (d', c) :: more) : d = d' + 1 := by
  cases d with
  | zero => cases h
  | succ d =>
    cases n with
    | collision values => cases h
    | inner node =>
      have hmem : (d', c) ∈ node.children.map (Prod.mk d) := by
        rw [← beneath, h]
        exact mem_cons_self
      obtain ⟨c', -, heq⟩ := mem_map.mp hmem
      rw [(Prod.mk.inj heq).1]

theorem On.flat_eq {c : Node T} {more : Forest T} (h : On B root it c more)
    (hroot : Fits (maxDepth B) root) :
    flat ((maxDepth B - it.depth, c) :: more) =
      it.values ++ flat (beneath (maxDepth B - it.depth) c ++ more) := by
  rw [flat_cons, elems_eq (h.chain.fits hroot).2, h.values, flat_append, append_assoc]

/-- The loop over `step_down` goes to the first value below, or to a node without children. -/
theorem On.descend (h : On B root it n rest) (hroot : Fits (maxDepth B) root) {k : Nat}
    (hk : maxDepth B - it.depth < k) :
    ∃ res c more, it.descend B k = some res ∧ On B root res.1 c more ∧
      count (beneath (maxDepth B - res.1.depth) c ++ more) ≤
        count (beneath (maxDepth B - it.depth) n ++ rest) ∧
      ((res.2 = true ∧ res.1.cur = some 0 ∧ res.1.cur ≠ res.1.last ∧
          res.1.values ++ flat (beneath (maxDepth B - res.1.depth) c ++ more) =
            flat (beneath (maxDepth B - it.depth) n ++ rest)) ∨
        (res.2 = false ∧ beneath (maxDepth B - res.1.depth) c = [] ∧
          flat more = flat (beneath (maxDepth B - it.depth) n ++ rest))) := by
  induction k generalizing it n rest with
  | zero => exact absurd hk (Nat.not_lt_zero _)
  | succ k ih =>
    obtain ⟨res, hres, hmoves, hstay⟩ := h.stepDown hroot
    rw [Iterator.descend, hres, Option.bind_eq_bind, Option.bind_some]
    cases hbeneath : beneath (maxDepth B - it.depth) n with
    | nil =>
      rw [hbeneath] at hmoves
      obtain rfl := hstay hmoves
      refine ⟨res, n, rest, if_neg (by rw [hmoves]; decide), h, ?_, .inr ⟨hmoves, hbeneath, rfl⟩⟩
      rw [hbeneath]
    | cons p more =>
      obtain ⟨d, c⟩ := p
      rw [hbeneath] at hmoves
      obtain ⟨hmoved, hcur, rfl, hon⟩ := hmoves
      have hd := beneath_cons hbeneath
      have hflat := hon.flat_eq hroot
      have hcount : count (beneath (maxDepth B - res.1.depth) c ++ (more ++ rest)) ≤
          count ((maxDepth B - res.1.depth, c) :: more ++ rest) := by
        rw [cons_append, count_cons, nodes_eq, count_append]
        dsimp only
        omega
      rw [if_pos hmoved]
      by_cases hfound : res.1.cur = res.1.last
      · rw [if_neg (fun hne => hne hfound)]
        obtain ⟨res', c', more', hres', hon', hcount', hcases⟩ := ih hon (by omega)
        have hvalues : res.1.values = [] := by
          rw [hcur, hon.last] at hfound
          exact length_eq_zero_iff.mp (Option.some.inj hfound).symm
        rw [hvalues, nil_append] at hflat
        rw [← hflat] at hcases
        exact ⟨res', c', more', hres', hon', hcount'.trans hcount, hcases⟩
      · rw [if_pos hfound]
        exact ⟨res, c, _, rfl, hon, hcount, .inl ⟨hmoved, hcur, hfound, hflat.symm⟩⟩

/-! ## What is left -/

/-- The iterator is in front of the elements of `l`, which may begin at a later node. -/
def Left (B : Nat) (root : Node T) (it : Iterator T) (l : List T) : Prop :=
  ∃ n rest i, On B root it n rest ∧ it.cur = some i ∧ i ≤ it.values.length ∧
    l = it.values.drop i ++ flat (beneath (maxDepth B - it.depth) n ++ rest)

/-- The iterator is at the first element of `l`, or at the end. -/
def Before (B : Nat) (root : Node T) (it : Iterator T) (l : List T) : Prop :=
  (it.cur = none ∧ l = []) ∨ (Left B root it l ∧ it.cur ≠ it.last)

theorem ensureValid_of_count (hroot : Fits (maxDepth B) root) {fuel i : Nat}
    (h : On B root it n rest) (hcur : it.cur = some i) (hi : i ≤ it.values.length)
    (hfuel : count (beneath (maxDepth B - it.depth) n ++ rest) < fuel) :
    ∃ it', it.ensureValid B fuel = some it' ∧ Before B root it'
      (it.values.drop i ++ flat (beneath (maxDepth B - it.depth) n ++ rest)) := by
  induction fuel generalizing it n rest i with
  | zero => exact absurd hfuel (Nat.not_lt_zero _)
  | succ fuel ih =>
    rw [Iterator.ensureValid]
    by_cases hlast : it.cur = it.last
    · have hdrop : it.values.drop i = [] := by
        rw [hcur, h.last] at hlast
        exact drop_eq_nil_of_le (Option.some.inj hlast).ge
      rw [if_pos hlast, hdrop, nil_append]
      obtain ⟨res, c, more, hres, hon, hcount, hcases⟩ :=
        h.descend hroot (k := maxDepth B + 1) (by omega)
      rw [hres, Option.bind_eq_bind, Option.bind_some]
      rcases hcases with ⟨hmoved, hcur', hne, hflat⟩ | ⟨hmoved, hnil, hflat⟩
      · rw [if_pos hmoved]
        refine ⟨res.1, rfl, .inr ⟨⟨c, more, 0, hon, hcur', Nat.zero_le _, ?_⟩, hne⟩⟩
        rw [drop_zero, hflat]
      · rw [if_neg (by rw [hmoved]; decide)]
        obtain ⟨right, hright, hmoves, hstay⟩ := hon.chain.stepRight hroot hon.length
        rw [hright, Option.bind_some, ← hflat]
        rw [hnil, nil_append] at hcount
        cases more with
        | nil =>
          rw [if_neg (by rw [hmoves]; decide), if_pos (hstay hmoves)]
          exact ⟨_, rfl, .inl ⟨rfl, rfl⟩⟩
        | cons p more =>
          obtain ⟨d, c'⟩ := p
          obtain ⟨hmoved', hcur', rfl, hon'⟩ := hmoves
          rw [append_nil] at hon'
          rw [if_pos hmoved', hon'.flat_eq hroot]
          refine ih hon' hcur' (Nat.zero_le _) ?_
          rw [count_cons, nodes_eq] at hcount
          dsimp only at hcount
          rw [count_append]
          omega
    · rw [if_neg hlast]
      exact ⟨it, rfl, .inr ⟨⟨n, rest, i, h, hcur, hi, rfl⟩, hlast⟩⟩

end Steps

/-! ## The whole walk -/

section Visit

variable {it : Iterator T} {l : List T} {fuel : Nat}

theorem Left.ensureValid (h : Left B root it l) (hroot : Fits (maxDepth B) root)
    (hfuel : nodes (maxDepth B) root ≤ fuel) :
    ∃ it', it.ensureValid B fuel = some it' ∧ Before B root it' l := by
  obtain ⟨n, rest, i, hon, hcur, hi, rfl⟩ := h
  exact ensureValid_of_count hroot hon hcur hi ((hon.chain.count_le hroot).trans_le hfuel)

theorem Before.isEnd_iff (h : Before B root it l) : it.isEnd = true ↔ l = [] := by
  rcases h with ⟨hcur, hl⟩ | ⟨⟨n, rest, i, hon, hcur, hi, hl⟩, hne⟩
  · simp [Iterator.isEnd, hcur, hl]
  · rw [hcur, hon.last] at hne
    have hlt : i < it.values.length := lt_of_le_of_ne hi fun heq => hne (congrArg some heq)
    rw [hl, drop_eq_getElem_cons hlt, Iterator.isEnd, hcur]
    exact iff_of_false Bool.false_ne_true (cons_ne_nil _ _)

theorem Before.increment {x : T} (h : Before B root it (x :: l)) (hroot : Fits (maxDepth B) root)
    (hfuel : nodes (maxDepth B) root ≤ fuel) : it.dereference = some x ∧
      ∃ it', it.increment B fuel = some it' ∧ Before B root it' l := by
  rcases h with ⟨-, hl⟩ | ⟨⟨n, rest, i, hon, hcur, hi, hl⟩, hne⟩
  · cases hl
  · rw [hcur, hon.last] at hne
    have hlt : i < it.values.length := lt_of_le_of_ne hi fun heq => hne (congrArg some heq)
    rw [drop_eq_getElem_cons hlt, cons_append, List.cons.injEq] at hl
    obtain ⟨rfl, rfl⟩ := hl
    refine ⟨?_, ?_⟩
    · rw [Iterator.dereference, hcur]
      exact getElem?_eq_getElem hlt
    · rw [Iterator.increment, hcur]
      exact Left.ensureValid ⟨n, rest, i + 1, ⟨hon.chain, hon.values, hon.last, hon.length⟩, rfl,
        hlt, rfl⟩ hroot hfuel

theorem Before.visit (h : Before B root it l) (hroot : Fits (maxDepth B) root)
    (hfuel : nodes (maxDepth B) root ≤ fuel) : it.visit B fuel l.length = some l := by
  induction l generalizing it with
  | nil => exact if_pos (h.isEnd_iff.mpr rfl)
  | cons x l ih =>
    obtain ⟨hx, it', hit', h'⟩ := h.increment hroot hfuel
    have hnot : ¬ it.isEnd = true := fun hend => by
      cases h.isEnd_iff.mp hend
    rw [length_cons, Iterator.visit, if_neg hnot, hx, Option.bind_eq_bind,
      Option.bind_some, hit', Option.bind_eq_bind, Option.bind_some, ih h']
    rfl

theorem begin_spec {c : Champ T} (hB : 0 < B) (hroot : Fits (maxDepth B) c.root)
    (hfuel : nodes (maxDepth B) c.root ≤ fuel) :
    ∃ it, Iterator.begin B fuel c = some it ∧
      Before B c.root it (elems (maxDepth B) c.root) := by
  obtain ⟨root, size⟩ := c
  cases root with
  | collision values =>
    obtain ⟨d, hd⟩ := Nat.exists_eq_succ_of_ne_zero (maxDepth_pos hB).ne'
    rw [hd] at hroot
    exact hroot.elim
  | inner node =>
    refine Left.ensureValid ⟨.inner node, [], 0, ⟨.root rfl, rfl, ?_, ?_⟩, rfl, Nat.zero_le _, ?_⟩
      hroot hfuel
    · obtain ⟨d, hd⟩ := Nat.exists_eq_succ_of_ne_zero (maxDepth_pos hB).ne'
      rw [hd] at hroot
      exact congrArg some hroot.1.values_length.symm
    · simp
    · rw [elems_eq hroot, append_nil, drop_zero]
      rfl

/-- `for_each_chunk` delivers the elements in the same order. -/
theorem forEachChunk_spec {n : Node T} (h : Fits d n) :
    ∃ chunks, forEachChunk d n = some chunks ∧ chunks.flatten = elems d n := by
  induction d generalizing n with
  | zero =>
    cases n with
    | inner node => exact h.elim
    | collision values => exact ⟨[values], rfl, append_nil values⟩
  | succ d ih =>
    cases n with
    | collision values => exact h.elim
    | inner node =>
      have hbelow : ∀ cs : List (Node T), (∀ c ∈ cs, Fits d c) →
          ∃ chunks, cs.mapM (forEachChunk d) = some chunks ∧
            chunks.flatten.flatten = cs.flatMap (elems d) := by
        intro cs hcs
        induction cs with
        | nil => exact ⟨[], rfl, rfl⟩
        | cons c cs ihcs =>
          obtain ⟨chunks, hchunks, hflat⟩ := ih (hcs c mem_cons_self)
          obtain ⟨more, hmore, hflat'⟩ := ihcs fun c hc => hcs c (mem_cons_of_mem _ hc)
          refine ⟨chunks :: more, ?_, ?_⟩
          · rw [mapM_cons, hchunks, hmore]
            rfl
          · rw [flatten_cons, flatten_append, hflat, hflat', flatMap_cons]
      obtain ⟨chunks, hchunks, hflat⟩ := hbelow node.children h.2
      rw [forEachChunk, ← h.1.values_length, ← h.1.children_length,
        if_pos ⟨le_rfl, le_rfl⟩, take_length, take_length, hchunks]
      refine ⟨_, rfl, ?_⟩
      rw [flatten_append, hflat, elems]
      by_cases hd : node.datamap = 0
      · have hvalues : node.values = [] := by
          rw [← length_eq_zero_iff, h.1.values_length, popcount_eq_zero_iff]
          exact hd
        rw [if_neg (fun hne => hne hd), hvalues]
        rfl
      · rw [if_pos hd, flatten_singleton]

end Visit

/-- The iterator visits every element of a trie once, in `size` steps, and then is at the end; and
`for_each_chunk` delivers the same elements. -/
theorem champ_iteration {K V : Type} [DecidableEq K] {hashOf : K → Hash} (hB0 : 0 < B)
    (hB : B ≤ 5) (hatMost : AtMost hashOf (2 ^ B)) (dflt : V) {ops : List (Op K V)}
    {c : Champ (K × V)} (hrun : run B hashOf dflt ops = some c) :
    ∃ xs chunks, xs.Nodup ∧ xs.length = c.size ∧
      (∀ k v, (k, v) ∈ xs ↔ meaning dflt ops k = some v) ∧
      (∃ bound, ∀ fuel ≥ bound, ∃ it, Iterator.begin B fuel c = some it ∧
        it.visit B fuel c.size = some xs) ∧
      forEachChunk (maxDepth B) c.root = some chunks ∧ chunks.flatten.Perm xs := by
  have hc := run_represents hB0 hB hatMost dflt hrun
  have hfits := hc.wf.fits
  obtain ⟨chunks, hchunks, hflat⟩ := forEachChunk_spec hfits
  refine ⟨elems (maxDepth B) c.root, chunks, hc.wf.nodup, hc.size_eq.symm, hc.mem_elems,
    ⟨nodes (maxDepth B) c.root, fun fuel hfuel => ?_⟩, hchunks, ?_⟩
  · obtain ⟨it, hit, hbefore⟩ := begin_spec hB0 hfits hfuel
    refine ⟨it, hit, ?_⟩
    rw [hc.size_eq]
    exact hbefore.visit hfits hfuel
  · rw [hflat]

/-- Two keys that differ in the last bit, and one of two others that goes. -/
theorem champ_iteration_pair : ∃ (c : Champ (Hash × Nat)) (xs : List (Hash × Nat)) (bound : Nat),
    run 5 id 0 [.add (0, 7), .add (9223372036854775808, 8), .add (1, 9), .add (2, 6), .sub 1] =
      some c ∧ xs.length = c.size ∧ (9223372036854775808, 8) ∈ xs ∧
      ∀ fuel ≥ bound, ∃ it, Iterator.begin 5 fuel c = some it ∧
        it.visit 5 fuel c.size = some xs := by
  have hatMost : AtMost (id : Hash → Hash) (2 ^ 5) :=
    atMost_of_injective Function.injective_id (by decide)
  obtain ⟨c, hc⟩ := Option.isSome_iff_exists.mp (show (run (K := Hash) 5 id 0 [.add (0, 7),
    .add (9223372036854775808, 8), .add (1, 9), .add (2, 6), .sub 1]).isSome = true by
      decide +kernel)
  obtain ⟨xs, chunks, -, hlength, hmem, ⟨bound, hvisit⟩, -⟩ :=
    champ_iteration (by decide) (by decide) hatMost 0 hc
  exact ⟨c, xs, bound, hc, hlength, (hmem _ _).mpr (by decide), hvisit⟩

end Pmdk.Hamts
