import Pmdk.Immer.Champ
import Pmdk.Lib.RefCount

/-!
# Hash tries in memory

The nodes of `champ` with their reference counts: an inner node points to its children and to the
array of its values, which other inner nodes may share. The functions that make nodes follow the
ones of `Champ` and maintain the counts; the functions that delete nodes destroy the stored values.
For every stored value the memory tells how many times it was destroyed. An access to memory that
was freed is `none`.
-/

namespace Pmdk.Hamts

open Packed

/-! ## Memory -/

structure Header where
  nodemap : Bitmap
  datamap : Bitmap
  values : Option Nat
  children : List Nat

inductive Obj (T : Type) where
  | inner (node : Header)
  | collision (values : List T)
  | array (values : List T)

namespace Obj

variable {T : Type}

def out : Obj T → List Nat
  | .inner node => node.children ++ node.values.toList
  | .collision _ => []
  | .array _ => []

def stored : Obj T → List T
  | .inner _ => []
  | .collision values => values
  | .array values => values

end Obj

/-- `destroyed a i` is the number of times that the stored value `i` at `a` was destroyed. -/
structure Mem (T : Type) where
  heap : RefCount.Heap (Obj T)
  destroyed : Nat → Nat → Nat

namespace Mem

section Primitives

variable {T : Type} (m : Mem T)

def alloc (x : Obj T) : Nat × Mem T :=
  let r := RefCount.alloc m.heap x
  (r.1, { m with heap := r.2 })

def inc (a : Nat) : Option (Mem T) :=
  (RefCount.inc a m.heap).map fun heap => { m with heap := heap }

def dec (a : Nat) : Option (Bool × Mem T) :=
  (RefCount.dec a m.heap).map fun r => (r.1, { m with heap := r.2 })

def decUnsafe (a : Nat) : Option (Mem T) := (m.dec a).map Prod.snd

def incNodes (p : List Nat) : Option (Mem T) := p.foldlM inc m

/-- `make_inner_n` takes the pointer to the values of another node. -/
def incValues (values : Option Nat) : Option (Mem T) := m.incNodes values.toList

def header (a : Nat) : Option Header := do
  match ← RefCount.read a m.heap with
  | .inner node => some node
  | _ => none

def collisions (a : Nat) : Option (List T) := do
  match ← RefCount.read a m.heap with
  | .collision values => some values
  | _ => none

def valuesAt : Option Nat → Option (List T)
  | none => some []
  | some p => do
    match ← RefCount.read p m.heap with
    | .array values => some values
    | _ => none

def view (a : Nat) : Option (Inner Nat T) := do
  let node ← m.header a
  let values ← m.valuesAt node.values
  some ⟨node.nodemap, node.datamap, values, node.children⟩

/-! ## Making nodes -/

def makeValues : List T → Option Nat × Mem T
  | [] => (none, m)
  | values =>
    let r := m.alloc (.array values)
    (some r.1, r.2)

def makeInner (node : Inner Nat T) : Nat × Mem T :=
  let r := m.makeValues node.values
  r.2.alloc (.inner ⟨node.nodemap, node.datamap, r.1, node.children⟩)

def copyInnerReplace (src offset child : Nat) : Option (Nat × Mem T) := do
  let node ← m.header src
  let m ← m.incValues node.values
  let m ← m.incNodes node.children
  let old ← node.children[offset]?
  let m ← m.decUnsafe old
  some (m.alloc (.inner { node with children := node.children.set offset child }))

def copyInnerReplaceValue (src offset : Nat) (v : T) : Option (Nat × Mem T) := do
  let node ← m.view src
  let m ← m.incNodes node.children
  some (m.makeInner (node.copyInnerReplaceValue offset v))

def copyInnerReplaceMerged (src : Nat) (bit : Bitmap) (voffset child : Nat) :
    Option (Nat × Mem T) := do
  let node ← m.view src
  let m ← m.incNodes node.children
  some (m.makeInner (node.copyInnerReplaceMerged bit voffset child))

def copyInnerReplaceInline (src : Nat) (bit : Bitmap) (noffset : Nat) (value : T) :
    Option (Nat × Mem T) := do
  let node ← m.view src
  let m ← m.incNodes node.children
  let old ← node.children[noffset]?
  let m ← m.decUnsafe old
  some (m.makeInner (node.copyInnerReplaceInline bit noffset value))

def copyInnerRemoveValue (src : Nat) (bit : Bitmap) (voffset : Nat) : Option (Nat × Mem T) := do
  let node ← m.view src
  let dst ← node.copyInnerRemoveValue bit voffset
  let m ← m.incNodes node.children
  some (m.makeInner dst)

def copyInnerInsertValue (src : Nat) (bit : Bitmap) (v : T) : Option (Nat × Mem T) := do
  let node ← m.view src
  let m ← m.incNodes node.children
  some (m.makeInner (node.copyInnerInsertValue bit v))

def makeCollisionN (B : Nat) (values : List T) : Option (Nat × Mem T) :=
  if values.length ≤ 2 ^ B then some (m.alloc (.collision values)) else none

/-! ## Deleting nodes -/

def destroyN (p n : Nat) : Option (Mem T) := do
  let x ← RefCount.read p m.heap
  if n ≤ x.stored.length then
    some { m with destroyed := fun a i =>
      if a = p ∧ i < n then m.destroyed a i + 1 else m.destroyed a i }
  else none

def deallocate (p : Nat) : Option (Mem T) :=
  (RefCount.free p m.heap).map fun heap => { m with heap := heap }

def deallocateValues (p n : Nat) : Option (Mem T) := do
  let m ← m.destroyN p n
  m.deallocate p

/-- Before the deallocation `destroy_n` is called on the storage and not on the values, which does
nothing. -/
def deleteValues (p n : Nat) : Option (Mem T) := m.deallocateValues p n

def deallocateCollision (p n : Nat) : Option (Mem T) := do
  let m ← m.destroyN p n
  m.deallocate p

def deleteCollision (p : Nat) : Option (Mem T) := do
  let values ← m.collisions p
  let n := values.length
  let m ← m.destroyN p n
  m.deallocateCollision p n

def deallocateInner (p : Nat) : Option (Mem T) := m.deallocate p

def deleteInner (p : Nat) : Option (Mem T) := do
  let node ← m.header p
  match node.values with
  | none => m.deallocateInner p
  | some vp => do
    let r ← m.dec vp
    if r.1 then do
      let m ← r.2.deleteValues vp (popcount node.datamap)
      m.deallocateInner p
    else r.2.deallocateInner p

end Primitives

/-- The depth is that of `max_depth<B>`, less `s`. -/
def deleteDeep {T : Type} : Nat → Nat → Mem T → Option (Mem T)
  | 0, p, m => m.deleteCollision p
  | d + 1, p, m => do
    let node ← m.header p
    let m ← node.children.foldlM (fun m c => do
      let r ← m.dec c
      if r.1 then deleteDeep d c r.2 else some r.2) m
    m.deleteInner p

/-! ## Operations -/

section Operations

variable {T K V : Type} [DecidableEq K] (B : Nat) (hashOf : K → Hash)

def makeMerged : Nat → Nat → T → Hash → T → Hash → Mem T → Nat × Mem T
  | 0, _, v1, _, v2, _, m => m.alloc (.collision [v1, v2])
  | d + 1, shift, v1, hash1, v2, hash2, m =>
    let idx1 := index B hash1 shift
    let idx2 := index B hash2 shift
    if chunk B hash1 shift = chunk B hash2 shift then
      let r := makeMerged d (shift + B) v1 hash1 v2 hash2 m
      r.2.makeInner ⟨bit 32 idx1, 0, [], [r.1]⟩
    else
      m.makeInner
        ⟨0, bit 32 idx1 ||| bit 32 idx2, if idx1 < idx2 then [v1, v2] else [v2, v1], []⟩

/-- `do_add` and `do_update`. -/
def doPut (k : K) (combine : Option V → V) :
    Nat → Nat → Nat → Mem (K × V) → Option (Nat × Bool × Mem (K × V))
  | 0, _, a, m => do
    let values ← m.collisions a
    match values.findIdx? fun x => x.1 = k with
    | some pos => do
      let old ← values[pos]?
      let r ← m.makeCollisionN B ((k, combine (some old.2)) :: values.eraseIdx pos)
      some (r.1, false, r.2)
    | none => do
      let r ← m.makeCollisionN B ((k, combine none) :: values)
      some (r.1, true, r.2)
  | d + 1, shift, a, m => do
    let node ← m.view a
    let bit := bit 32 (index B (hashOf k) shift)
    if node.nodemap &&& bit ≠ 0 then do
      let child ← node.children[offset node.nodemap bit]?
      let result ← doPut k combine d (shift + B) child m
      let r ← result.2.2.copyInnerReplace a (offset node.nodemap bit) result.1
      some (r.1, result.2.1, r.2)
    else if node.datamap &&& bit ≠ 0 then do
      let val ← node.values[offset node.datamap bit]?
      if val.1 = k then do
        let r ← m.copyInnerReplaceValue a (offset node.datamap bit) (k, combine (some val.2))
        some (r.1, false, r.2)
      else do
        let child := makeMerged B d (shift + B) (k, combine none) (hashOf k) val (hashOf val.1) m
        let r ← child.2.copyInnerReplaceMerged a bit (offset node.datamap bit) child.1
        some (r.1, true, r.2)
    else do
      let r ← m.copyInnerInsertValue a bit (k, combine none)
      some (r.1, true, r.2)

inductive SubResult (T : Type) where
  | nothing
  | singleton (x : T)
  | tree (a : Nat) (m : Mem T)

def ofTree (r : Nat × Mem T) : SubResult T := .tree r.1 r.2

/-- `empty` is the root of `empty()`. -/
def doSub (k : K) (empty : Nat) : Nat → Nat → Nat → Mem (K × V) → Option (SubResult (K × V))
  | 0, _, a, m => do
    let values ← m.collisions a
    match values.findIdx? fun x => x.1 = k with
    | some cur =>
      if values.length > 2 then (m.makeCollisionN B (values.eraseIdx cur)).map ofTree
      else do
        let x ← values[other cur]?
        some (.singleton x)
    | none => some .nothing
  | d + 1, shift, a, m => do
    let node ← m.view a
    let bit := bit 32 (index B (hashOf k) shift)
    if node.nodemap &&& bit ≠ 0 then do
      let child ← node.children[offset node.nodemap bit]?
      match ← doSub k empty d (shift + B) child m with
      | .nothing => some .nothing
      | .singleton x =>
        if node.datamap = 0 ∧ popcount node.nodemap = 1 ∧ shift > 0 then some (.singleton x)
        else (m.copyInnerReplaceInline a bit (offset node.nodemap bit) x).map ofTree
      | .tree t m => (m.copyInnerReplace a (offset node.nodemap bit) t).map ofTree
    else if node.datamap &&& bit ≠ 0 then do
      let val ← node.values[offset node.datamap bit]?
      if val.1 = k then
        if node.nodemap ≠ 0 ∨ popcount node.datamap > 2 then
          (m.copyInnerRemoveValue a bit (offset node.datamap bit)).map ofTree
        else if popcount node.datamap = 2 then do
          let x ← node.values[other (offset node.datamap bit)]?
          if shift > 0 then some (.singleton x)
          else some (ofTree (m.makeInner ⟨0, node.datamap &&& ~~~bit, [x], []⟩))
        else if shift = 0 then (m.inc empty).map (.tree empty)
        else none
      else some .nothing
    else some .nothing

end Operations

end Mem

/-! ## Maps -/

structure MapRef where
  root : Nat
  size : Nat

/-- The memory, the root of `empty()`, and the maps that are there. -/
structure Store (T : Type) where
  mem : Mem T
  empty : Nat
  maps : List MapRef

inductive Call (K V : Type) where
  | empty
  | add (i : Nat) (v : K × V)
  | update (i : Nat) (k : K) (fn : V → V)
  | sub (i : Nat) (k : K)
  | copy (i : Nat)
  | assign (i j : Nat)
  | destroy (i : Nat)

namespace Store

section Code

variable {T K V : Type} [DecidableEq K] (B : Nat) (hashOf : K → Hash)

/-- Before the first call `empty()` has its root. -/
def init : Store T := ⟨⟨[⟨1, false, .inner ⟨0, 0, none, []⟩⟩], fun _ _ => 0⟩, 0, []⟩

/-- `dec`. -/
def release (B : Nat) (m : Mem T) (c : MapRef) : Option (Mem T) := do
  let r ← m.dec c.root
  if r.1 then Mem.deleteDeep (maxDepth B) c.root r.2 else some r.2

def share (s : Store T) (c : MapRef) : Option (Store T) := do
  let m ← s.mem.inc c.root
  some { s with mem := m, maps := c :: s.maps }

def put (s : Store (K × V)) (i : Nat) (k : K) (combine : Option V → V) :
    Option (Store (K × V)) := do
  let c ← s.maps[i]?
  let res ← Mem.doPut B hashOf k combine (maxDepth B) 0 c.root s.mem
  some { s with
    mem := res.2.2
    maps := ⟨res.1, c.size + if res.2.1 then 1 else 0⟩ :: s.maps }

def step (dflt : V) (s : Store (K × V)) : Call K V → Option (Store (K × V))
  | .empty => s.share ⟨s.empty, 0⟩
  | .add i v => s.put B hashOf i v.1 fun _ => v.2
  | .update i k fn => s.put B hashOf i k fun old => fn (old.getD dflt)
  | .sub i k => do
    let c ← s.maps[i]?
    match ← Mem.doSub B hashOf k s.empty (maxDepth B) 0 c.root s.mem with
    | .nothing => s.share c
    | .tree t m => some { s with mem := m, maps := ⟨t, c.size - 1⟩ :: s.maps }
    | .singleton _ => none
  | .copy i => do
    let c ← s.maps[i]?
    s.share c
  | .assign i j => do
    let other ← s.maps[j]?
    let m ← s.mem.inc other.root
    let old ← s.maps[i]?
    let m ← release B m old
    some { s with mem := m, maps := s.maps.set i other }
  | .destroy i => do
    let c ← s.maps[i]?
    let m ← release B s.mem c
    some { s with mem := m, maps := s.maps.eraseIdx i }

end Code

end Store

end Pmdk.Hamts
