import Mathlib.Algebra.Order.Ring.Nat

/-!
# Regular vectors

The tree of `rbtree`: the elements are in the leaves, the last of which is kept apart as the tail.

The functions that recurse on a level `k` visit a node whose children are at the level below; a leaf
is at level 0, and the shift of a node at level `k + 1` is `BL + k * B`, so `shift == BL` is the
test whether the children are leaves. The sizes are less than `2 ^ 31`, and the sums and shifts do
not overflow. A read beyond the end of an array is `none`.

The lines that `NVM_PERSIST` gathers, which an assertion bounds by 100, are finalized between the
calls and are not part of the model.
-/

namespace Pmdk.Regular

/-! ## Nodes and positions -/

inductive Node (T : Type) where
  | inner (children : List (Node T))
  | leaf (values : List T)

def branches (b : Nat) : Nat := 2 ^ b

def mask (b : Nat) : Nat := branches b - 1

/-- A position: `full_pos`, `regular_pos`, or `regular_sub_pos`, and for leaves `full_leaf_pos`,
`leaf_pos` or `leaf_sub_pos`. The size of the second is that of the whole tree up to the end of the
node, the size of the third is that of the node. -/
inductive Pos where
  | full
  | regular (size : Nat)
  | sub (size : Nat)
deriving DecidableEq

section Code

variable {T α : Type} (B BL : Nat)

def shiftAt (k : Nat) : Nat := BL + k * B

namespace Pos

def leafCount : Pos → Nat
  | .full => branches BL
  | .regular size => ((size - 1) &&& mask BL) + 1
  | .sub count => count

def leafIndex (idx : Nat) : Nat := idx &&& mask BL

def count (shift : Nat) : Pos → Nat
  | .full => branches B
  | .regular size => ((size - 1) >>> shift &&& mask B) + 1
  | .sub size => ((size - 1) >>> shift) + 1

def index (shift idx : Nat) : Nat := idx >>> shift &&& mask B

def size (shift : Nat) : Pos → Nat
  | .full => branches B <<< shift
  | .regular size => size
  | .sub size => size

/-- The position of the child that `towards_oh_ch`, `last_oh` or `each` visits. -/
def child (shift offset : Nat) (p : Pos) : Pos :=
  match p with
  | .full => .full
  | .regular size | .sub size =>
    if offset + 1 ≠ p.count B shift then .full else .regular size

end Pos

def firstN (n : Nat) (l : List α) : Option (List α) :=
  if n ≤ l.length then some (l.take n) else none

/-! ## Visitors -/

/-- `descend`. -/
def getVisitor (idx : Nat) : Nat → Node T → Option T
  | 0, .leaf values => values[Pos.leafIndex BL idx]?
  | k + 1, .inner children => do
    let child ← children[Pos.index B (shiftAt B BL k) idx]?
    getVisitor idx k child
  | _, _ => none

def forEachChunkVisitor : Nat → Pos → Node T → Option (List (List T))
  | 0, pos, .leaf values => do
    let chunk ← firstN (pos.leafCount BL) values
    some [chunk]
  | k + 1, pos, .inner children => do
    let chunks ← (List.range (pos.count B (shiftAt B BL k))).mapM fun offset => do
      let child ← children[offset]?
      forEachChunkVisitor k (pos.child B (shiftAt B BL k) offset) child
    some chunks.flatten
  | _, _, _ => none

/-- `equals_visitor` on trees of the same shape; `same` tells which nodes are the same objects. -/
def equalsVisitor [DecidableEq T] (same : Node T → Node T → Bool) :
    Nat → Pos → Node T → Node T → Option Bool
  | 0, pos, .leaf values, .leaf other =>
    if same (.leaf values) (.leaf other) then some true
    else do
      let a ← firstN (pos.leafCount BL) values
      let b ← firstN (pos.leafCount BL) other
      some (decide (a = b))
  | k + 1, pos, .inner children, .inner other =>
    if same (.inner children) (.inner other) then some true
    else (List.range (pos.count B (shiftAt B BL k))).allM fun offset => do
      let a ← children[offset]?
      let b ← other[offset]?
      equalsVisitor same k (pos.child B (shiftAt B BL k) offset) a b
  | _, _, _, _ => none

def updateVisitor (fn : T → T) (idx : Nat) : Nat → Pos → Node T → Option (Node T)
  | 0, pos, .leaf values => do
    let offset := Pos.leafIndex BL idx
    let values ← firstN (pos.leafCount BL) values
    let x ← values[offset]?
    some (.leaf (values.set offset (fn x)))
  | k + 1, pos, .inner children => do
    let offset := Pos.index B (shiftAt B BL k) idx
    let child ← children[offset]?
    let child ← updateVisitor fn idx k (pos.child B (shiftAt B BL k) offset) child
    let children ← firstN (pos.count B (shiftAt B BL k)) children
    some (.inner (children.set offset child))
  | _, _, _ => none

def makePath (tail : Node T) : Nat → Node T
  | 0 => tail
  | k + 1 => .inner [makePath tail k]

def pushTailVisitor (tail : Node T) : Nat → Pos → Node T → Option (Node T)
  | k + 1, pos, .inner children => do
    let shift := shiftAt B BL k
    let size := pos.size B shift
    let idx := Pos.index B shift (size - 1)
    let newIdx := Pos.index B shift (size + branches BL - 1)
    let newChild ←
      if idx = newIdx then do
        let child ← children[idx]?
        pushTailVisitor tail k (.regular size) child
      else some (makePath tail k)
    let children ← firstN newIdx children
    some (.inner (children ++ [newChild]))
  | _, _, _ => none

/-- The result of `slice_right_visitor`: the new shift, the new root, and the new tail. -/
structure Sliced (T : Type) where
  shift : Nat
  root : Option (Node T)
  tail : Node T

def sliceRightVisitor (last : Nat) : Bool → Nat → Pos → Node T → Option (Sliced T)
  | _, 0, pos, .leaf values => do
    let newTailSize := Pos.leafIndex BL last + 1
    if newTailSize = pos.leafCount BL then some ⟨0, none, .leaf values⟩
    else do
      let values ← firstN newTailSize values
      some ⟨0, none, .leaf values⟩
  | collapse, k + 1, pos, .inner children => do
    let shift := shiftAt B BL k
    let idx := Pos.index B shift last
    let child ← children[idx]?
    if collapse = true ∧ idx = 0 then
      sliceRightVisitor last collapse k (pos.child B shift idx) child
    else do
      let subs ← sliceRightVisitor last false k (pos.child B shift idx) child
      match subs.root with
      | some next => do
        let children ← firstN idx children
        some ⟨shift, some (.inner (children ++ [next])), subs.tail⟩
      | none =>
        if idx = 0 then some ⟨shift, none, subs.tail⟩
        else if collapse = true ∧ idx = 1 ∧ shift > BL then do
          let newn ← children[0]?
          some ⟨shift - B, some newn, subs.tail⟩
        else do
          let children ← firstN idx children
          some ⟨shift, some (.inner children), subs.tail⟩
  | _, _, _, _ => none

/-! ## Vectors -/

structure Rbtree (T : Type) where
  size : Nat
  shift : Nat
  root : Node T
  tail : Node T

def empty : Rbtree T := ⟨0, BL, .inner [], .leaf []⟩

namespace Rbtree

variable (t : Rbtree T)

def tailOffset : Nat := if t.size ≠ 0 then (t.size - 1) >>> BL <<< BL else 0

def level : Nat := (t.shift - BL) / B + 1

def rootPos : Pos := .sub (t.tailOffset BL)

def tailPos : Pos := .sub (t.size - t.tailOffset BL)

/-- `visit_regular_descent` handles the shifts of six levels. -/
def get (index : Nat) : Option T :=
  if index ≥ t.tailOffset BL then getVisitor B BL index 0 t.tail
  else if (List.range 6).any fun i => t.shift == BL + B * i then
    getVisitor B BL index (t.level B BL) t.root
  else none

def back : Option T :=
  match t.tail with
  | .leaf values => values[(t.size - 1) &&& mask BL]?
  | .inner _ => none

def forEachChunk : Option (List (List T)) := do
  let chunks ←
    if t.tailOffset BL ≠ 0 then forEachChunkVisitor B BL (t.level B BL) (t.rootPos BL) t.root
    else some []
  let last ← forEachChunkVisitor B BL 0 (t.tailPos BL) t.tail
  some (chunks ++ last)

def equals [DecidableEq T] (same : Node T → Node T → Bool) (other : Rbtree T) : Option Bool :=
  if t.size ≠ other.size then some false
  else if t.size = 0 then some true
  else do
    let roots ←
      if t.size ≤ branches BL then some true
      else equalsVisitor B BL same (t.level B BL) (t.rootPos BL) t.root other.root
    if roots then equalsVisitor B BL same 0 (t.tailPos BL) t.tail other.tail else some false

def pushBack (value : T) : Option (Rbtree T) := do
  let tailOff := t.tailOffset BL
  let ts := t.size - tailOff
  if ts < branches BL then
    match t.tail with
    | .leaf values => do
      let values ← firstN ts values
      some { t with size := t.size + 1, tail := .leaf (values ++ [value]) }
    | .inner _ => none
  else if tailOff = branches B <<< t.shift then
    some ⟨t.size + 1, t.shift + B, .inner [t.root, makePath t.tail (t.level B BL)], .leaf [value]⟩
  else if tailOff ≠ 0 then do
    let root ← pushTailVisitor B BL t.tail (t.level B BL) (t.rootPos BL) t.root
    some ⟨t.size + 1, t.shift, root, .leaf [value]⟩
  else some ⟨t.size + 1, t.shift, makePath t.tail (t.level B BL), .leaf [value]⟩

def update (idx : Nat) (fn : T → T) : Option (Rbtree T) := do
  let tailOff := t.tailOffset BL
  if idx ≥ tailOff then do
    let tail ← updateVisitor B BL fn (idx - tailOff) 0 (t.tailPos BL) t.tail
    some { t with tail := tail }
  else do
    let root ← updateVisitor B BL fn idx (t.level B BL) (t.rootPos BL) t.root
    some { t with root := root }

def assoc (idx : Nat) (value : T) : Option (Rbtree T) := t.update B BL idx fun _ => value

def take (newSize : Nat) : Option (Rbtree T) := do
  let tailOff := t.tailOffset BL
  if newSize = 0 then some (empty BL)
  else if newSize ≥ t.size then some t
  else if newSize > tailOff then
    match t.tail with
    | .leaf values => do
      let values ← firstN (newSize - tailOff) values
      some { t with size := newSize, tail := .leaf values }
    | .inner _ => none
  else do
    let r ← sliceRightVisitor B BL (newSize - 1) true (t.level B BL) (t.rootPos BL) t.root
    match r.root with
    | some root => some ⟨newSize, r.shift, root, r.tail⟩
    | none => some ⟨newSize, BL, .inner [], r.tail⟩

end Rbtree

end Code

end Pmdk.Regular
