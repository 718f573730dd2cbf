import Pmdk.Immer.Rbtree
import Pmdk.Lib.FlushLog

/-!
# Flushes of the new nodes of a vector

`push_back_ptr` and `set_ptr` with what they store to the memory of the nodes that they allocate,
and with what they flush: each of these nodes has a log of its own. The flushes of a node's lines
come from the functions that fill the node; only the lines that `NVM_PERSIST` gathers are flushed at
the end of the call, by `NVM_FINALIZE`.

The nodes are allocated at the start of a line, and the set of the lines to flush has room for all
of them.
-/

namespace Pmdk.Regular

open FlushLog (Event)

/-! ## The memory of a node -/

/-- Where the arrays are in the memory of a node, and the sizes of a value and of the vector
object, which is at `vector` in its line. The pointer to the relaxed data is right before the
array of the children. -/
structure Layout where
  innerBuffer : Nat
  leafBuffer : Nat
  valueSize : Nat
  vector : Nat
  vectorSize : Nat
  relaxed_le : 8 ≤ innerBuffer
  dvd_innerBuffer : 8 ∣ innerBuffer
  valueSize_pos : 0 < valueSize

namespace Layout

variable (L : Layout)

def inner (i : Nat) : Nat := L.innerBuffer + 8 * i

def relaxed : Nat := L.innerBuffer - 8

def leaf (i : Nat) : Nat := L.leafBuffer + L.valueSize * i

def sizeofPackedInnerN (count : Nat) : Nat := L.innerBuffer + 8 * count

def sizeofPackedLeafN (count : Nat) : Nat := L.leafBuffer + L.valueSize * count

end Layout

section Code

variable {T : Type} (L : Layout) (B BL : Nat)

/-! ## Nodes with logs -/

inductive Copied (T : Type) where
  | shared (node : Node T)
  | inner (log : List Event) (children : List (Copied T))
  | leaf (log : List Event) (values : List T)

def Copied.erase : Copied T → Node T
  | .shared node => node
  | .inner _ children => .inner (children.map erase)
  | .leaf _ values => .leaf values

def makeInnerN : List Event := [.write L.relaxed (L.relaxed + 8)]

/-- `do_copy_inner`. The length of what is flushed is the difference to the last pointer. -/
def doCopyInner (n : Nat) : List Event :=
  [.write (L.inner 0) (L.inner n), .gather (L.inner 0) (L.inner n - 8)]

/-- `copy_leaf` and `copy_leaf_n`. -/
def copyLeaf (n : Nat) : List Event :=
  [.write (L.leaf 0) (L.leaf n), .gather (L.leaf 0) (L.leaf n - L.valueSize)]

def writeInner (i : Nat) : List Event := [.write (L.inner i) (L.inner (i + 1))]

def writeLeaf (i : Nat) : List Event := [.write (L.leaf i) (L.leaf (i + 1))]

def copiedPath (tail : Node T) : Nat → Copied T
  | 0 => .shared tail
  | k + 1 =>
    .inner (makeInnerN L ++ writeInner L 0 ++ [.flush 0 (L.sizeofPackedInnerN 1)])
      [copiedPath tail k]

/-! ## Visitors -/

/-- `push_tail_visitor`. -/
def copiedPushTail (tail : Node T) : Nat → Pos → Node T → Option (Copied T)
  | k + 1, pos, .inner children => do
    let shift := shiftAt B BL k
    let size := pos.size B shift
    let idx := Pos.index B shift (size - 1)
    let newIdx := Pos.index B shift (size + branches BL - 1)
    let newChild ←
      if idx = newIdx then do
        let child ← children[idx]?
        copiedPushTail tail k (.regular size) child
      else some (copiedPath L tail k)
    let children ← firstN newIdx children
    some (.inner
      (makeInnerN L ++ writeInner L newIdx ++ [.flush (L.inner newIdx) (L.inner newIdx + 1)] ++
        doCopyInner L newIdx)
      (children.map .shared ++ [newChild]))
  | _, _, _ => none

/-- `update_visitor`. -/
def copiedUpdate (fn : T → T) (idx : Nat) : Nat → Pos → Node T → Option (Copied T)
  | 0, pos, .leaf values => do
    let offset := Pos.leafIndex BL idx
    let count := pos.leafCount BL
    let values ← firstN count values
    let x ← values[offset]?
    some (.leaf (copyLeaf L count ++ writeLeaf L offset) (values.set offset (fn x)))
  | k + 1, pos, .inner children => do
    let shift := shiftAt B BL k
    let offset := Pos.index B shift idx
    let count := pos.count B shift
    let child ← children[offset]?
    let child ← copiedUpdate fn idx k (pos.child B shift offset) child
    let children ← firstN count children
    some (.inner (makeInnerN L ++ doCopyInner L count ++ writeInner L offset)
      ((children.map .shared).set offset child))
  | _, _, _ => none

/-! ## Vectors -/

structure NewVector (T : Type) where
  size : Nat
  shift : Nat
  root : Copied T
  tail : Copied T
  log : List Event

def NewVector.erase (v : NewVector T) : Rbtree T := ⟨v.size, v.shift, v.root.erase, v.tail.erase⟩

/-- The vector object is moved from what `impl_` returns. -/
def newVector (size shift : Nat) (root tail : Copied T) : NewVector T :=
  ⟨size, shift, root, tail,
    [.write L.vector (L.vector + L.vectorSize), .gather L.vector (L.vector + L.vectorSize)]⟩

namespace Rbtree

variable (t : Rbtree T)

def pushBackPtr (value : T) : Option (NewVector T) := do
  let tailOff := t.tailOffset BL
  let ts := t.size - tailOff
  if ts < branches BL then
    match t.tail with
    | .leaf values => do
      let values ← firstN ts values
      some (newVector L (t.size + 1) t.shift (.shared t.root)
        (.leaf (copyLeaf L ts ++ writeLeaf L ts ++ [.flush 0 (L.sizeofPackedLeafN (ts + 1))])
          (values ++ [value])))
    | .inner _ => none
  else do
    let newTail := .leaf (writeLeaf L 0 ++ [.flush 0 (L.sizeofPackedLeafN 1)]) [value]
    if tailOff = branches B <<< t.shift then
      some (newVector L (t.size + 1) (t.shift + B)
        (.inner (makeInnerN L ++ writeInner L 0 ++ writeInner L 1 ++
          [.flush 0 (L.sizeofPackedInnerN 2)])
          [.shared t.root, copiedPath L t.tail (t.level B BL)]) newTail)
    else if tailOff ≠ 0 then do
      let root ← copiedPushTail L B BL t.tail (t.level B BL) (t.rootPos BL) t.root
      some (newVector L (t.size + 1) t.shift root newTail)
    else
      some (newVector L (t.size + 1) t.shift (copiedPath L t.tail (t.level B BL)) newTail)

def setPtr (idx : Nat) (value : T) : Option (NewVector T) := do
  let tailOff := t.tailOffset BL
  if idx ≥ tailOff then do
    let tail ← copiedUpdate L B BL (fun _ => value) (idx - tailOff) 0 (t.tailPos BL) t.tail
    some (newVector L t.size t.shift (.shared t.root) tail)
  else do
    let root ← copiedUpdate L B BL (fun _ => value) idx (t.level B BL) (t.rootPos BL) t.root
    some (newVector L t.size t.shift root (.shared t.tail))

end Rbtree

/-! ## What is flushed when a call returns -/

inductive Within : Copied T → Copied T → Prop where
  | self (n : Copied T) : Within n n
  | child {n c : Copied T} {log : List Event} {children : List (Copied T)} (hc : c ∈ children)
      (h : Within n c) : Within n (.inner log children)

/-- `NVM_FINALIZE`, after which the call returns. -/
def FlushedAtReturn (log : List Event) (b : Nat) : Prop := FlushLog.Flushed (log ++ [.finalize]) b

instance (log : List Event) (b : Nat) : Decidable (FlushedAtReturn log b) :=
  inferInstanceAs (Decidable (FlushLog.Flushed _ b))

def Copied.Flushed : Copied T → Prop
  | .shared _ => True
  | .inner log children =>
    ∀ b, L.relaxed ≤ b → b < L.inner children.length → FlushedAtReturn log b
  | .leaf log values => ∀ b, L.leaf 0 ≤ b → b < L.leaf values.length → FlushedAtReturn log b

structure NewVector.Published (v : NewVector T) : Prop where
  root : ∀ n, Within n v.root → n.Flushed L
  tail : ∀ n, Within n v.tail → n.Flushed L
  vector : ∀ b, L.vector ≤ b → b < L.vector + L.vectorSize → FlushedAtReturn v.log b

end Code

end Pmdk.Regular
