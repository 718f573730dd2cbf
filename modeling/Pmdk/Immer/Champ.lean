import Pmdk.Lib.Packed

/-!
# Hash tries

The trie of `champ`: an inner node has the bitmap `datamap` of the slots that hold a value, the
bitmap `nodemap` of the slots that hold a child, and the two packed arrays. A slot is chosen by the
next `B` bits of the hash. When the hash is used up, the keys that are left are in a collision
node. An operation copies the nodes on its path.

The functions that recurse on a depth `d` are called with `shift + d * B = maxShift B`: the test
`shift == max_shift<B>` of the source is the test whether `d` is zero.
-/

namespace Pmdk.Hamts

open Packed

abbrev Bitmap := BitVec 32

abbrev Hash := BitVec 64

/-! ## Nodes -/

/-- An inner node, whose children are of type `N`. -/
structure Inner (N T : Type) where
  nodemap : Bitmap
  datamap : Bitmap
  values : List T
  children : List N

inductive Node (T : Type) where
  | inner (node : Inner (Node T) T)
  | collision (values : List T)

namespace Inner

variable {N T : Type}

def empty : Inner N T := ⟨0, 0, [], []⟩

def copyInnerReplace (src : Inner N T) (offset : Nat) (child : N) : Inner N T :=
  { src with children := src.children.set offset child }

def copyInnerReplaceValue (src : Inner N T) (offset : Nat) (v : T) : Inner N T :=
  { src with values := src.values.set offset v }

def copyInnerReplaceMerged (src : Inner N T) (bit : Bitmap) (voffset : Nat) (node : N) :
    Inner N T where
  nodemap := src.nodemap ||| bit
  datamap := src.datamap &&& ~~~bit
  values := src.values.eraseIdx voffset
  children := src.children.insertIdx (offset src.nodemap bit) node

def copyInnerReplaceInline (src : Inner N T) (bit : Bitmap) (noffset : Nat) (value : T) :
    Inner N T where
  nodemap := src.nodemap &&& ~~~bit
  datamap := src.datamap ||| bit
  values := src.values.insertIdx (offset src.datamap bit) value
  children := src.children.eraseIdx noffset

def withoutValue (src : Inner N T) (bit : Bitmap) (voffset : Nat) : Inner N T :=
  { src with
    datamap := src.datamap &&& ~~~bit
    values := src.values.eraseIdx voffset }

/-- Where no value is left, `make_inner_n` leaves the pointer to the values null, and the flush of
the values faults. -/
def copyInnerRemoveValue (src : Inner N T) (bit : Bitmap) (voffset : Nat) : Option (Inner N T) :=
  if popcount src.datamap = 1 then none else some (src.withoutValue bit voffset)

def copyInnerInsertValue (src : Inner N T) (bit : Bitmap) (v : T) : Inner N T :=
  { src with
    datamap := src.datamap ||| bit
    values := src.values.insertIdx (offset src.datamap bit) v }

end Inner

/-! ## Hashes -/

def mask (B : Nat) : Hash := BitVec.ofNat 64 (2 ^ B - 1)

def maxDepth (B : Nat) : Nat := (64 + B - 1) / B

def maxShift (B : Nat) : Nat := maxDepth B * B

def chunk (B : Nat) (hash : Hash) (shift : Nat) : Hash := hash &&& (mask B <<< shift)

def index (B : Nat) (hash : Hash) (shift : Nat) : Nat := (chunk B hash shift >>> shift).toNat

/-! ## Operations -/

section Operations

variable {T K V : Type} [DecidableEq K] (B : Nat) (hashOf : K → Hash)

def makeCollisionN (values : List T) : Option (Node T) :=
  if values.length ≤ 2 ^ B then some (.collision values) else none

def makeMerged : Nat → Nat → T → Hash → T → Hash → Node T
  | 0, _, v1, _, v2, _ => .collision [v1, v2]
  | d + 1, shift, v1, hash1, v2, hash2 =>
    let idx1 := index B hash1 shift
    let idx2 := index B hash2 shift
    if chunk B hash1 shift = chunk B hash2 shift then
      .inner ⟨bit 32 idx1, 0, [], [makeMerged d (shift + B) v1 hash1 v2 hash2]⟩
    else
      .inner ⟨0, bit 32 idx1 ||| bit 32 idx2, if idx1 < idx2 then [v1, v2] else [v2, v1], []⟩

/-- `get`: the default, if any, is that of the caller. -/
def doGet (k : K) : Nat → Hash → Node (K × V) → Option (Option V)
  | 0, _, .collision values => some ((values.find? fun x => x.1 = k).map Prod.snd)
  | d + 1, hash, .inner node =>
    let bit := bit 32 (hash &&& mask B).toNat
    if node.nodemap &&& bit ≠ 0 then do
      let child ← node.children[offset node.nodemap bit]?
      doGet k d (hash >>> B) child
    else if node.datamap &&& bit ≠ 0 then do
      let val ← node.values[offset node.datamap bit]?
      if val.1 = k then some (some val.2) else some none
    else some none
  | _, _, _ => none

/-- `do_add` and `do_update`, which differ in the value that the key gets; it is computed from the
value that the key has. -/
def doPut (k : K) (combine : Option V → V) :
    Nat → Nat → Node (K × V) → Option (Node (K × V) × Bool)
  | 0, _, .collision values =>
    match values.findIdx? fun x => x.1 = k with
    | some pos => do
      let old ← values[pos]?
      let node ← makeCollisionN B ((k, combine (some old.2)) :: values.eraseIdx pos)
      some (node, false)
    | none => do
      let node ← makeCollisionN B ((k, combine none) :: values)
      some (node, true)
  | d + 1, shift, .inner node =>
    let bit := bit 32 (index B (hashOf k) shift)
    if node.nodemap &&& bit ≠ 0 then do
      let child ← node.children[offset node.nodemap bit]?
      let result ← doPut k combine d (shift + B) child
      some (.inner (node.copyInnerReplace (offset node.nodemap bit) result.1), result.2)
    else if node.datamap &&& bit ≠ 0 then do
      let val ← node.values[offset node.datamap bit]?
      if val.1 = k then
        some (.inner (node.copyInnerReplaceValue (offset node.datamap bit)
          (k, combine (some val.2))), false)
      else
        let child := makeMerged B d (shift + B) (k, combine none) (hashOf k) val (hashOf val.1)
        some (.inner (node.copyInnerReplaceMerged bit (offset node.datamap bit) child), true)
    else some (.inner (node.copyInnerInsertValue bit (k, combine none)), true)
  | _, _, _ => none

def doAdd (v : K × V) : Nat → Nat → Node (K × V) → Option (Node (K × V) × Bool) :=
  doPut B hashOf v.1 fun _ => v.2

def doUpdate (dflt : V) (k : K) (fn : V → V) :
    Nat → Nat → Node (K × V) → Option (Node (K × V) × Bool) :=
  doPut B hashOf k fun old => fn (old.getD dflt)

inductive SubResult (T : Type) where
  | nothing
  | singleton (x : T)
  | tree (node : Node T)

def other (offset : Nat) : Nat := if offset = 0 then 1 else 0

def doSub (k : K) : Nat → Nat → Node (K × V) → Option (SubResult (K × V))
  | 0, _, .collision values =>
    match values.findIdx? fun x => x.1 = k with
    | some cur =>
      if values.length > 2 then do
        let node ← makeCollisionN B (values.eraseIdx cur)
        some (.tree node)
      else do
        let x ← values[other cur]?
        some (.singleton x)
    | none => some .nothing
  | d + 1, shift, .inner node =>
    let bit := bit 32 (index B (hashOf k) shift)
    if node.nodemap &&& bit ≠ 0 then do
      let child ← node.children[offset node.nodemap bit]?
      match ← doSub k d (shift + B) child with
      | .nothing => some .nothing
      | .singleton x =>
        if node.datamap = 0 ∧ popcount node.nodemap = 1 ∧ shift > 0 then some (.singleton x)
        else some (.tree (.inner
          (node.copyInnerReplaceInline bit (offset node.nodemap bit) x)))
      | .tree t => some (.tree (.inner (node.copyInnerReplace (offset node.nodemap bit) t)))
    else if node.datamap &&& bit ≠ 0 then do
      let val ← node.values[offset node.datamap bit]?
      if val.1 = k then
        if node.nodemap ≠ 0 ∨ popcount node.datamap > 2 then do
          let dst ← node.copyInnerRemoveValue bit (offset node.datamap bit)
          some (.tree (.inner dst))
        else if popcount node.datamap = 2 then do
          let x ← node.values[other (offset node.datamap bit)]?
          if shift > 0 then some (.singleton x)
          else some (.tree (.inner ⟨0, node.datamap &&& ~~~bit, [x], []⟩))
        else if shift = 0 then some (.tree (.inner .empty))
        else none
      else some .nothing
    else some .nothing
  | _, _, _ => none

end Operations

/-! ## Tries -/

structure Champ (T : Type) where
  root : Node T
  size : Nat

section Tries

variable {T K V : Type} [DecidableEq K] (B : Nat) (hashOf : K → Hash)

def empty : Champ T := ⟨.inner .empty, 0⟩

def get (k : K) (c : Champ (K × V)) : Option (Option V) :=
  doGet B k (maxDepth B) (hashOf k) c.root

def Champ.withRoot (c : Champ T) (res : Node T × Bool) : Champ T :=
  ⟨res.1, c.size + if res.2 then 1 else 0⟩

def add (v : K × V) (c : Champ (K × V)) : Option (Champ (K × V)) :=
  (doAdd B hashOf v (maxDepth B) 0 c.root).map c.withRoot

def update (dflt : V) (k : K) (fn : V → V) (c : Champ (K × V)) : Option (Champ (K × V)) :=
  (doUpdate B hashOf dflt k fn (maxDepth B) 0 c.root).map c.withRoot

def sub (k : K) (c : Champ (K × V)) : Option (Champ (K × V)) := do
  match ← doSub B hashOf k (maxDepth B) 0 c.root with
  | .nothing => some c
  | .tree t => some ⟨t, c.size - 1⟩
  | .singleton _ => none

def equalItems {α : Type} (eq : α → α → Bool) (n : Nat) (a b : List α) : Bool :=
  (List.range n).all fun i =>
    match a[i]?, b[i]? with
    | some x, some y => eq x y
    | _, _ => false

def equalsCollisions (eq : T → T → Bool) (a b : List T) : Bool :=
  a.all fun x => b.any fun y => eq x y

/-- `equals_tree`; `same` tells which nodes are the same objects. -/
def equalsTree (same : Node T → Node T → Bool) (eq : T → T → Bool) : Nat → Node T → Node T → Bool
  | 0, .collision a, .collision b =>
    same (.collision a) (.collision b) || (a.length == b.length && equalsCollisions eq a b)
  | d + 1, .inner a, .inner b =>
    same (.inner a) (.inner b) ||
      (a.nodemap == b.nodemap && a.datamap == b.datamap &&
        equalItems (equalsTree same eq d) (popcount a.nodemap) a.children b.children &&
        equalItems eq (popcount a.datamap) a.values b.values)
  | _, _, _ => false

def equals (same : Node T → Node T → Bool) (eq : T → T → Bool) (a b : Champ T) : Bool :=
  a.size == b.size && equalsTree same eq (maxDepth B) a.root b.root

end Tries

end Pmdk.Hamts
