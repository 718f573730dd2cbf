import Mathlib.Algebra.Order.Ring.Nat
import Mathlib.Data.List.Basic

/-!
# Bad blocks of the replicas of a pool set

`sync_check_bad_blocks_overlap` merges the bad blocks of one replica after another into a list of
pieces, each with a replica from which it can be fixed, and then cuts the bad blocks of every part
into these pieces. The offsets are relative to the beginning of the pool.

The vector of the pieces so far and the index into it are the list of the pieces that are left. A
failed assertion is `none`.
-/

namespace Pmdk.Sync

/-- `struct bad_block`; `none` is `NO_HEALTHY_REPLICA`. -/
structure BadBlock where
  offset : Nat
  length : Nat
  nhealthy : Option Nat
  deriving DecidableEq

/-- A piece without a healthy replica can be fixed with replica `rep`. -/
def BadBlock.fixedBy (rep : Nat) (bb : BadBlock) : BadBlock :=
  { bb with nhealthy := if bb.nhealthy = none then some rep else bb.nhealthy }

def newHealthy (rep : Nat) : Option Nat :=
  if 0 < rep then some 0 else none

/-- The pieces that end before `begNew`, which are added, and those that are left. -/
def allBefore (rep begNew : Nat) : List BadBlock → List BadBlock × List BadBlock
  | [] => ([], [])
  | prev :: all =>
    if prev.offset + prev.length - 1 < begNew then
      let (add, left) := allBefore rep begNew all
      (prev.fixedBy rep :: add, left)
    else ([], prev :: all)

structure Overlap where
  add : List BadBlock
  left : List BadBlock
  beg : Nat
  len : Nat

def allOverlapping (rep : Nat) : List BadBlock → Nat → Nat → Overlap
  | [], begNew, lenNew => ⟨[], [], begNew, lenNew⟩
  | prev :: all, begNew, lenNew =>
    if lenNew = 0 then ⟨[], prev :: all, begNew, lenNew⟩
    else if prev.offset + prev.length - 1 < begNew ∨ begNew + lenNew - 1 < prev.offset then
      ⟨[], prev :: all, begNew, lenNew⟩
    else
      -- the part that is only in one of the two
      let add : List BadBlock :=
        if prev.offset < begNew then
          [({ prev with length := begNew - prev.offset } : BadBlock).fixedBy rep]
        else if begNew < prev.offset then
          [⟨begNew, prev.offset - begNew, newHealthy rep⟩]
        else []
      let begPrev := if prev.offset < begNew then begNew else prev.offset
      let lenPrev :=
        if prev.offset < begNew then prev.length - (begNew - prev.offset) else prev.length
      let begCommon := if begNew < prev.offset then prev.offset else begNew
      let lenCommon := if begNew < prev.offset then lenNew - (prev.offset - begNew) else lenNew
      -- the part that is in both
      if lenPrev ≤ lenCommon then
        let rest := allOverlapping rep all (begCommon + lenPrev) (lenCommon - lenPrev)
        { rest with add := add ++ ⟨begPrev, lenPrev, prev.nhealthy⟩ :: rest.add }
      else
        ⟨add ++ [⟨begCommon, lenCommon, prev.nhealthy⟩],
          ⟨begPrev + lenCommon, lenPrev - lenCommon, prev.nhealthy⟩ :: all,
          begCommon + lenCommon, 0⟩

/-- One turn of the loop of `sync_badblocks_find_healthy_replica`: what is added for the new bad
block, and what is left. -/
def insertNew (rep : Nat) (all : List BadBlock) (new : BadBlock) :
    List BadBlock × List BadBlock :=
  let (before, all) := allBefore rep new.offset all
  let o := allOverlapping rep all new.offset new.length
  let rest := if 0 < o.len then [⟨o.beg, o.len, newHealthy rep⟩] else []
  (before ++ o.add ++ rest, o.left)

def findHealthyReplica (rep : Nat) (noneSoFar : Bool) (s : List BadBlock × List BadBlock)
    (bbs : List BadBlock) : List BadBlock × List BadBlock :=
  if noneSoFar then
    (s.1, s.2 ++ bbs.map fun bb => if 0 < rep then { bb with nhealthy := some 0 } else bb)
  else
    bbs.foldl (fun s bb =>
      let (add, left) := insertNew rep s.1 bb
      (left, s.2 ++ add)) s

def moveVec (rep : Nat) (s : List BadBlock × List BadBlock) : List BadBlock :=
  s.2 ++ (s.1.filter fun bb => bb.length ≠ 0).map fun bb =>
    if 0 < rep then bb.fixedBy rep else bb

/-- The pieces after replica `rep`, of which `parts` are the bad blocks of the parts that have
some. -/
def mergeReplica (rep : Nat) (parts : List (List BadBlock)) (all : List BadBlock) :
    List BadBlock :=
  moveVec rep (parts.foldl (findHealthyReplica rep all.isEmpty) (all, []))

def mergeReplicas (parts : Nat → List (List BadBlock)) : Nat → List BadBlock
  | 0 => []
  | n + 1 => mergeReplica n (parts n) (mergeReplicas parts n)

def skipBefore (offset : Nat) : List BadBlock → Option (List BadBlock)
  | [] => none
  | pbb :: all =>
    if pbb.offset < offset then if all = [] then none else skipBefore offset all
    else some (pbb :: all)

def assignPieces : List BadBlock → Nat → Nat → Option (List BadBlock × List BadBlock)
  | all, _, 0 => some ([], all)
  | [], _, _ + 1 => none
  | pbb :: all, offset, left + 1 =>
    if pbb.offset ≠ offset ∨ left + 1 < pbb.length then none
    else
      let piece : BadBlock := ⟨offset, pbb.length, pbb.nhealthy⟩
      if left + 1 - pbb.length = 0 then some ([piece], pbb :: all)
      else do
        let (pieces, all) ← assignPieces all (offset + pbb.length) (left + 1 - pbb.length)
        some (piece :: pieces, all)

/-- `sync_badblocks_assign_healthy_replica`: the new bad blocks of a part, and the pieces that the
next part starts with. -/
def assignHealthyReplica : List BadBlock → List BadBlock →
    Option (List BadBlock × List BadBlock)
  | all, [] => some ([], all)
  | all, old :: bbs => do
    let all ← skipBefore old.offset all
    let (pieces, all) ← assignPieces all old.offset old.length
    let (new, all) ← assignHealthyReplica all bbs
    some (pieces ++ new, all)

end Pmdk.Sync
