import Pmdk.Pool.BadBlocks

/-!
# Synchronizing the replicas of a pool set

`pmempool sync` with the option that fixes bad blocks, for local replicas and the data behind the
headers. The health status says which parts are broken, because their file is missing or their
header is not valid, and which bad blocks were found. Bad blocks are cleared and read as zeros, and
so does a part file that is created in place of a broken one.

The mapped parts of a replica lie one after another: part 0 with its header, the other parts without
theirs. An address in a replica is its distance from the beginning of part 0.
-/

namespace Pmdk.Sync

def poolHdrSize : Nat := 4096

def alignDown (size align : Nat) : Nat := size / align * align

def alignUp (size align : Nat) : Nat := (size + align - 1) / align * align

structure Part where
  filesize : Nat
  alignment : Nat

/-- A pool set of local replicas; `singlehdr` is `OPTION_SINGLEHDR`. -/
structure PoolSet where
  nreplicas : Nat
  nparts : Nat → Nat
  part : Nat → Nat → Part
  singlehdr : Bool
  mmapAlign : Nat

/-- The status of a part: `IS_BROKEN`, `HAS_BAD_BLOCKS`, `HAS_CORRUPTED_HEADER` and the bad
blocks. -/
structure PartHealth where
  broken : Bool
  hasBadBlocks : Bool
  hasCorruptedHeader : Bool
  bbs : List BadBlock

structure ReplicaHealth where
  broken : Bool
  inconsistent : Bool
  hasBadBlocks : Bool
  hasCorruptedHeader : Bool
  poolSize : Nat

/-- `struct poolset_health_status`. -/
structure Health where
  replica : Nat → ReplicaHealth
  part : Nat → Nat → PartHealth

abbrev Data := Nat → Nat → UInt8

namespace PoolSet

variable (set : PoolSet)

def hdrsize : Nat := if set.singlehdr then 0 else set.mmapAlign

def partSize (r p : Nat) : Nat :=
  if p = 0 then alignDown (set.part r p).filesize set.mmapAlign
  else alignDown ((set.part r p).filesize - set.hdrsize) (set.part r p).alignment

def partOffset (r : Nat) : Nat → Nat
  | 0 => 0
  | p + 1 => partOffset r p + set.partSize r p

def partDataOffset (r p : Nat) : Nat :=
  if p = 0 then poolHdrSize else set.partOffset r p

def partDataLen (r p : Nat) : Nat :=
  alignDown (set.part r p).filesize (set.part r p).alignment -
    if p = 0 then poolHdrSize else if set.singlehdr then 0 else (set.part r p).alignment

def partHas (r p b : Nat) : Bool :=
  set.partOffset r p ≤ b && b < set.partOffset r p + set.partSize r p

end PoolSet

namespace Health

variable (set : PoolSet) (hs : Health)

def isPartBroken (r p : Nat) : Bool := (hs.replica r).broken || (hs.part r p).broken

def isReplicaBroken (r : Nat) : Bool :=
  (hs.replica r).broken || (List.range (set.nparts r)).any (hs.isPartBroken r)

def isReplicaConsistent (r : Nat) : Bool := !(hs.replica r).inconsistent

def isReplicaHealthy (r : Nat) : Bool :=
  !hs.isReplicaBroken set r && hs.isReplicaConsistent r && !(hs.replica r).hasBadBlocks

def hasHealthyHeader (r : Nat) : Bool :=
  !hs.isReplicaBroken set r && hs.isReplicaConsistent r && !(hs.replica r).hasCorruptedHeader

def findHealthyReplica : Option Nat :=
  (List.range set.nreplicas).find? (hs.isReplicaHealthy set)

def findReplicaHealthyHeader : Option Nat :=
  (List.range set.nreplicas).find? (hs.hasHealthyHeader set)

def brokenAt (r b : Nat) : Bool :=
  (List.range (set.nparts r)).any fun p => hs.isPartBroken r p && set.partHas r p b

def badAt (r b : Nat) : Bool :=
  (List.range (set.nparts r)).any fun p => set.partHas r p b && (hs.part r p).bbs.any fun bb =>
    bb.offset ≤ b - set.partOffset r p + (if p = 0 then 0 else set.hdrsize) &&
      b - set.partOffset r p + (if p = 0 then 0 else set.hdrsize) < bb.offset + bb.length

/-- `replica_badblocks_clear`: the flags are set, and the bad blocks read as zeros. -/
def badblocksClear (mem : Data) : Health × Data :=
  ({ replica := fun r => { hs.replica r with
        hasBadBlocks := (hs.replica r).hasBadBlocks ||
          (List.range (set.nparts r)).any fun p => !(hs.part r p).bbs.isEmpty
        hasCorruptedHeader := (hs.replica r).hasCorruptedHeader ||
          (0 < set.nparts r && (hs.part r 0).bbs.any fun bb => bb.offset < poolHdrSize) }
     part := fun r p => { hs.part r p with
        hasBadBlocks := (hs.part r p).hasBadBlocks || !(hs.part r p).bbs.isEmpty
        hasCorruptedHeader := (hs.part r p).hasCorruptedHeader ||
          (hs.part r p).bbs.any fun bb => bb.offset < poolHdrSize } },
    fun r b => if hs.badAt set r b then 0 else mem r b)

/-- `recreate_broken_parts`: new files in place of the broken parts. -/
def recreateBrokenParts (mem : Data) : Health × Data :=
  ({ hs with part := fun r p =>
        if hs.isPartBroken r p then { hs.part r p with hasBadBlocks := false }
        else hs.part r p },
    fun r b => if hs.brokenAt set r b then 0 else mem r b)

def recalcBadblock (r p : Nat) (bb : BadBlock) : BadBlock :=
  if bb.length + bb.offset ≤ set.hdrsize then bb
  else
    let (off, len) :=
      if 0 < p ∧ 0 < set.hdrsize then
        if set.hdrsize ≤ bb.offset then (bb.offset - set.hdrsize, bb.length)
        else (0, bb.length - (set.hdrsize - bb.offset))
      else (bb.offset, bb.length)
    let alignment := (set.part r p).alignment
    -- `replica_align_badblock_offset_length`
    let offDown := alignDown off alignment
    ⟨set.partOffset r p + offDown, alignUp (len + (off - offDown)) alignment % 2 ^ 32,
      bb.nhealthy⟩

def recalcBadblocks : Health :=
  { hs with part := fun r p =>
      if (hs.part r p).hasBadBlocks then
        { hs.part r p with bbs := (hs.part r p).bbs.map (recalcBadblock set r p) }
      else hs.part r p }

def badParts (r : Nat) : List (List BadBlock) :=
  ((List.range (set.nparts r)).filter fun p => (hs.part r p).hasBadBlocks).map fun p =>
    (hs.part r p).bbs

def setBbs (r p : Nat) (bbs : List BadBlock) : Health :=
  { hs with part := fun r' p' =>
      if r' = r ∧ p' = p then { hs.part r' p' with bbs } else hs.part r' p' }

def assignParts (r : Nat) (all : List BadBlock) : Option (Health × List BadBlock) :=
  (List.range (set.nparts r)).foldlM (fun (hs, all) p =>
    if (hs.part r p).hasBadBlocks then do
      let (new, all) ← assignHealthyReplica all (hs.part r p).bbs
      some (hs.setBbs r p new, all)
    else some (hs, all)) (hs, all)

/-- `sync_check_bad_blocks_overlap`; `some none` is the answer that there are bad blocks that cannot
be fixed. -/
def checkBadBlocksOverlap : Option (Option Health) :=
  let all := mergeReplicas (hs.badParts set) set.nreplicas
  if all.any fun bb => bb.nhealthy = none then some none
  else do
    let hs ← (List.range set.nreplicas).foldlM (fun hs r =>
      if (hs.replica r).hasBadBlocks then do
        let (hs, _) ← hs.assignParts set r all
        some hs
      else some hs) hs
    some (some hs)

/-- What `sync_badblocks_data` copies, in order: the replica and the piece of a bad block. -/
def badblocksCopies : List (Nat × BadBlock) :=
  (List.range set.nreplicas).flatMap fun r =>
    ((List.range (set.nparts r)).filter fun p => (hs.part r p).hasBadBlocks).flatMap fun p =>
      (hs.part r p).bbs.map fun bb => (r, bb)

end Health

/-- `sync_copy_data`: the same addresses of another replica are copied. -/
def copyData (mem : Data) (src dst off len : Nat) : Data :=
  Function.update mem dst fun b => if off ≤ b ∧ b < off + len then mem src b else mem dst b

namespace Health

variable (set : PoolSet) (hs : Health)

def badblocksData (mem : Data) : Option (Health × Data) := do
  let mem ← (hs.badblocksCopies set).foldlM (fun mem (r, bb) =>
    bb.nhealthy.map fun h => copyData mem h r bb.offset bb.length) mem
  some ({ replica := fun r => { hs.replica r with hasBadBlocks := false }
          part := fun r p => { hs.part r p with hasBadBlocks := false } }, mem)

def copyDataToBrokenParts (healthy poolsize : Nat) (mem : Data) : Data :=
  (List.range set.nreplicas).foldl (fun mem r =>
    if hs.isReplicaHealthy set r then mem
    else (List.range (set.nparts r)).foldl (fun mem p =>
      if !hs.isPartBroken r p && hs.isReplicaConsistent r then mem
      else
        let off := set.partDataOffset r p
        let len := set.partDataLen r p
        -- do not allow copying too much data
        if poolsize ≤ off then mem
        else copyData mem healthy r off (if poolsize < off + len then poolsize - off else len))
      mem) mem

def isPoolsetHealthy : Bool :=
  (List.range set.nreplicas).all (hs.isReplicaHealthy set)

/-- `replica_sync` from where the bad blocks are cleared; `none` is any failure. -/
def replicaSync (mem : Data) : Option Data := do
  let (hs, mem) := hs.badblocksClear set mem
  if hs.isPoolsetHealthy set then some mem
  else do
    let header ← (hs.findHealthyReplica set).or (hs.findReplicaHealthyHeader set)
    let (hs, mem) := hs.recreateBrokenParts set mem
    let poolsize := (hs.replica header).poolSize
    let hs := hs.recalcBadblocks set
    let hs ← (hs.checkBadBlocksOverlap set).join
    let (hs, mem) ← hs.badblocksData set mem
    let healthy ← hs.findHealthyReplica set
    some (hs.copyDataToBrokenParts set healthy poolsize mem)

end Health

end Pmdk.Sync
