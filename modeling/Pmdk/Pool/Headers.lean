import Pmdk.Pool.Sync

/-!
# Headers of the parts of a pool set

Every part with a header has a UUID, and its header has the UUIDs of the parts before and after it
in its replica and of the first parts of the replicas before and after its own, both in a ring. The
headers are created by `util_header_create` and checked by `util_header_check`.

The type of the UUIDs is a parameter, as is the checksum. The shutdown state is ignored. The
attributes of a local pool set have no UUIDs and no architecture flags.
-/

namespace Pmdk.Sync

open Function

/-- The types that `pool_hdr_get_type` knows. -/
inductive PoolType
  | log
  | blk
  | obj
  | cto
  deriving DecidableEq

/-- `features_t`. -/
structure Features where
  compat : UInt32
  incompat : UInt32
  roCompat : UInt32
  deriving DecidableEq

structure PoolAttr where
  signature : PoolType
  major : Nat
  features : Features
  deriving DecidableEq

structure PoolHdr (α : Type*) where
  signature : PoolType
  major : Nat
  features : Features
  poolsetUuid : α
  uuid : α
  prevPartUuid : α
  nextPartUuid : α
  prevReplUuid : α
  nextReplUuid : α
  crtime : Nat
  archFlags : Nat
  checksum : Nat
  deriving DecidableEq

def poolFeatSinglehdr : UInt32 := 1

/-- What of the machine is in a header: the architecture, the creation times of the part files and
the function that calculates the checksum of a header, from all that is before it. -/
structure Machine (α : Type*) where
  archFlags : Nat
  ctime : Nat → Nat → Nat
  fletcher : PoolHdr α → Nat

section

variable {α : Type*} (machine : Machine α)

/-- `util_checksum` with `insert` set. -/
def PoolHdr.insertChecksum (hdr : PoolHdr α) : PoolHdr α :=
  { hdr with checksum := machine.fletcher { hdr with checksum := 0 } }

/-- `util_checksum` with `insert` not set. -/
def PoolHdr.checkChecksum (hdr : PoolHdr α) : Bool :=
  machine.fletcher { hdr with checksum := 0 } == hdr.checksum

/-- The UUIDs in `struct pool_set`, the mapped headers, and how many UUIDs have been generated. -/
structure Headers (α : Type*) where
  uuid : α
  partUuid : Nat → Nat → α
  hdr : Nat → Nat → PoolHdr α
  generated : Nat

namespace PoolSet

variable (set : PoolSet)

def nhdrs (r : Nat) : Nat := if set.singlehdr then 1 else set.nparts r

/-- `REPN` and `REPP`. -/
def repn (r : Nat) : Nat := (set.nreplicas + r + 1) % set.nreplicas

def repp (r : Nat) : Nat := (set.nreplicas + r - 1) % set.nreplicas

/-- `PARTN` and `PARTP`. -/
def partn (r p : Nat) : Nat := (set.nparts r + p + 1) % set.nparts r

def partp (r p : Nat) : Nat := (set.nparts r + p - 1) % set.nparts r

/-- `HDRN` and `HDRP`. -/
def hdrn (r p : Nat) : Nat := (set.nhdrs r + p + 1) % set.nhdrs r

def hdrp (r p : Nat) : Nat := (set.nhdrs r + p - 1) % set.nhdrs r

def slots : List (Nat × Nat) :=
  (List.range set.nreplicas).flatMap fun r => (List.range (set.nhdrs r)).map fun p => (r, p)

end PoolSet

namespace Headers

variable (set : PoolSet) (h : Headers α)

def setHdr (r p : Nat) (hdr : PoolHdr α) : Headers α :=
  { h with hdr := update h.hdr r (update (h.hdr r) p hdr) }

def setUuid (r p : Nat) (uuid : α) : Headers α :=
  { h with partUuid := update h.partUuid r (update (h.partUuid r) p uuid) }

/-- `util_uuid_generate` for the part; `uuids` are those that are generated one after another. -/
def generate (uuids : Nat → α) (r p : Nat) : Headers α :=
  { h.setUuid r p (uuids h.generated) with generated := h.generated + 1 }

def create (attr : PoolAttr) (r p : Nat) : Headers α :=
  h.setHdr r p (PoolHdr.insertChecksum machine
    { signature := attr.signature
      major := attr.major
      features := { attr.features with
        incompat := if set.singlehdr then attr.features.incompat ||| poolFeatSinglehdr
          else attr.features.incompat }
      poolsetUuid := h.uuid
      uuid := h.partUuid r p
      prevPartUuid := if set.singlehdr then h.partUuid r 0 else h.partUuid r (set.partp r p)
      nextPartUuid := if set.singlehdr then h.partUuid r 0 else h.partUuid r (set.partn r p)
      prevReplUuid := h.partUuid (set.repp r) 0
      nextReplUuid := h.partUuid (set.repn r) 0
      crtime := machine.ctime r p
      archFlags := machine.archFlags
      checksum := 0 })

def poolCreateUuids (uuids : Nat → α) (attr : PoolAttr) : Headers α :=
  let h := { h with uuid := uuids h.generated, generated := h.generated + 1 }
  let h := set.slots.foldl (fun h s => h.generate uuids s.1 s.2) h
  set.slots.foldl (fun h s => h.create machine set attr s.1 s.2) h

def checkHeaderOptions (incompat : UInt32) : Bool :=
  decide (set.singlehdr = false) == decide (incompat &&& poolFeatSinglehdr = 0)

variable [DecidableEq α]

def headerCheck (attr : PoolAttr) (r p : Nat) : Bool :=
  let hdr := h.hdr r p
  hdr.major != 0 && hdr.signature == attr.signature && hdr.major == attr.major &&
  -- `util_feature_check`
  hdr.features.incompat &&& ~~~attr.features.incompat == 0 &&
  hdr.checkChecksum machine && hdr.archFlags == machine.archFlags &&
  (h.hdr 0 0).poolsetUuid == hdr.poolsetUuid &&
  (h.hdr r (set.hdrp r p)).uuid == hdr.prevPartUuid &&
  (h.hdr r (set.hdrn r p)).uuid == hdr.nextPartUuid &&
  (h.hdr r 0).major == hdr.major && (h.hdr r 0).features == hdr.features &&
  checkHeaderOptions set (h.hdr r 0).features.incompat

def replicaCheck (attr : PoolAttr) : Bool :=
  (List.range set.nreplicas).all fun r =>
    ((List.range (set.nhdrs r)).all fun p => h.headerCheck machine set attr r p) &&
    (h.hdr (set.repp r) 0).uuid == (h.hdr r 0).prevReplUuid &&
    (h.hdr (set.repn r) 0).uuid == (h.hdr r 0).nextReplUuid

end Headers

end

/-! ## Synchronizing the headers

What `replica_sync` does to the headers of a pool set some part files of which are missing: the UUID
of a recreated part is taken from the header of a neighbour, or a new one is generated, then its
header is created, and then all headers are linked again.
-/

/-- The messages with which `replica_sync` fails here. -/
inductive SyncError
  | noHealthyReplica
  | repeatedUuid
  deriving DecidableEq

section

variable {α : Type*} (machine : Machine α) (set : PoolSet)

/-- What `replica_check_poolset_health` finds: parts that are missing or have a header that is not
valid. -/
def checkPoolsetHealth (missing : Nat → Nat → Bool) (poolSize : Nat) (h : Headers α) : Health where
  replica := fun _ => ⟨false, false, false, false, poolSize⟩
  part := fun r p =>
    { broken := missing r p || decide (p < set.nhdrs r) &&
        -- `check_checksums_and_signatures` and `check_options`
        (!(h.hdr r p).checkChecksum machine ||
          !Headers.checkHeaderOptions set (h.hdr r p).features.incompat)
      hasBadBlocks := false
      hasCorruptedHeader := false
      bbs := [] }

namespace Headers

variable (hs : Health) (h : Headers α)

def fillPartUuid (r p : Nat) : Headers α :=
  if hs.isPartBroken r p then h else h.setUuid r p (h.hdr r p).uuid

section

variable [DecidableEq α]

def isUuidAlreadyUsed (uuid : α) (r : Nat) : Bool :=
  (List.range r).any fun r => uuid == h.partUuid r 0

def fillFromReplica (r p : Nat) (uuid : α) : Except SyncError (Headers α) :=
  if h.isUuidAlreadyUsed uuid r then .error .repeatedUuid else .ok (h.setUuid r p uuid)

def fillBrokenPartUuid (uuids : Nat → α) (r p : Nat) : Except SyncError (Headers α) :=
  if !hs.isPartBroken r p then .ok h
  else if !hs.isPartBroken r (set.partp r p) && !set.singlehdr then
    -- try to get part uuid from the previous part
    .ok (h.setUuid r p (h.hdr r (set.hdrp r p)).nextPartUuid)
  else if !hs.isPartBroken r (set.partn r p) && !set.singlehdr then
    -- try to get part uuid from the next part
    .ok (h.setUuid r p (h.hdr r (set.hdrn r p)).prevPartUuid)
  else if p = 0 && !hs.isPartBroken (set.repp r) 0 then
    -- try to get part uuid from the previous replica
    h.fillFromReplica r p (h.hdr (set.repp r) 0).nextReplUuid
  else if p = 0 && !hs.isPartBroken (set.repn r) 0 then
    -- try to get part uuid from the next replica
    h.fillFromReplica r p (h.hdr (set.repn r) 0).prevReplUuid
  else .ok (h.generate uuids r p)

def fillStructUuids (uuids : Nat → α) (src : Nat) : Except SyncError (Headers α) :=
  let h := { h with uuid := (h.hdr src 0).poolsetUuid }
  let h := set.slots.foldl (fun h s => h.fillPartUuid hs s.1 s.2) h
  set.slots.foldlM (fun h s => h.fillBrokenPartUuid set hs uuids s.1 s.2) h

end

def hdr2attr (hdr : PoolHdr α) : PoolAttr := ⟨hdr.signature, hdr.major, hdr.features⟩

def createForBrokenPart (srcHdr : PoolHdr α) (r p : Nat) : Headers α :=
  if !hs.isReplicaBroken set r && !(hs.replica r).hasBadBlocks then h
  else if !hs.isPartBroken r p && !(hs.part r p).hasCorruptedHeader then h
  else h.create machine set (hdr2attr srcHdr) r p

def updateHdr (r p : Nat) (f : PoolHdr α → PoolHdr α) : Headers α :=
  h.setHdr r p ((f (h.hdr r p)).insertChecksum machine)

def updatePartLinkage (r p : Nat) : Headers α :=
  let h := h.updateHdr machine r p fun hdr => { hdr with
    prevPartUuid := h.partUuid r (set.partp r p)
    nextPartUuid := h.partUuid r (set.partn r p) }
  let h := h.updateHdr machine r (set.hdrp r p) fun hdr =>
    { hdr with nextPartUuid := h.partUuid r p }
  h.updateHdr machine r (set.hdrn r p) fun hdr => { hdr with prevPartUuid := h.partUuid r p }

def updateReplica (r : Nat) (f : PoolHdr α → PoolHdr α) : Headers α :=
  (List.range (set.nhdrs r)).foldl (fun h p => h.updateHdr machine r p f) h

def updateReplicasLinkage (r : Nat) : Headers α :=
  let h := h.updateReplica machine set r fun hdr => { hdr with
    prevReplUuid := h.partUuid (set.repp r) 0
    nextReplUuid := h.partUuid (set.repn r) 0 }
  let h := h.updateReplica machine set (set.repp r) fun hdr =>
    { hdr with nextReplUuid := h.partUuid r 0 }
  h.updateReplica machine set (set.repn r) fun hdr => { hdr with prevReplUuid := h.partUuid r 0 }

def updatePoolsetUuids (r : Nat) : Headers α :=
  h.updateReplica machine set r fun hdr => { hdr with poolsetUuid := h.uuid }

def updateUuids (r : Nat) : Headers α :=
  let h := if hs.isReplicaHealthy set r then h
    else (List.range (set.nhdrs r)).foldl (fun h p => h.updatePartLinkage machine set r p) h
  (h.updateReplicasLinkage machine set r).updatePoolsetUuids machine set r

variable [DecidableEq α]

/-- `replica_sync` without bad blocks, as far as the headers are concerned. -/
def replicaSync (uuids : Nat → α) : Except SyncError (Headers α) :=
  if hs.isPoolsetHealthy set then .ok h
  else
    match hs.findHealthyReplica set with
    | none => .error .noHealthyReplica
    | some src => do
      let h ← h.fillStructUuids set hs uuids src
      let h := set.slots.foldl (fun g s =>
        g.createForBrokenPart machine set hs (h.hdr src 0) s.1 s.2) h
      .ok ((List.range set.nreplicas).foldl (fun h r => h.updateUuids machine set hs r) h)

end Headers

end

end Pmdk.Sync
