import Pmdk.Lib.Span
import Pmdk.Pool.Sync

/-!
# Replicas and their parts

The description of a pool set: the parts of each replica, or the directories that they are created
in, and the sizes that are computed from them. A part is mapped by `util_map_part`. Where the
operating system puts a mapping, and whether it does, is a function of the request.

`size_t` is a number below `2 ^ 64`. A pointer is a number, too; nothing here goes beyond the end of
a mapped region.
-/

namespace Pmdk.Poolset

open Sync (alignDown alignUp poolHdrSize)
open List

structure Part where
  path : List Char
  filesize : Nat
  alignment : Nat
  fd : Int
  created : Bool
  addr : Nat
  size : Nat
  mapSync : Bool
  hdr : Nat
  hdrsize : Nat
  hdrMapSync : Bool
  deriving DecidableEq

structure Directory where
  path : List Char
  resvsize : Nat
  deriving DecidableEq

/-- `struct pool_replica`; the first `nparts` parts that are allocated are listed. -/
structure Replica where
  part : List Part
  directory : List Directory
  nhdrs : Nat
  repsize : Nat
  resvsize : Nat
  remote : Bool
  deriving DecidableEq

/-- `struct pool_set`; the options are `OPTION_SINGLEHDR` and `OPTION_NOHDRS`. -/
structure PoolSet where
  replica : List Replica
  poolsize : Nat
  resvsize : Nat
  singlehdr : Bool
  nohdrs : Bool
  directoryBased : Bool
  nextId : Nat
  nextDirectoryId : Nat
  zeroed : Bool
  deriving DecidableEq

def sizeMax : Nat := 2 ^ 64 - 1

variable {align : Nat} {rep : Replica} {set : PoolSet} {part : Part}

/-! ## Sizes -/

def PoolSet.nhdrs (set : PoolSet) (rep : Replica) : Nat :=
  if set.singlehdr then 1 else if set.nohdrs then 0 else rep.part.length

def PoolSet.hdrsize (align : Nat) (set : PoolSet) : Nat :=
  if set.singlehdr || set.nohdrs then 0 else align

def sumParts (align : Nat) (part : List Part) : Nat :=
  part.foldl (fun n p => (n + alignDown p.filesize align) % 2 ^ 64) 0

def PoolSet.sizedReplica (align : Nat) (set : PoolSet) (rep : Replica) : Replica :=
  let nhdrs := set.nhdrs rep
  let sum := sumParts align rep.part
  let repsize :=
    if 0 < nhdrs then (sum + 2 ^ 64 - (nhdrs - 1) * align % 2 ^ 64) % 2 ^ 64 else sum
  { rep with
    nhdrs := nhdrs
    repsize := repsize
    resvsize := if rep.resvsize = 0 then repsize else rep.resvsize }

def smallest (size : Replica → Nat) (replica : List Replica) : Nat :=
  replica.foldl (fun n rep => if !rep.remote && size rep < n then size rep else n) sizeMax

def utilPoolsetSetSize (align : Nat) (set : PoolSet) : PoolSet :=
  let replica := set.replica.map (set.sizedReplica align)
  { set with
    replica := replica
    poolsize := smallest Replica.repsize replica
    resvsize := smallest Replica.resvsize replica }

/-- The smallest size of a local replica, if one of them is not larger than the bound. -/
theorem smallest_spec {size : Replica → Nat} {replica : List Replica} {n least : Nat}
    (h : replica.foldl (fun n rep => if !rep.remote && size rep < n then size rep else n) n =
      least) :
    (least = n ∨ ∃ rep ∈ replica, rep.remote = false ∧ size rep = least) ∧ least ≤ n ∧
      ∀ rep ∈ replica, rep.remote = false → least ≤ size rep := by
  induction replica generalizing n with
  | nil => exact ⟨.inl h.symm, Nat.le_of_eq h.symm, fun rep hrep => absurd hrep not_mem_nil⟩
  | cons rep replica ih =>
    obtain ⟨hleast, hle, hall⟩ := ih h
    dsimp only at hleast hle
    by_cases hlt : (!rep.remote && size rep < n) = true
    · rw [if_pos hlt] at hleast hle
      rw [Bool.and_eq_true, Bool.not_eq_true', decide_eq_true_eq] at hlt
      refine ⟨.inr ?_, by omega, ?_⟩
      · rcases hleast with heq | ⟨other, hmem, hlocal, heq⟩
        · exact ⟨rep, mem_cons_self, hlt.1, heq.symm⟩
        · exact ⟨other, mem_cons_of_mem _ hmem, hlocal, heq⟩
      · intro other hmem hlocal
        rcases mem_cons.mp hmem with rfl | hmem
        · exact hle
        · exact hall other hmem hlocal
    · rw [if_neg hlt] at hleast hle
      rw [Bool.and_eq_true, Bool.not_eq_true', decide_eq_true_eq] at hlt
      refine ⟨?_, hle, ?_⟩
      · rcases hleast with heq | ⟨other, hmem, hlocal, heq⟩
        · exact .inl heq
        · exact .inr ⟨other, mem_cons_of_mem _ hmem, hlocal, heq⟩
      · intro other hmem hlocal
        rcases mem_cons.mp hmem with rfl | hmem
        · have : ¬size other < n := fun h => hlt ⟨hlocal, h⟩
          omega
        · exact hall other hmem hlocal

theorem alignDown_le (size align : Nat) : alignDown size align ≤ size :=
    Nat.div_mul_le_self size align

theorem dvd_alignDown (size align : Nat) : align ∣ alignDown size align :=
  Nat.dvd_mul_left align (size / align)

theorem sumParts_eq {parts : List Part} {n : Nat}
    (h : n + (parts.map fun p => alignDown p.filesize align).sum < 2 ^ 64) :
    parts.foldl (fun n p => (n + alignDown p.filesize align) % 2 ^ 64) n =
      n + (parts.map fun p => alignDown p.filesize align).sum := by
  induction parts generalizing n with
  | nil => rfl
  | cons p parts ih =>
    rw [map_cons, sum_cons, ← Nat.add_assoc] at h ⊢
    have hmod := Nat.mod_eq_of_lt (Nat.lt_of_le_of_lt (Nat.le_add_right _ _) h)
    rw [foldl_cons, hmod, ih h]

/-! ## Mapping -/

/-- What `mmap` answers, with the address if it did not fail, whether it took `MAP_SYNC`, and
whether `errno` is `EINVAL` afterwards. -/
structure MmapResult where
  addr : Option Nat
  mapSync : Bool
  einval : Bool
  deriving DecidableEq

inductive Failure
  | assertion
  | hint
  | map (einval : Bool)
  | remap (addr : Nat)
  | header
  | reservation
  | mapSync
  deriving DecidableEq

def utilMapPart (align : Nat) (mmap : Nat → Nat → Nat → MmapResult) (part : Part)
    (addr size offset : Nat) (fixed : Bool) : Except Failure Part :=
  if addr % align ≠ 0 ∨ offset % align ≠ 0 ∨ size % align ≠ 0 ∨ 2 ^ 63 ≤ offset ∨
      offset % part.alignment ≠ 0 ∨ part.filesize ≤ offset then .error .assertion
  else
    let size := if size = 0 then alignDown (part.filesize - offset) part.alignment
      else alignUp size part.alignment
    let result := mmap addr size offset
    match result.addr with
    | none => .error (.map result.einval)
    | some addrp =>
      if addr ≠ 0 ∧ fixed = true ∧ addrp ≠ addr then .error (.map result.einval)
      else .ok { part with addr := addrp, size := size, mapSync := result.mapSync }

theorem utilMapPart_eq {mmap : Nat → Nat → Nat → MmapResult} {addr size offset addrp : Nat}
    {fixed : Bool} (haddr : align ∣ addr) (hoffset : align ∣ offset) (hsize : align ∣ size)
    (hlt : offset < 2 ^ 63) (hpart : part.alignment = align) (hfile : offset < part.filesize)
    (hmmap : (mmap addr (if size = 0 then alignDown (part.filesize - offset) align
      else alignUp size align) offset).addr = some addrp) (hfixed : fixed = true → addrp = addr) :
    utilMapPart align mmap part addr size offset fixed = .ok { part with
      addr := addrp
      size := if size = 0 then alignDown (part.filesize - offset) align else alignUp size align
      mapSync := (mmap addr (if size = 0 then alignDown (part.filesize - offset) align
        else alignUp size align) offset).mapSync } := by
  have hasserts : ¬(addr % align ≠ 0 ∨ offset % align ≠ 0 ∨ size % align ≠ 0 ∨ 2 ^ 63 ≤ offset ∨
      offset % part.alignment ≠ 0 ∨ part.filesize ≤ offset) := by
    rw [hpart, Nat.mod_eq_zero_of_dvd haddr, Nat.mod_eq_zero_of_dvd hoffset,
      Nat.mod_eq_zero_of_dvd hsize]
    omega
  have hwhere : ¬(addr ≠ 0 ∧ fixed = true ∧ addrp ≠ addr) := fun h => h.2.2 (hfixed h.2.1)
  rw [utilMapPart, if_neg hasserts, hpart]
  dsimp only
  rw [hmmap]
  dsimp only
  rw [if_neg hwhere]

/-! ## Mapping the parts of a replica

`util_replica_map_local` and `util_replica_open_local` reserve an address range with the mapping of
the first part and map the other parts into it, one behind the other. `util_replica_deep_common`
goes through the mapped parts and passes what a request has in common with each of them to
`os_part_deep_common`.

`util_replica_open_local` tries again when `mmap` fails with `EINVAL`; what it is answered may
depend on the number of retries that remain.
-/

/-- The parts behind the first one are mapped from `addr` on; `limit` is the reservation that
`util_replica_open_local` compares with. -/
def mapParts (align hdrsize : Nat) (limit : Option Nat)
    (mmap : Nat → Nat → Nat → Nat → MmapResult) :
    Nat → List Part → Nat → Nat → Except Failure (List Part × Nat)
  | _, [], _, mapsize => .ok ([], mapsize)
  | p, part :: rest, addr, mapsize =>
    let targetsize := mapsize +
      alignDown ((part.filesize + 2 ^ 64 - hdrsize) % 2 ^ 64) part.alignment
    if limit.any (· < targetsize) then .error .reservation
    else
      match utilMapPart align (mmap p) part addr 0 hdrsize true with
      | .error (.map true) => .error (.remap addr)
      | .error e => .error e
      | .ok part =>
        match mapParts align hdrsize limit mmap (p + 1) rest (addr + part.size)
          (mapsize + part.size) with
        | .error e => .error e
        | .ok (rest, mapsize) => .ok (part :: rest, mapsize)

def utilReplicaCheckMapSync (checkHdr : Bool) (rep : Replica) : Bool :=
  match rep.part with
  | [] => true
  | first :: rest =>
    rest.all (·.mapSync == first.mapSync) &&
      (!checkHdr || (rep.part.take rep.nhdrs).all (·.hdrMapSync == first.mapSync))

def finishMap (align : Nat) (checkHdr : Bool) (rep : Replica) (first : Part) (rest : List Part)
    (mapsize : Nat) : Except Failure Replica :=
  let rep := { rep with part := { first with size := alignDown first.filesize align } :: rest }
  if !utilReplicaCheckMapSync checkHdr rep then .error .mapSync
  else if mapsize ≠ rep.repsize then .error .assertion
  else .ok rep

/-- `util_replica_map_local` for a replica, with the answer of `util_map_hint`. -/
def mapReplica (align hdrsize : Nat) (hint : Option Nat)
    (mmap : Nat → Nat → Nat → Nat → MmapResult) (rep : Replica) : Except Failure Replica :=
  match rep.part, hint with
  | [], _ => .error .assertion
  | _, none => .error .hint
  | first :: rest, some addr =>
    let mapsize := alignDown first.filesize align
    match utilMapPart align (mmap 0) first addr rep.resvsize 0 false with
    | .error e => .error e
    | .ok first =>
      match mapParts align hdrsize none mmap 1 rest (first.addr + mapsize) mapsize with
      | .error e => .error e
      | .ok (rest, mapsize) => finishMap align false rep first rest mapsize

def utilReplicaMapLocal (align : Nat) (hint : Option Nat)
    (mmap : Nat → Nat → Nat → Nat → MmapResult) (set : PoolSet) (repidx : Nat) :
    Except Failure PoolSet :=
  match set.replica[repidx]? with
  | none => .error .assertion
  | some rep =>
    if rep.remote then .error .assertion
    else
      match mapReplica align (set.hdrsize align) hint mmap rep with
      | .error e => .error e
      | .ok rep => .ok { set with
          replica := set.replica.set repidx rep
          zeroed := set.zeroed && rep.part.all (·.created) }

def utilMapHdr (mmap : Nat → Nat → Nat → MmapResult) (part : Part) : Option Part :=
  let hdrsize := if poolHdrSize < part.alignment then part.alignment else poolHdrSize
  let result := mmap 0 hdrsize 0
  result.addr.map fun hdrp =>
    { part with hdr := hdrp, hdrsize := hdrsize, hdrMapSync := result.mapSync }

def mapHdrs (mmap : Nat → Nat → Nat → Nat → MmapResult) : Nat → Nat → List Part →
    Option (List Part)
  | _, _, [] => some []
  | _, 0, parts => some parts
  | p, nhdrs + 1, part :: rest =>
    match utilMapHdr (mmap p) part with
    | none => none
    | some part => (mapHdrs mmap (p + 1) nhdrs rest).map (part :: ·)

/-- What the operating system answers while `util_replica_open_local` has so many retries left. -/
structure OpenAnswers where
  hint : Nat → Option Nat
  mmap : Nat → Nat → Nat → Nat → Nat → MmapResult
  mmapHdr : Nat → Nat → Nat → Nat → Nat → MmapResult

/-- `util_replica_open_local` for a replica. The address is the hint of the turn before. -/
def openReplica (align hdrsize : Nat) (os : OpenAnswers) (rep : Replica) :
    Nat → Nat → Except Failure Replica
  | retries, addr =>
    match rep.part, (if addr = 0 then os.hint retries else some addr) with
    | [], _ => .error .assertion
    | _, none => .error .hint
    | first :: rest, some addr =>
      let mapsize := alignDown first.filesize align
      match utilMapPart align (os.mmap retries 0) first addr rep.resvsize 0 false with
      | .error e => .error e
      | .ok first =>
        match mapHdrs (os.mmapHdr retries) 0 rep.nhdrs (first :: rest) with
        | none => .error .header
        | some [] => .error .assertion
        | some (first :: rest) =>
          match mapParts align hdrsize (some rep.resvsize) (os.mmap retries) 1 rest
            (first.addr + mapsize) mapsize with
          | .error (.remap addr) =>
            match retries with
            | 0 => .error (.map true)
            | retries + 1 => openReplica align hdrsize os rep retries addr
          | .error e => .error e
          | .ok (rest, mapsize) => finishMap align true rep first rest mapsize

def utilReplicaOpenLocal (align : Nat) (os : OpenAnswers) (set : PoolSet) (repidx : Nat) :
    Except Failure PoolSet :=
  match set.replica[repidx]? with
  | none => .error .assertion
  | some rep =>
    match openReplica align (set.hdrsize align) os rep 10 0 with
    | .error e => .error e
    | .ok rep => .ok { set with
        replica := set.replica.set repidx rep
        poolsize := if rep.repsize < set.poolsize then rep.repsize else set.poolsize }

/-! ## Deep flushes -/

structure Piece where
  part : Nat
  rangeStart : Nat
  rangeLen : Nat
  deriving DecidableEq

def Part.intersection (start stop p : Nat) (part : Part) : Option Piece :=
  let partEnd := part.addr + part.size
  if stop < part.addr ∨ partEnd < start then none
  else
    let rangeStart := if start < part.addr then part.addr else start
    let rangeEnd := if partEnd < stop then partEnd else stop
    some ⟨p, rangeStart, rangeEnd - rangeStart⟩

/-- The loop of `util_replica_deep_common`, with the calls and whether none of them failed. -/
def deepLoop (osPartDeepCommon : Piece → Bool) (start stop : Nat) :
    Nat → List Part → List Piece × Bool
  | _, [] => ([], true)
  | p, part :: rest =>
    match part.intersection start stop p with
    | none => deepLoop osPartDeepCommon start stop (p + 1) rest
    | some piece =>
      if osPartDeepCommon piece then
        let calls := deepLoop osPartDeepCommon start stop (p + 1) rest
        (piece :: calls.1, calls.2)
      else ([piece], false)

/-- `util_replica_deep_common`, unless an assertion fails. -/
def utilReplicaDeepCommon (osPartDeepCommon : Piece → Bool) (rep : Replica) (addr len : Nat) :
    Option (List Piece × Bool) :=
  match rep.part with
  | [] => none
  | first :: _ =>
    if addr < first.addr ∨ first.addr + rep.repsize < addr + len then none
    else some (deepLoop osPartDeepCommon addr (addr + len) 0 rep.part)

end Pmdk.Poolset
