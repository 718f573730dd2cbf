import Pmdk.Pool.Replicas

/-!
# Extending a pool set

`util_pool_extend` appends a part of the same size to every replica of a pool set that is made of
directories. A new part file is created, mapped behind the part before it, and given its permissions
at the end; the calls that can fail answer as they like. The effects outside of the description
of the pool set are listed in order.
-/

namespace Pmdk.Poolset

open Sync (alignDown alignUp)

inductive Effect
  | malloc (path : List Char)
  | free (path : List Char)
  | create (path : List Char)
  | unlink (path : List Char)
  deriving DecidableEq

/-- The answers of the system, those about one part for each replica. `util_file_exists` fails with
`none`; so do `util_file_create` and `util_file_open`, which otherwise have a descriptor, the
latter with the size of the file. -/
structure ExtendAnswers where
  malloc : Nat → Bool
  fileExists : Nat → Option Bool
  fileCreate : Nat → Option Nat
  fileOpen : Nat → Option (Nat × Nat)
  mmap : Nat → Nat → Nat → Nat → MmapResult
  chmod : Bool

/-- `PMEM_FILE_PADDING` digits or more. -/
def padded (id : Nat) : List Char :=
  List.replicate (6 - (Nat.toDigits 10 id).length) '0' ++ Nat.toDigits 10 id

def Directory.newPath (d : Directory) (id : Nat) : List Char :=
  d.path ++ '/' :: padded id ++ ".pmem".toList

def newPart (align : Nat) (path : List Char) (size : Nat) : Part :=
  { path := path
    filesize := size
    alignment := align
    fd := -1
    created := false
    addr := 0
    size := 0
    mapSync := false
    hdr := 0
    hdrsize := 0
    hdrMapSync := false }

/-! ## Appending -/

/-- The loop of `util_poolset_append_new_part`: the replica whose path is not allocated, if there is
one, and all replicas. A replica without a directory divides by zero. -/
def addParts (align : Nat) (malloc : Nat → Bool) (set : PoolSet) (size : Nat) :
    Nat → List Replica → Option (Option Nat × List Replica × List Effect)
  | _, [] => some (none, [], [])
  | r, rep :: rest =>
    match rep.directory[set.nextDirectoryId % rep.directory.length]? with
    | none => none
    | some d =>
      if malloc r then
        let path := d.newPath set.nextId
        match addParts align malloc set size (r + 1) rest with
        | none => none
        | some (failed, rest, effects) =>
          some (failed, { rep with part := rep.part ++ [newPart align path size] } :: rest,
            .malloc path :: effects)
      else some (some r, rep :: rest, [])

/-- `err_part_init`: the first replicas lose their last part. -/
def removeParts : Nat → List Replica → Option (List Replica × List Effect)
  | 0, replica => some (replica, [])
  | _ + 1, [] => none
  | n + 1, rep :: rest =>
    match rep.part.getLast?, removeParts n rest with
    | some part, some (rest, effects) =>
      some ({ rep with part := rep.part.dropLast } :: rest, .free part.path :: effects)
    | _, _ => none

/-- `util_poolset_append_new_part`, with whether it succeeds. -/
def utilPoolsetAppendNewPart (align : Nat) (malloc : Nat → Bool) (set : PoolSet) (size : Nat) :
    Option (Bool × PoolSet × List Effect) :=
  if set.directoryBased = false then some (false, set, [])
  else
    match addParts align malloc set size 0 set.replica with
    | none => none
    | some (none, replica, effects) =>
      let set := { set with
        replica := replica
        nextDirectoryId := (set.nextDirectoryId + 1) % 2 ^ 32
        nextId := (set.nextId + 1) % 2 ^ 32 }
      some (true, utilPoolsetSetSize align set, effects)
    | some (some r, replica, effects) =>
      match removeParts r replica with
      | none => none
      | some (replica, effects') => some (false, { set with replica := replica },
          effects ++ effects')

/-! ## Opening -/

/-- `util_part_open` for a part that is to be created, with whether it succeeds. -/
def utilPartOpen (os : ExtendAnswers) (r : Nat) (part : Part) : Bool × Part × List Effect :=
  match os.fileExists r with
  | none => (false, part, [])
  | some true =>
    match os.fileOpen r with
    | none => (false, { part with created := false, fd := -1 }, [])
    | some (fd, size) => (part.filesize == size, { part with created := false, fd := fd }, [])
  | some false =>
    match os.fileCreate r with
    | none => (false, { part with created := false, fd := -1 }, [])
    | some fd => (true, { part with created := true, fd := fd }, [.create part.path])

/-- One turn of the loop of `util_pool_extend`, with whether it succeeds. An assertion that fails,
or a replica without a part, is `none`. -/
def openPart (align hdrsize : Nat) (os : ExtendAnswers) (oldPoolsize r : Nat) (rep : Replica) :
    Option (Bool × Replica × List Effect) :=
  match rep.part.head?, rep.part.getLast? with
  | some first, some part =>
    match utilPartOpen os r part with
    | (false, part, effects) =>
      some (false, { rep with part := rep.part.dropLast ++ [part] }, effects)
    | (true, part, effects) =>
      match utilMapPart align (os.mmap r) part (first.addr + oldPoolsize) 0 hdrsize true with
      | .error .assertion => none
      | .error _ => some (false, { rep with part := rep.part.dropLast ++ [part] }, effects)
      | .ok part =>
        some (part.mapSync == first.mapSync,
          { rep with part := rep.part.dropLast ++ [part] }, effects)
  | _, _ => none

def openParts (align hdrsize : Nat) (os : ExtendAnswers) (oldPoolsize : Nat) :
    Nat → List Replica → Option (Option Nat × List Replica × List Effect)
  | _, [] => some (none, [], [])
  | r, rep :: rest =>
    match openPart align hdrsize os oldPoolsize r rep with
    | none => none
    | some (false, rep, effects) => some (some r, rep :: rest, effects)
    | some (true, rep, effects) =>
      match openParts align hdrsize os oldPoolsize (r + 1) rest with
      | none => none
      | some (failed, rest, effects') => some (failed, rep :: rest, effects ++ effects')

/-! ## Clean-up -/

/-- One turn of the clean-up loop, which always goes to `set->replica[r]`. -/
def cleanPart (r : Nat) (replica : List Replica) : Option (List Replica × List Effect) :=
  match replica[r]? with
  | none => none
  | some rep =>
    match rep.part.getLast? with
    | none => none
    | some part =>
      some (replica.set r { rep with part := rep.part.dropLast },
        (if part.created then [.unlink part.path] else []) ++ [.free part.path])

def cleanParts (r : Nat) : Nat → List Replica → Option (List Replica × List Effect)
  | 0, replica => some (replica, [])
  | n + 1, replica =>
    match cleanPart r replica with
    | none => none
    | some (replica, effects) =>
      match cleanParts r n replica with
      | none => none
      | some (replica, effects') => some (replica, effects ++ effects')

def Replica.fdclose (rep : Replica) : Replica :=
  { rep with part := rep.part.map fun part => { part with fd := -1 } }

/-- What `util_pool_extend` returns, with the size that is adjusted, the pool set and the
effects. -/
structure Extended where
  addr : Option Nat
  size : Nat
  set : PoolSet
  effects : List Effect
  deriving DecidableEq

def extendError (align r size : Nat) (set : PoolSet) (effects : List Effect) : Option Extended :=
  match cleanParts r (r + 1) set.replica with
  | none => none
  | some (replica, effects') =>
    some ⟨none, size, utilPoolsetSetSize align { set with replica := replica },
        effects ++ effects'⟩

def openNewParts (align : Nat) (os : ExtendAnswers) (oldPoolsize size : Nat) (set : PoolSet)
    (effects : List Effect) : Option Extended :=
  match openParts align 0 os oldPoolsize 0 set.replica with
  | none => none
  | some (some r, replica, effects') =>
    extendError align r size { set with replica := replica } (effects ++ effects')
  | some (none, replica, effects') =>
    if os.chmod = false then
      extendError align replica.length size { set with replica := replica } (effects ++ effects')
    else
      some ⟨set.replica.head?.bind fun rep => rep.part.head?.map (·.addr + oldPoolsize), size,
        { set with replica := replica.map Replica.fdclose }, effects ++ effects'⟩

def PoolSet.exceeds (set : PoolSet) (size : Nat) : Bool :=
  set.resvsize < (set.poolsize + size) % 2 ^ 64

def PoolSet.adjusted (set : PoolSet) (size : Nat) : Nat :=
  if set.exceeds size then (set.resvsize + 2 ^ 64 - set.poolsize) % 2 ^ 64 else size

/-- `util_pool_extend`. Without a result an index is out of bounds or an assertion fails. -/
def utilPoolExtend (align : Nat) (os : ExtendAnswers) (set : PoolSet) (size minpartsize : Nat) :
    Option Extended :=
  if size = 0 ∨ set.singlehdr = false then some ⟨none, size, set, []⟩
  else if set.exceeds size ∧ set.adjusted size < minpartsize then
    some ⟨none, set.adjusted size, set, []⟩
  else
    match utilPoolsetAppendNewPart align os.malloc set (set.adjusted size) with
    | none => none
    | some (false, set', effects) => some ⟨none, set.adjusted size, set', effects⟩
    | some (true, set', effects) =>
      openNewParts align os set.poolsize (set.adjusted size) set' effects

end Pmdk.Poolset
