import Pmdk.Pool.PoolExtend

/-!
# Loading the parts of a pool set from its directories

A pool set that is made of directories does not list its parts. `util_poolset_directories_load`
looks for them in the directories, takes the index of a part from the name of its file, and finds
out which directory the next part is to go to by the numbers of files that it meets.
-/

namespace Pmdk.Poolset

/-- `struct fs_entry`, with the answer of `util_file_get_size`. -/
structure Entry where
  path : List Char
  name : List Char
  level : Nat
  isFile : Bool
  size : Option Nat
  deriving DecidableEq

def isspace (ch : Char) : Bool := ch == ' ' || decide (9 ≤ ch.toNat) && decide (ch.toNat ≤ 13)

/-- The value of a number without its sign, and `none` if it is out of range. -/
def strtolValue (negative : Bool) (digits : List Char) : Option Int :=
  let n := Nat.ofDigitChars 10 (digits.takeWhile Char.isDigit) 0
  let value : Int := if negative then -n else n
  if value < -2 ^ 63 ∨ 2 ^ 63 ≤ value then none else some value

def strtol (s : List Char) : Option Int :=
  match s.dropWhile isspace with
  | '-' :: digits => strtolValue true digits
  | '+' :: digits => strtolValue false digits
  | digits => strtolValue false digits

def utilPartIdxByFileName (filename : List Char) : Int := (strtol filename).getD (-1)

/-- The parts of a replica that are allocated, and `nparts`. -/
structure Loaded where
  part : List Part
  nparts : Nat
  deriving DecidableEq

def zeroPart : Part := ⟨[], 0, 0, 0, false, 0, 0, false, 0, 0, false⟩

def utilReplicaAddPartByIdx (align : Nat) (path : List Char) (filesize p : Nat) (rep : Loaded) :
    Loaded :=
  let part := rep.part ++ List.replicate (p + 1 - rep.part.length) zeroPart
  { part := part.modify p fun part => { part with
      path := path
      filesize := filesize
      alignment := align
      fd := -1
      created := false
      addr := 0
      hdr := 0 }
    nparts := rep.nparts + 1 }

def Entry.isPart (entry : Entry) : Bool :=
  entry.level == 1 && entry.isFile && decide (6 ≤ entry.name.length) &&
    entry.path.drop (entry.path.length - 5) == ".pmem".toList &&
    decide (0 ≤ utilPartIdxByFileName entry.name)

/-- `util_poolset_directory_load`, with the number of parts in the directory. -/
def utilPoolsetDirectoryLoad (align : Nat) : List Entry → Loaded → Option (Nat × Loaded)
  | [], rep => some (0, rep)
  | entry :: rest, rep =>
    if entry.isPart then
      match entry.size with
      | none => none
      | some size =>
        (utilPoolsetDirectoryLoad align rest (utilReplicaAddPartByIdx align entry.path size
          ((utilPartIdxByFileName entry.name).toNat % 2 ^ 32) rep)).map fun r => (r.1 + 1, r.2)
    else utilPoolsetDirectoryLoad align rest rep

structure Progress where
  rep : Loaded
  nparts : Nat
  nextPartId : Nat
  nextDirectoryId : Nat
  deriving DecidableEq

/-- The loop of `util_poolset_directories_load` over the directories of a replica. -/
def loadReplica (align : Nat) (first : Bool) : List (List Entry) → Progress → Option Progress
  | [], s => some s
  | entries :: rest, s =>
    match utilPoolsetDirectoryLoad align entries s.rep with
    | none => none
    | some (nparts, rep) =>
      loadReplica align first rest
        { rep := rep
          nparts := nparts
          nextPartId := (s.nextPartId + nparts) % 2 ^ 32
          nextDirectoryId :=
            if first && decide (nparts < s.nparts) then (s.nextDirectoryId + 1) % 2 ^ 32
            else s.nextDirectoryId }

structure LoadedSet where
  loaded : List Loaded
  maxPartsRep : Nat
  nextId : Nat
  nextDirectoryId : Nat
  deriving DecidableEq

def loadReplicas (align : Nat) : List (List (List Entry)) → LoadedSet → Option LoadedSet
  | [], s => some s
  | listing :: rest, s =>
    let r := s.loaded.length
    match loadReplica align (r == 0) listing ⟨⟨[], 0⟩, 0, 0, s.nextDirectoryId⟩ with
    | none => none
    | some p =>
      let loaded := s.loaded ++ [p.rep]
      match loaded[s.maxPartsRep]? with
      | none => none
      | some most =>
        loadReplicas align rest
          { loaded := loaded
            maxPartsRep := if most.nparts < p.nextPartId then r else s.maxPartsRep
            nextId := if r = 0 then p.nextPartId else s.nextId
            nextDirectoryId := p.nextDirectoryId }

def recreate (rep : Replica) (most loaded : Loaded) : Option Replica :=
  if loaded.nparts = most.nparts then
    if loaded.part.length < loaded.nparts then none
    else some { rep with part := loaded.part.take loaded.nparts }
  else
    match rep.directory with
    | [] => none
    | d :: _ =>
      let nallocated := max loaded.part.length most.nparts
      if most.part.length < nallocated then none
      else
        some { rep with part := ((most.part.take nallocated).mapIdx fun pidx part =>
          { part with path := d.newPath pidx }).take most.nparts }

def recreateAll (most : Loaded) : List Replica → List Loaded → Option (List Replica)
  | rep :: replica, loaded :: rest =>
    match recreate rep most loaded, recreateAll most replica rest with
    | some rep, some replica => some (rep :: replica)
    | _, _ => none
  | _, _ => some []

/-- `util_poolset_directories_load`, with what is found in each directory of each replica. An index
out of bounds is `none`, as is a failure. -/
def utilPoolsetDirectoriesLoad (align : Nat) (listing : Nat → Nat → List Entry) (set : PoolSet) :
    Option PoolSet :=
  if set.directoryBased = false then some set
  else
    let found := set.replica.mapIdx fun r rep => rep.directory.mapIdx fun j _ => listing r j
    match loadReplicas align found ⟨[], 0, set.nextId, set.nextDirectoryId⟩ with
    | none => none
    | some s =>
      match s.loaded[s.maxPartsRep]? with
      | none => none
      | some most =>
        match recreateAll most set.replica s.loaded with
        | none => none
        | some replica => some { set with
            replica := replica
            nextId := s.nextId
            nextDirectoryId := s.nextDirectoryId }

end Pmdk.Poolset
