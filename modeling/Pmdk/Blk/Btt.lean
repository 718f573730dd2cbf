import Pmdk.Lib.Run

/-!
# The block translation table

A namespace consists of arenas. The media of an arena has a map from pre-map LBAs to data blocks,
the data blocks, and a pair of flog entries for each lane (`ArenaMedia`). A call of `btt.c` reads
the media, computes the list of its `nswrite`s in program order, and updates the run-time state.
Each `nswrite` has a symbolic target, since the areas of an arena do not overlap.

Integers are in host byte order.
-/

namespace Pmdk.Btt

open Function

abbrev Block (lbasize : Nat) := Fin lbasize → UInt8

structure Flog where
  lba : UInt32
  oldMap : UInt32
  newMap : UInt32
  seq : UInt32
  deriving DecidableEq

def mapEntryError : UInt32 := 0x40000000

def mapEntryZero : UInt32 := 0x80000000

def mapEntryNormal : UInt32 := 0xC0000000

def mapEntryLbaMask : UInt32 := 0x3fffffff

/-- `BTTINFO_FLAG_ERROR`, which is also the mask of all error bits. -/
def infoFlagError : UInt32 := 1

def defaultNfree : Nat := 256

def nseq (seq : UInt32) : UInt32 :=
  if seq &&& 3 = 1 then 2 else if seq &&& 3 = 2 then 3 else if seq &&& 3 = 3 then 1 else 0

def mapEntryIsInitial (entry : UInt32) : Bool := entry &&& ~~~mapEntryLbaMask = 0

def mapEntryIsError (entry : UInt32) : Bool := entry &&& ~~~mapEntryLbaMask = mapEntryError

def mapEntryIsZeroOrInitial (entry : UInt32) : Bool :=
  entry &&& ~~~mapEntryLbaMask = 0 || entry &&& ~~~mapEntryLbaMask = mapEntryZero

/-- `btt_flog_get_valid`: the current entry of a pair and the index of the other one. The
entries of the pair have the indices `false` and `true`. -/
def flogGetValid (pair : Bool → Flog) : Option (Flog × Bool) :=
  if (pair false).seq = (pair true).seq then none
  else if (pair false).seq = 0 then some (pair true, false)
  else if (pair true).seq = 0 then some (pair false, true)
  else if nseq (pair false).seq = (pair true).seq then some (pair true, false)
  else some (pair false, true)

/-- The fields of `struct btt_info` that are read. -/
structure Info where
  flags : UInt32
  externalLbasize : Nat
  externalNlba : UInt32
  internalNlba : UInt32
  nfree : Nat
  deriving DecidableEq

structure ArenaMedia (lbasize : Nat) where
  info : Info
  flog : Nat → Bool → Flog
  map : UInt32 → UInt32
  data : UInt32 → Block lbasize

/-- The namespace: the arenas in the order of their `nextoff` chain. -/
structure Ns (lbasize : Nat) where
  narena : Nat
  arena : Nat → ArenaMedia lbasize

/-- One `nswrite`. A flog entry is written in two halves. -/
inductive NsWrite (lbasize : Nat)
  | data (a : Nat) (block : UInt32) (buf : Block lbasize)
  | flogHead (a lane : Nat) (entry : Bool) (lba oldMap : UInt32)
  | flogTail (a lane : Nat) (entry : Bool) (newMap seq : UInt32)
  | map (a : Nat) (premapLba entry : UInt32)

variable {lbasize : Nat}

namespace ArenaMedia

def setData (m : ArenaMedia lbasize) (block : UInt32) (buf : Block lbasize) :
    ArenaMedia lbasize :=
  { m with data := update m.data block buf }

def setFlog (m : ArenaMedia lbasize) (lane : Nat) (entry : Bool) (flog : Flog) :
    ArenaMedia lbasize :=
  { m with flog := update m.flog lane (update (m.flog lane) entry flog) }

def setMap (m : ArenaMedia lbasize) (premapLba entry : UInt32) : ArenaMedia lbasize :=
  { m with map := update m.map premapLba entry }

end ArenaMedia

namespace Ns

def modify (ns : Ns lbasize) (a : Nat) (f : ArenaMedia lbasize → ArenaMedia lbasize) :
    Ns lbasize :=
  { ns with arena := update ns.arena a (f (ns.arena a)) }

def exec (ns : Ns lbasize) : NsWrite lbasize → Ns lbasize
  | .data a block buf => ns.modify a fun m => m.setData block buf
  | .flogHead a lane entry lba oldMap => ns.modify a fun m =>
    m.setFlog lane entry { m.flog lane entry with lba := lba, oldMap := oldMap }
  | .flogTail a lane entry newMap seq => ns.modify a fun m =>
    m.setFlog lane entry { m.flog lane entry with newMap := newMap, seq := seq }
  | .map a premapLba entry => ns.modify a fun m => m.setMap premapLba entry

/-- A write during which power fails. The flog halves and the map entries are aligned and have
at most 8 bytes, so they are not done at all; a block is left arbitrary. -/
def tear (ns : Ns lbasize) (junk : Block lbasize) : NsWrite lbasize → Ns lbasize
  | .data a block _ => ns.modify a fun m => m.setData block junk
  | _ => ns

end Ns

/-- `struct flog_runtime`; `next` is the index of the next entry to write. -/
structure FlogRuntime where
  flog : Flog
  next : Bool
  deriving DecidableEq

/-- What `Zalloc` returns. -/
def FlogRuntime.zeroed : FlogRuntime := ⟨⟨0, 0, 0, 0⟩, false⟩

structure Arena where
  flags : UInt32
  externalNlba : UInt32
  flogs : Nat → FlogRuntime

/-- `struct btt` of a namespace with a layout. -/
structure Handle where
  nfree : Nat
  nlba : Nat
  narena : Nat
  arenas : Nat → Arena

/-- What `write_layout` leaves in an arena: every map entry is in its initial state, and the
blocks behind those of the LBAs are free. -/
def writeLayoutArena (info : Info) (data : UInt32 → Block lbasize) : ArenaMedia lbasize where
  info := info
  flog := fun i e =>
    let free := (info.externalNlba + UInt32.ofNat i) ||| mapEntryZero
    if e then ⟨0, 0, 0, 0⟩ else ⟨UInt32.ofNat i, free, free, 1⟩
  map := fun _ => 0
  data := data

/-! ## Loading the layout -/

/-- What `read_flog_pair` leaves behind: the flags of the arena, the run-time state of the
lane, and the recovery write if there is one. -/
structure PairRead (lbasize : Nat) where
  flags : UInt32
  runtime : FlogRuntime
  writes : List (NsWrite lbasize)

/-- The map entry as `map_lock` and `read_flog_pair` see it: an entry in its initial state
stands for the block with the number of the LBA. -/
def mapEntry (m : ArenaMedia lbasize) (premapLba : UInt32) : UInt32 :=
  if mapEntryIsInitial (m.map premapLba) then premapLba ||| mapEntryNormal
  else m.map premapLba

def readFlogPair (nlba : Nat) (m : ArenaMedia lbasize) (a : Nat) (flags : UInt32)
    (flognum : Nat) : Option (PairRead lbasize) :=
  if nlba ≤ (m.flog flognum false).lba.toNat then none
  else if nlba ≤ (m.flog flognum true).lba.toNat then none
  else
    match flogGetValid (m.flog flognum) with
    | none => some ⟨flags ||| infoFlagError, .zeroed, []⟩
    | some (current, next) =>
      let entry := mapEntry m current.lba
      some ⟨flags, ⟨current, next⟩,
        if current.oldMap = current.newMap then []
        else if current.newMap ≠ entry ∧ current.oldMap = entry then
          [.map a current.lba current.newMap]
        else []⟩

def readFlogs (nlba a : Nat) : Ns lbasize → Arena → Nat → Nat →
    Option (Arena × List (NsWrite lbasize))
  | _, arena, _, 0 => some (arena, [])
  | ns, arena, i, n + 1 => do
    let pair ← readFlogPair nlba (ns.arena a) a arena.flags i
    let arena := { arena with
      flags := pair.flags
      flogs := update arena.flogs i pair.runtime }
    let (arena, writes) ← readFlogs nlba a (pair.writes.foldl Ns.exec ns) arena (i + 1) n
    return (arena, pair.writes ++ writes)

/-- `read_arena`, for the arena `a`. -/
def readArena (nfree nlba : Nat) (ns : Ns lbasize) (a : Nat) :
    Option (Arena × List (NsWrite lbasize)) :=
  readFlogs nlba a ns
    ⟨(ns.arena a).info.flags, (ns.arena a).info.externalNlba, fun _ => .zeroed⟩ 0 nfree

def readArenas (nfree nlba : Nat) : Ns lbasize → (Nat → Arena) → Nat → Nat →
    Option ((Nat → Arena) × List (NsWrite lbasize))
  | _, arenas, _, 0 => some (arenas, [])
  | ns, arenas, a, n + 1 => do
    let (arena, writes) ← readArena nfree nlba ns a
    let (arenas, writes') ← readArenas nfree nlba (writes.foldl Ns.exec ns)
      (update arenas a arena) (a + 1) n
    return (arenas, writes ++ writes')

def readInfos (lbasize : Nat) : List Info → Nat → Nat → Option (Nat × Nat)
  | [], smallest, total => some (smallest, total)
  | info :: infos, smallest, total =>
    if info.externalLbasize ≠ lbasize then none
    else if info.nfree = 0 then none
    else if info.externalNlba = 0 then none
    else readInfos lbasize infos (min info.nfree smallest) (total + info.externalNlba.toNat)

def Ns.infos (ns : Ns lbasize) : List Info :=
  (List.range ns.narena).map fun a => (ns.arena a).info

/-- `read_layout` of a namespace whose info blocks are all valid. -/
def readLayout (ns : Ns lbasize) : Option (Handle × List (NsWrite lbasize)) := do
  let (smallest, nlba) ← readInfos lbasize ns.infos (2 ^ 32 - 1) 0
  let nfree := if smallest < defaultNfree then smallest else defaultNfree
  let (arenas, writes) ← readArenas nfree nlba ns
    (fun _ => ⟨0, 0, fun _ => .zeroed⟩) 0 ns.narena
  return (⟨nfree, nlba, ns.narena, arenas⟩, writes)

/-! ## Calls -/

def lbaToArenaLba (externalNlba : Nat → UInt32) : Nat → Nat → Nat → Option (Nat × UInt32)
  | _, 0, _ => none
  | a, n + 1, lba =>
    if lba < (externalNlba a).toNat then some (a, UInt32.ofNat lba)
    else lbaToArenaLba externalNlba (a + 1) n (lba - (externalNlba a).toNat)

def Handle.lookup (b : Handle) (lba : Nat) : Option (Nat × UInt32) :=
  if b.nlba ≤ lba then none
  else lbaToArenaLba (fun a => (b.arenas a).externalNlba) 0 b.narena lba

/-- What a read returns: a block, or -1 with `errno` set. -/
inductive Content (lbasize : Nat)
  | block (buf : Block lbasize)
  | eio
  | einval

def zeroBlock : Block lbasize := fun _ => 0

/-- The end of `btt_read` for a map entry. Nobody else changes the map meanwhile, so the entry
is still the same when it is read for the second time. -/
def readEntry (m : ArenaMedia lbasize) (entry : UInt32) : Content lbasize :=
  if mapEntryIsError entry then .eio
  else if mapEntryIsZeroOrInitial entry then .block zeroBlock
  else .block (m.data (entry &&& mapEntryLbaMask))

def bttRead (b : Handle) (ns : Ns lbasize) (lba : Nat) : Content lbasize :=
  match b.lookup lba with
  | none => .einval
  | some (a, premapLba) => readEntry (ns.arena a) ((ns.arena a).map premapLba)

def Handle.setFlog (b : Handle) (a lane : Nat) (runtime : FlogRuntime) : Handle :=
  let arena := b.arenas a
  let arena' := { arena with flogs := update arena.flogs lane runtime }
  { b with arenas := update b.arenas a arena' }

def flogUpdate (b : Handle) (a lane : Nat) (lba oldMap newMap : UInt32) :
    List (NsWrite lbasize) × Handle :=
  let runtime := (b.arenas a).flogs lane
  let seq := nseq runtime.flog.seq
  ([.flogHead a lane runtime.next lba oldMap, .flogTail a lane runtime.next newMap seq],
    b.setFlog a lane ⟨⟨lba, oldMap, newMap, seq⟩, !runtime.next⟩)

/-- `btt_write`. The result is `none` when it fails, which is before the first write. -/
def bttWrite (b : Handle) (ns : Ns lbasize) (lane lba : Nat) (buf : Block lbasize) :
    Option (List (NsWrite lbasize) × Handle) :=
  match b.lookup lba with
  | none => none
  | some (a, premapLba) =>
    if (b.arenas a).flags &&& infoFlagError ≠ 0 then none
    else
      let freeEntry := (((b.arenas a).flogs lane).flog.oldMap &&& mapEntryLbaMask) |||
        mapEntryNormal
      let oldEntry := mapEntry (ns.arena a) premapLba
      let update := flogUpdate b a lane premapLba oldEntry freeEntry
      some (.data a (freeEntry &&& mapEntryLbaMask) buf ::
        (update.1 ++ [.map a premapLba freeEntry]), update.2)

def mapEntrySetf (b : Handle) (ns : Ns lbasize) (lba : Nat) (setf : UInt32) :
    Option (List (NsWrite lbasize) × Handle) :=
  match b.lookup lba with
  | none => none
  | some (a, premapLba) =>
    if (b.arenas a).flags &&& infoFlagError ≠ 0 then none
    else
      let oldEntry := mapEntry (ns.arena a) premapLba
      if setf = mapEntryZero ∧ mapEntryIsZeroOrInitial oldEntry then some ([], b)
      else some ([.map a premapLba ((oldEntry &&& mapEntryLbaMask) ||| setf)], b)

inductive Op (lbasize : Nat)
  | write (lane lba : Nat) (buf : Block lbasize)
  | setZero (lane lba : Nat)
  | setError (lane lba : Nat)

def Op.lane : Op lbasize → Nat
  | .write lane _ _ => lane
  | .setZero lane _ => lane
  | .setError lane _ => lane

def Op.perform (b : Handle) (ns : Ns lbasize) (op : Op lbasize) :
    List (NsWrite lbasize) × Handle :=
  let result := match op with
    | .write lane lba buf => bttWrite b ns lane lba buf
    | .setZero _ lba => mapEntrySetf b ns lba mapEntryZero
    | .setError _ lba => mapEntrySetf b ns lba mapEntryError
  result.getD ([], b)

/-! ## Runs -/

/-- What can happen to a namespace. A crash comes after `k` of the writes, and inside of the
next one when `junk` is given. -/
inductive Event (lbasize : Nat)
  | op (op : Op lbasize)
  | cut (op : Op lbasize) (k : Nat) (junk : Option (Block lbasize))
  | crash
  | reopen
  | cutReopen (k : Nat) (junk : Option (Block lbasize))

structure State (lbasize : Nat) where
  ns : Ns lbasize
  handle : Option Handle

def crashed (ns : Ns lbasize) (writes : List (NsWrite lbasize)) (k : Nat)
    (junk : Option (Block lbasize)) : Ns lbasize :=
  let ns' := (writes.take k).foldl Ns.exec ns
  match writes[k]?, junk with
  | some w, some junk => ns'.tear junk w
  | _, _ => ns'

/-- Calls need an open namespace, and `read_layout` follows a crash. It is refused when it
fails. -/
def step : Event lbasize → State lbasize → Option (State lbasize)
  | .op op, ⟨ns, some b⟩ =>
    let result := op.perform b ns
    some ⟨result.1.foldl Ns.exec ns, some result.2⟩
  | .cut op k junk, ⟨ns, some b⟩ => some ⟨crashed ns (op.perform b ns).1 k junk, none⟩
  | .crash, ⟨ns, some _⟩ => some ⟨ns, none⟩
  | .reopen, ⟨ns, none⟩ => do
    let (b, writes) ← readLayout ns
    return ⟨writes.foldl Ns.exec ns, some b⟩
  | .cutReopen k junk, ⟨ns, none⟩ => do
    let (_, writes) ← readLayout ns
    return ⟨crashed ns writes k junk, none⟩
  | _, _ => none

end Pmdk.Btt
