import Pmdk.Blk.BttCrash

/-!
# Calls on different lanes

Here `btt_read`, `btt_write`, `btt_set_zero` and `btt_set_error` are step machines over the
namespace, the run-time flogs, the read tracking tables and the map locks. One step is a read or
a write of a map entry, of half a flog entry, of one byte of a block or of an entry of the read
tracking table, or takes or releases a lock. The lanes take their steps in any order, and a
crash may come between any two steps.
-/

namespace Pmdk.Btt

open Function

inductive Job
  | write (freeEntry : UInt32)
  | setf (setf : UInt32)
  deriving DecidableEq

inductive Pc (lbasize : Nat)
  | idle
  | readMap (a : Nat) (premapLba : UInt32)
  | readLoop (a : Nat) (premapLba entry : UInt32)
  | readLatest (a : Nat) (premapLba entry : UInt32)
  | readData (a : Nat) (premapLba entry : UInt32) (buf : Block lbasize)
      (copied : Fin lbasize → Bool)
  | scan (a : Nat) (premapLba freeEntry : UInt32) (buf : Block lbasize) (i : Nat)
  | writeData (a : Nat) (premapLba freeEntry : UInt32) (buf : Block lbasize)
      (copied : Fin lbasize → Bool)
  | mapLock (a : Nat) (premapLba : UInt32) (job : Job)
  | mapRead (a : Nat) (premapLba : UInt32) (job : Job)
  | flogHead (a : Nat) (premapLba freeEntry oldEntry : UInt32)
  | flogTail (a : Nat) (premapLba freeEntry oldEntry : UInt32)
  | mapWrite (a : Nat) (premapLba : UInt32) (job : Job) (entry : UInt32)
  | mapUnlock (a : Nat) (premapLba : UInt32)

instance Content.decidableEq (lbasize : Nat) : DecidableEq (Content lbasize)
  | .block buf, .block buf' =>
    decidable_of_iff (∀ i, buf i = buf' i)
      ⟨fun h => congrArg Content.block (funext h), fun h => congrFun (Content.block.inj h)⟩
  | .eio, .eio => isTrue rfl
  | .einval, .einval => isTrue rfl
  | .block _, .eio => isFalse nofun
  | .block _, .einval => isFalse nofun
  | .eio, .block _ => isFalse nofun
  | .eio, .einval => isFalse nofun
  | .einval, .block _ => isFalse nofun
  | .einval, .eio => isFalse nofun

inductive Call (lbasize : Nat)
  | read (lba : Nat)
  | write (lba : Nat) (buf : Block lbasize)
  | setZero (lba : Nat)
  | setError (lba : Nat)

structure Shared (lbasize : Nat) where
  ns : Ns lbasize
  handle : Option Handle
  maxlane : Nat
  pc : Nat → Pc lbasize
  mapLocks : Nat → Nat → Option Nat
  rtt : Nat → Nat → UInt32

variable {lbasize : Nat}

def nlane (nfree maxlane : Nat) : Nat :=
  if maxlane ≠ 0 ∧ nfree > maxlane then maxlane else nfree

def getMapLockNum (premapLba : UInt32) (nfree : Nat) : Nat :=
  (premapLba * 4).toNat / 64 % nfree

def Handle.freeEntry (b : Handle) (a lane : Nat) : UInt32 :=
  (((b.arenas a).flogs lane).flog.oldMap &&& mapEntryLbaMask) ||| mapEntryNormal

def Call.begin (b : Handle) (lane : Nat) : Call lbasize → Pc lbasize
  | .read lba =>
    match b.lookup lba with
    | none => .idle
    | some (a, premapLba) => .readMap a premapLba
  | .write lba buf =>
    match b.lookup lba with
    | none => .idle
    | some (a, premapLba) =>
      if (b.arenas a).flags &&& infoFlagError ≠ 0 then .idle
      else .scan a premapLba (b.freeEntry a lane) buf 0
  | .setZero lba =>
    match b.lookup lba with
    | none => .idle
    | some (a, premapLba) =>
      if (b.arenas a).flags &&& infoFlagError ≠ 0 then .idle
      else .mapLock a premapLba (.setf mapEntryZero)
  | .setError lba =>
    match b.lookup lba with
    | none => .idle
    | some (a, premapLba) =>
      if (b.arenas a).flags &&& infoFlagError ≠ 0 then .idle
      else .mapLock a premapLba (.setf mapEntryError)

namespace Shared

def setPc (s : Shared lbasize) (lane : Nat) (pc : Pc lbasize) : Shared lbasize :=
  { s with pc := update s.pc lane pc }

def setRtt (s : Shared lbasize) (a lane : Nat) (entry : UInt32) : Shared lbasize :=
  { s with rtt := update s.rtt a (update (s.rtt a) lane entry) }

def setLock (s : Shared lbasize) (a num : Nat) (holder : Option Nat) : Shared lbasize :=
  { s with mapLocks := update s.mapLocks a (update (s.mapLocks a) num holder) }

def exec (s : Shared lbasize) (w : NsWrite lbasize) : Shared lbasize :=
  { s with ns := s.ns.exec w }

/-- The next step of a lane, where it has no choice. A lane that waits for a lock cannot take
one; a lane that waits for a reader looks again. -/
def act (s : Shared lbasize) (b : Handle) (lane : Nat) : Option (Shared lbasize) :=
  match s.pc lane with
  | .readMap a premapLba =>
    some (s.setPc lane (.readLoop a premapLba ((s.ns.arena a).map premapLba)))
  | .readLoop a premapLba entry =>
    if mapEntryIsError entry ∨ mapEntryIsZeroOrInitial entry then none
    else some ((s.setRtt a lane entry).setPc lane (.readLatest a premapLba entry))
  | .readLatest a premapLba entry =>
    if entry = (s.ns.arena a).map premapLba then
      some (s.setPc lane (.readData a premapLba entry zeroBlock fun _ => false))
    else some (s.setPc lane (.readLoop a premapLba ((s.ns.arena a).map premapLba)))
  | .scan a premapLba freeEntry buf i =>
    if i < nlane b.nfree s.maxlane then
      if s.rtt a i = freeEntry then some s
      else some (s.setPc lane (.scan a premapLba freeEntry buf (i + 1)))
    else some (s.setPc lane (.writeData a premapLba freeEntry buf fun _ => false))
  | .writeData a premapLba freeEntry _ copied =>
    if ∀ i, copied i = true then
      some (s.setPc lane (.mapLock a premapLba (.write freeEntry)))
    else none
  | .mapLock a premapLba job =>
    if s.mapLocks a (getMapLockNum premapLba b.nfree) = none then
      some ((s.setLock a (getMapLockNum premapLba b.nfree) (some lane)).setPc lane
        (.mapRead a premapLba job))
    else none
  | .mapRead a premapLba job =>
    let oldEntry := mapEntry (s.ns.arena a) premapLba
    match job with
    | .write freeEntry => some (s.setPc lane (.flogHead a premapLba freeEntry oldEntry))
    | .setf setf =>
      if setf = mapEntryZero ∧ mapEntryIsZeroOrInitial oldEntry then
        some (s.setPc lane (.mapUnlock a premapLba))
      else some (s.setPc lane
        (.mapWrite a premapLba job ((oldEntry &&& mapEntryLbaMask) ||| setf)))
  | .flogHead a premapLba freeEntry oldEntry =>
    let next := ((b.arenas a).flogs lane).next
    some ((s.exec (.flogHead a lane next premapLba oldEntry)).setPc lane
      (.flogTail a premapLba freeEntry oldEntry))
  | .flogTail a premapLba freeEntry oldEntry =>
    let runtime := (b.arenas a).flogs lane
    let seq := nseq runtime.flog.seq
    let s := s.exec (.flogTail a lane runtime.next freeEntry seq)
    let handle := b.setFlog a lane ⟨⟨premapLba, oldEntry, freeEntry, seq⟩, !runtime.next⟩
    some ({ s with handle := some handle }.setPc lane
      (.mapWrite a premapLba (.write freeEntry) freeEntry))
  | .mapUnlock a premapLba =>
    some ((s.setLock a (getMapLockNum premapLba b.nfree) none).setPc lane .idle)
  | _ => none

def byte (s : Shared lbasize) (lane : Nat) (i : Fin lbasize) : Option (Shared lbasize) :=
  match s.pc lane with
  | .readData a premapLba entry buf copied =>
    let b := (s.ns.arena a).data (entry &&& mapEntryLbaMask) i
    some (s.setPc lane (.readData a premapLba entry (update buf i b)
      (update copied i true)))
  | .writeData a premapLba freeEntry buf copied =>
    let ns := s.ns.modify a fun m =>
      m.setData (freeEntry &&& mapEntryLbaMask)
        (update (m.data (freeEntry &&& mapEntryLbaMask)) i (buf i))
    some ({ s with ns }.setPc lane
      (.writeData a premapLba freeEntry buf (update copied i true)))
  | _ => none

def commit (s : Shared lbasize) (lane : Nat) : Option (Shared lbasize) :=
  match s.pc lane with
  | .mapWrite a premapLba _ entry =>
    some ((s.exec (.map a premapLba entry)).setPc lane (.mapUnlock a premapLba))
  | _ => none

/-- `btt_read` returns `content`. Only after the block was copied is the entry of the read
tracking table cleared. -/
def ret (s : Shared lbasize) (lane : Nat) (content : Content lbasize) :
    Option (Shared lbasize) :=
  match s.pc lane with
  | .readLoop _ _ entry =>
    if (mapEntryIsError entry ∧ content = .eio) ∨
        (¬ mapEntryIsError entry ∧ mapEntryIsZeroOrInitial entry ∧
          content = .block zeroBlock) then
      some (s.setPc lane .idle)
    else none
  | .readData a _ _ buf copied =>
    if (∀ i, copied i = true) ∧ content = .block buf then
      some ((s.setRtt a lane mapEntryError).setPc lane .idle)
    else none
  | _ => none

def down (s : Shared lbasize) (ns : Ns lbasize) : Shared lbasize :=
  { ns
    handle := none
    maxlane := s.maxlane
    pc := fun _ => .idle
    mapLocks := fun _ _ => none
    rtt := fun _ _ => mapEntryError }

end Shared

/-- What may happen. `ret` is the return of `btt_read`, `commit` the write of a map entry, and
`cutReopen k` a `read_layout` that is cut by a crash after `k` of its writes. -/
inductive StepEvent (lbasize : Nat)
  | call (lane : Nat) (c : Call lbasize)
  | act (lane : Nat)
  | byte (lane : Nat) (i : Fin lbasize)
  | commit (lane : Nat)
  | ret (lane : Nat) (content : Content lbasize)
  | crash
  | reopen
  | cutReopen (k : Nat)

def sharedStep (e : StepEvent lbasize) (s : Shared lbasize) : Option (Shared lbasize) :=
  match s.handle with
  | some b =>
    match e with
    | .call lane c =>
      match s.pc lane with
      | .idle =>
        if lane < nlane b.nfree s.maxlane then some (s.setPc lane (c.begin b lane)) else none
      | _ => none
    | .act lane => s.act b lane
    | .byte lane i => s.byte lane i
    | .commit lane => s.commit lane
    | .ret lane content => s.ret lane content
    | .crash => some (s.down s.ns)
    | _ => none
  | none =>
    match e with
    | .reopen => do
      let (b, writes) ← readLayout s.ns
      return { s.down (writes.foldl Ns.exec s.ns) with handle := some b }
    | .cutReopen k => do
      let (_, writes) ← readLayout s.ns
      return s.down ((writes.take k).foldl Ns.exec s.ns)
    | _ => none

end Pmdk.Btt
