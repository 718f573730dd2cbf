import Pmdk.Blk.BttPermute

/-!
# Writing and checking the layout

`write_layout` divides the namespace into arenas of 512 GB, the last one smaller. For each arena it
computes the info block, zeroes the map unless the namespace is known to be zeroed, and writes the
flogs. `nszero` is called with the offset of the map without that of the arena, so what it zeroes
lies in the first arena every time.
-/

namespace Pmdk.Btt

variable {lbasize : Nat}

/-! ## Info blocks -/

def minSize : Nat := 2 ^ 24

def maxArena : Nat := 2 ^ 39

/-- `BTT_ALIGNMENT`, which is also the size of an info block. -/
def alignment : Nat := 4096

def roundup (x y : Nat) : Nat := (x + (y - 1)) / y * y

def internalLbasize (externalLbasize : Nat) : Option Nat :=
  let size := if externalLbasize < 512 then 512 else externalLbasize
  let size := (size + 255) % 2 ^ 32 / 256 * 256
  if size < 256 then none else some size

def bttFlogSize (nfree : Nat) : Nat := roundup (nfree * 64) alignment

def bttMapSize (externalNlba : UInt32) : Nat := roundup (externalNlba * 4).toNat alignment

def bttArenaDatasize (arenaSize nfree : Nat) : Nat :=
  arenaSize - 2 * alignment - bttFlogSize nfree

/-- The number of internal blocks, from `btt_info_set_params`. -/
def internalNlba (internalLbasize nfree arenaSize : Nat) : Nat :=
  (bttArenaDatasize arenaSize nfree - alignment) / (internalLbasize + 4)

def bttInfoSetParams (externalLbasize internalLbasize nfree arenaSize : Nat) : Option Info :=
  let n := internalNlba internalLbasize nfree arenaSize
  if n < 2 * nfree then none
  else some
    { flags := 0
      externalLbasize
      externalNlba := UInt32.ofNat n - UInt32.ofNat nfree
      internalNlba := UInt32.ofNat n
      nfree }

def infooff (arenaSize : Nat) : Nat := arenaSize - alignment

def flogoff (arenaSize nfree : Nat) : Nat := infooff arenaSize - bttFlogSize nfree

def mapoff (arenaSize nfree : Nat) (externalNlba : UInt32) : Nat :=
  flogoff arenaSize nfree - bttMapSize externalNlba

/-! ## The layout -/

def arenaSize (rawsize a : Nat) : Nat := min (rawsize - a * maxArena) maxArena

def narena (rawsize : Nat) : Nat :=
  rawsize / maxArena + if rawsize % maxArena ≥ minSize then 1 else 0

structure Geometry where
  start : Nat
  internalLbasize : Nat
  mapoff : Nat
  flogoff : Nat
  deriving DecidableEq

def geometry (rawsize internalLbasize nfree a : Nat) : Geometry where
  start := a * maxArena
  internalLbasize := internalLbasize
  mapoff := mapoff (arenaSize rawsize a) nfree
    (UInt32.ofNat (internalNlba internalLbasize nfree (arenaSize rawsize a)) - UInt32.ofNat nfree)
  flogoff := flogoff (arenaSize rawsize a) nfree

/-- The word at `addr` after the bytes from `off` on were zeroed, `count` of them. -/
def zeroWord (off count addr : Nat) (w : UInt32) : UInt32 :=
  let keep : Nat → UInt32 → UInt32 := fun t mask =>
    if off ≤ addr + t ∧ addr + t < off + count then 0 else mask
  w &&& (keep 0 0xff ||| keep 1 0xff00 ||| keep 2 0xff0000 ||| keep 3 0xff000000)

/-- What `nszero` leaves in an arena. The info blocks are not reached by the calls of
`write_layout`. -/
def ArenaMedia.nszero (m : ArenaMedia lbasize) (g : Geometry) (count off : Nat) :
    ArenaMedia lbasize where
  info := m.info
  flog := fun lane e =>
    let addr := g.start + g.flogoff + 64 * lane + if e then 16 else 0
    { lba := zeroWord off count addr (m.flog lane e).lba
      oldMap := zeroWord off count (addr + 4) (m.flog lane e).oldMap
      newMap := zeroWord off count (addr + 8) (m.flog lane e).newMap
      seq := zeroWord off count (addr + 12) (m.flog lane e).seq }
  map := fun i => zeroWord off count (g.start + g.mapoff + 4 * i.toNat) (m.map i)
  data := fun b j =>
    let addr := g.start + alignment + b.toNat * g.internalLbasize + j
    if off ≤ addr ∧ addr < off + count then 0 else m.data b j

def Ns.nszero (ns : Ns lbasize) (g : Nat → Geometry) (count off : Nat) : Ns lbasize :=
  { ns with arena := fun a => (ns.arena a).nszero (g a) count off }

def ArenaMedia.layout (m : ArenaMedia lbasize) (info : Info) : ArenaMedia lbasize :=
  { m with
    info
    flog := fun lane => if lane < info.nfree then freshFlog info lane else m.flog lane }

def writeArenas (rawsize internalLbasize nfree : Nat) (nsIsZeroed : Bool) :
    Nat → Nat → Ns lbasize → Option (Ns lbasize)
  | _, 0, ns => some ns
  | a, n + 1, ns => do
    let info ← bttInfoSetParams lbasize internalLbasize nfree (arenaSize rawsize a)
    let ns := if nsIsZeroed then ns else
      ns.nszero (geometry rawsize internalLbasize nfree) (bttMapSize info.externalNlba)
        (mapoff (arenaSize rawsize a) nfree info.externalNlba)
    writeArenas rawsize internalLbasize nfree nsIsZeroed (a + 1) n
      (ns.setArena a ((ns.arena a).layout info))

/-- `write_layout`, from a namespace without a layout. Nothing is in flight afterwards. -/
def writeLayout (rawsize maxlane : Nat) (nsIsZeroed : Bool) (ns : Ns lbasize) :
    Option (Shared lbasize) := do
  let internalLbasize ← internalLbasize lbasize
  let ns ← writeArenas rawsize internalLbasize defaultNfree nsIsZeroed 0 (narena rawsize)
    { ns with narena := narena rawsize }
  let nlba := (ns.infos.map fun info => info.externalNlba.toNat).sum
  let (arenas, writes) ← readArenas defaultNfree nlba ns (fun _ => ⟨0, 0, fun _ => .zeroed⟩) 0
    (narena rawsize)
  return {
    ns := writes.foldl Ns.exec ns
    handle := some ⟨defaultNfree, nlba, narena rawsize, arenas⟩
    maxlane
    pc := fun _ => .idle
    mapLocks := fun _ _ => none
    rtt := fun _ _ => mapEntryError }

/-! ## Checking -/

def postMapLba (entry i : UInt32) : UInt32 :=
  if mapEntryIsInitial entry then i else entry &&& mapEntryLbaMask

/-- The bitmap of `check_arena`, and whether no LBA was seen twice. -/
structure Seen where
  bitmap : UInt32 → Bool
  consistent : Bool

def Seen.mark (st : Seen) (entry : UInt32) : Seen :=
  if st.bitmap entry then { st with consistent := false }
  else { st with bitmap := Function.update st.bitmap entry true }

def checkMap (internalNlba : UInt32) : List UInt32 → Seen → Option Seen
  | [], st => some st
  | entry :: entries, st =>
    if entry ≥ internalNlba then none else checkMap internalNlba entries (st.mark entry)

def checkArena (b : Handle) (ns : Ns lbasize) (a : Nat) : Int :=
  let m := ns.arena a
  let entries := (List.range m.info.externalNlba.toNat).map fun i =>
    postMapLba (m.map (UInt32.ofNat i)) (UInt32.ofNat i)
  let flogs := (List.range b.nfree).map fun i =>
    ((b.arenas a).flogs i).flog.oldMap &&& mapEntryLbaMask
  match checkMap m.info.internalNlba entries ⟨fun _ => false, true⟩ with
  | none => -1
  | some st =>
    let st := flogs.foldl Seen.mark st
    if st.consistent ∧ ∀ i < m.info.internalNlba.toNat, st.bitmap (UInt32.ofNat i) then 1 else 0

/-- The post-map LBAs in the map of an arena, and those in the `old_map` fields of the run-time
flogs. -/
def listed (b : Handle) (ns : Ns lbasize) (a : Nat) : Nat ⊕ UInt32 → UInt32
  | .inl lane => ((b.arenas a).flogs lane).flog.oldMap &&& mapEntryLbaMask
  | .inr i => postMapLba ((ns.arena a).map i) i

end Pmdk.Btt
