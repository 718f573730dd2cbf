import Pmdk.NvMalloc.Heap

/-!
# nvm_activate and nvm_free

A call is the list of its stores to NVM in program order, so that a crash can come between any
two of them, together with what it changes in volatile memory once they are done. Link words are
noted in the header before the state that commits to them.
-/

namespace Pmdk.NvMalloc

structure Link where
  ptr : Nat
  value : Nat
  deriving DecidableEq

abbrev Links := Option (Link × Option Link)

namespace Links

def toList : Links → List Link
  | none => []
  | some (l, none) => [l]
  | some (l, some l') => [l, l']

/-- The stores to `on` in the header. -/
def notes (on : Nat) : Links → List Store
  | none => []
  | some (l, none) => [.mem on l.ptr, .mem (on + 8) l.value]
  | some (l, some l') =>
    [.mem on l.ptr, .mem (on + 8) l.value, .mem (on + 16) l'.ptr, .mem (on + 24) l'.value]

def follow (links : Links) : List Store := links.toList.map fun l => .mem l.ptr l.value

def stores (state on commit : Nat) (links : Links) : List Store :=
  match links with
  | none => []
  | some _ => links.notes on ++ .mem state commit :: links.follow

end Links

/-- `memset(on, 0, 2*sizeof(nvm_ptrset_t))`. -/
def clearStores (on : Nat) : List Store :=
  [.mem on 0, .mem (on + 8) 0, .mem (on + 16) 0, .mem (on + 24) 0]

/-- The stores to the header of a large or huge object: `commit` is the state while the link
words are written and `final` the one after. -/
def headerStores (page commit final : Nat) (links : Links) : List Store :=
  links.stores (addr page 0) (addr page offOn) commit ++ .mem (addr page 0) final ::
    clearStores (addr page offOn)

def runStores (page i prepare commit : Nat) (bit : Store) (links : Links) : List Store :=
  .mem (addr page 0) prepare :: .mem (addr page offBitIdx) i ::
    links.stores (addr page 0) (addr page offRunOn) commit ++
    bit :: .mem (addr page 0) (usageRun ||| stateInitialized) ::
    .mem (addr page offBitIdx) 65535 :: clearStores (addr page offRunOn)

def pageOf (a : Nat) : Nat := a / blockSize

def isHuge (ptr : Nat) : Bool := ptr % chunkSize = headerSize

def slotOf (ptr nBytes : Nat) : Nat := (ptr - addr (pageOf ptr) headerSize) / nBytes

namespace Heap

def logActivate (h : Heap) (ptr : Nat) : Store := .log (h.nextLogEntry % maxLogEntries) ptr

/-- The stores of `nvm_activate` after the one to the log. -/
def objectActivate (h : Heap) (ptr : Nat) (links : Links) : Except Failure (List Store) :=
  let page := pageOf ptr
  let state := h.nvm.mem (addr page 0)
  if isHuge ptr then
    .ok (headerStores page (usageHuge ||| stateActivating) (usageHuge ||| stateInitialized) links)
  else if getUsage state = usageFree then
    .ok (headerStores page (usageBlock ||| stateActivating) (usageBlock ||| stateInitialized)
      links)
  else if state ≠ usageRun ||| stateInitialized then .error .hang
  else
    let i := slotOf ptr (h.nvm.mem (addr page offNBytes))
    .ok (runStores page i (usageRun ||| statePreactivate) (usageRun ||| stateActivating)
      (.setBit page i) links)

def activateStores (h : Heap) (ptr : Nat) (links : Links) : Except Failure (List Store) := do
  return h.logActivate ptr :: (← h.objectActivate ptr links)

def nvmActivate (h : Heap) (ptr : Nat) (links : Links) : Except Failure Heap := do
  let stores ← h.activateStores ptr links
  return { h with nvm := stores.foldl Nvm.exec h.nvm, nextLogEntry := h.nextLogEntry + 1 }

def arenaCreateRunHeader (m : Mem) (page : Nat) : Run :=
  let elemSize := m (addr page offNBytes)
  let nMax := (blockSize - 64) / elemSize
  { elemSize
    nMax
    bitmap := bitmapOf m page
    nFree := (List.range nMax).countP fun i => !(bitmapOf m page).test i }

def runOf (h : Heap) (page : Nat) : Run :=
  if h.nvm.mem (addr page offVersion) < h.currentVersion then arenaCreateRunHeader h.nvm.mem page
  else h.run page

/-- The stores of `nvm_free`. -/
def freeStores (h : Heap) (ptr : Nat) (links : Links) : Except Failure (List Store) :=
  let page := pageOf ptr
  let state := h.nvm.mem (addr page 0)
  if isHuge ptr then
    .ok (headerStores page (usageHuge ||| stateFreeing) (usageFree ||| stateInitialized) links)
  else if getUsage state = usageBlock then
    .ok (headerStores page (usageBlock ||| stateFreeing) (usageFree ||| stateInitialized) links)
  else if getUsage state = usageRun then
    if state ≠ usageRun ||| stateInitialized then .error .hang
    else
      let i := slotOf ptr (h.runOf page).elemSize
      let stores := runStores page i (usageRun ||| statePrefree) (usageRun ||| stateFreeing)
        (.clearBit page i) links
      if h.nvm.mem (addr page offVersion) < h.currentVersion then
        .ok (stores.take 1 ++ .mem (addr page offVersion) h.currentVersion :: stores.drop 1)
      else .ok stores
  else .ok []

def freeSlot (h : Heap) (page i : Nat) : Heap :=
  let run := h.runOf page
  let k := run.elemSize / 64 - 1
  let run := { run with bitmap := run.bitmap.clear i, nFree := run.nFree + 1 }
  let bin := h.bins k
  let bin := { bin with nFree := bin.nFree + 1 }
  let bin := if bin.currentRun ≠ some page ∧ run.nFree = 1 then
    { bin with runs := page :: bin.runs } else bin
  (h.setRun page run).setBin k bin

/-- What `nvm_free` does in volatile memory. -/
def freeVolatile (h : Heap) (ptr : Nat) : Heap :=
  let page := pageOf ptr
  let state := h.nvm.mem (addr page 0)
  let size := h.nvm.mem (addr page offSize)
  if isHuge ptr then
    { h with freeChunks := h.freeChunks.add Extent.len ⟨ptr / chunkSize, size⟩ }
  else if getUsage state = usageBlock then
    { h with freePageruns := h.freePageruns.add Extent.len ⟨page, size⟩ }
  else if getUsage state = usageRun then
    h.freeSlot page (slotOf ptr (h.runOf page).elemSize)
  else h

def nvmFree (h : Heap) (ptr : Nat) (links : Links) : Except Failure Heap := do
  let stores ← h.freeStores ptr links
  return { h.freeVolatile ptr with nvm := stores.foldl Nvm.exec h.nvm }

/-! ## Clients -/

def payload (h : Heap) (ptr : Nat) : Nat × Nat :=
  let page := pageOf ptr
  let size := h.nvm.mem (addr page offSize)
  if isHuge ptr then (ptr, size * chunkSize - headerSize)
  else if getUsage (h.nvm.mem (addr page 0)) = usageRun then
    (ptr, h.nvm.mem (addr page offNBytes))
  else (ptr, size * blockSize - headerSize)

def isWord (h : Heap) (a : Nat) : Bool :=
  a % 8 = 0 ∧ ∃ ptr ∈ h.reserved ++ h.active,
    (h.payload ptr).1 ≤ a ∧ a < (h.payload ptr).1 + (h.payload ptr).2

def linksOk (h : Heap) (links : Links) : Bool := ∀ l ∈ links.toList, h.isWord l.ptr

end Heap

inductive Event
  | reserve (nBytes : Nat)
  | activate (ptr : Nat) (links : Links)
  | free (ptr : Nat) (links : Links)
  | write (a v : Nat)
  deriving DecidableEq

def step (e : Event) (h : Heap) : Option Heap :=
  match e with
  | .reserve nBytes =>
    if 1 ≤ nBytes ∧ nBytes < 2 ^ 64 then
      match h.nvmReserve nBytes with
      | .ok (some ptr, h') => some { h' with reserved := ptr :: h'.reserved }
      | _ => none
    else none
  | .activate ptr links =>
    if ptr ∈ h.reserved ∧ h.linksOk links then
      (h.nvmActivate ptr links).toOption.map fun h' =>
        { h' with reserved := h'.reserved.erase ptr, active := ptr :: h'.active }
    else none
  | .free ptr links =>
    if ptr ∈ h.active ∧ h.linksOk links then
      (h.nvmFree ptr links).toOption.map fun h' => { h' with active := h'.active.erase ptr }
    else none
  | .write a v => if h.isWord a then some (h.put a v) else none

/-- The heap after `nvm_initialize_empty`. The chunks of the other two arenas are never used. -/
def init : Heap where
  nvm := {
    mem := Function.update (Function.update (prefault (fun _ => 0) 0 initialArenas)
      (addr 1 0) (usageFree ||| stateInitialized)) (addr 1 offSize) (chunkPages - 1)
    log := fun _ => 0
    version := 1 }
  nextChunk := initialArenas
  freeChunks := .leaf
  freePageruns := .node .leaf ⟨1, chunkPages - 1⟩ .leaf
  bins := fun _ => ⟨none, 0, []⟩
  runs := []
  run := fun _ => ⟨0, 0, 0, fun _ => 0⟩
  currentVersion := 0
  nextLogEntry := 0
  reserved := []
  active := []

end Pmdk.NvMalloc
