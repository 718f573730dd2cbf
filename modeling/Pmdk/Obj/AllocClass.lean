import Mathlib.Data.Nat.Bitwise
import Pmdk.Obj.Extend

/-!
# Allocation classes

The collection of the allocation classes of a heap: the default ones, which are generated when the
heap is opened, those that the user adds with the entry point `heap.alloc_class.[class_id].desc`,
and the choice of a class by `heap_get_best_class`.

Sizes are natural numbers, and the casts to `unsigned` are taken modulo `2 ^ 32`. The step from one
generated size to the next is computed in `float` by the source; for a multiple of 64 bytes,
`n * 0.05f` is a whole number or has a fractional part of at least 0.2, so the rounding up that
follows is that of `n / 20`.
-/

namespace Pmdk.AllocClass

open Extend (chunkSize)

/-! ## Runs -/

inductive HeaderType
  | legacy
  | compact
  | none
  deriving DecidableEq

def HeaderType.size : HeaderType → Nat
  | .legacy => 64
  | .compact => 16
  | .none => 0

theorem HeaderType.size_le (h : HeaderType) : h.size ≤ 64 := by
  cases h <;> decide

inductive ClassType
  | huge
  | run
  deriving DecidableEq

/-- `ALIGN_UP`, which masks the bits of `align - 1` whether or not it is a power of two. -/
def alignUp (size align : Nat) : Nat :=
  (size + align - 1) - ((size + align - 1) &&& (align - 1))

def alignDown (size align : Nat) : Nat := size - (size &&& (align - 1))

theorem alignDown_two_pow (n k : Nat) : alignDown n (2 ^ k) = n / 2 ^ k * 2 ^ k := by
  have hmod := Nat.div_add_mod' n (2 ^ k)
  unfold alignDown
  rw [Nat.and_two_pow_sub_one_eq_mod]
  omega

theorem alignUp_two_pow (n k : Nat) : alignUp n (2 ^ k) = (n + 2 ^ k - 1) / 2 ^ k * 2 ^ k :=
  alignDown_two_pow (n + 2 ^ k - 1) k

theorem alignUp_bounds (n : Nat) {a : Nat} (ha : 0 < a) :
    n ≤ alignUp n a ∧ alignUp n a < n + a := by
  have hand : (n + a - 1) &&& (a - 1) ≤ a - 1 := Nat.and_le_right
  unfold alignUp
  omega

theorem alignUp_add_two_pow (n : Nat) {a k : Nat} (ha : 0 < a) (hle : a ≤ 2 ^ k) :
    alignUp (n + 2 ^ k) a = alignUp n a + 2 ^ k := by
  have hand : ∀ m, m &&& (a - 1) = m % 2 ^ k &&& (a - 1) := by
    intro m
    have hlt : a - 1 < 2 ^ k := by omega
    have hmod := Nat.and_mod_two_pow (a := m) (b := a - 1) (n := k)
    rw [Nat.mod_eq_of_lt hlt, Nat.mod_eq_of_lt (Nat.lt_of_le_of_lt Nat.and_le_right hlt)] at hmod
    exact hmod
  have hshift : n + 2 ^ k + a - 1 = n + a - 1 + 2 ^ k := by omega
  have hle' : (n + a - 1) &&& (a - 1) ≤ n + a - 1 := Nat.and_le_left
  unfold alignUp
  rw [hshift, hand (n + a - 1 + 2 ^ k), Nat.add_mod_right, ← hand]
  omega

theorem alignUp_eight (n : Nat) : alignUp n 8 = (n + 7) / 8 * 8 := alignUp_two_pow n 3

def calcSizeIdx (unitSize size : Nat) : Nat :=
  if size = 0 then 0 else ((size - 1) / unitSize + 1) % 2 ^ 32

theorem le_mul_calcSizeIdx {w s : Nat} (hw : 0 < w) (hs : (s - 1) / w + 1 < 2 ^ 32) :
    s ≤ w * calcSizeIdx w s := by
  unfold calcSizeIdx
  split
  · omega
  · rw [Nat.mod_eq_of_lt hs]
    have hlt := Nat.lt_mul_div_succ (s - 1) hw
    omega

theorem le_units {w s : Nat} (hw : 0 < w) (hs : s < 2 ^ 32) : s ≤ w * calcSizeIdx w s := by
  rcases Nat.eq_zero_or_pos s with rfl | hpos
  · exact Nat.zero_le _
  · have hdiv : (s - 1) / w ≤ s - 1 := Nat.div_le_self _ _
    exact le_mul_calcSizeIdx hw (by omega)

/-- `sizeof(struct chunk_run_header)`. -/
def RUN_BASE_METADATA_SIZE : Nat := 16

def runContentSizeBytes (sizeIdx : Nat) : Nat :=
  chunkSize - RUN_BASE_METADATA_SIZE + (sizeIdx - 1) * chunkSize

/-- The part of `struct run_bitmap` that does not depend on the place of the run. -/
structure RunBitmap where
  nbits : Nat
  size : Nat
  deriving DecidableEq

/-- `memblock_run_bitmap`, for a flexible bitmap, which every class has. -/
def memblockRunBitmap (sizeIdx unitSize alignment : Nat) : RunBitmap :=
  let contentSize := runContentSizeBytes sizeIdx
  let nbits := contentSize / unitSize % 2 ^ 32
  let nvalues := (nbits + 63) / 64
  let nvalues := alignUp (nvalues + 2) 8 - 2
  let size := nvalues * 8
  let nbits := (contentSize - size) / unitSize % 2 ^ 32
  ⟨if alignment = 0 then nbits else (nbits + 2 ^ 32 - 1) % 2 ^ 32, size⟩

/-! ## The collection -/

/-- `struct alloc_class`. A class of the type `CLASS_HUGE` does not use the fields of a run. -/
structure Class where
  id : Nat
  type : ClassType
  unitSize : Nat
  headerType : HeaderType
  sizeIdx : Nat
  alignment : Nat
  nallocs : Nat
  pos : 0 < unitSize

def MAX_ALLOCATION_CLASSES : Nat := 255

def MAX_RUN_SIZE : Nat := chunkSize * 10

/-- `ALLOC_BLOCK_SIZE`, the granularity of a collection. -/
def ALLOC_BLOCK_SIZE : Nat := 16

/-- `struct alloc_class_collection`. `classMap` are the entries of the map by size that are set. -/
structure Collection where
  aclasses : List (Option Class)
  lastRunMaxSize : Nat
  classMap : List (Nat × Nat)

def Collection.get (ac : Collection) (id : Nat) : Option Class := (ac.aclasses[id]?).join

def Collection.downward (ac : Collection) : List Class := ac.aclasses.reverse.filterMap id

def sizeToClassMapIndex (size granularity : Nat) : Nat := 1 + (size - 1) / granularity

def Collection.findFirstFreeSlot (ac : Collection) : Option Nat :=
  ac.aclasses.findIdx? Option.isNone

theorem get_findFirstFreeSlot {ac : Collection} {slot : Nat}
    (h : ac.findFirstFreeSlot = some slot) : ac.get slot = none := by
  obtain ⟨hlt, hnone, -⟩ := List.findIdx?_eq_some_iff_getElem.mp h
  rw [Option.isNone_iff_eq_none] at hnone
  rw [Collection.get, List.getElem?_eq_getElem hlt, hnone]
  rfl

/-- The part of `alloc_class_new` for a run: the class in the given slot. Whether it can be
registered by its unit size is the answer of the hash table. -/
def allocClassNew (registered : Bool) (slot : Nat) (ac : Collection) (htype : HeaderType)
    (unitSize alignment sizeIdx : Nat) : Option (Class × Collection) :=
  if h : registered = true ∧ 0 < unitSize then
    let c : Class := {
      id := slot
      type := .run
      unitSize := unitSize
      headerType := htype
      sizeIdx := sizeIdx
      alignment := alignment
      nallocs := (memblockRunBitmap sizeIdx unitSize alignment).nbits
      pos := h.2 }
    some (c, { ac with aclasses := ac.aclasses.set slot (some c) })
  else none

theorem allocClassNew_eq_some {registered : Bool} {slot : Nat} {ac : Collection}
    {htype : HeaderType} {unitSize alignment sizeIdx : Nat} {r : Class × Collection}
    (h : allocClassNew registered slot ac htype unitSize alignment sizeIdx = some r) :
    r.2 = { ac with aclasses := ac.aclasses.set slot (some r.1) } ∧ r.1.id = slot ∧
      r.1.type = .run ∧ r.1.unitSize = unitSize ∧ r.1.headerType = htype ∧
      r.1.sizeIdx = sizeIdx ∧ r.1.alignment = alignment ∧
      r.1.nallocs = (memblockRunBitmap sizeIdx unitSize alignment).nbits := by
  unfold allocClassNew at h
  split at h
  · obtain rfl := Option.some.inj h
    exact ⟨rfl, rfl, rfl, rfl, rfl, rfl, rfl, rfl⟩
  · cases h

def allocClassNewFree (ac : Collection) (unitSize sizeIdx : Nat) : Option (Class × Collection) :=
  ac.findFirstFreeSlot.bind fun slot =>
    allocClassNew true slot ac .compact unitSize 0 sizeIdx

def RUN_UNIT_MAX_ALLOC : Nat := 8

def RUN_DEFAULT_SIZE : Nat := chunkSize - 16 - 304

def requiredSizeIdx (n : Nat) : Nat :=
  if n * 200 > RUN_DEFAULT_SIZE then
    min (1 + calcSizeIdx chunkSize (n * 200 - RUN_DEFAULT_SIZE)) 16
  else 1

/-- The loop of `alloc_class_find_or_create` that looks for a size which wastes little. -/
def growUnit (sizeIdx : Nat) : Nat → Nat → Option Nat
  | 0, _ => none
  | fuel + 1, n =>
    if (runContentSizeBytes sizeIdx - (memblockRunBitmap sizeIdx n 0).size) % n > 1024 then
      growUnit sizeIdx fuel (n + 64)
    else some n

def Class.divides (c : Class) (n : Nat) : Bool :=
  n % c.unitSize = 0 && n / c.unitSize ≤ RUN_UNIT_MAX_ALLOC

/-- `alloc_class_find_or_create`. The class is not used by the caller. -/
def findOrCreate (ac : Collection) (n : Nat) : Option Collection :=
  let sizeIdx := requiredSizeIdx n
  if ac.downward.any fun c => c.type = .run && sizeIdx ≤ c.sizeIdx && c.divides n then some ac
  else
    (growUnit sizeIdx 4096 n).bind fun n =>
      if (ac.aclasses.tail.filterMap id).any fun c =>
          c.type = .run && (c.divides n || c.unitSize = n) then some ac
      else (allocClassNewFree ac n sizeIdx).map Prod.snd

def step (n : Nat) : Nat := ((n + 19) / 20 + 63) / 64 * 64

def generate (size : Nat) : Nat → Nat → Collection → Option Collection
  | 0, _, _ => none
  | fuel + 1, n, ac =>
    (findOrCreate ac n).bind fun ac =>
      if n + step n ≤ size then generate size fuel (n + step n) ac else some ac

/-- The sizes of `categories`. -/
def categories : List Nat := [128, 1024, 2048, 4096, 8192, 16384, 32768, 131072, 393216]

def generateAll : List Nat → Collection → Option Collection
  | prev :: size :: rest, ac =>
    (generate size 100 (prev + 64) ac).bind (generateAll (size :: rest))
  | _, ac => some ac

def hugeClass : Class where
  id := 0
  type := .huge
  unitSize := chunkSize
  headerType := .compact
  sizeIdx := 0
  alignment := 0
  nallocs := 0
  pos := by decide

def allocClassCollectionNew : Option Collection :=
  let ac : Collection :=
    { aclasses := some hugeClass :: List.replicate (MAX_ALLOCATION_CLASSES - 1) none
      lastRunMaxSize := MAX_RUN_SIZE
      classMap := [] }
  (allocClassNewFree ac 128 1).bind fun (c, ac) =>
    (generateAll categories { ac with
      classMap := (List.range (128 / ALLOC_BLOCK_SIZE)).map fun i => (i, c.id) }).map fun ac =>
        match ac.downward.head? with
        | none => ac
        | some c =>
          { ac with
            lastRunMaxSize := min MAX_RUN_SIZE (c.unitSize * min c.nallocs RUN_UNIT_MAX_ALLOC) }

/-! ## The choice of a class -/

/-- The bytes that `alloc_class_find_min_frag` counts as wasted when `units` units are used for an
object of `realSize` bytes. -/
def Class.waste (c : Class) (units realSize : Nat) : Nat :=
  c.unitSize * units - realSize +
    if c.type = .run then c.nallocs % units * c.unitSize / c.nallocs else 0

/-- The loop of `alloc_class_find_min_frag`, with the best class so far and what it wastes. -/
def findMinFrag (n : Nat) : List Class → Option (Class × Nat) → Option Class
  | [], best => best.map Prod.fst
  | c :: cs, best =>
    if c.headerType = .none then findMinFrag n cs best
    else
      let realSize := n + c.headerType.size
      let units := calcSizeIdx c.unitSize realSize
      if c.type = .run ∧ units > RUN_UNIT_MAX_ALLOC then findMinFrag n cs best
      else if c.unitSize * units = realSize then some c
      else
        let waste := c.waste units realSize
        match best with
        | none => findMinFrag n cs (some (c, waste))
        | some (b, lowest) =>
          if lowest > waste then findMinFrag n cs (some (c, waste))
          else findMinFrag n cs (some (b, lowest))

def allocClassAssignBySize (ac : Collection) (size : Nat) : Option (Class × Collection) :=
  let index := sizeToClassMapIndex size ALLOC_BLOCK_SIZE
  (findMinFrag (index * ALLOC_BLOCK_SIZE) ac.downward none).map fun c =>
    (c, { ac with classMap := (index, c.id) :: ac.classMap })

def heapGetBestClass (ac : Collection) (size : Nat) : Option (Class × Collection) :=
  if size < ac.lastRunMaxSize then
    match ac.classMap.lookup (sizeToClassMapIndex size ALLOC_BLOCK_SIZE) with
    | none => allocClassAssignBySize ac size
    | some id => (ac.get id).map fun c => (c, ac)
  else (ac.get 0).map fun c => (c, ac)

def allocClassCalcSizeIdx (c : Class) (size : Nat) : Option Nat :=
  let sizeIdx := calcSizeIdx c.unitSize (size + c.headerType.size)
  if c.type = .run ∧ ((c.headerType = .none ∧ sizeIdx ≠ 1) ∨ sizeIdx > 64 ∨
      sizeIdx > c.nallocs) then none
  else some sizeIdx

/-! ## Classes of the user -/

/-- The fields of `struct pobj_alloc_class_desc` that are read, with a header type that exists. -/
structure Desc where
  unitSize : Nat
  alignment : Nat
  unitsPerBlock : Nat
  headerType : HeaderType
  deriving DecidableEq

def PMEMOBJ_MAX_ALLOC_SIZE : Nat := 0x3FFDFFFC0

def Desc.sizeIdx (p : Desc) : Nat :=
  let runsizeBytes := (p.unitsPerBlock * p.unitSize + RUN_BASE_METADATA_SIZE + (chunkSize - 1)) %
    2 ^ 64 / chunkSize * chunkSize
  min ((runsizeBytes + p.alignment) % 2 ^ 64 / chunkSize % 2 ^ 32) 65535

/-- `CTL_WRITE_HANDLER(desc)` for the class with the given number, or without one. Whether the class
can be registered, and its buckets created, are the answers. -/
def ctlWriteDesc (registered buckets : Bool) (p : Desc) (classId : Option Nat) (ac : Collection) :
    Option Collection :=
  if p.unitSize = 0 ∨ p.unitSize > PMEMOBJ_MAX_ALLOC_SIZE ∨ p.unitsPerBlock = 0 then none
  else if p.alignment ≠ 0 ∧ p.unitSize % p.alignment ≠ 0 then none
  else if p.alignment > 1024 * 1024 * 2 then none
  else
    let slot :=
      match classId with
      | none => ac.findFirstFreeSlot
      | some id =>
        if id < MAX_ALLOCATION_CLASSES ∧ ac.get id = none then some id else none
    slot.bind fun id =>
      (allocClassNew registered id ac p.headerType p.unitSize p.alignment p.sizeIdx).bind
        fun (_, ac) => if buckets = false then none else some ac

/-! ## The default classes -/

def Class.Lined (c : Class) : Prop :=
  c.unitSize % 64 = 0 ∧ c.alignment = 0 ∧ c.headerType = .compact

instance (c : Class) : Decidable c.Lined := inferInstanceAs (Decidable (_ ∧ _))

def Class.Fits (c : Class) : Prop :=
  c.unitSize ≤ PMEMOBJ_MAX_ALLOC_SIZE ∧ (c.type = .huge → c.unitSize = chunkSize)

instance (c : Class) : Decidable c.Fits := inferInstanceAs (Decidable (_ ∧ _))

theorem default_classes :
    ∃ ac slot, allocClassCollectionNew = some ac ∧ ac.findFirstFreeSlot = some slot ∧
      ∀ c ∈ ac.downward, c.Lined ∧ c.Fits := by
  have h : (allocClassCollectionNew.any fun ac => ac.findFirstFreeSlot.any fun _ =>
      ac.downward.all fun c => c.Lined ∧ c.Fits) = true := by
    decide +kernel
  obtain ⟨ac, hac, h⟩ := (Option.any_eq_true _ _).mp h
  obtain ⟨slot, hslot, hall⟩ := (Option.any_eq_true _ _).mp h
  exact ⟨ac, slot, hac, hslot, fun c hc => of_decide_eq_true (List.all_eq_true.mp hall c hc)⟩

end Pmdk.AllocClass
