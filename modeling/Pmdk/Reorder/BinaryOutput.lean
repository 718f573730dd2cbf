import Mathlib.Algebra.Order.Ring.Nat
import Mathlib.Data.List.GetD

/-!
# Stores to the registered files

The handlers of the registered files, for files of any names. Every file is mapped as a whole, so
the offset of a mapping in its file is not known here, and a store is made at its distance from the
beginning of every mapping that it overlaps with. `none` is an exception.

A mapping never changes the size of a file: the sizes are given, and an `Image` has the bytes.
-/

namespace Pmdk.Reorder

open List

variable {ν : Type} [DecidableEq ν]

abbrev Image (ν : Type) := ν → Nat → UInt8

/-- `Store`; an instruction stores at least one byte. -/
structure Store where
  address : Nat
  newValue : List UInt8
  newValue_ne : newValue ≠ []

/-- `get_base_address` and `get_max_address`. -/
structure Range where
  base : Nat
  max : Nat
  deriving DecidableEq

def Store.range (s : Store) : Range := ⟨s.address, s.address + s.newValue.length⟩

def rangeCmp (lhs rhs : Range) : Int :=
  if lhs.max ≤ rhs.base then -1 else if rhs.max ≤ lhs.base then 1 else 0

structure RegisterFile (ν : Type) where
  name : ν
  address : Nat
  size : Nat
  offset : Nat

structure BinaryFile (ν : Type) where
  fileName : ν
  mapBase : Nat
  mapMax : Nat

def BinaryFile.range (bf : BinaryFile ν) : Range := ⟨bf.mapBase, bf.mapMax⟩

/-! ## Bytes of a file -/

def Image.read (image : Image ν) (f : ν) (pos n : Nat) : List UInt8 :=
  (List.range n).map fun k => image f (pos + k)

def Image.write (image : Image ν) (f : ν) (pos : Nat) (v : List UInt8) : Image ν := fun g b =>
  if g = f ∧ pos ≤ b ∧ b < pos + v.length then v.getD (b - pos) 0 else image g b

/-- Where an index of a slice is in a sequence of `n` elements: a negative one counts from the end,
and the sequence bounds it. -/
def sliceIndex (n : Nat) (i : Int) : Nat := if i < 0 then (n + i).toNat else min i.toNat n

/-- `file_map[start:stop]`. -/
def getSlice (size : ν → Nat) (image : Image ν) (f : ν) (start stop : Int) : List UInt8 :=
  image.read f (sliceIndex (size f) start)
    (sliceIndex (size f) stop - sliceIndex (size f) start)

/-- `file_map[start:stop] = value`, which does not change the size. -/
def setSlice (size : ν → Nat) (image : Image ν) (f : ν) (start stop : Int) (value : List UInt8) :
    Option (Image ν) :=
  if value.length = sliceIndex (size f) stop - sliceIndex (size f) start then
    some (image.write f (sliceIndex (size f) start) value)
  else none

/-- `file_map.flush(offset, n)` needs a range of the file. -/
def flush (size : ν → Nat) (f : ν) (offset n : Int) : Option Unit :=
  if 0 ≤ offset ∧ offset + n ≤ size f then some () else none

/-! ## Stores and reverts -/

/-- The files, and the `old_value` of every store, which is known by its number. -/
abbrev Trial (ν : Type) := Image ν × (Nat → Option (List UInt8))

/-- `BinaryFile.do_store` for the store with number `i`. -/
def BinaryFile.doStore (size : ν → Nat) (bf : BinaryFile ν) (st : Trial ν) (op : Store × Nat) :
    Option (Trial ν) := do
  let baseOff : Int := op.1.range.base - bf.mapBase
  let maxOff : Int := op.1.range.max - bf.mapBase
  let oldValue := getSlice size st.1 bf.fileName baseOff maxOff
  let image ← setSlice size st.1 bf.fileName baseOff maxOff op.1.newValue
  flush size bf.fileName (baseOff / 4096 * 4096) 4096
  some (image, Function.update st.2 op.2 (some oldValue))

def BinaryFile.doRevert (size : ν → Nat) (bf : BinaryFile ν) (st : Trial ν) (op : Store × Nat) :
    Option (Trial ν) := do
  let baseOff : Int := op.1.range.base - bf.mapBase
  let maxOff : Int := op.1.range.max - bf.mapBase
  let oldValue ← st.2 op.2
  let image ← setSlice size st.1 bf.fileName baseOff maxOff oldValue
  flush size bf.fileName (baseOff / 4096 * 4096) 4096
  some (image, st.2)

def suitable (files : List (BinaryFile ν)) (s : Store) : List (BinaryFile ν) :=
  files.filter fun bf => rangeCmp s.range bf.range = 0

def doStore (size : ν → Nat) (files : List (BinaryFile ν)) (st : Trial ν) (op : Store × Nat) :
    Option (Trial ν) :=
  if suitable files op.1 = [] then none
  else (suitable files op.1).foldlM (fun st bf => bf.doStore size st op) st

def doRevert (size : ν → Nat) (files : List (BinaryFile ν)) (st : Trial ν) (op : Store × Nat) :
    Option (Trial ν) :=
  if suitable files op.1 = [] then none
  else (suitable files op.1).foldlM (fun st bf => bf.doRevert size st op) st

/-- `reg_file` with `add_file`: an empty file cannot be mapped. -/
def regFile (size : ν → Nat) (files : List (BinaryFile ν)) (op : RegisterFile ν) :
    Option (List (BinaryFile ν)) :=
  if size op.name = 0 then none
  else some (files ++ [⟨op.name, op.address, op.address + op.size⟩])

/-- `BinaryOutputHandler.check_consistency` with the answers of a checker. -/
def checkConsistency (checker : ν → Image ν → Bool) (files : List (BinaryFile ν))
    (image : Image ν) : Bool :=
  files.all fun bf => checker bf.fileName image

/-! ## Bytes that are written and read -/

variable {size : ν → Nat} {image : Image ν} {f : ν} {pos n : Nat} {v w : List UInt8}
  {bf : BinaryFile ν} {st st' : Trial ν} {op : Store × Nat} {s : Store}

omit [DecidableEq ν] in
@[simp] theorem Image.length_read : (image.read f pos n).length = n := by
  rw [read, length_map, length_range]

omit [DecidableEq ν] in
@[simp] theorem Image.getElem_read {k : Nat} (hk : k < (image.read f pos n).length) :
    (image.read f pos n)[k] = image f (pos + k) := by
  simp only [read, getElem_map, getElem_range]

theorem Image.write_apply_of_lt {k : Nat} (hk : k < v.length) :
    image.write f pos v f (pos + k) = v[k] := by
  rw [write, if_pos ⟨rfl, Nat.le_add_right pos k, Nat.add_lt_add_left hk pos⟩,
    Nat.add_sub_cancel_left, getD_eq_getElem v 0 hk]

theorem Image.read_write : (image.write f pos v).read f pos v.length = v := by
  refine ext_getElem length_read fun k hk hk' => ?_
  rw [getElem_read, write_apply_of_lt hk']

theorem Image.write_write (h : v.length = w.length) :
    (image.write f pos v).write f pos w = image.write f pos w := by
  funext g b
  unfold write
  rw [h]
  split
  · rfl
  · rfl

theorem Image.write_read : image.write f pos (image.read f pos n) = image := by
  funext g b
  rw [write, length_read]
  split
  · rename_i h
    obtain ⟨rfl, hle, hlt⟩ := h
    have hk : b - pos < (image.read g pos n).length := by rw [length_read]; omega
    rw [getD_eq_getElem _ 0 hk, getElem_read, Nat.add_sub_of_le hle]
  · rfl

theorem Image.write_old :
    (image.write f pos v).write f pos (image.read f pos v.length) = image := by
  rw [write_write length_read.symm, write_read]

/-! ## When a store can be made -/

theorem Store.length_pos (s : Store) : 0 < s.newValue.length :=
  length_pos_iff.mpr s.newValue_ne

def BinaryFile.position (bf : BinaryFile ν) (s : Store) : Nat := s.address - bf.mapBase

structure BinaryFile.Fits (size : ν → Nat) (bf : BinaryFile ν) (s : Store) : Prop where
  base_le : bf.mapBase ≤ s.address
  le : bf.position s + s.newValue.length ≤ size bf.fileName
  page : bf.position s / 4096 * 4096 + 4096 ≤ size bf.fileName

theorem rangeCmp_eq_zero_iff {lhs rhs : Range} :
    rangeCmp lhs rhs = 0 ↔ rhs.base < lhs.max ∧ lhs.base < rhs.max := by
  unfold rangeCmp
  split
  · omega
  · split
    · omega
    · omega

omit [DecidableEq ν] in
theorem BinaryFile.Fits.sliceIndex_eq (h : bf.Fits size s) :
    sliceIndex (size bf.fileName) ((s.range.base : Int) - bf.mapBase) = bf.position s ∧
      sliceIndex (size bf.fileName) ((s.range.max : Int) - bf.mapBase) =
        bf.position s + s.newValue.length := by
  have hbase := h.base_le
  have hle := h.le
  unfold position at hle ⊢
  unfold sliceIndex Store.range
  constructor
  · dsimp only
    split
    · omega
    · omega
  · dsimp only
    split
    · omega
    · omega

omit [DecidableEq ν] in
theorem BinaryFile.Fits.flush_eq (h : bf.Fits size s) :
    flush size bf.fileName (((s.range.base : Int) - bf.mapBase) / 4096 * 4096) 4096 = some () := by
  have hbase := h.base_le
  have hpage := h.page
  unfold position at hpage
  unfold flush Store.range
  exact if_pos (by dsimp only; omega)

theorem BinaryFile.Fits.setSlice_eq (h : bf.Fits size s) (hv : v.length = s.newValue.length) :
    setSlice size image bf.fileName ((s.range.base : Int) - bf.mapBase)
      ((s.range.max : Int) - bf.mapBase) v = some (image.write bf.fileName (bf.position s) v) := by
  rw [setSlice, h.sliceIndex_eq.1, h.sliceIndex_eq.2, Nat.add_sub_cancel_left, if_pos hv]

theorem BinaryFile.Fits.doStore_eq (h : bf.Fits size op.1) : bf.doStore size st op =
    some (st.1.write bf.fileName (bf.position op.1) op.1.newValue, Function.update st.2 op.2
      (some (st.1.read bf.fileName (bf.position op.1) op.1.newValue.length))) := by
  rw [doStore, h.setSlice_eq rfl, h.flush_eq, getSlice, h.sliceIndex_eq.1, h.sliceIndex_eq.2,
    Nat.add_sub_cancel_left]
  rfl

theorem BinaryFile.Fits.doRevert_eq (h : bf.Fits size op.1) (hv : st.2 op.2 = some v)
    (hlen : v.length = op.1.newValue.length) : bf.doRevert size st op =
      some (st.1.write bf.fileName (bf.position op.1) v, st.2) := by
  rw [doRevert, hv, Option.bind_eq_bind, Option.bind_some, h.setSlice_eq hlen, h.flush_eq]
  rfl

theorem BinaryFile.fits_of_doStore (hover : rangeCmp op.1.range bf.range = 0)
    (h : bf.doStore size st op = some st') : bf.Fits size op.1 := by
  obtain ⟨hmax, -⟩ := rangeCmp_eq_zero_iff.mp hover
  have hpos := op.1.length_pos
  obtain ⟨image, hset, h⟩ := Option.bind_eq_some_iff.mp h
  obtain ⟨u, hflush, -⟩ := Option.bind_eq_some_iff.mp h
  have hlen := (Option.ite_none_right_eq_some.mp hset).1
  have hpage := (Option.ite_none_right_eq_some.mp hflush).1
  unfold sliceIndex Store.range at hlen
  unfold Store.range at hmax hpage
  dsimp only [range] at hlen hmax hpage
  have hbase : bf.mapBase ≤ op.1.address := by
    by_contra hlt
    rw [if_pos (by omega), if_neg (by omega)] at hlen
    omega
  rw [if_neg (by omega), if_neg (by omega)] at hlen
  refine ⟨hbase, ?_, ?_⟩
  · unfold position
    omega
  · unfold position
    omega

end Pmdk.Reorder
