import Pmdk.Obj.ChunkMerge
import Pmdk.Obj.Extend

/-!
# The invariant of a heap that grows

`SizeOk` says that a zone can have so many chunks: they are inside of the mapped region, and there
is no persistent size of the heap for which they are too many. Every size of a zone, and every end
of a chunk of which some header slot tells, has this property.
-/

namespace Pmdk.Extend

open Persist Chunk

/-! ## Sizes -/

theorem maxZoneLoop_bounds {fuel size : Nat} (hfuel : size < fuel * zoneMaxSize) :
    (maxZoneLoop fuel size = 0 → size < zoneMinSize) ∧
      ∀ n, maxZoneLoop fuel size = n + 1 →
        n * zoneMaxSize + zoneMinSize ≤ size ∧ size < (n + 1) * zoneMaxSize + zoneMinSize := by
  induction fuel generalizing size with
  | zero => omega
  | succ fuel ih =>
    rw [maxZoneLoop]
    have hmin : zoneMinSize ≤ zoneMaxSize := by decide
    split
    · rename_i hle
      refine ⟨fun h => absurd h (Nat.succ_ne_zero _), fun n hn => ?_⟩
      have hn : maxZoneLoop fuel (size - if size ≤ zoneMaxSize then size else zoneMaxSize) = n :=
        Nat.succ.inj hn
      split at hn
      · rename_i hsmall
        rw [Nat.sub_self] at hn
        have hzero : maxZoneLoop fuel 0 = 0 := by
          cases fuel with
          | zero => rfl
          | succ fuel => exact if_neg (by decide)
        obtain rfl : n = 0 := hn.symm.trans hzero
        constructor
        · rw [Nat.zero_mul, Nat.zero_add]
          exact hle
        · rw [Nat.zero_add, Nat.one_mul]
          exact Nat.lt_of_le_of_lt hsmall (Nat.lt_add_of_pos_right (by decide))
      · rename_i hbig
        have hsize : size - zoneMaxSize < fuel * zoneMaxSize := by
          rw [Nat.succ_mul] at hfuel
          omega
        have hrest := ih hsize
        rw [hn] at hrest
        cases n with
        | zero =>
          have hlt := hrest.1 rfl
          constructor
          · rw [Nat.zero_mul, Nat.zero_add]
            exact hle
          · rw [Nat.zero_add, Nat.one_mul]
            omega
        | succ n =>
          obtain ⟨hlo, hhi⟩ := hrest.2 n rfl
          have hone := Nat.add_one_mul n zoneMaxSize
          have htwo := Nat.add_one_mul (n + 1) zoneMaxSize
          omega
    · rename_i hlt
      exact ⟨fun _ => Nat.lt_of_not_le hlt, fun n hn => absurd hn (Nat.succ_ne_zero n).symm⟩

theorem heapMaxZone_bounds {size n : Nat} (h : heapMaxZone size = n + 1) :
    n * zoneMaxSize + zoneMinSize ≤ size - heapHeaderSize ∧
      size - heapHeaderSize < (n + 1) * zoneMaxSize + zoneMinSize := by
  refine (maxZoneLoop_bounds ?_).2 n h
  have hlt := Nat.lt_div_mul_add (a := size) (b := zoneMaxSize) (by decide)
  rw [Nat.add_one_mul]
  omega

theorem heapMaxZone_eq_zero {size : Nat} (h : heapMaxZone size = 0) :
    size - heapHeaderSize < zoneMinSize := by
  refine (maxZoneLoop_bounds ?_).1 h
  have hlt := Nat.lt_div_mul_add (a := size) (b := zoneMaxSize) (by decide)
  rw [Nat.add_one_mul]
  omega

theorem heapMaxZone_pos {size : Nat} (h : heapMinSize ≤ size) : 0 < heapMaxZone size := by
  refine Nat.pos_of_ne_zero fun hzero => ?_
  have hlt := heapMaxZone_eq_zero hzero
  have hmin : zoneMinSize + heapHeaderSize ≤ heapMinSize := by decide
  omega

theorem heapMaxZone_mono {size size' : Nat} (h : size ≤ size') :
    heapMaxZone size ≤ heapMaxZone size' := by
  cases hn : heapMaxZone size with
  | zero => exact Nat.zero_le _
  | succ n =>
    have hlo := (heapMaxZone_bounds hn).1
    cases hm : heapMaxZone size' with
    | zero =>
      have := heapMaxZone_eq_zero hm
      omega
    | succ m =>
      have hhi := (heapMaxZone_bounds hm).2
      have hlt : n * zoneMaxSize < (m + 1) * zoneMaxSize := by omega
      exact Nat.succ_le_succ (Nat.lt_succ_iff.mp (Nat.lt_of_mul_lt_mul_right hlt))

/-- Where a zone of `n` chunks ends, if the heap had no header. -/
def zoneEnd (id n : Nat) : Nat := id * zoneMaxSize + zoneHeadersSize + n * chunkSize

theorem zoneEnd_maxChunk (id : Nat) : zoneEnd id maxChunk = (id + 1) * zoneMaxSize := by
  unfold zoneEnd zoneMaxSize
  rw [Nat.add_one_mul, Nat.mul_comm maxChunk, Nat.add_assoc]

theorem zoneEnd_le_iff {id n size : Nat} (h : id * zoneMaxSize + zoneHeadersSize ≤ size) :
    zoneEnd id n ≤ size ↔ n ≤ (size - id * zoneMaxSize - zoneHeadersSize) / chunkSize := by
  rw [Nat.le_div_iff_mul_le (by decide), zoneEnd]
  omega

/-- So many chunks of the zone `id` are in the mapped region, and on account of the size of the
heap unless it is not the last zone. -/
structure SizeOk (file : Nat) (sizep : Cell Nat) (nzones id n : Nat) : Prop where
  le : n ≤ maxChunk
  mapped : heapHeaderSize + zoneEnd id n ≤ file
  sized : id + 1 < nzones ∨ ∀ v, sizep.Holds v → zoneEnd id n ≤ v

/-- The last zone, of a heap of `sizep` bytes, begins inside of the heap and has room for a chunk,
but not for too many, and all of them are mapped. -/
def Room (file sizep id : Nat) : Prop :=
  id * zoneMaxSize + zoneMinSize ≤ sizep ∧ sizep < (id + 1) * zoneMaxSize + chunkSize ∧
    heapHeaderSize + id * zoneMaxSize + zoneHeadersSize +
      (sizep - id * zoneMaxSize - zoneHeadersSize) / chunkSize * chunkSize ≤ file

variable {file nzones id n : Nat} {sizep : Cell Nat}

theorem SizeOk.mono {file' nzones' : Nat} {sizep' : Cell Nat} (h : SizeOk file sizep nzones id n)
    (hfile : file ≤ file') (hsizep : ∀ v, sizep'.Holds v → ∃ w, sizep.Holds w ∧ w ≤ v)
    (hzones : nzones ≤ nzones') : SizeOk file' sizep' nzones' id n := by
  refine ⟨h.le, Nat.le_trans h.mapped hfile, ?_⟩
  rcases h.sized with hlt | hsized
  · exact .inl (by omega)
  · refine .inr fun v hv => ?_
    obtain ⟨w, hw, hle⟩ := hsizep v hv
    exact Nat.le_trans (hsized w hw) hle

theorem zoneCalcSizeIdx_last {size : Nat} (hpos : 0 < nzones) (hid : nzones ≤ id + 1)
    (hroom : Room file size id) :
    zoneCalcSizeIdx id nzones size =
      some ((size - id * zoneMaxSize - zoneHeadersSize) / chunkSize) := by
  have hle : id * zoneMaxSize + zoneHeadersSize + chunkSize ≤ size := by
    rw [Nat.add_assoc]
    exact hroom.1
  rw [zoneCalcSizeIdx, if_neg (by omega), if_neg (by omega), if_neg (by omega), if_neg (by omega)]

/-- The size that is calculated for a zone is allowed, and there is no greater one. -/
theorem zoneCalcSizeIdx_ok (hstale : sizep.stale = []) (hfile : nzones ≤ heapMaxZone file)
    (hid : id < nzones) (hroom : id + 1 = nzones → Room file sizep.cur id) :
    ∃ n, zoneCalcSizeIdx id nzones sizep.cur = some n ∧ 0 < n ∧ SizeOk file sizep nzones id n ∧
      ∀ e, SizeOk file sizep nzones id e → e ≤ n := by
  by_cases hlast : id + 1 = nzones
  · rw [zoneCalcSizeIdx_last (Nat.zero_lt_of_lt hid) (Nat.le_of_eq hlast.symm) (hroom hlast)]
    obtain ⟨hmin, hmax, hmapped⟩ := hroom hlast
    have hle : id * zoneMaxSize + zoneHeadersSize + chunkSize ≤ sizep.cur := by
      rw [Nat.add_assoc]
      exact hmin
    have hheld : ∀ v, sizep.Holds v → v = sizep.cur := by
      intro v hv
      simpa [Cell.Holds, hstale] using hv
    have hiff : ∀ m, zoneEnd id m ≤ sizep.cur ↔
        m ≤ (sizep.cur - id * zoneMaxSize - zoneHeadersSize) / chunkSize :=
      fun m => zoneEnd_le_iff (Nat.le_trans (Nat.le_add_right _ chunkSize) hle)
    refine ⟨_, rfl, (hiff 1).mp ?_, ⟨?_, ?_, .inr fun v hv => ?_⟩, fun e he => ?_⟩
    · rw [zoneEnd, Nat.one_mul]
      exact hle
    · refine Nat.lt_succ_iff.mp (Nat.lt_of_not_le fun hge => ?_)
      have hend := (hiff (maxChunk + 1)).mpr hge
      have hmaxEnd := zoneEnd_maxChunk id
      unfold zoneEnd at hend hmaxEnd
      rw [Nat.add_one_mul maxChunk] at hend
      omega
    · rw [zoneEnd, ← Nat.add_assoc, ← Nat.add_assoc]
      exact hmapped
    · rw [hheld v hv]
      exact (hiff _).mpr (Nat.le_refl _)
    · rcases he.sized with hlt | hsized
      · omega
      · exact (hiff e).mp (hsized _ (.inl rfl))
  · rw [zoneCalcSizeIdx, if_neg (by omega), if_pos (by omega)]
    refine ⟨maxChunk, rfl, by decide, ⟨Nat.le_refl _, ?_, .inl (by omega)⟩, fun e he => he.le⟩
    cases hmax : heapMaxZone file with
    | zero => omega
    | succ m =>
      have hlo := (heapMaxZone_bounds hmax).1
      have hmul : (id + 1) * zoneMaxSize ≤ m * zoneMaxSize :=
        Nat.mul_le_mul_right zoneMaxSize (by omega)
      have hpos : 0 < zoneMinSize := by decide
      rw [zoneEnd_maxChunk]
      omega

/-! ## The invariant -/

def pending (id : Nat) (todo : List Store) : List Micro :=
  todo.filterMap fun
    | .zone i m => if i = id then some m else none
    | _ => none

def final (zones : Nat → Zone) (todo : List Store) (id : Nat) : Zone :=
  (pending id todo).foldl Zone.exec (zones id)

def Block.In (fin : Nat → Zone) (b : Block) : Prop :=
  IsBlock (fin b.zone) b.chunk ∧ ((fin b.zone).hdr b.chunk).sizeIdx = b.size

def Block.Last (z : Zone) (stop : Nat) (b : Block) : Prop :=
  b.chunk + b.size = stop ∧ (z.hdr (stop - 1)).sizeIdx = b.size

structure Core (file : Nat) (sizep : Cell Nat) (nzones : Nat) (zones : Nat → Zone)
    (todo : List Store) (bucket : List Block) : Prop where
  size : ∀ v, sizep.Holds v → heapMinSize ≤ v ∧ v ≤ file
  nzones_le : nzones ≤ heapMaxZone file
  calm : ∀ id, Calm (SizeOk file sizep nzones id) (zones id) (pending id todo)
  unused : ∀ id, nzones ≤ id → (zones id).sizeIdx = Cell.clean 0 ∧ pending id todo = []
  block : ∀ b ∈ bucket, b.In (final zones todo)

def LastOnly (fin : Nat → Zone) (bucket : List Block) (exhausted : Nat) : Prop :=
  ∀ b ∈ bucket, exhausted ≤ b.zone → b.Last (fin b.zone) (fin b.zone).sizeIdx.cur

/-- The walk of a zone came to `i`, and the bucket has no block that it will find, except for the
last one of the zone. -/
structure Walking (fin : Nat → Zone) (bucket : List Block) (zone i : Nat) : Prop where
  boundary : Boundary (fin zone) i
  split : ∀ b ∈ bucket, b.zone = zone →
    b.chunk + b.size ≤ i ∨ b.chunk + b.size = (fin zone).sizeIdx.cur
  fresh : ∀ b ∈ bucket, b.zone = zone → b.chunk = i → i = 0

structure Reusing (fin : Nat → Zone) (bucket : List Block) (exhausted zone chunk : Nat) :
    Prop where
  block : IsBlock (fin zone) chunk
  last : chunk + ((fin zone).hdr chunk).sizeIdx = (fin zone).sizeIdx.cur
  footer : ((fin zone).hdr ((fin zone).sizeIdx.cur - 1)).sizeIdx =
    ((fin zone).hdr chunk).sizeIdx
  before : ∀ b ∈ bucket, b.zone = zone → b.chunk + b.size ≤ chunk
  lastOnly : ∀ b ∈ bucket, exhausted ≤ b.zone →
    b.Last (fin b.zone) (if b.zone = zone then chunk else (fin b.zone).sizeIdx.cur)

def PhaseOk (fin : Nat → Zone) (bucket : List Block) (nzones exhausted : Nat) : Phase → Prop
  | .down => bucket = []
  | .idle => LastOnly fin bucket exhausted
  | .updating _ => bucket = []
  | .walking zone i => exhausted = zone + 1 ∧ zone < nzones ∧ LastOnly fin bucket exhausted ∧
      Walking fin bucket zone i
  | .grown => LastOnly fin bucket exhausted
  | .reusing zone chunk => zone < nzones ∧ Reusing fin bucket exhausted zone chunk
  | .aborted => False

def Larger (sizep nzones : Nat) (zones : Nat → Zone) : Prop :=
  ∀ id, id + 1 = nzones → (zones id).sizeIdx.cur = 0 ∨
    zoneEnd id (zones id).sizeIdx.cur + pmemobjMinPart ≤ sizep

/-- The pending stores of `heap_extend` before it looks at the zones. -/
inductive Growing (file : Nat) (sizep : Cell Nat) (nzones : Nat) (zones : Nat → Zone) :
    List Store → Prop
  | file (f n : Nat) (hstale : sizep.stale = []) (hfile : file ≤ f) (hn : n ≤ f)
      (hsize : sizep.cur + pmemobjMinPart ≤ n) :
      Growing file sizep nzones zones [.file f, .size n, .persistSize]
  | size (n : Nat) (hstale : sizep.stale = []) (hn : n ≤ file)
      (hsize : sizep.cur + pmemobjMinPart ≤ n) :
      Growing file sizep nzones zones [.size n, .persistSize]
  | persist (hlarger : Larger sizep.cur nzones zones) :
      Growing file sizep nzones zones [.persistSize]
  | done (hstale : sizep.stale = []) (hlarger : Larger sizep.cur nzones zones) :
      Growing file sizep nzones zones []

structure TodoOk (s : State) : Prop where
  down : s.phase = .down → s.todo = []
  growing : s.phase = .grown → Growing s.file s.sizep s.nzones s.zones s.todo
  stale : s.phase ≠ .grown → s.sizep.stale = []
  zone : s.phase ≠ .grown → ∃ (id : Nat) (ms : List Micro), s.todo = ms.map (Store.zone id)

structure Inv (s : State) : Prop where
  core : Core s.file s.sizep s.nzones s.zones s.todo s.bucket
  todo : TodoOk s
  exhausted_le : s.exhausted ≤ s.nzones
  nzones_pos : s.phase ≠ .down → 0 < s.nzones
  phase : PhaseOk (final s.zones s.todo) s.bucket s.nzones s.exhausted s.phase

end Pmdk.Extend
