import Pmdk.Lib.Cache
import Pmdk.Lib.Run

/-!
# Log pools

`pmemlog_append`, `pmemlog_appendv`, `pmemlog_rewind` and `pmemlog_tell` (`log.c`), as the stores,
flushes and drains that they make. A byte that is stored may be written back at any time and is
durable once it was flushed and a drain followed, or once `msync` returned; the write offset is one
word and is never torn.

A crash leaves an image that the memory may hold, and the pool is opened again by `log_open_common`,
which checks the descriptor.
-/

namespace Pmdk.Log

open Persist

/-! ## Memory -/

structure Buffered (α : Type) where
  cell : Cell α
  flushed : Bool

namespace Buffered

variable {α : Type}

def clean (v : α) : Buffered α := ⟨.clean v, false⟩

def store (v : α) (c : Buffered α) : Buffered α := ⟨c.cell.store v, false⟩

def flush (c : Buffered α) : Buffered α := { c with flushed := true }

def drain (c : Buffered α) : Buffered α :=
  if c.flushed then { c with cell := c.cell.persist } else c

def msync (c : Buffered α) : Buffered α := { c with cell := c.cell.persist }

end Buffered

/-- The bytes of the pool by their offsets, and `write_offset`. -/
structure Mem where
  data : Nat → Buffered UInt8
  writeOffset : Buffered Nat

inductive Micro
  | store (addr : Nat) (b : UInt8)
  | flush (addr len : Nat)
  | drain
  | msync (addr len : Nat)
  | storeOffset (offset : Nat)
  | flushOffset
  | msyncOffset
  deriving DecidableEq

/-- Flushes go by cache lines, and `pmem_msync` begins at a page. -/
def Micro.exec (m : Mem) : Micro → Mem
  | .store addr b => { m with data := Function.update m.data addr ((m.data addr).store b) }
  | .flush addr len =>
    { m with
      data := fun a => if addr / 64 ≤ a / 64 ∧ a / 64 * 64 < addr + len then (m.data a).flush
        else m.data a }
  | .drain => { data := fun a => (m.data a).drain, writeOffset := m.writeOffset.drain }
  | .msync addr len =>
    { m with
      data := fun a => if addr / 4096 * 4096 ≤ a ∧ a < addr + len then (m.data a).msync
        else m.data a }
  | .storeOffset offset => { m with writeOffset := m.writeOffset.store offset }
  | .flushOffset => { m with writeOffset := m.writeOffset.flush }
  | .msyncOffset => { m with writeOffset := m.writeOffset.msync }

def execAll (m : Mem) (ms : List Micro) : Mem := ms.foldl Micro.exec m

/-! ## The calls -/

/-- `start_offset`: the size of `struct pmemlog`, rounded up to `LOG_FORMAT_DATA_ALIGN`. -/
def startOffset : Nat := 8192

inductive Errno
  | EINVAL
  | EROFS
  | ENOSPC
  deriving DecidableEq

/-- An open pool; `endOffset` is the size of the pool. -/
structure Pool where
  endOffset : Nat
  isPmem : Bool
  rdonly : Bool
  mem : Mem

def Pool.writeOffset (p : Pool) : Nat := p.mem.writeOffset.cell.cur

/-- `pmem_memcpy_nodrain`, which flushes, or `memcpy`. -/
def memcpy (isPmem : Bool) (addr : Nat) (buf : List UInt8) : List Micro :=
  buf.mapIdx (fun i b => .store (addr + i) b) ++
    if isPmem then [.flush addr buf.length] else []

def persistOffset (isPmem : Bool) (offset : Nat) : List Micro :=
  .storeOffset offset :: if isPmem then [.flushOffset, .drain] else [.msyncOffset]

def logPersist (isPmem : Bool) (oldOffset newOffset : Nat) : List Micro :=
  (if isPmem then .drain else .msync oldOffset (newOffset - oldOffset)) ::
    persistOffset isPmem newOffset

def pmemlogAppend (p : Pool) (buf : List UInt8) : Except Errno (List Micro) :=
  if p.rdonly then .error .EROFS
  else if p.writeOffset ≥ p.endOffset then .error .ENOSPC
  else if buf.length > p.endOffset - p.writeOffset then .error .ENOSPC
  else .ok (memcpy p.isPmem p.writeOffset buf ++
    logPersist p.isPmem p.writeOffset (p.writeOffset + buf.length))

def memcpyv (isPmem : Bool) : Nat → List (List UInt8) → List Micro
  | _, [] => []
  | addr, buf :: iov => memcpy isPmem addr buf ++ memcpyv isPmem (addr + buf.length) iov

/-- `pmemlog_appendv`. The lengths are added up in 64 bits. -/
def pmemlogAppendv (p : Pool) (iovcnt : Int) (iov : List (List UInt8)) :
    Except Errno (List Micro) :=
  if iovcnt < 0 then .error .EINVAL
  else if p.rdonly then .error .EROFS
  else if p.writeOffset ≥ p.endOffset then .error .ENOSPC
  else
    let bufs := iov.take iovcnt.toNat
    if (bufs.map List.length).sum % 2 ^ 64 > p.endOffset - p.writeOffset then .error .ENOSPC
    else .ok (memcpyv p.isPmem p.writeOffset bufs ++ logPersist p.isPmem p.writeOffset
      (p.writeOffset + (bufs.map List.length).sum))

def pmemlogRewind (p : Pool) : Except Errno (List Micro) :=
  if p.rdonly then .error .EROFS else .ok (persistOffset p.isPmem startOffset)

def pmemlogTell (p : Pool) : Nat := p.writeOffset - startOffset

inductive Call
  | append (buf : List UInt8)
  | appendv (iovcnt : Int) (iov : List (List UInt8))
  | rewind
  | tell
  deriving DecidableEq

def Pool.micros (p : Pool) : Call → Except Errno (List Micro)
  | .append buf => pmemlogAppend p buf
  | .appendv iovcnt iov => pmemlogAppendv p iovcnt iov
  | .rewind => pmemlogRewind p
  | .tell => .ok []

inductive Result
  | ok
  | offset (n : Nat)
  | error (e : Errno)
  deriving DecidableEq

def Pool.result (p : Pool) (c : Call) : Result :=
  match c, p.micros c with
  | .tell, _ => .offset (pmemlogTell p)
  | _, .ok _ => .ok
  | _, .error e => .error e

def Pool.steps (p : Pool) (c : Call) : List Micro :=
  match p.micros c with
  | .ok ms => ms
  | .error _ => []

/-! ## Crashes -/

structure Image where
  data : Nat → UInt8
  writeOffset : Nat

def Buffered.pick {α : Type} (c : Buffered α) (n : Nat) : α :=
  (c.cell.stale[n]?).getD c.cell.cur

/-- A crash, where `pick` says for every byte, and `pickOffset` for the write offset, which of
its values survived. -/
def Mem.crash (m : Mem) (pick : Nat → Nat) (pickOffset : Nat) : Image where
  data a := (m.data a).pick (pick a)
  writeOffset := m.writeOffset.pick pickOffset

/-- `log_descr_check`; the start and end offsets never change. -/
def logDescrCheck (poolsize : Nat) (image : Image) : Bool :=
  startOffset ≤ poolsize ∧ image.writeOffset ≤ poolsize ∧ startOffset ≤ image.writeOffset

inductive State
  | up (p : Pool)
  | down (poolsize : Nat) (image : Image)

def State.create (poolsize : Nat) (isPmem : Bool) (data : Nat → UInt8) : State :=
  .up
    { endOffset := poolsize, isPmem, rdonly := false
      mem := ⟨fun a => .clean (data a), .clean startOffset⟩ }

/-- A call that returns `result`, a crash after some steps of a call, or opening the pool. -/
inductive Event
  | call (c : Call) (result : Result)
  | crash (c : Call) (steps : Nat) (pick : Nat → Nat) (pickOffset : Nat)
  | openCommon (isPmem rdonly : Bool)

def step (e : Event) (s : State) : Option State :=
  match e, s with
  | .call c result, .up p =>
    if p.result c = result then some (.up { p with mem := execAll p.mem (p.steps c) }) else none
  | .crash c steps pick pickOffset, .up p =>
    some (.down p.endOffset
      ((execAll p.mem ((p.steps c).take steps)).crash pick pickOffset))
  | .openCommon isPmem rdonly, .down poolsize image =>
    if logDescrCheck poolsize image then
      some (.up
        { endOffset := poolsize, isPmem, rdonly
          mem := ⟨fun a => .clean (image.data a), .clean image.writeOffset⟩ })
    else none
  | _, _ => none

/-!
## What an append makes durable

The steps of an append before the write offset is stored keep the bytes below the write offset
and leave all data durable. Then the offset moves: it is the old one or the new one.
-/

open List

variable {isPmem : Bool} {xs : List UInt8}

/-! ## Durable memory -/

def Buffered.Durable {α : Type} (c : Buffered α) : Prop := c.cell.stale = []

def Mem.current (m : Mem) : Image := ⟨fun a => (m.data a).cell.cur, m.writeOffset.cell.cur⟩

section Durable

variable {m : Mem} {w : Nat}

structure Mem.Durable (m : Mem) : Prop where
  data : ∀ a, (m.data a).Durable
  offset : m.writeOffset.Durable

theorem Buffered.Durable.pick_eq {α : Type} {c : Buffered α} (h : c.Durable) (n : Nat) :
    c.pick n = c.cell.cur := by
  rw [Buffered.pick, h]
  rfl

theorem Buffered.Durable.drain {α : Type} {c : Buffered α} (h : c.Durable) :
    c.drain.Durable ∧ c.drain.cell.cur = c.cell.cur := by
  unfold Buffered.drain
  split
  · exact ⟨rfl, rfl⟩
  · exact ⟨h, rfl⟩

/-- The bytes below `w` and the write offset are durable and as in `m`. -/
structure Keeps (m : Mem) (w : Nat) (m' : Mem) : Prop where
  data : ∀ a < w, (m'.data a).Durable ∧ (m'.data a).cell.cur = (m.data a).cell.cur
  offset : m'.writeOffset.Durable ∧ m'.writeOffset.cell.cur = m.writeOffset.cell.cur

def Micro.Copies (w : Nat) : Micro → Prop
  | .store addr _ => w ≤ addr
  | .flush _ _ => True
  | .drain => True
  | .msync _ _ => True
  | _ => False

theorem Keeps.exec {m' : Mem} (h : Keeps m w m') {i : Micro} (hi : i.Copies w) :
    Keeps m w (i.exec m') := by
  cases i with
  | store addr b =>
    refine ⟨fun a ha => ?_, h.offset⟩
    have hne : a ≠ addr := by
      rintro rfl
      exact absurd hi (Nat.not_le_of_lt ha)
    have heq : (Micro.exec m' (.store addr b)).data a = m'.data a :=
      Function.update_of_ne hne ..
    rw [heq]
    exact h.data a ha
  | flush addr len =>
    refine ⟨fun a ha => ?_, h.offset⟩
    have hdata := h.data a ha
    rw [Micro.exec]
    dsimp only
    split
    · exact hdata
    · exact hdata
  | drain =>
    refine ⟨fun a ha => ?_, ?_⟩
    · have hdata := h.data a ha
      exact ⟨hdata.1.drain.1, hdata.1.drain.2.trans hdata.2⟩
    · exact ⟨h.offset.1.drain.1, h.offset.1.drain.2.trans h.offset.2⟩
  | msync addr len =>
    refine ⟨fun a ha => ?_, h.offset⟩
    have hdata := h.data a ha
    rw [Micro.exec]
    dsimp only
    split
    · exact ⟨rfl, hdata.2⟩
    · exact hdata
  | storeOffset _ => exact hi.elim
  | flushOffset => exact hi.elim
  | msyncOffset => exact hi.elim

theorem Keeps.execAll {m' : Mem} {ms : List Micro} (h : Keeps m w m')
    (hms : ∀ i ∈ ms, i.Copies w) : Keeps m w (execAll m' ms) := by
  induction ms generalizing m' with
  | nil => exact h
  | cons i ms ih =>
    rw [forall_mem_cons] at hms
    exact ih (h.exec hms.1) hms.2

theorem Mem.Durable.keeps (h : m.Durable) (w : Nat) : Keeps m w m :=
  ⟨fun a _ => ⟨h.data a, rfl⟩, h.offset, rfl⟩

end Durable

/-! ## Copying -/

section Copy

variable {m : Mem} {w : Nat}

/-- The bytes `xs` are at `w`, flushed if they have to be, and everything else is durable. -/
structure Written (isPmem : Bool) (w : Nat) (xs : List UInt8) (m : Mem) : Prop where
  byte : ∀ i (h : i < xs.length), (m.data (w + i)).cell.cur = xs[i] ∧
    (isPmem = true → (m.data (w + i)).flushed = true)
  data : ∀ a, a < w ∨ w + xs.length ≤ a → (m.data a).Durable
  offset : m.writeOffset.Durable

theorem execAll_append (m : Mem) (ms ms' : List Micro) :
    execAll m (ms ++ ms') = execAll (execAll m ms) ms' := foldl_append

theorem execAll_stores (m : Mem) (w : Nat) (buf : List UInt8) :
    execAll m (buf.mapIdx fun i b => .store (w + i) b) =
      { m with
        data := fun a => if h : w ≤ a ∧ a - w < buf.length then (m.data a).store buf[a - w]
          else m.data a } := by
  induction buf generalizing m w with
  | nil => simp [execAll]
  | cons b buf ih =>
    rw [mapIdx_cons]
    show execAll (Micro.exec m (.store (w + 0) b)) _ = _
    have hshift : (fun (i : Nat) (b : UInt8) => Micro.store (w + (i + 1)) b) =
        fun i b => .store (w + 1 + i) b := by
      funext i b
      rw [Nat.add_assoc, Nat.add_comm 1 i]
    rw [hshift, ih, Micro.exec, Nat.add_zero]
    congr 1
    funext a
    dsimp only
    rcases Nat.lt_trichotomy a w with hlt | rfl | hgt
    · rw [dif_neg (by omega), dif_neg (by omega), Function.update_of_ne (by omega)]
    · rw [dif_neg (by omega), dif_pos ⟨Nat.le_refl _, by simp⟩, Nat.add_zero, Function.update_self]
      simp
    · by_cases hin : a - w < buf.length + 1
      · rw [dif_pos (by omega), dif_pos ⟨by omega, by simpa using hin⟩,
          Function.update_of_ne (by omega)]
        congr 1
        rw [getElem_cons, dif_neg (by omega)]
        congr 1
      · rw [dif_neg (by omega), dif_neg (by simp; omega), Function.update_of_ne (by omega)]

theorem execAll_memcpy (m : Mem) (isPmem : Bool) (w : Nat) (buf : List UInt8) :
    execAll m (memcpy isPmem w buf) = execAll (execAll m (buf.mapIdx fun i b => .store (w + i) b))
        (if isPmem then [.flush w buf.length] else []) := by
  rw [memcpy, execAll_append]

theorem memcpy_data_of_lt (m : Mem) (isPmem : Bool) (w : Nat) {buf : List UInt8} {i : Nat}
    (hi : i < buf.length) :
    ((execAll m (memcpy isPmem w buf)).data (w + i)).cell.cur = buf[i] ∧
      (isPmem = true → ((execAll m (memcpy isPmem w buf)).data (w + i)).flushed = true) := by
  have hstore : (execAll m (buf.mapIdx fun i b => .store (w + i) b)).data (w + i) =
      (m.data (w + i)).store buf[i] := by
    rw [execAll_stores]
    dsimp only
    rw [dif_pos ⟨Nat.le_add_right w i, by omega⟩]
    congr 2
    exact Nat.add_sub_cancel_left ..
  rw [execAll_memcpy]
  cases isPmem with
  | false =>
    rw [if_neg Bool.false_ne_true]
    refine ⟨?_, fun h => absurd h Bool.false_ne_true⟩
    exact congrArg (fun c => c.cell.cur) hstore
  | true =>
    have hline : w / 64 ≤ (w + i) / 64 ∧ (w + i) / 64 * 64 < w + buf.length := by omega
    rw [if_pos rfl]
    simp only [execAll, foldl_cons, foldl_nil, Micro.exec]
    rw [if_pos hline]
    exact ⟨congrArg (fun c => c.cell.cur) hstore, fun _ => rfl⟩

theorem memcpy_data_of_not_mem (m : Mem) (isPmem : Bool) (w : Nat) (buf : List UInt8) {a : Nat}
    (ha : a < w ∨ w + buf.length ≤ a) :
    ((execAll m (memcpy isPmem w buf)).data a).cell = (m.data a).cell ∧
      ((m.data a).flushed = true →
        ((execAll m (memcpy isPmem w buf)).data a).flushed = true) := by
  have hstore : (execAll m (buf.mapIdx fun i b => .store (w + i) b)).data a = m.data a := by
    rw [execAll_stores]
    dsimp only
    rw [dif_neg (by omega)]
  rw [execAll_memcpy]
  cases isPmem with
  | false =>
    rw [if_neg Bool.false_ne_true]
    exact ⟨congrArg Buffered.cell hstore, fun h => hstore ▸ h⟩
  | true =>
    rw [if_pos rfl]
    simp only [execAll, foldl_cons, foldl_nil, Micro.exec]
    split
    · exact ⟨congrArg (fun c => c.flush.cell) hstore, fun _ => rfl⟩
    · exact ⟨congrArg Buffered.cell hstore, fun h => hstore ▸ h⟩

theorem memcpy_writeOffset (m : Mem) (isPmem : Bool) (w : Nat) (buf : List UInt8) :
    (execAll m (memcpy isPmem w buf)).writeOffset = m.writeOffset := by
  rw [execAll_memcpy, execAll_stores]
  cases isPmem with
  | false => rfl
  | true => rfl

theorem Written.nil (isPmem : Bool) (w : Nat) (h : m.Durable) : Written isPmem w [] m :=
  ⟨fun i hi => absurd hi (Nat.not_lt_zero i), fun a _ => h.data a, h.offset⟩

theorem Written.append (h : Written isPmem w xs m) (buf : List UInt8) :
    Written isPmem w (xs ++ buf) (execAll m (memcpy isPmem (w + xs.length) buf)) := by
  constructor
  case byte =>
    intro i hi
    rw [length_append] at hi
    by_cases hxs : i < xs.length
    · have hcopy := memcpy_data_of_not_mem m isPmem (w + xs.length) buf (a := w + i) (by omega)
      have hbyte := h.byte i hxs
      rw [getElem_append_left hxs, hcopy.1]
      exact ⟨hbyte.1, fun hp => hcopy.2 (hbyte.2 hp)⟩
    · obtain ⟨j, rfl⟩ := Nat.exists_eq_add_of_le (Nat.le_of_not_lt hxs)
      have hj : j < buf.length := by omega
      have hcopy := memcpy_data_of_lt m isPmem (w + xs.length) hj
      rw [← Nat.add_assoc, getElem_append_right (by omega)]
      refine ⟨hcopy.1.trans ?_, hcopy.2⟩
      congr 1
      omega
  case data =>
    intro a ha
    rw [length_append] at ha
    have hcopy := memcpy_data_of_not_mem m isPmem (w + xs.length) buf (a := a) (by omega)
    rw [Buffered.Durable, hcopy.1]
    exact h.data a (by omega)
  case offset =>
    rw [memcpy_writeOffset]
    exact h.offset

theorem Written.memcpyv (h : Written isPmem w xs m) (iov : List (List UInt8)) :
    Written isPmem w (xs ++ iov.flatten) (execAll m (memcpyv isPmem (w + xs.length) iov)) := by
  induction iov generalizing m xs with
  | nil =>
    rw [flatten_nil, append_nil]
    exact h
  | cons buf iov ih =>
    have hih := ih (h.append buf)
    rw [length_append, ← Nat.add_assoc, append_assoc] at hih
    rw [flatten_cons, Log.memcpyv, execAll_append]
    exact hih

theorem memcpy_copies {buf : List UInt8} {addr : Nat} (haddr : w ≤ addr) :
    ∀ i ∈ memcpy isPmem addr buf, i.Copies w := by
  intro i hi
  rw [memcpy, mem_append, mem_mapIdx] at hi
  rcases hi with ⟨j, hj, rfl⟩ | hi
  · exact Nat.le_trans haddr (Nat.le_add_right addr j)
  · cases isPmem with
    | false => cases hi
    | true =>
      cases mem_singleton.mp hi
      trivial

theorem memcpyv_copies {iov : List (List UInt8)} {addr : Nat}
    (haddr : w ≤ addr) : ∀ i ∈ memcpyv isPmem addr iov, i.Copies w := by
  induction iov generalizing addr with
  | nil => exact fun i hi => nomatch hi
  | cons buf iov ih =>
    intro i hi
    rw [memcpyv, mem_append] at hi
    rcases hi with hi | hi
    · exact memcpy_copies haddr i hi
    · exact ih (Nat.le_trans haddr (Nat.le_add_right ..)) i hi

end Copy

/-! ## Persisting the data, then the write offset -/

section Persist

variable {m : Mem} {w : Nat}

/-- What `log_persist` does before it writes the metadata. -/
def persistData (isPmem : Bool) (w len : Nat) : Micro :=
  if isPmem then .drain else .msync w len

theorem Written.persistData (h : Written isPmem w xs m) :
    ((Log.persistData isPmem w xs.length).exec m).Durable ∧
      ∀ a, (((Log.persistData isPmem w xs.length).exec m).data a).cell.cur =
        (m.data a).cell.cur := by
  cases isPmem with
  | true =>
    refine ⟨⟨fun a => ?_, h.offset.drain.1⟩, fun a => ?_⟩
    · by_cases ha : a < w ∨ w + xs.length ≤ a
      · exact (h.data a ha).drain.1
      · obtain ⟨i, rfl⟩ := Nat.exists_eq_add_of_le (by omega : w ≤ a)
        have hflushed := (h.byte i (by omega)).2 rfl
        show ((m.data (w + i)).drain).Durable
        rw [Buffered.drain, if_pos hflushed]
        rfl
    · show ((m.data a).drain).cell.cur = _
      unfold Buffered.drain
      split
      · rfl
      · rfl
  | false =>
    refine ⟨⟨fun a => ?_, h.offset⟩, fun a => ?_⟩
    · show Buffered.Durable (if w / 4096 * 4096 ≤ a ∧ a < w + xs.length then
        (m.data a).msync else m.data a)
      split
      · rfl
      · next ha => exact h.data a (by omega)
    · show Cell.cur (Buffered.cell (if w / 4096 * 4096 ≤ a ∧ a < w + xs.length then
        (m.data a).msync else m.data a)) = _
      split
      · rfl
      · rfl

/-- Every byte is durable, and the write offset is `old` or `new`. -/
structure Moving (m : Mem) (new : Nat) (m' : Mem) : Prop where
  data : ∀ a, (m'.data a).Durable ∧ (m'.data a).cell.cur = (m.data a).cell.cur
  offset : ∀ n, m'.writeOffset.pick n = m.writeOffset.cell.cur ∨ m'.writeOffset.pick n = new

theorem Mem.Durable.persistOffset_take (h : m.Durable) (isPmem : Bool) (new k : Nat) :
    Moving m new (execAll m ((persistOffset isPmem new).take k)) := by
  have hdrain : ∀ a, (m.data a).drain.Durable ∧
      (m.data a).drain.cell.cur = (m.data a).cell.cur := fun a => (h.data a).drain
  have hold : ∀ n, m.writeOffset.pick n = m.writeOffset.cell.cur := h.offset.pick_eq
  have hstore : ∀ n, (m.writeOffset.store new).pick n = m.writeOffset.cell.cur ∨
      (m.writeOffset.store new).pick n = new := by
    intro n
    have hstale : (m.writeOffset.store new).cell.stale = [m.writeOffset.cell.cur] :=
      congrArg (List.cons _) h.offset
    rw [Buffered.pick, hstale]
    cases n with
    | zero => exact .inl rfl
    | succ n => exact .inr rfl
  match isPmem, k with
  | _, 0 => exact ⟨fun a => ⟨h.data a, rfl⟩, fun n => .inl (hold n)⟩
  | true, 1 | false, 1 | true, 2 => exact ⟨fun a => ⟨h.data a, rfl⟩, hstore⟩
  | true, k + 3 =>
    rw [take_of_length_le (by simp [persistOffset])]
    exact ⟨hdrain, fun _ => .inr rfl⟩
  | false, k + 2 =>
    rw [take_of_length_le (by simp [persistOffset])]
    exact ⟨fun a => ⟨h.data a, rfl⟩, fun _ => .inr rfl⟩

theorem Mem.Durable.persistOffset (h : m.Durable) (isPmem : Bool) (new : Nat) :
    (execAll m (persistOffset isPmem new)).Durable ∧
      (execAll m (Log.persistOffset isPmem new)).current =
        { m.current with writeOffset := new } := by
  cases isPmem with
  | true =>
    refine ⟨⟨fun a => (h.data a).drain.1, rfl⟩, ?_⟩
    exact congrArg (Image.mk · new) (funext fun a => (h.data a).drain.2)
  | false => exact ⟨⟨h.data, rfl⟩, rfl⟩

end Persist

end Pmdk.Log
