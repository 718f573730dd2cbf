import Pmdk.Lib.Replay
import Pmdk.Obj.Bytes
import Pmdk.Obj.Ulog

/-!
# Replaying a redo log

`ulog_process` applies the entries of a chain of ulogs one after another. When the power fails
meanwhile, each word of the pool may hold the result of another prefix of the operations on it, and
recovery applies the whole log again.

Every operation sets a bit to a value of its own or leaves it as it is, so the operations are atomic
in the bits of the pool, and `ulogProcess_crashed` follows from the replay of atomic operations. The
log itself is not part of the pool: no entry has a target in it.
-/

namespace Pmdk.RedoReplay

open Bytes Relation

/-- `ulog_entry_offset` on an entry, which is given by its words. -/
def entryOffset (e : List UInt64) : Nat := (e.getD 0 0).toNat % 2 ^ 61

def dataByte (e : List UInt64) (i : Nat) : UInt8 := byteOf (e.getD (3 + i / 8) 0) (i % 8)

/-- `memcpy` and `memset`: the bytes from an offset on get the values `data`. -/
def write (m : Bytes) (dest size : Nat) (data : Nat → UInt8) : Bytes :=
  fun x => if dest ≤ x ∧ x < dest + size then data (x - dest) else m x

/-- `ulog_entry_apply`. An entry of another type is not applied. -/
def entryApply (e : List UInt64) (m : Bytes) : Bytes :=
  let offset := entryOffset e
  let value := e.getD 1 0
  let size := (e.getD 2 0).toNat
  match (e.getD 0 0).toNat / 2 ^ 61 with
  | 0 => m.storeWord offset value
  | 1 => m.storeWord offset (m.loadWord offset &&& value)
  | 2 => m.storeWord offset (m.loadWord offset ||| value)
  | 5 => write m offset size fun _ => dataByte e 0
  | 6 => write m offset size (dataByte e)
  | _ => m

/-- `ulog_process` without its checks: `ulog_foreach_entry` with `ulog_process_entry`. It is
`none` when the loops over the log do not end. -/
def ulogProcess (blocks : Nat → Option Ulog) (fuel : Nat) (u : Ulog) (m : Bytes) :
    Option Bytes :=
  (u.foreachEntry blocks fuel).map fun es => es.foldl (fun m e => entryApply e m) m

/-- What a crash may leave of the pool while a list of entries is applied: each byte holds the
result of some prefix of the operations. In particular each word may stop at a prefix of its
own. -/
def CrashImage (es : List (List UInt64)) (m c : Bytes) : Prop :=
  ∀ x, ∃ k, c x = (es.take k).foldl (fun m e => entryApply e m) m x

/-! ## Single bits -/

def bits (m : Bytes) (i : Nat × Fin 8) : Bool := m.bit i.1 i.2

theorem atomic_storeWord (a : Nat) {f : UInt64 → UInt64}
    (h : ∀ k, (∀ w, (f w).toBitVec.getLsbD k = w.toBitVec.getLsbD k) ∨
      ∃ b, ∀ w, (f w).toBitVec.getLsbD k = b) :
    Replay.Atomic bits fun m => m.storeWord a (f (m.loadWord a)) := by
  rintro ⟨x, j⟩
  by_cases hx : a ≤ x ∧ x < a + 8
  · have hload : ∀ m : Bytes, (m.loadWord a).toBitVec.getLsbD (8 * (x - a) + j) = m.bit x j := by
      intro m
      rw [bit_loadWord m a (by omega), Nat.add_sub_cancel' hx.1]
    rcases h (8 * (x - a) + j) with hskips | ⟨b, hsets⟩
    · exact .inl fun m => (bit_storeWord_of_mem m _ hx j).trans ((hskips _).trans (hload m))
    · exact .inr ⟨b, fun m => (bit_storeWord_of_mem m _ hx j).trans (hsets _)⟩
  · exact .inl fun m => bit_storeWord_of_not_mem m _ hx j

theorem atomic_write (dest size : Nat) (data : Nat → UInt8) :
    Replay.Atomic bits fun m => write m dest size data := by
  rintro ⟨x, j⟩
  by_cases hx : dest ≤ x ∧ x < dest + size
  · refine .inr ⟨(data (x - dest)).toBitVec.getLsbD j, fun m => ?_⟩
    simp only [bits, bit, write, if_pos hx]
  · refine .inl fun m => ?_
    simp only [bits, bit, write, if_neg hx]

theorem atomic_entryApply (e : List UInt64) : Replay.Atomic bits (entryApply e) := by
  unfold entryApply
  dsimp only
  split
  · exact atomic_storeWord (f := fun _ => e.getD 1 0) (entryOffset e) fun k =>
      .inr ⟨(e.getD 1 0).toBitVec.getLsbD k, fun _ => rfl⟩
  · refine atomic_storeWord (f := fun w => w &&& e.getD 1 0) (entryOffset e) fun k => ?_
    simp only [UInt64.toBitVec_and, BitVec.getLsbD_and]
    cases (e.getD 1 0).toBitVec.getLsbD k with
    | false => exact .inr ⟨false, fun w => Bool.and_false _⟩
    | true => exact .inl fun w => Bool.and_true _
  · refine atomic_storeWord (f := fun w => w ||| e.getD 1 0) (entryOffset e) fun k => ?_
    simp only [UInt64.toBitVec_or, BitVec.getLsbD_or]
    cases (e.getD 1 0).toBitVec.getLsbD k with
    | false => exact .inl fun w => Bool.or_false _
    | true => exact .inr ⟨true, fun w => Bool.or_true _⟩
  · exact atomic_write _ _ _
  · exact atomic_write _ _ _
  · exact fun i => .inl fun m => rfl

/-! ## Crash images -/

theorem foldl_entryApply (es : List (List UInt64)) (m : Bytes) :
    es.foldl (fun m e => entryApply e m) m = Replay.replay (es.map entryApply) m := by
  rw [Replay.replay, List.foldl_map]

theorem CrashImage.torn {es : List (List UInt64)} {m c : Bytes} (h : CrashImage es m c) :
    Replay.Torn bits (es.map entryApply) m c := by
  rintro ⟨x, j⟩
  obtain ⟨k, hk⟩ := h x
  refine ⟨k, ?_⟩
  rw [← List.map_take, ← foldl_entryApply]
  simp only [bits, bit, hk]

/-- The entries of a log, applied to a crash image of applying them, give what they give
without a crash. Applying them may have been interrupted and started again any number of
times. -/
theorem ulogProcess_crashed {blocks : Nat → Option Ulog} {fuel : Nat} {u : Ulog}
    {es : List (List UInt64)} (hentries : u.foreachEntry blocks fuel = some es) {m c : Bytes}
    (h : ReflTransGen (CrashImage es) m c) :
    ∃ final, ulogProcess blocks fuel u m = some final ∧
      ulogProcess blocks fuel u c = some final := by
  have htorn : ReflTransGen (Replay.Torn bits (es.map entryApply)) m c :=
    ReflTransGen.mono (fun _ _ hcrash => CrashImage.torn hcrash) _ _ h
  have hatomic : ∀ f ∈ es.map entryApply, Replay.Atomic bits f := by
    intro f hf
    obtain ⟨e, -, rfl⟩ := List.mem_map.mp hf
    exact atomic_entryApply e
  have hsame := Replay.obs_replay_of_reflTransGen hatomic htorn
  unfold ulogProcess
  rw [hentries, Option.map_some, Option.map_some, foldl_entryApply, foldl_entryApply]
  refine ⟨_, rfl, congrArg some (ext_bit ?_)⟩
  funext x j
  exact congrFun hsame (x, j)

def threeEntries : List (List UInt64) :=
  [[UInt64.ofNat (64 + 2 * 2 ^ 61), 1], [UInt64.ofNat (72 + 1 * 2 ^ 61), 0],
    [UInt64.ofNat (64 + 2 * 2 ^ 61), 2]]

def threeLog : Ulog :=
  { next := 0, capacity := 64, data := fun i => threeEntries.flatten.getD i 0 }

/-- The first word stops before the last entry, the second one behind the entry that clears
it, and the second replay stops before its end again. -/
theorem ulogProcess_crashed_three :
    ∃ final, ulogProcess (fun _ => none) 1 threeLog (fun _ => 0) = some final ∧
      ulogProcess (fun _ => none) 1 threeLog
        ((threeEntries.take 2).foldl (fun m e => entryApply e m) fun x =>
          (threeEntries.take (if x < 72 then 1 else 2)).foldl (fun m e => entryApply e m)
            (fun _ => 0) x) = some final :=
  ulogProcess_crashed (by decide)
    ((ReflTransGen.single fun x => ⟨if x < 72 then 1 else 2, rfl⟩).tail fun _ => ⟨2, rfl⟩)

end Pmdk.RedoReplay
