import Mathlib.Algebra.Order.Ring.Nat
import Mathlib.Data.List.Basic
import Mathlib.Order.Interval.Set.Basic

/-!
# Cached stores, flushes and fences

Instructions that matter to the persistence of bytes, without the values that are stored. A byte is
`dirty` after an ordinary store, `pending` after a non-temporal store or once its line was flushed,
and `durable` once a fence followed, or at once if the flush was a `clflush`.

`Raises is s l` says that the instructions bring every byte of `s` to the level `l` at least,
wherever it was before, and do no harm to the other bytes.
-/

namespace Cache

open List

def lineSize : Nat := 64

inductive Instr
  | store (addr n : Nat)
  | ntstore (addr n : Nat)
  | clflush (addr : Nat)
  | clflushopt (addr : Nat)
  | clwb (addr : Nat)
  | sfence
  deriving DecidableEq

inductive Status
  | dirty
  | pending
  | durable
  deriving DecidableEq

namespace Status

def level : Status → Nat
  | dirty => 0
  | pending => 1
  | durable => 2

instance : LE Status := ⟨fun s t => s.level ≤ t.level⟩

instance (s t : Status) : Decidable (s ≤ t) := inferInstanceAs (Decidable (s.level ≤ t.level))

theorem le_refl (s : Status) : s ≤ s := Nat.le_refl s.level

theorem le_trans {s t u : Status} (h : s ≤ t) (h' : t ≤ u) : s ≤ u :=
  Nat.le_trans h h'

theorem le_durable (s : Status) : s ≤ durable := by
  cases s <;> decide

theorem eq_durable {s : Status} (h : durable ≤ s) : s = durable := by
  cases s with
  | dirty => exact absurd h (by decide)
  | pending => exact absurd h (by decide)
  | durable => rfl

def flush : Status → Status
  | dirty => pending
  | s => s

def fence : Status → Status
  | pending => durable
  | s => s

theorem le_flush (s : Status) : s ≤ s.flush := by
  cases s <;> decide

theorem pending_le_flush (s : Status) : pending ≤ s.flush := by
  cases s <;> decide

theorem le_fence (s : Status) : s ≤ s.fence := by
  cases s <;> decide

theorem fence_of_pending_le {s : Status} (h : pending ≤ s) : s.fence = durable := by
  cases s with
  | dirty => exact absurd h (by decide)
  | pending => rfl
  | durable => rfl

end Status

abbrev Bytes := Nat → Status

abbrev range (addr n : Nat) : Set Nat := Set.Ico addr (addr + n)

def line (addr : Nat) : Nat := addr / lineSize

def exec (st : Bytes) : Instr → Nat → Status
  | .store addr n, b => if addr ≤ b ∧ b < addr + n then .dirty else st b
  | .ntstore addr n, b => if addr ≤ b ∧ b < addr + n then .pending else st b
  | .clflush addr, b => if line b = line addr then .durable else st b
  | .clflushopt addr, b => if line b = line addr then (st b).flush else st b
  | .clwb addr, b => if line b = line addr then (st b).flush else st b
  | .sfence, b => (st b).fence

def run (is : List Instr) (st : Bytes) : Bytes := is.foldl exec st

@[simp] theorem run_nil (st : Bytes) : run [] st = st := rfl

@[simp] theorem run_cons (i : Instr) (is : List Instr) (st : Bytes) :
    run (i :: is) st = run is (exec st i) := rfl

@[simp] theorem run_append (is is' : List Instr) (st : Bytes) :
    run (is ++ is') st = run is' (run is st) := foldl_append

/-- The instructions raise every byte of `s` to the level `l`, and lower no other byte. -/
structure Raises (is : List Instr) (s : Set Nat) (l : Status) : Prop where
  inside : ∀ st, ∀ b ∈ s, l ≤ run is st b
  outside : ∀ st, ∀ b, b ∉ s → st b ≤ run is st b

namespace Raises

variable {is is' : List Instr} {s t : Set Nat} {l l' : Status}

theorem nil (l : Status) : Raises [] ∅ l :=
  ⟨fun _ _ hb => hb.elim, fun st b _ => Status.le_refl (st b)⟩

theorem append (h : Raises is s l) (h' : Raises is' t l) : Raises (is ++ is') (s ∪ t) l := by
  constructor
  · intro st b hb
    rw [run_append]
    by_cases hbt : b ∈ t
    · exact h'.inside _ b hbt
    · exact Status.le_trans (h.inside st b (hb.resolve_right hbt)) (h'.outside _ b hbt)
  · intro st b hb
    rw [run_append]
    rw [Set.mem_union, not_or] at hb
    exact Status.le_trans (h.outside st b hb.1) (h'.outside _ b hb.2)

theorem congr (h : Raises is s l) (heq : ∀ b, b ∈ s ↔ b ∈ t) : Raises is t l :=
  ⟨fun st b hb => h.inside st b ((heq b).mpr hb),
    fun st b hb => h.outside st b fun hbs => hb ((heq b).mp hbs)⟩

theorem mono (h : Raises is s l) (hle : l' ≤ l) : Raises is s l' :=
  ⟨fun st b hb => Status.le_trans hle (h.inside st b hb), h.outside⟩

theorem append_range {d n m k : Nat} (h : Raises is (range d n) l)
    (h' : Raises is' (range (d + n) m) l) (hk : n + m = k) : Raises (is ++ is') (range d k) l := by
  refine (h.append h').congr fun b => ?_
  simp only [Set.mem_union, Set.mem_Ico]
  omega

theorem append_range_rev {d n m k : Nat} (h : Raises is (range (d + n) m) l)
    (h' : Raises is' (range d n) l) (hk : n + m = k) : Raises (is ++ is') (range d k) l := by
  refine (h.append h').congr fun b => ?_
  simp only [Set.mem_union, Set.mem_Ico]
  omega

theorem fence (h : Raises is s .pending) : Raises (is ++ [.sfence]) s .durable := by
  constructor
  · intro st b hb
    rw [run_append]
    exact (congrArg Status.level (Status.fence_of_pending_le (h.inside st b hb))).ge
  · intro st b hb
    rw [run_append]
    exact Status.le_trans (h.outside st b hb) (Status.le_fence _)

end Raises

theorem raises_ntstore (addr n : Nat) : Raises [.ntstore addr n] (range addr n) .pending := by
  constructor
  · intro st b hb
    rw [run_cons, run_nil, exec, if_pos (Set.mem_Ico.mp hb)]
    exact Status.le_refl _
  · intro st b hb
    rw [run_cons, run_nil, exec, if_neg fun h => hb (Set.mem_Ico.mpr h)]
    exact Status.le_refl _

/-- Non-temporal stores of `w` bytes each, one after another. -/
theorem raises_ntstores (addr w n : Nat) :
    Raises ((List.range n).map fun i => .ntstore (addr + i * w) w) (range addr (n * w))
      .pending := by
  induction n with
  | zero =>
    refine (Raises.nil _).congr fun b => ?_
    simp
  | succ n ih =>
    rw [range_succ, map_append]
    exact ih.append_range (raises_ntstore _ _) (Nat.succ_mul n w).symm

def StoresIn (is : List Instr) (s : Set Nat) : Prop :=
  ∀ i ∈ is, ∃ addr n, i = .store addr n ∧ range addr n ⊆ s

theorem StoresIn.run_eq {is : List Instr} {s : Set Nat} (h : StoresIn is s) (st : Bytes)
    {b : Nat} (hb : b ∉ s) : run is st b = st b := by
  induction is generalizing st with
  | nil => rfl
  | cons i is ih =>
    obtain ⟨addr, n, rfl, hsub⟩ := h i mem_cons_self
    rw [run_cons, ih fun j hj => h j (mem_cons_of_mem _ hj), exec,
      if_neg fun hin => hb (hsub (Set.mem_Ico.mpr hin))]

theorem StoresIn.append {is is' : List Instr} {s : Set Nat} (h : StoresIn is s)
    (h' : StoresIn is' s) : StoresIn (is ++ is') s := by
  intro i hi
  rw [mem_append] at hi
  exact hi.elim (h i) (h' i)

theorem StoresIn.mono {is : List Instr} {s t : Set Nat} (h : StoresIn is s) (hst : s ⊆ t) :
    StoresIn is t := by
  intro i hi
  obtain ⟨addr, n, heq, hsub⟩ := h i hi
  exact ⟨addr, n, heq, hsub.trans hst⟩

theorem range_subset {d n e m : Nat} (h : e ≤ d) (h' : d + n ≤ e + m) : range d n ⊆ range e m :=
  Set.Ico_subset_Ico h h'

theorem storesIn_range (dest w n : Nat) :
    StoresIn ((List.range n).map fun i => .store (dest + i * w) w) (range dest (n * w)) := by
  intro i hi
  obtain ⟨j, hj, rfl⟩ := mem_map.mp hi
  rw [mem_range] at hj
  have hle : (j + 1) * w ≤ n * w := Nat.mul_le_mul_right w hj
  rw [Nat.succ_mul] at hle
  exact ⟨_, _, rfl, range_subset (by omega) (by omega)⟩

theorem storesIn_below {stop w n : Nat} (h : n * w ≤ stop) :
    StoresIn ((List.range n).map fun i => .store (stop - (i + 1) * w) w)
      (range (stop - n * w) (n * w)) := by
  intro i hi
  obtain ⟨j, hj, rfl⟩ := mem_map.mp hi
  rw [mem_range] at hj
  have hle : (j + 1) * w ≤ n * w := Nat.mul_le_mul_right w hj
  have hw : w ≤ (j + 1) * w := Nat.le_mul_of_pos_left w (Nat.succ_pos j)
  exact ⟨_, _, rfl, range_subset (by omega) (by omega)⟩

theorem Raises.of_stores {is fl : List Instr} {s : Set Nat} {l : Status}
    (his : StoresIn is s) (hfl : Raises fl s l) : Raises (is ++ fl) s l := by
  constructor
  · intro st b hb
    rw [run_append]
    exact hfl.inside _ b hb
  · intro st b hb
    have hle := hfl.outside (run is st) b hb
    rw [his.run_eq st hb] at hle
    rw [run_append]
    exact hle

def Weak : Instr → Bool
  | .clflush _ => false
  | .sfence => false
  | _ => true

theorem exec_ne_durable {i : Instr} (hi : Weak i = true) {st : Bytes} {b : Nat}
    (h : st b ≠ .durable) : exec st i b ≠ .durable := by
  cases i with
  | store addr n =>
    rw [exec]
    split
    · decide
    · exact h
  | ntstore addr n =>
    rw [exec]
    split
    · decide
    · exact h
  | clflush addr => cases hi
  | clflushopt addr =>
    rw [exec]
    cases hb : st b with
    | dirty => split <;> decide
    | pending => split <;> decide
    | durable => exact absurd hb h
  | clwb addr =>
    rw [exec]
    cases hb : st b with
    | dirty => split <;> decide
    | pending => split <;> decide
    | durable => exact absurd hb h
  | sfence => cases hi

theorem run_ne_durable {is : List Instr} (his : ∀ i ∈ is, Weak i = true) {st : Bytes}
    {b : Nat} (h : st b ≠ .durable) : run is st b ≠ .durable := by
  induction is generalizing st with
  | nil => exact h
  | cons i is ih =>
    rw [forall_mem_cons] at his
    exact ih his.2 (exec_ne_durable his.1 h)

end Cache

/-!
## Memory that is written back at unknown times

A store goes to a cache, from where a cell may be written back at any moment. A `Cell` keeps
the value that the program reads and the older values that the medium may still hold: those
that were current at some time since the cell was last made persistent. `Cell.Holds c v` says
that the medium may hold `v`, so a crash leaves some image that each cell holds.
-/

namespace Persist

variable {α : Type*}

structure Cell (α : Type*) where
  cur : α
  stale : List α

variable {c : Cell α} {v : α}

namespace Cell

def clean (v : α) : Cell α := ⟨v, []⟩

def store (v : α) (c : Cell α) : Cell α := ⟨v, c.cur :: c.stale⟩

def persist (c : Cell α) : Cell α := ⟨c.cur, []⟩

def Holds (c : Cell α) (v : α) : Prop := v = c.cur ∨ v ∈ c.stale

@[simp] theorem holds_clean {w : α} : (clean v).Holds w ↔ w = v := by
  simp [Holds, clean]

@[simp] theorem holds_store {w : α} : (c.store v).Holds w ↔ w = v ∨ c.Holds w := by
  simp [Holds, store]

@[simp] theorem holds_persist {w : α} : c.persist.Holds w ↔ w = c.cur := by
  simp [Holds, persist]

@[simp] theorem persist_store : (c.store v).persist = clean v := rfl

@[simp] theorem cur_clean : (clean v).cur = v := rfl

end Cell

end Persist
