import Mathlib.Algebra.Order.Ring.Nat
import Mathlib.Data.List.Basic

/-!
# Queues of `vecq.h`

`VECQ` is a queue in a buffer whose capacity is a power of two. `front` and `back` count the
elements that have ever been dequeued and enqueued, and their low bits are the places of the two
ends in the buffer.

`VECQ_FOREACH_REVERSE` counts down from the size of the queue and takes the counter itself as the
place, without adding `front`. It visits the elements newest first as long as nothing has been
dequeued.
-/

namespace Pmdk

/-- `VECQ(name, type)`. Only the places below `capacity` of the buffer exist. -/
structure Vecq (α : Type*) where
  buffer : Nat → α
  capacity : Nat
  front : Nat
  back : Nat

namespace Vecq

variable {α : Type*}

def VECQ_INIT_SIZE : Nat := 64

/-- `VECQ_INIT`. -/
def init [Inhabited α] : Vecq α := ⟨fun _ => default, 0, 0, 0⟩

def pos (q : Vecq α) (i : Nat) : Nat := i &&& (q.capacity - 1)

/-- `VECQ_SIZE`. -/
def size (q : Vecq α) : Nat := q.back - q.front

/-- `VECQ_CLEAR`, and `VECQ_REINIT` as well. -/
def clear (q : Vecq α) : Vecq α := { q with front := 0, back := 0 }

/-- `VECQ_DEQUEUE`, without the element. -/
def dequeue (q : Vecq α) : Vecq α := { q with front := q.front + 1 }

/-- `vecq_grow`. -/
def grow (q : Vecq α) : Vecq α :=
  { q with capacity := if q.capacity = 0 then VECQ_INIT_SIZE else q.capacity * 2 }

/-- `VECQ_INSERT`. -/
def insert (a : α) (q : Vecq α) : Vecq α :=
  { q with buffer := Function.update q.buffer (q.pos q.back) a, back := q.back + 1 }

/-- `VECQ_ENQUEUE`. -/
def enqueue (a : α) (q : Vecq α) : Vecq α :=
  if q.capacity = q.size then q.grow.insert a else q.insert a

/-- The elements in the order in which `VECQ_FOREACH_REVERSE` visits them. -/
def reverse (q : Vecq α) : List α :=
  (List.range q.size).reverse.map fun i => q.buffer (q.pos i)

@[simp] theorem size_clear (q : Vecq α) : q.clear.size = 0 := rfl

@[simp] theorem capacity_clear (q : Vecq α) : q.clear.capacity = q.capacity := rfl

@[simp] theorem capacity_dequeue (q : Vecq α) : q.dequeue.capacity = q.capacity := rfl

@[simp] theorem capacity_insert (a : α) (q : Vecq α) :
    (q.insert a).capacity = q.capacity := rfl

@[simp] theorem reverse_clear (q : Vecq α) : q.clear.reverse = [] := rfl

theorem mem_reverse_iff {q : Vecq α} {a : α} :
    a ∈ q.reverse ↔ ∃ i < q.size, q.buffer (q.pos i) = a := by
  simp [reverse]

theorem pos_of_capacity {q : Vecq α} (h : q.capacity = VECQ_INIT_SIZE) (i : Nat) :
    q.pos i = i % 64 := by
  rw [pos, h]
  exact Nat.and_two_pow_sub_one_eq_mod i 6

/-- The queue holds the numbers below `n` from some number on, in ascending order. -/
structure Window (q : Vecq Nat) (n : Nat) : Prop where
  le : q.front ≤ q.back
  size_le : q.size ≤ n
  capacity : q.capacity = VECQ_INIT_SIZE ∨ q.capacity = 0 ∧ q.size = 0
  size_le_init : q.size ≤ VECQ_INIT_SIZE
  buffer : ∀ i < q.size, q.buffer (q.pos (q.back - 1 - i)) = n - 1 - i

namespace Window

variable {q : Vecq Nat} {n : Nat}

theorem dequeue (h : q.Window n) (hsize : 0 < q.size) : q.dequeue.Window n := by
  obtain ⟨hle, hn, hcapacity, hinit, hbuffer⟩ := h
  have hdef : q.size = q.back - q.front := rfl
  have hdequeue : q.dequeue.size = q.back - (q.front + 1) := rfl
  refine ⟨?_, by omega, ?_, by omega, fun i hi => hbuffer i (by omega)⟩
  · change q.front + 1 ≤ q.back
    omega
  · exact hcapacity.imp_right fun h => absurd h.2 (Nat.pos_iff_ne_zero.mp hsize)

theorem grow (h : q.Window n) (hsize : q.size < VECQ_INIT_SIZE) :
    ∃ s : Vecq Nat, q.enqueue n = s.insert n ∧ s.capacity = VECQ_INIT_SIZE ∧
      s.buffer = q.buffer ∧ s.front = q.front ∧ s.back = q.back := by
  rcases h.capacity with hcap | ⟨hcap, hzero⟩
  · refine ⟨q, ?_, hcap, rfl, rfl, rfl⟩
    rw [Vecq.enqueue, if_neg (by omega)]
  · refine ⟨q.grow, ?_, ?_, rfl, rfl, rfl⟩
    · rw [Vecq.enqueue, if_pos (by omega)]
    · rw [Vecq.grow, if_pos hcap]

theorem size_enqueue (h : q.Window n) (hsize : q.size < VECQ_INIT_SIZE) :
    (q.enqueue n).size = q.size + 1 := by
  obtain ⟨s, hs, -, -, hfront, hback⟩ := h.grow hsize
  have hle := h.le
  rw [hs]
  change s.back + 1 - s.front = q.back - q.front + 1
  omega

theorem enqueue (h : q.Window n) (hsize : q.size < VECQ_INIT_SIZE) :
    (q.enqueue n).Window (n + 1) := by
  have hgrown := h.size_enqueue hsize
  obtain ⟨s, hs, hcap, hsbuffer, hsfront, hsback⟩ := h.grow hsize
  obtain ⟨hle, hn, hcapacity, hinit, hbuffer⟩ := h
  have hdef : q.size = q.back - q.front := rfl
  rw [hs] at hgrown ⊢
  refine ⟨?_, by omega, .inl hcap, by omega, fun i hi => ?_⟩
  · change s.front ≤ s.back + 1
    omega
  · rw [hgrown] at hi
    rw [pos_of_capacity (q := s.insert n) hcap]
    change Function.update s.buffer (s.pos s.back) n ((s.back + 1 - 1 - i) % 64) = _
    simp only [VECQ_INIT_SIZE] at hsize
    rw [pos_of_capacity hcap, hsback, hsbuffer]
    cases i with
    | zero =>
      rw [Nat.sub_zero, Nat.add_sub_cancel, Function.update_self]
      omega
    | succ i =>
      have hold := hbuffer i (by omega)
      rw [pos_of_capacity (by omega)] at hold
      rw [Function.update_of_ne (by omega),
        show q.back + 1 - 1 - (i + 1) = q.back - 1 - i by omega, hold]
      omega

end Window

/-- The queue holds the newest numbers below `n`, and has dequeued only when it was full. -/
structure Tracks (q : Vecq Nat) (n : Nat) : Prop extends q.Window n where
  full : q.front = 0 ∨ q.size = VECQ_INIT_SIZE

namespace Tracks

variable {q : Vecq Nat} {n : Nat}

theorem clear (n : Nat) (hcapacity : q.capacity = VECQ_INIT_SIZE ∨ q.capacity = 0) :
    q.clear.Tracks n where
  le := Nat.le_refl 0
  size_le := Nat.zero_le n
  capacity := hcapacity.imp_right fun h => ⟨h, rfl⟩
  size_le_init := Nat.zero_le _
  full := .inl rfl
  buffer := fun _ hi => absurd hi (Nat.not_lt_zero _)

theorem mem_reverse_iff (h : q.Tracks n) {k : Nat} :
    k ∈ q.reverse ↔ n - q.size ≤ k ∧ k < n := by
  obtain ⟨⟨hle, hsize, hcapacity, hinit, hbuffer⟩, hfull⟩ := h
  rcases hcapacity with hcapacity | ⟨-, hzero⟩
  swap
  · simp only [reverse, hzero, List.range_zero, List.reverse_nil, List.map_nil,
      List.not_mem_nil, false_iff]
    omega
  simp only [VECQ_INIT_SIZE] at hinit hfull
  rw [Vecq.mem_reverse_iff]
  simp only [pos_of_capacity hcapacity] at hbuffer ⊢
  have hdef : q.size = q.back - q.front := rfl
  constructor
  · rintro ⟨i, hi, rfl⟩
    -- the element at place `i` is the one that was enqueued as number `back - 1 - j`
    obtain ⟨j, hj, hpos⟩ : ∃ j < q.size, (q.back - 1 - j) % 64 = i % 64 := by
      rcases hfull with hfront | hfull
      · exact ⟨q.back - 1 - i, by omega, by omega⟩
      · exact ⟨(q.back - 1 - i) % 64, by omega, by omega⟩
    rw [← hpos, hbuffer j hj]
    omega
  · rintro ⟨hk, hkn⟩
    have hj : n - 1 - k < q.size := by omega
    refine ⟨(q.back - 1 - (n - 1 - k)) % 64, ?_, ?_⟩
    · rcases hfull with hfront | hfull
      · have := Nat.mod_le (q.back - 1 - (n - 1 - k)) 64
        omega
      · omega
    · rw [Nat.mod_mod, hbuffer _ hj]
      omega

theorem enqueue (h : q.Tracks n) (hsize : q.size < VECQ_INIT_SIZE) :
    (q.enqueue n).Tracks (n + 1) := by
  refine ⟨h.toWindow.enqueue hsize, .inl ?_⟩
  obtain ⟨s, hs, -, -, hfront, -⟩ := h.toWindow.grow hsize
  rw [hs]
  change s.front = 0
  rw [hfront]
  exact h.full.resolve_right (Nat.ne_of_lt hsize)

theorem dequeue_enqueue (h : q.Tracks n) (hsize : q.size = VECQ_INIT_SIZE) :
    (q.dequeue.enqueue n).Tracks (n + 1) := by
  have hpos : 0 < q.size := by
    rw [hsize]
    decide
  have hwindow := h.toWindow.dequeue hpos
  have hdequeue : q.dequeue.size = q.back - (q.front + 1) := rfl
  have hdef : q.size = q.back - q.front := rfl
  have hlt : q.dequeue.size < VECQ_INIT_SIZE := by omega
  refine ⟨hwindow.enqueue hlt, .inr ?_⟩
  rw [hwindow.size_enqueue hlt]
  omega

end Tracks

/-!
## A `VECQ` as a queue

The elements from `front` to `back` are what `VECQ_DEQUEUE` returns, oldest first. `vecq_grow`
doubles the capacity with `Realloc`, which keeps every element where it is.

What `Realloc` adds to a buffer has no values. A buffer of an `Option` type has `none` there.
-/

open List

def dequeued (q : Vecq α) : α := q.buffer (q.pos q.front)

def contents (q : Vecq α) : List α :=
  (List.range q.size).map fun i => q.buffer (q.pos (q.front + i))

def Grows (q : Vecq α) : Prop := q.capacity = q.size ∧ q.capacity ≠ 0

instance (q : Vecq α) : Decidable q.Grows := inferInstanceAs (Decidable (_ ∧ _))

def Aligned (q : Vecq α) : Prop := q.Grows → q.front % (2 * q.capacity) = 0

instance (q : Vecq α) : Decidable q.Aligned := inferInstanceAs (Decidable (_ → _))

structure Bounded (q : Vecq α) : Prop where
  le : q.front ≤ q.back
  size_le : q.size ≤ q.capacity
  capacity : q.capacity = 0 ∨ ∃ k, q.capacity = 2 ^ k

def Fresh (q : Vecq (Option α)) : Prop := ∀ i, q.capacity ≤ i → q.buffer i = none

@[simp] theorem contents_clear (q : Vecq α) : q.clear.contents = [] := rfl

@[simp] theorem length_contents (q : Vecq α) : q.contents.length = q.size := by
  simp [contents]

theorem contents_eq_cons {q : Vecq α} (hsize : q.size ≠ 0) :
    q.contents = q.dequeued :: q.dequeue.contents := by
  have hsucc : q.size = q.dequeue.size + 1 := by
    have hfront : q.dequeue.size = q.back - (q.front + 1) := rfl
    have hdef : q.size = q.back - q.front := rfl
    omega
  unfold contents
  rw [hsucc, range_succ_eq_map, map_cons, map_map]
  congr 1
  refine map_congr_left fun i _ => ?_
  have hnext : q.front + (i + 1) = q.dequeue.front + i := by
    change q.front + (i + 1) = q.front + 1 + i
    omega
  rw [Function.comp_apply, Nat.succ_eq_add_one, hnext]
  rfl

theorem pos_eq_mod {q : Vecq α} {k : Nat} (h : q.capacity = 2 ^ k) (i : Nat) :
    q.pos i = i % q.capacity := by
  rw [pos, h]
  exact Nat.and_two_pow_sub_one_eq_mod i k

def room (q : Vecq α) : Vecq α := if q.capacity = q.size then q.grow else q

theorem enqueue_eq (q : Vecq α) (a : α) : q.enqueue a = q.room.insert a := by
  unfold enqueue room
  split <;> rfl

@[simp] theorem buffer_room (q : Vecq α) : q.room.buffer = q.buffer := by
  unfold room
  split <;> rfl

@[simp] theorem front_room (q : Vecq α) : q.room.front = q.front := by
  unfold room
  split <;> rfl

@[simp] theorem back_room (q : Vecq α) : q.room.back = q.back := by
  unfold room
  split <;> rfl

theorem capacity_room_of_grows {q : Vecq α} (h : q.Grows) :
    q.room.capacity = 2 * q.capacity := by
  unfold room grow
  rw [if_pos h.1, if_neg h.2, Nat.mul_comm]

theorem capacity_room_of_not_grows {q : Vecq α} (h : ¬ q.Grows) (hzero : q.capacity ≠ 0) :
    q.room.capacity = q.capacity := by
  unfold room
  rw [if_neg fun hfull => h ⟨hfull, hzero⟩]

theorem capacity_le_room {q : Vecq α} : q.capacity ≤ q.room.capacity := by
  by_cases hzero : q.capacity = 0
  · rw [hzero]
    exact Nat.zero_le _
  · by_cases hgrows : q.Grows
    · rw [capacity_room_of_grows hgrows]
      omega
    · rw [capacity_room_of_not_grows hgrows hzero]

namespace Bounded

variable {q : Vecq α}

section

variable (h : q.Bounded)

include h

theorem clear : q.clear.Bounded := ⟨Nat.le_refl 0, Nat.zero_le _, h.capacity⟩

theorem dequeue (hsize : q.size ≠ 0) : q.dequeue.Bounded := by
  have hsub : q.size = q.back - q.front := rfl
  have hdequeue : q.dequeue.size = q.back - (q.front + 1) := rfl
  have hle := h.size_le
  refine ⟨?_, ?_, h.capacity⟩
  · change q.front + 1 ≤ q.back
    omega
  · rw [hdequeue, capacity_dequeue]
    omega

theorem room : q.size < q.room.capacity ∧ ∃ k, q.room.capacity = 2 ^ k := by
  have hle := h.size_le
  unfold Vecq.room
  by_cases hfull : q.capacity = q.size
  · rw [if_pos hfull]
    by_cases hzero : q.capacity = 0
    · have hcap : q.grow.capacity = 64 := if_pos hzero
      rw [hcap]
      exact ⟨by omega, 6, rfl⟩
    · have hcap : q.grow.capacity = q.capacity * 2 := if_neg hzero
      obtain ⟨k, hk⟩ := h.capacity.resolve_left hzero
      rw [hcap]
      exact ⟨by omega, k + 1, by rw [hk, Nat.pow_succ]⟩
  · rw [if_neg hfull]
    exact ⟨by omega, h.capacity.resolve_left (by omega)⟩

theorem pos_room (i : Nat) : q.room.pos i = i % q.room.capacity := by
  obtain ⟨-, k, hk⟩ := h.room
  exact pos_eq_mod hk i

theorem pos_ne_back {i : Nat} (hi : i < q.size) :
    q.room.pos (q.front + i) ≠ q.room.pos q.back := by
  have hsize : q.size = q.back - q.front := rfl
  have hle := h.le
  intro heq
  rw [h.pos_room, h.pos_room] at heq
  have hzero := Nat.sub_mod_eq_zero_of_mod_eq heq.symm
  rw [Nat.mod_eq_of_lt (by have hroom := h.room.1; omega)] at hzero
  omega

theorem enqueue (a : α) : (q.enqueue a).Bounded := by
  have hle := h.le
  have hroom := h.room.1
  have hsize : q.size = q.back - q.front := rfl
  rw [enqueue_eq]
  refine ⟨?_, ?_, .inr h.room.2⟩
  · change q.room.front ≤ q.room.back + 1
    rw [front_room, back_room]
    omega
  · change q.room.back + 1 - q.room.front ≤ q.room.capacity
    rw [front_room, back_room]
    omega

theorem contents_enqueue_eq (a : α) : (q.enqueue a).contents =
    ((List.range q.size).map fun i => q.buffer (q.room.pos (q.front + i))) ++ [a] := by
  have hle := h.le
  have hback : q.front + q.size = q.back := Nat.add_sub_cancel' hle
  have hsize : (q.room.insert a).size = q.size + 1 := by
    change q.room.back + 1 - q.room.front = q.back - q.front + 1
    rw [front_room, back_room]
    omega
  rw [enqueue_eq, contents, hsize, range_succ, map_append, map_singleton]
  congr 1
  · refine map_congr_left fun i hi => ?_
    change Function.update q.room.buffer (q.room.pos q.room.back) a
      (q.room.pos (q.room.front + i)) = _
    rw [front_room, back_room, buffer_room, Function.update_of_ne (h.pos_ne_back (mem_range.mp hi))]
  · change [Function.update q.room.buffer (q.room.pos q.room.back) a
      (q.room.pos (q.room.front + q.size))] = _
    rw [front_room, back_room, hback, Function.update_self]

theorem contents_enqueue (haligned : q.Aligned) (a : α) :
    (q.enqueue a).contents = q.contents ++ [a] := by
  rw [h.contents_enqueue_eq, contents]
  congr 1
  refine map_congr_left fun i hi => ?_
  rw [mem_range] at hi
  have hsize := h.size_le
  obtain ⟨k, hk⟩ := h.capacity.resolve_left (by omega)
  rw [h.pos_room, pos_eq_mod hk]
  by_cases hgrows : q.Grows
  · obtain ⟨t, ht⟩ := Nat.dvd_of_mod_eq_zero (haligned hgrows)
    have hcap : q.front = q.capacity * (2 * t) := by rw [ht, Nat.mul_comm 2, Nat.mul_assoc]
    have hfull := hgrows.1
    congr 1
    rw [capacity_room_of_grows hgrows]
    calc (q.front + i) % (2 * q.capacity) = i := by
          rw [ht, Nat.mul_add_mod, Nat.mod_eq_of_lt (by omega)]
      _ = (q.front + i) % q.capacity := by
          rw [hcap, Nat.mul_add_mod, Nat.mod_eq_of_lt (by omega)]
  · rw [capacity_room_of_not_grows hgrows (by omega)]

end

end Bounded

namespace Fresh

variable {q : Vecq (Option α)}

theorem enqueue (hq : q.Bounded) (h : q.Fresh) (a : Option α) : (q.enqueue a).Fresh := by
  obtain ⟨hroom, -⟩ := hq.room
  intro i hi
  rw [enqueue_eq] at hi ⊢
  change q.room.capacity ≤ i at hi
  change Function.update q.room.buffer (q.room.pos q.room.back) a i = none
  have hlt : q.room.pos q.room.back < q.room.capacity := by
    rw [hq.pos_room]
    exact Nat.mod_lt _ (by omega)
  rw [Function.update_of_ne (by omega), buffer_room]
  exact h i (Nat.le_trans capacity_le_room hi)

theorem none_mem_contents (hq : q.Bounded) (h : q.Fresh) (haligned : ¬ q.Aligned)
    (a : Option α) : none ∈ (q.enqueue a).contents := by
  obtain ⟨hgrows, hfront⟩ := Classical.not_imp.mp haligned
  obtain ⟨hfull, hzero⟩ := hgrows
  have hcap := capacity_room_of_grows ⟨hfull, hzero⟩
  have hlt := Nat.mod_lt q.front (show 0 < 2 * q.capacity by omega)
  -- an element whose place is in the new half of the buffer
  obtain ⟨i, hi, hplace⟩ : ∃ i < q.size, q.capacity ≤ (q.front + i) % (2 * q.capacity) := by
    by_cases hhalf : q.capacity ≤ q.front % (2 * q.capacity)
    · exact ⟨0, by omega, hhalf⟩
    · refine ⟨q.capacity - q.front % (2 * q.capacity), by omega, ?_⟩
      rw [Nat.add_mod, Nat.mod_eq_of_lt (b := 2 * q.capacity) (by omega : q.capacity -
        q.front % (2 * q.capacity) < _), Nat.mod_eq_of_lt (by omega)]
      omega
  rw [hq.contents_enqueue_eq]
  refine mem_append_left _ (mem_map.mpr ⟨i, mem_range.mpr hi, ?_⟩)
  rw [hq.pos_room, hcap]
  exact h _ hplace

end Fresh

end Vecq

end Pmdk
