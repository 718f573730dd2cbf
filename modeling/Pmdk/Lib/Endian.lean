import Mathlib.Algebra.Order.Ring.Nat
import Mathlib.Data.BitVec
import Mathlib.Data.List.GetD

/-!
# Words in the order of their bytes

A word of `n` bytes stands in the memory of a host in the byte order of that host. `toh` converts
between the order of the host and the big endian order, in either direction. A word that is
converted before it is stored by one host, and after it is loaded by another, keeps its value
(`load_toh`, `toh_toh`); one that is not is swapped between hosts of different orders
(`load_store`).
-/

namespace Endian

inductive Order where
  | little
  | big
  deriving DecidableEq

/-- The `n` lowest bytes of a number, the least significant first. -/
def digits : (n v : Nat) → List UInt8
  | 0, _ => []
  | n + 1, v => UInt8.ofNat v :: digits n (v / 256)

def value : List UInt8 → Nat
  | [] => 0
  | b :: bs => b.toNat + 256 * value bs

def Order.orient : Order → List UInt8 → List UInt8
  | .little, bs => bs
  | .big, bs => bs.reverse

def store (h : Order) (n : Nat) (v : BitVec (8 * n)) : List UInt8 := h.orient (digits n v.toNat)

def load (h : Order) (n : Nat) (bs : List UInt8) : BitVec (8 * n) :=
  BitVec.ofNat (8 * n) (value (h.orient bs))

def swap (n : Nat) (v : BitVec (8 * n)) : BitVec (8 * n) := load .little n (store .big n v)

def toh (h : Order) (n : Nat) (v : BitVec (8 * n)) : BitVec (8 * n) :=
  match h with
  | .little => swap n v
  | .big => v

@[simp] theorem length_digits (n v : Nat) : (digits n v).length = n := by
  induction n generalizing v with
  | zero => rfl
  | succ n ih => rw [digits, List.length_cons, ih]

theorem value_digits (n v : Nat) : value (digits n v) = v % 256 ^ n := by
  induction n generalizing v with
  | zero => rw [pow_zero, Nat.mod_one]; rfl
  | succ n ih =>
    have hbyte : (UInt8.ofNat v).toNat = v % 256 := UInt8.toNat_ofNat'
    rw [digits, value, ih, hbyte, pow_succ', Nat.mod_mul]

theorem digits_value (bs : List UInt8) : digits bs.length (value bs) = bs := by
  induction bs with
  | nil => rfl
  | cons b bs ih =>
    have hb : b.toNat < 256 := b.toNat_lt
    have hdiv : (b.toNat + 256 * value bs) / 256 = value bs := by omega
    have hbyte : UInt8.ofNat (b.toNat + 256 * value bs) = b := by
      apply UInt8.toNat_inj.mp
      rw [UInt8.toNat_ofNat']
      omega
    rw [List.length_cons, value, digits, hdiv, ih, hbyte]

theorem value_lt (bs : List UInt8) : value bs < 2 ^ (8 * bs.length) := by
  have hmod := value_digits bs.length (value bs)
  rw [digits_value] at hmod
  rw [hmod, pow_mul]
  exact Nat.mod_lt _ (Nat.pow_pos (by decide))

@[simp] theorem Order.length_orient (h : Order) (bs : List UInt8) :
    (h.orient bs).length = bs.length := by
  cases h with
  | little => rfl
  | big => exact List.length_reverse

@[simp] theorem length_store (h : Order) (n : Nat) (v : BitVec (8 * n)) :
    (store h n v).length = n := by
  rw [store, Order.length_orient, length_digits]

theorem Order.orient_orient (h : Order) (bs : List UInt8) : h.orient (h.orient bs) = bs := by
  cases h with
  | little => rfl
  | big => exact List.reverse_reverse bs

theorem load_self (h : Order) (n : Nat) (v : BitVec (8 * n)) : load h n (store h n v) = v := by
  have hmod : v.toNat % 256 ^ n = v.toNat := by
    refine Nat.mod_eq_of_lt (lt_of_lt_of_eq v.isLt ?_)
    rw [pow_mul]
    rfl
  rw [load, store, Order.orient_orient, value_digits, hmod, BitVec.ofNat_toNat, BitVec.setWidth_eq]

theorem store_load (h : Order) {n : Nat} {bs : List UInt8} (hn : bs.length = n) :
    store h n (load h n bs) = bs := by
  have hlen : (h.orient bs).length = n := (h.length_orient bs).trans hn
  have hlt := value_lt (h.orient bs)
  rw [hlen] at hlt
  rw [store, load, BitVec.toNat_ofNat, Nat.mod_eq_of_lt hlt]
  conv_lhs => rw [← hlen, digits_value, Order.orient_orient]

theorem swap_swap (n : Nat) (v : BitVec (8 * n)) : swap n (swap n v) = v := by
  have hbig : store .big n (swap n v) = (store .little n (swap n v)).reverse := rfl
  have hlittle : store .big n v = (store .little n v).reverse := rfl
  rw [swap, hbig, swap, store_load .little (length_store ..), hlittle, List.reverse_reverse,
    load_self]

/-- What another host reads of a word that was not converted. -/
theorem load_store (h h' : Order) (n : Nat) (v : BitVec (8 * n)) :
    load h' n (store h n v) = if h = h' then v else swap n v := by
  split_ifs with heq
  · rw [heq, load_self]
  · cases h <;> cases h' <;> first | exact absurd rfl heq | rfl

@[simp] theorem toh_toh (h : Order) (n : Nat) (v : BitVec (8 * n)) : toh h n (toh h n v) = v := by
  cases h with
  | little => exact swap_swap n v
  | big => rfl

/-- A converted word arrives as a word still to be converted. -/
@[simp] theorem load_toh (h h' : Order) (n : Nat) (v : BitVec (8 * n)) :
    load h' n (store h n (toh h n v)) = toh h' n v := by
  rw [load_store]
  cases h <;> cases h' <;> simp [toh, swap_swap]

/-! ## Reading a structure -/

abbrev Read (α : Type) := StateM (List UInt8) α

def Read.word (h : Order) (n : Nat) : Read (BitVec (8 * n)) :=
  fun bs => (load h n (bs.take n), bs.drop n)

def Read.bytes (n : Nat) : Read (Vector UInt8 n) :=
  fun bs => (Vector.ofFn fun i => bs.getD i 0, bs.drop n)

@[simp] theorem Read.bind_apply {α β : Type} (x : Read α) (f : α → Read β) (bs : List UInt8) :
    (x >>= f) bs = f (x bs).1 (x bs).2 := rfl

@[simp] theorem Read.pure_apply {α : Type} (a : α) (bs : List UInt8) :
    (pure a : Read α) bs = (a, bs) := rfl

@[simp] theorem Read.map_apply {α β : Type} (f : α → β) (x : Read α) (bs : List UInt8) :
    (f <$> x) bs = (f (x bs).1, (x bs).2) := rfl

@[simp] theorem Read.word_store (h h' : Order) (n : Nat) (v : BitVec (8 * n)) (bs : List UInt8) :
    Read.word h' n (store h n v ++ bs) = (load h' n (store h n v), bs) := by
  rw [Read.word, List.take_left' (length_store ..), List.drop_left' (length_store ..)]

@[simp] theorem Read.bytes_toList {n : Nat} (v : Vector UInt8 n) (bs : List UInt8) :
    Read.bytes n (v.toList ++ bs) = (v, bs) := by
  rw [Read.bytes, List.drop_left' Vector.length_toList]
  congr 1
  refine Vector.ext fun i hi => ?_
  rw [Vector.getElem_ofFn, List.getD_append _ _ _ _ (by simpa using hi)]
  simp [hi]

end Endian
