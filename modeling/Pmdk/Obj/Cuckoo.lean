import Pmdk.Lib.Orbit
import Pmdk.Lib.Run

/-!
# Cuckoo hash table

A key lives in one of two slots. An insert that finds both of them in use takes the place of the
key in the first slot, which then is to be inserted itself, and so on; after eight moves all keys
are hashed again into a larger table.

In a well-formed table each key that is in use is in one of its two slots, and in one slot only.
While a slot is to be inserted, the map is that of the table with the binding of that slot
(`inFlight`).

The next size of the table, a product of floating point numbers, is a parameter, and so are the
results of the allocations of a call: `alloc n i` is the one in turn `i` of the growth of turn `n`.
-/

namespace Pmdk.Cuckoo

variable {V : Type}

/-! ## Table -/

/-- `struct cuckoo_slot`; no value stands for `NULL`. -/
structure Slot (V : Type) where
  key : UInt64
  value : Option V

def nullSlot : Slot V := ⟨0, none⟩

/-- `struct cuckoo`. The number of slots that `tab` has been allocated with is `slots`. -/
structure Table (V : Type) where
  size : Nat
  slots : Nat
  tab : Nat → Slot V

def initialSize : Nat := 8

def maxInserts : Nat := 8

def maxGrows : Nat := 32

inductive Error
  | einval
  | enomem
  | eagain
  deriving DecidableEq

def hashMod (size : Nat) (key : UInt64) : Nat := key.toNat % size

def mix (key : UInt64) : UInt64 :=
  let key := key ^^^ (key >>> 33)
  let key := key * 0xff51afd7ed558ccd
  let key := key ^^^ (key >>> 33)
  let key := key * 0xc4ceb9fe1a85ec53
  key ^^^ (key >>> 33)

def hashMixer (size : Nat) (key : UInt64) : Nat := (mix key).toNat % size

def zalloc (size : Nat) : Table V := ⟨size, size, fun _ => nullSlot⟩

/-- `cuckoo_new`. -/
def new : Table V := zalloc initialSize

def Table.store (c : Table V) (i : Nat) (slot : Slot V) : Table V :=
  { c with tab := Function.update c.tab i slot }

/-- `cuckoo_insert_try`, with `n` moves to go. The last slot is what `src` points to. -/
def insertTry : Nat → Table V → Slot V → Option Error × Table V × Slot V
  | 0, c, src => (some .eagain, c, src)
  | n + 1, c, src =>
    let h₀ := hashMod c.size src.key
    let h₁ := hashMixer c.size src.key
    if (c.tab h₀).value.isNone then (none, c.store h₀ src, src)
    else if (c.tab h₀).key = src.key then (some .einval, c, src)
    else if (c.tab h₁).value.isNone then (none, c.store h₁ src, src)
    else if (c.tab h₁).key = src.key then (some .einval, c, src)
    else insertTry n (c.store h₀ src) (c.tab h₀)

def rehash : List (Slot V) → Table V → Option (Table V)
  | [], c => some c
  | s :: slots, c =>
    if s.value.isNone then rehash slots c
    else
      match insertTry maxInserts c s with
      | (none, c', _) => rehash slots c'
      | _ => none

section Grow

variable (nextSize : Nat → Nat)

/-- The loop of `cuckoo_grow`, with `n` turns to go; `i` have been made, the last of them with the
size `size`. -/
def growLoop (old : Table V) (alloc : Nat → Bool) : Nat → Nat → Nat → Option Error × Table V
  | 0, _, _ => (some .einval, old)
  | n + 1, i, size =>
    if alloc i then
      match rehash ((List.range old.size).map old.tab) (zalloc (nextSize size)) with
      | some c => (none, c)
      | none => growLoop old alloc n (i + 1) (nextSize size)
    else (some .enomem, { old with size })

/-- `cuckoo_grow`. -/
def grow (alloc : Nat → Bool) (c : Table V) : Option Error × Table V :=
  growLoop nextSize c alloc maxGrows 0 c.size

/-- The loop of `cuckoo_insert`, with `n` turns to go; `r` have been made. -/
def insertLoop (alloc : Nat → Nat → Bool) :
    Nat → Nat → Table V → Slot V → Option Error × Table V
  | 0, _, c, _ => (some .einval, c)
  | n + 1, r, c, src =>
    match insertTry maxInserts c src with
    | (some .eagain, c, src) =>
      match grow nextSize (alloc r) c with
      | (none, c) => insertLoop alloc n (r + 1) c src
      | (some e, c) => (some e, c)
    | (e, c, _) => (e, c)

def insert (alloc : Nat → Nat → Bool) (c : Table V) (key : UInt64) (value : V) :
    Option Error × Table V :=
  insertLoop nextSize alloc maxGrows 0 c ⟨key, some value⟩

end Grow

/-- `cuckoo_find_slot`. -/
def findSlot (c : Table V) (key : UInt64) : Option Nat :=
  if (c.tab (hashMod c.size key)).key = key then some (hashMod c.size key)
  else if (c.tab (hashMixer c.size key)).key = key then some (hashMixer c.size key)
  else none

/-- `cuckoo_remove`. -/
def remove (c : Table V) (key : UInt64) : Option V × Table V :=
  match findSlot c key with
  | some i => ((c.tab i).value, c.store i nullSlot)
  | none => (none, c)

def get (c : Table V) (key : UInt64) : Option V :=
  (findSlot c key).bind fun i => (c.tab i).value

/-! ## Well-formed tables -/

section Map

open Orbit

variable {c c' : Table V} {src src' x : Slot V} {i j n q : Nat} {k : UInt64} {v : V}

def Bound (c : Table V) (k : UInt64) (v : V) : Prop := ∃ i < c.size, c.tab i = ⟨k, some v⟩

def Home (size : Nat) (k : UInt64) (i : Nat) : Prop := i = hashMod size k ∨ i = hashMixer size k

structure WF (c : Table V) : Prop where
  slots : c.slots = c.size
  large : initialSize ≤ c.size
  home : ∀ i < c.size, (c.tab i).value ≠ none → Home c.size (c.tab i).key i
  null : ∀ i < c.size, (c.tab i).value = none → (c.tab i).key = 0
  unique : ∀ i < c.size, ∀ j < c.size, (c.tab i).value ≠ none → (c.tab j).value ≠ none →
    (c.tab i).key = (c.tab j).key → i = j

/-! ## Slots -/

theorem WF.pos (hc : WF c) : 0 < c.size := Nat.lt_of_lt_of_le (by decide) hc.large

theorem hashMod_lt (h : 0 < n) (k : UInt64) : hashMod n k < n := Nat.mod_lt _ h

theorem hashMixer_lt (h : 0 < n) (k : UInt64) : hashMixer n k < n := Nat.mod_lt _ h

theorem hashMixer_zero (n : Nat) : hashMixer n 0 = hashMod n 0 := by
  have hmix : mix 0 = 0 := by decide
  unfold hashMixer hashMod
  rw [hmix]

theorem Home.lt (h : Home n k i) (hn : 0 < n) : i < n := by
  rcases h with rfl | rfl
  · exact hashMod_lt hn k
  · exact hashMixer_lt hn k

theorem findSlot_eq_some (h : findSlot c k = some i) : Home c.size k i ∧ (c.tab i).key = k := by
  unfold findSlot at h
  split at h
  · rename_i hkey
    cases h
    exact ⟨.inl rfl, hkey⟩
  · split at h
    · rename_i hkey
      cases h
      exact ⟨.inr rfl, hkey⟩
    · cases h

theorem findSlot_eq_none (h : findSlot c k = none) (hi : Home c.size k i) :
    (c.tab i).key ≠ k := by
  unfold findSlot at h
  split at h
  · cases h
  · rename_i hmod
    split at h
    · cases h
    · rename_i hmixer
      rcases hi with rfl | rfl
      · exact hmod
      · exact hmixer

theorem WF.findSlot_eq (hc : WF c) (hi : i < c.size) (hvalue : (c.tab i).value ≠ none)
    (hkey : (c.tab i).key = k) : findSlot c k = some i := by
  have hhome := hc.home i hi hvalue
  rw [hkey] at hhome
  cases hfind : findSlot c k with
  | none => exact absurd hkey (findSlot_eq_none hfind hhome)
  | some j =>
    obtain ⟨hj, hkey'⟩ := findSlot_eq_some hfind
    have hlt := hj.lt hc.pos
    by_cases hempty : (c.tab j).value = none
    · -- only the key zero is found at an empty slot
      have hzero := hc.null j hlt hempty
      rw [hkey'] at hzero
      subst hzero
      have hsame : ∀ t, Home c.size 0 t → t = hashMod c.size 0 := by
        rintro t (rfl | rfl)
        · rfl
        · exact hashMixer_zero _
      rw [hsame i hhome, hsame j hj]
    · rw [hc.unique i hi j hlt hvalue hempty (hkey.trans hkey'.symm)]

theorem WF.get_eq_some_iff (hc : WF c) : get c k = some v ↔ Bound c k v := by
  unfold get
  constructor
  · intro h
    obtain ⟨i, hfind, hvalue⟩ := Option.bind_eq_some_iff.mp h
    obtain ⟨hhome, hkey⟩ := findSlot_eq_some hfind
    refine ⟨i, hhome.lt hc.pos, ?_⟩
    rw [← hkey, ← hvalue]
  · rintro ⟨i, hi, hslot⟩
    have hvalue : (c.tab i).value ≠ none := by
      rw [hslot]
      exact Option.some_ne_none v
    rw [hc.findSlot_eq hi hvalue (congrArg Slot.key hslot), Option.bind_some, hslot]

theorem WF.get_eq_none_iff (hc : WF c) :
    get c k = none ↔ ∀ i < c.size, (c.tab i).value ≠ none → (c.tab i).key ≠ k := by
  constructor
  · intro h i hi hvalue hkey
    obtain ⟨v, hv⟩ := Option.ne_none_iff_exists'.mp hvalue
    have hbound : Bound c k v := ⟨i, hi, by rw [← hkey, ← hv]⟩
    rw [hc.get_eq_some_iff.mpr hbound] at h
    cases h
  · intro h
    refine Option.eq_none_iff_forall_ne_some.mpr fun v hv => ?_
    obtain ⟨i, hi, hslot⟩ := hc.get_eq_some_iff.mp hv
    refine h i hi ?_ (congrArg Slot.key hslot)
    rw [hslot]
    exact Option.some_ne_none v

/-! ## Stores -/

structure Fits (c : Table V) (i : Nat) (x : Slot V) : Prop where
  lt : i < c.size
  home : x.value ≠ none → Home c.size x.key i
  null : x.value = none → x.key = 0
  new : x.value ≠ none → ∀ j < c.size, j ≠ i → (c.tab j).value ≠ none → (c.tab j).key ≠ x.key

theorem store_tab (c : Table V) (i j : Nat) (x : Slot V) :
    (c.store i x).tab j = if j = i then x else c.tab j :=
  Function.update_apply ..

theorem WF.store (hc : WF c) (hx : Fits c i x) : WF (c.store i x) where
  slots := hc.slots
  large := hc.large
  home j hj := by
    rw [store_tab]
    by_cases hji : j = i
    · rw [if_pos hji, hji]
      exact hx.home
    · rw [if_neg hji]
      exact hc.home j hj
  null j hj := by
    rw [store_tab]
    by_cases hji : j = i
    · rw [if_pos hji]
      exact hx.null
    · rw [if_neg hji]
      exact hc.null j hj
  unique j hj j' hj' := by
    rw [store_tab, store_tab]
    by_cases hji : j = i
    · rw [if_pos hji]
      by_cases hji' : j' = i
      · exact fun _ _ _ => hji.trans hji'.symm
      · rw [if_neg hji']
        exact fun hvalue hvalue' heq => absurd heq.symm (hx.new hvalue j' hj' hji' hvalue')
    · rw [if_neg hji]
      by_cases hji' : j' = i
      · rw [if_pos hji']
        exact fun hvalue hvalue' heq => absurd heq (hx.new hvalue' j hj hji hvalue)
      · rw [if_neg hji']
        exact hc.unique j hj j' hj'

theorem WF.get_store (hc : WF c) (hx : Fits c i x) :
    get (c.store i x) k = some v ↔
      x = ⟨k, some v⟩ ∨ get c k = some v ∧ c.tab i ≠ ⟨k, some v⟩ := by
  rw [(hc.store hx).get_eq_some_iff, hc.get_eq_some_iff]
  constructor
  · rintro ⟨j, hj, hslot⟩
    rw [store_tab] at hslot
    by_cases hji : j = i
    · rw [if_pos hji] at hslot
      exact .inl hslot
    · rw [if_neg hji] at hslot
      refine .inr ⟨⟨j, hj, hslot⟩, fun hi => hji ?_⟩
      have hvalue : ∀ t, c.tab t = ⟨k, some v⟩ → (c.tab t).value ≠ none := by
        intro t ht
        rw [ht]
        exact Option.some_ne_none v
      exact hc.unique j hj i hx.lt (hvalue j hslot) (hvalue i hi) (by rw [hslot, hi])
  · rintro (rfl | ⟨⟨j, hj, hslot⟩, hne⟩)
    · exact ⟨i, hx.lt, by rw [store_tab, if_pos rfl]⟩
    · refine ⟨j, hj, ?_⟩
      rw [store_tab, if_neg]
      · exact hslot
      · rintro rfl
        exact hne hslot

/-! ## Moves -/

def inFlight (c : Table V) (src : Slot V) : UInt64 → Option V :=
  Function.update (get c) src.key src.value

structure Flying (c : Table V) (src : Slot V) : Prop where
  wf : WF c
  new : get c src.key = none
  value : src.value ≠ none

theorem Flying.fits (h : Flying c src) (hi : Home c.size src.key i) : Fits c i src where
  lt := hi.lt h.wf.pos
  home _ := hi
  null hvalue := absurd hvalue h.value
  new _ j hj _ hvalue := h.wf.get_eq_none_iff.mp h.new j hj hvalue

theorem inFlight_eq_some_iff :
    inFlight c src k = some v ↔ src = ⟨k, some v⟩ ∨ k ≠ src.key ∧ get c k = some v := by
  unfold inFlight
  by_cases hk : k = src.key
  · subst hk
    rw [Function.update_self]
    constructor
    · exact fun hvalue => .inl (by rw [← hvalue])
    · rintro (hsrc | ⟨hne, -⟩)
      · exact congrArg Slot.value hsrc
      · exact absurd rfl hne
  · rw [Function.update_of_ne hk]
    constructor
    · exact fun hget => .inr ⟨hk, hget⟩
    · rintro (hsrc | ⟨-, hget⟩)
      · exact absurd (congrArg Slot.key hsrc).symm hk
      · exact hget

theorem Flying.settle (h : Flying c src) (hi : Home c.size src.key i)
    (hempty : (c.tab i).value = none) :
    WF (c.store i src) ∧ get (c.store i src) = inFlight c src := by
  refine ⟨h.wf.store (h.fits hi), funext fun k => Option.ext fun v => ?_⟩
  rw [h.wf.get_store (h.fits hi), inFlight_eq_some_iff]
  refine or_congr_right ⟨?_, ?_⟩
  · rintro ⟨hget, -⟩
    refine ⟨?_, hget⟩
    rintro rfl
    rw [h.new] at hget
    cases hget
  · rintro ⟨-, hget⟩
    refine ⟨hget, fun hslot => ?_⟩
    rw [hslot] at hempty
    cases hempty

/-- A slot in use gives up its binding, which is to be inserted then. -/
theorem Flying.move (h : Flying c src) (hi : Home c.size src.key i)
    (hvalue : (c.tab i).value ≠ none) :
    Flying (c.store i src) (c.tab i) ∧ inFlight (c.store i src) (c.tab i) = inFlight c src := by
  have hlt := hi.lt h.wf.pos
  have hne : src.key ≠ (c.tab i).key := (h.wf.get_eq_none_iff.mp h.new i hlt hvalue).symm
  have hget : ∀ v, get c (c.tab i).key = some v → c.tab i = ⟨(c.tab i).key, some v⟩ := by
    intro v hv
    obtain ⟨j, hj, hslot⟩ := h.wf.get_eq_some_iff.mp hv
    have hsame : j = i := h.wf.unique j hj i hlt (by rw [hslot]; exact Option.some_ne_none v) hvalue
      (by rw [hslot])
    rw [hsame] at hslot
    exact hslot
  refine ⟨⟨h.wf.store (h.fits hi), Option.eq_none_iff_forall_ne_some.mpr fun v hv => ?_, hvalue⟩,
    funext fun k => Option.ext fun v => ?_⟩
  · rcases (h.wf.get_store (h.fits hi)).mp hv with hsrc | ⟨hv, hslot⟩
    · exact hne (by rw [hsrc])
    · exact hslot (hget v hv)
  · rw [inFlight_eq_some_iff, inFlight_eq_some_iff, h.wf.get_store (h.fits hi)]
    constructor
    · rintro (hslot | ⟨-, hsrc | ⟨hv, -⟩⟩)
      · have hk : k = (c.tab i).key := (congrArg Slot.key hslot).symm
        exact .inr ⟨hk ▸ hne.symm, h.wf.get_eq_some_iff.mpr ⟨i, hlt, hslot⟩⟩
      · exact .inl hsrc
      · refine .inr ⟨?_, hv⟩
        rintro rfl
        rw [h.new] at hv
        cases hv
    · rintro (hsrc | ⟨hk, hv⟩)
      · have hk : src.key = k := congrArg Slot.key hsrc
        exact .inr ⟨hk ▸ hne, .inl hsrc⟩
      · by_cases hslot : c.tab i = ⟨k, some v⟩
        · exact .inl hslot
        · refine .inr ⟨?_, .inr ⟨hv, hslot⟩⟩
          rintro rfl
          exact hslot (hget v hv)

theorem Flying.insertTry (h : Flying c src) (n : Nat) :
    ∃ e c' src', insertTry n c src = (e, c', src') ∧ c'.size = c.size ∧
      (e = none ∧ WF c' ∧ get c' = inFlight c src ∨
        e = some .eagain ∧ Flying c' src' ∧ inFlight c' src' = inFlight c src) := by
  induction n generalizing c src with
  | zero => exact ⟨_, c, src, rfl, rfl, .inr ⟨rfl, h, rfl⟩⟩
  | succ n ih =>
    have habsent := h.wf.get_eq_none_iff.mp h.new
    have hmod := hashMod_lt h.wf.pos src.key
    have hmixer := hashMixer_lt h.wf.pos src.key
    rw [Cuckoo.insertTry]
    by_cases h₀ : (c.tab (hashMod c.size src.key)).value.isNone = true
    · obtain ⟨hwf, hget⟩ := h.settle (.inl rfl) (Option.isNone_iff_eq_none.mp h₀)
      exact ⟨_, _, src, if_pos h₀, rfl, .inl ⟨rfl, hwf, hget⟩⟩
    · have hvalue₀ := mt Option.isNone_iff_eq_none.mpr h₀
      rw [if_neg h₀, if_neg (habsent _ hmod hvalue₀)]
      by_cases h₁ : (c.tab (hashMixer c.size src.key)).value.isNone = true
      · obtain ⟨hwf, hget⟩ := h.settle (.inr rfl) (Option.isNone_iff_eq_none.mp h₁)
        exact ⟨_, _, src, if_pos h₁, rfl, .inl ⟨rfl, hwf, hget⟩⟩
      · have hvalue₁ := mt Option.isNone_iff_eq_none.mpr h₁
        rw [if_neg h₁, if_neg (habsent _ hmixer hvalue₁)]
        obtain ⟨hmove, hsame⟩ := h.move (.inl rfl) hvalue₀
        obtain ⟨e, c', src', heq, hsize, hres⟩ := ih hmove
        rw [hsame] at hres
        exact ⟨e, c', src', heq, hsize, hres⟩

/-! ## The path of the moves -/

/-- The key that `k` would displace. -/
def nextKey (c : Table V) (k : UInt64) : UInt64 := (c.tab (hashMod c.size k)).key

def Free (c : Table V) (k : UInt64) : Prop := ∃ i, Home c.size k i ∧ (c.tab i).value = none

/-- One of the keys on the path of the moves has a slot that is free. -/
def Settles (c : Table V) (k : UInt64) : Prop := ∃ t < maxInserts, Free c ((nextKey c)^[t] k)

/-- The first slots on the path come back to the one of the key, for the first time after an odd
number of moves. -/
def Closes (c : Table V) (k : UInt64) : Prop :=
  ∃ j, FirstHit (nextKey c) (fun a => hashMod c.size a = hashMod c.size k) (nextKey c k) j ∧
    Even j ∧ j + 1 < maxInserts

theorem Flying.insertTry_free (h : Flying c src) (hfree : Free c src.key) (n : Nat) :
    (Cuckoo.insertTry (n + 1) c src).1 = none := by
  rw [Cuckoo.insertTry]
  by_cases h₀ : (c.tab (hashMod c.size src.key)).value.isNone = true
  · rw [if_pos h₀]
  · obtain ⟨i, rfl | rfl, hi⟩ := hfree
    · exact absurd (Option.isNone_iff_eq_none.mpr hi) h₀
    · have habsent := h.wf.get_eq_none_iff.mp h.new _ (hashMod_lt h.wf.pos src.key)
        (mt Option.isNone_iff_eq_none.mpr h₀)
      rw [if_neg h₀, if_neg habsent, if_pos (Option.isNone_iff_eq_none.mpr hi)]

theorem Flying.insertTry_succ (h : Flying c src) (hfull : ¬ Free c src.key) (n : Nat) :
    Cuckoo.insertTry (n + 1) c src = Cuckoo.insertTry n (c.store (hashMod c.size src.key) src)
        (c.tab (hashMod c.size src.key)) := by
  have hvalue : ∀ i, Home c.size src.key i →
      ¬ (c.tab i).value.isNone = true ∧ (c.tab i).key ≠ src.key := by
    intro i hi
    have hne : (c.tab i).value ≠ none := fun hnone => hfull ⟨i, hi, hnone⟩
    exact ⟨mt Option.isNone_iff_eq_none.mp hne,
      h.wf.get_eq_none_iff.mp h.new i (hi.lt h.wf.pos) hne⟩
  obtain ⟨h₀, hkey₀⟩ := hvalue _ (.inl rfl)
  obtain ⟨h₁, hkey₁⟩ := hvalue _ (.inr rfl)
  rw [Cuckoo.insertTry]
  exact (if_neg h₀).trans ((if_neg hkey₀).trans ((if_neg h₁).trans (if_neg hkey₁)))

theorem Flying.move_of_full (h : Flying c src) (hfull : ¬ Free c src.key) :
    Flying (c.store (hashMod c.size src.key) src) (c.tab (hashMod c.size src.key)) :=
  (h.move (.inl rfl) fun hnone => hfull ⟨_, .inl rfl, hnone⟩).1

theorem nextKey_store (c : Table V) (i : Nat) (x : Slot V) (a : UInt64) :
    nextKey (c.store i x) a = if hashMod c.size a = i then x.key else nextKey c a := by
  unfold nextKey
  rw [show (c.store i x).size = c.size from rfl, store_tab]
  split
  · rfl
  · rfl

/-- After a move the path comes to the same keys, unless it comes back to the slot of the move. -/
theorem firstHit_move {A : UInt64 → Prop} {j : Nat} (hA : ¬ A src.key) :
    FirstHit (nextKey c) A (nextKey c src.key) j ↔
      FirstHit (nextKey (c.store (hashMod c.size src.key) src)) A (nextKey c src.key) j := by
  refine firstHit_held (S := fun a => hashMod c.size a = hashMod c.size src.key) rfl hA
    (fun a ha => ?_) (fun a ha => ?_) fun a ha => ?_
  · unfold nextKey
    rw [ha]
  · rw [nextKey_store, if_pos ha]
  · rw [nextKey_store, if_neg ha]

theorem Flying.free_store (h : Flying c src) (hfull : ¬ Free c src.key) :
    Free (c.store (hashMod c.size src.key) src) = Free c := by
  funext a
  refine propext (exists_congr fun i => and_congr_right fun _ => ?_)
  rw [store_tab]
  split
  · rename_i hi
    exact iff_of_false h.value fun hnone => hfull ⟨i, .inl hi, hnone⟩
  · exact Iff.rfl

/-- `cuckoo_insert_try` succeeds if one of the keys on the path has a free slot. -/
theorem Flying.insertTry_eq_none_iff (h : Flying c src) (n : Nat) :
    (Cuckoo.insertTry n c src).1 = none ↔ ∃ t < n, Free c ((nextKey c)^[t] src.key) := by
  induction n generalizing c src with
  | zero => exact iff_of_false (Option.some_ne_none _) (by simp)
  | succ n ih =>
    by_cases hfree : Free c src.key
    · exact iff_of_true (h.insertTry_free hfree n) ⟨0, Nat.succ_pos n, hfree⟩
    · rw [h.insertTry_succ hfree, ih (h.move_of_full hfree), h.free_store hfree,
        ← exists_firstHit_iff, ← exists_firstHit_iff]
      constructor
      · rintro ⟨j, hj, hhit⟩
        exact ⟨j + 1, by omega, firstHit_succ.mpr ⟨hfree, (firstHit_move hfree).mpr hhit⟩⟩
      · rintro ⟨j, hj, hhit⟩
        cases j with
        | zero => exact absurd hhit.hit hfree
        | succ j => exact ⟨j, by omega, (firstHit_move hfree).mp (firstHit_succ.mp hhit).2⟩

theorem Flying.insertTry_turns (h : Flying c src) (hsrc : hashMod c.size src.key = q)
    (hkey : hashMod c.size (c.tab q).key = q)
    (htry : Cuckoo.insertTry n c src = (some .eagain, c', src')) :
    src'.key = if Even n then src.key else (c.tab q).key := by
  induction n generalizing c src with
  | zero =>
    cases htry
    exact (if_pos Even.zero).symm
  | succ n ih =>
    have hfull : ¬ Free c src.key := fun hfree => by
      have hnone := h.insertTry_free hfree n
      rw [htry] at hnone
      cases hnone
    rw [h.insertTry_succ hfull, hsrc] at htry
    have hmove := h.move_of_full hfull
    rw [hsrc] at hmove
    have hat : (c.store q src).tab q = src := (store_tab ..).trans (if_pos rfl)
    have hrest := ih hmove hkey (by rw [hat]; exact hsrc) htry
    rw [hat] at hrest
    rw [hrest]
    by_cases hn : Even n
    · rw [if_pos hn, if_neg (by rwa [Nat.even_add_one, not_not])]
    · rw [if_neg hn, if_pos (Nat.even_add_one.mpr hn)]

/-- The key that was in its first slot `q` is the one to be inserted at the end if the path comes to
that slot at the right time. -/
theorem Flying.insertTry_back (h : Flying c src) (hvalue : (c.tab q).value ≠ none)
    (hkey : hashMod c.size (c.tab q).key = q)
    (htry : Cuckoo.insertTry n c src = (some .eagain, c', src')) :
    src'.key = (c.tab q).key ↔
      ∃ j < n, FirstHit (nextKey c) (fun a => hashMod c.size a = q) src.key j ∧ Odd (n - j) := by
  have hlt : q < c.size := hkey ▸ hashMod_lt h.wf.pos _
  have hne := h.wf.get_eq_none_iff.mp h.new q hlt hvalue
  induction n generalizing c src with
  | zero =>
    cases htry
    exact iff_of_false hne.symm (by simp)
  | succ n ih =>
    have hfull : ¬ Free c src.key := fun hfree => by
      have hnone := h.insertTry_free hfree n
      rw [htry] at hnone
      cases hnone
    by_cases hq : hashMod c.size src.key = q
    · rw [h.insertTry_turns hq hkey htry]
      constructor
      · intro hback
        refine ⟨0, Nat.succ_pos n, ⟨hq, fun i hi => absurd hi (Nat.not_lt_zero i)⟩, ?_⟩
        rw [Nat.sub_zero, ← Nat.not_even_iff_odd]
        intro heven
        rw [if_pos heven] at hback
        exact hne hback.symm
      · rintro ⟨j, hj, hhit, hodd⟩
        cases j with
        | zero => exact if_neg (Nat.not_even_iff_odd.mpr hodd)
        | succ j => exact absurd hq (firstHit_succ.mp hhit).1
    · have hat : (c.store (hashMod c.size src.key) src).tab q = c.tab q :=
        (store_tab ..).trans (if_neg (Ne.symm hq))
      have hmove := h.move_of_full hfull
      rw [h.insertTry_succ hfull] at htry
      rw [← hat] at hvalue hkey ⊢
      refine (ih hmove hvalue hkey htry hlt
        (hmove.wf.get_eq_none_iff.mp hmove.new q hlt hvalue)).trans ?_
      constructor
      · rintro ⟨j, hj, hhit, hodd⟩
        refine ⟨j + 1, by omega, firstHit_succ.mpr ⟨hq, (firstHit_move hq).mpr hhit⟩, ?_⟩
        rwa [Nat.add_sub_add_right]
      · rintro ⟨j, hj, hhit, hodd⟩
        cases j with
        | zero => exact absurd hhit.hit hq
        | succ j =>
          rw [Nat.add_sub_add_right] at hodd
          exact ⟨j, by omega, (firstHit_move hq).mp (firstHit_succ.mp hhit).2, hodd⟩

/-- After all moves the new key is the one to be inserted again if its path closes. -/
theorem Flying.insertTry_closes (h : Flying c src)
    (htry : Cuckoo.insertTry maxInserts c src = (some .eagain, c', src')) :
    src'.key = src.key ↔ Closes c src.key := by
  have hfull : ¬ Free c src.key := fun hfree => by
    have hnone := h.insertTry_free hfree 7
    rw [show (7 : Nat) + 1 = maxInserts from rfl, htry] at hnone
    cases hnone
  have hat : (c.store (hashMod c.size src.key) src).tab (hashMod c.size src.key) = src :=
    (store_tab ..).trans (if_pos rfl)
  have hback := (h.move_of_full hfull).insertTry_back (q := hashMod c.size src.key)
    (by rw [hat]; exact h.value) (by rw [hat]; rfl)
    ((h.insertTry_succ hfull 7).symm.trans htry)
  rw [hat] at hback
  rw [hback]
  have hcongr : ∀ j, FirstHit (nextKey (c.store (hashMod c.size src.key) src))
      (fun a => hashMod c.size a = hashMod c.size src.key) (nextKey c src.key) j ↔
        FirstHit (nextKey c) (fun a => hashMod c.size a = hashMod c.size src.key)
          (nextKey c src.key) j := fun j =>
    firstHit_congr fun a ha => by rw [nextKey_store, if_neg ha]
  constructor
  · rintro ⟨j, hj, hhit, hodd⟩
    refine ⟨j, (hcongr j).mp hhit, ?_, Nat.succ_lt_succ hj⟩
    rw [Nat.odd_sub (Nat.le_of_lt hj)] at hodd
    exact hodd.mp (by decide)
  · rintro ⟨j, hhit, heven, hj⟩
    have hj : j < 7 := Nat.lt_of_succ_lt_succ hj
    refine ⟨j, hj, (hcongr j).mpr hhit, ?_⟩
    rw [Nat.odd_sub (Nat.le_of_lt hj)]
    exact iff_of_true (by decide) heven

end Map

end Pmdk.Cuckoo
