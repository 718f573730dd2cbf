import Pmdk.Lib.Linked

/-!
# Unified logs

A `struct ulog` holds entries one after another in its data, a function on the numbers of its 8-byte
words. Further ulogs are chained to it through `next`. They live in heap blocks: `blocks` maps the
offset of an allocated one to its contents.

An entry is not marked as the last one. The loops over the entries stop at the first one whose
offset is zero or whose checksum is wrong, so it is the zeroes behind the entries that matter.
-/

namespace Pmdk

/-- `struct ulog`; the checksum and the unused words are not read for undo logs. -/
structure Ulog where
  next : Nat
  capacity : Nat
  data : Nat → UInt64

namespace Ulog

/-! ## Entries -/

/-- `CACHELINE_ALIGN`, in the arithmetic of `size_t`. -/
def cachelineAlign (size : Nat) : Nat := (size + 63) % 2 ^ 64 / 64 * 64

/-- Two rounds of the loop of `util_checksum`, over the two halves of a word. -/
def checksumWord (s : UInt32 × UInt32) (w : UInt64) : UInt32 × UInt32 :=
  let lo := s.1 + w.toUInt32
  let hi := s.2 + lo
  let lo := lo + (w >>> 32).toUInt32
  (lo, hi + lo)

/-- `util_checksum` without the comparison. -/
def utilChecksum (ws : List UInt64) : UInt64 :=
  let s := ws.foldl checksumWord (0, 0)
  s.2.toUInt64 <<< 32 ||| s.1.toUInt64

def slice (data : Nat → UInt64) (i n : Nat) : List UInt64 :=
  (List.range n).map fun k => data (i + k)

/-- The three most significant bits of the offset: `0`, `1` and `2` are `SET`, `AND` and `OR`,
`5` and `6` are `BUF_SET` and `BUF_CPY`. -/
def entryType (data : Nat → UInt64) (i : Nat) : Nat := (data i).toNat / 2 ^ 61

def isBuf (type : Nat) : Bool := type = 5 || type = 6

/-- `ulog_entry_size` in words. -/
def entrySize (data : Nat → UInt64) (i : Nat) : Nat :=
  if isBuf (entryType data i) then cachelineAlign (24 + (data (i + 2)).toNat) / 8
  else if entryType data i ≤ 2 then 2
  else 0

def entryValid (data : Nat → UInt64) (i : Nat) : Bool :=
  if data i = 0 then false
  else if isBuf (entryType data i) then
    data (i + 1) = utilChecksum (slice (Function.update data (i + 1) 0) i (entrySize data i))
  else true

def pack : Nat → List UInt8 → List UInt64
  | 0, _ => []
  | n + 1, bytes =>
    UInt64.ofNat ((bytes.take 8).foldr (fun b acc => b.toNat + 256 * acc) 0) ::
      pack n (bytes.drop 8)

def bufCreate (dest : Nat) (bytes : List UInt8) : List UInt64 :=
  let offset := UInt64.ofNat (dest + 6 * 2 ^ 61)
  let size := UInt64.ofNat bytes.length
  let payload := pack (cachelineAlign (24 + bytes.length) / 8 - 3) bytes
  offset :: utilChecksum (offset :: 0 :: size :: payload) :: size :: payload

/-! ## One ulog -/

/-- The inner loop of `ulog_foreach_entry`: the entries from the word `i` on, and whether the
end of the ulog was reached. An entry of size zero keeps the loop from ending. -/
def scan (u : Ulog) : Nat → Nat → Option (List (List UInt64) × Bool)
  | 0, _ => none
  | fuel + 1, i =>
    if i * 8 < u.capacity then
      if entryValid u.data i then
        if entrySize u.data i = 0 then none
        else (scan u fuel (i + entrySize u.data i)).map fun r =>
          (slice u.data i (entrySize u.data i) :: r.1, r.2)
      else some ([], false)
    else some ([], true)

def entries (u : Ulog) : Option (List (List UInt64) × Bool) := u.scan (u.capacity + 1) 0

def baseNbytes (u : Ulog) : Option Nat :=
  u.entries.map fun r => (r.1.map List.length).sum * 8

/-- `memset(r->data, 0, nbytes)`. -/
def zero (u : Ulog) (nbytes : Nat) : Ulog :=
  { u with data := fun i => if i * 8 < nbytes then 0 else u.data i }

def store (u : Ulog) (i : Nat) (ws : List UInt64) : Ulog :=
  { u with data := fun k => if i ≤ k ∧ k < i + ws.length then ws.getD (k - i) 0 else u.data k }

def construct (capacity : Nat) : Ulog := { next := 0, capacity, data := fun _ => 0 }

/-! ## Chains of ulogs -/

/-- The ulogs that are met from `offset` on by following `next`. The loops of the source do
not end on a cycle, which more than `fuel` ulogs are taken to be. -/
def chain (blocks : Nat → Option Ulog) (fuel offset : Nat) : Option (List (Nat × Ulog)) :=
  Linked.walk Ulog.next blocks fuel offset

def foreachEntry (blocks : Nat → Option Ulog) : Nat → Ulog → Option (List (List UInt64))
  | 0, _ => none
  | fuel + 1, u =>
    match u.entries with
    | none => none
    | some (es, false) => some es
    | some (es, true) =>
      if u.next = 0 then some es
      else match blocks u.next with
        | none => none
        | some v => (foreachEntry blocks fuel v).map (es ++ ·)

/-!
## Reading the entries of a ulog

What `ulog_entry_buf_create` stores is read back as one valid entry, and a ulog in which such
entries lie one after another, up to its end or followed by a zero, is read back as the list of
these entries.
-/

open List

variable {data : Nat → UInt64} {i j n : Nat} {e : List UInt64} {es es' : List (List UInt64)}

/-! ## Slices -/

@[simp] theorem length_slice (data : Nat → UInt64) (i n : Nat) : (slice data i n).length = n := by
  simp [slice]

theorem getElem?_slice {k : Nat} (hk : k < n) : (slice data i n)[k]? = some (data (i + k)) := by
  simp [slice, hk]

theorem slice_congr {data' : Nat → UInt64} (h : ∀ k < n, data' (i + k) = data (i + k)) :
    slice data' i n = slice data i n :=
  map_congr_left fun k hk => h k (mem_range.mp hk)

theorem slice_update (hn : 1 < n) :
    slice (Function.update data (i + 1) 0) i n = (slice data i n).set 1 0 := by
  apply ext_getElem?
  intro k
  by_cases hk : k < n
  · rw [getElem?_slice hk, getElem?_set]
    by_cases h1 : 1 = k
    · subst h1
      simp [hn]
    · rw [if_neg h1, getElem?_slice hk, Function.update_of_ne (by omega)]
  · simp [hk]

/-! ## Entries that were created -/

@[simp] theorem length_pack (n : Nat) (bytes : List UInt8) : (pack n bytes).length = n := by
  induction n generalizing bytes with
  | zero => rfl
  | succ n ih => rw [pack, length_cons, ih]

/-- An entry that `operation_add_buffer` may create. -/
def IsEntry (e : List UInt64) : Prop :=
  ∃ dest bytes, dest + List.length bytes < 2 ^ 61 ∧ e = bufCreate dest bytes

theorem cachelineAlign_eq {size : Nat} (h : size < 2 ^ 62) :
    cachelineAlign size = (size + 63) / 64 * 64 := by
  rw [cachelineAlign, Nat.mod_eq_of_lt (by omega)]

theorem length_bufCreate {dest : Nat} {bytes : List UInt8} (h : bytes.length < 2 ^ 61) :
    (bufCreate dest bytes).length = (24 + bytes.length + 63) / 64 * 8 := by
  rw [bufCreate]
  simp only [length_cons, length_pack]
  rw [cachelineAlign_eq (by omega)]
  omega

theorem IsEntry.eight_le (h : IsEntry e) : 8 ≤ e.length := by
  obtain ⟨dest, bytes, hlt, rfl⟩ := h
  rw [length_bufCreate (by omega)]
  omega

theorem IsEntry.valid (h : IsEntry e) (hslice : slice data i e.length = e) :
    entryValid data i = true ∧ entrySize data i = e.length := by
  have hlen := h.eight_le
  have hword : ∀ k w, e[k]? = some w → k < e.length → data (i + k) = w := by
    intro k w hk hlt
    rw [← hslice, getElem?_slice hlt] at hk
    exact Option.some.inj hk
  obtain ⟨dest, bytes, hlt, rfl⟩ := h
  have hoffset : data i = UInt64.ofNat (dest + 6 * 2 ^ 61) := hword 0 _ rfl (by omega)
  have hsize : data (i + 2) = UInt64.ofNat bytes.length := hword 2 _ rfl (by omega)
  have hcsum := hword 1 _ rfl (by omega)
  have htype : entryType data i = 6 := by
    rw [entryType, hoffset, UInt64.toNat_ofNat_of_lt' (by show _ < 2 ^ 64; omega)]
    omega
  have hentrySize : entrySize data i = (bufCreate dest bytes).length := by
    rw [entrySize, htype, if_pos (by decide), hsize,
      UInt64.toNat_ofNat_of_lt' (by show _ < 2 ^ 64; omega), cachelineAlign_eq (by omega),
      length_bufCreate (by omega)]
    omega
  refine ⟨?_, hentrySize⟩
  have hne : data i ≠ 0 := by
    intro hz
    have := congrArg UInt64.toNat (hoffset.symm.trans hz)
    rw [UInt64.toNat_ofNat_of_lt' (by show _ < 2 ^ 64; omega)] at this
    exact absurd this (by show _ ≠ 0; omega)
  rw [entryValid, if_neg hne, htype, if_pos (by decide), hentrySize, slice_update (by omega),
    hslice, hcsum]
  exact decide_eq_true rfl

theorem bufCreate_isEntry {dest : Nat} {bytes : List UInt8} (h : dest + bytes.length < 2 ^ 61) :
    IsEntry (bufCreate dest bytes) :=
  ⟨dest, bytes, h, rfl⟩

/-! ## Consecutive entries -/

/-- The entries lie one after another between the words `i` and `j`. -/
def Holds (data : Nat → UInt64) : Nat → List (List UInt64) → Nat → Prop
  | i, [], j => i = j
  | i, e :: es, j => IsEntry e ∧ slice data i e.length = e ∧ Holds data (i + e.length) es j

theorem holds_nil (data : Nat → UInt64) (i : Nat) : Holds data i [] i := rfl

theorem Holds.le (h : Holds data i es j) : i + es.length ≤ j := by
  induction es generalizing i with
  | nil => exact Nat.le_of_eq h
  | cons e es ih =>
    obtain ⟨he, -, hes⟩ := h
    have := he.eight_le
    have := ih hes
    rw [length_cons]
    omega

theorem Holds.congr {data' : Nat → UInt64} (h : Holds data i es j)
    (heq : ∀ k, i ≤ k → k < j → data' k = data k) : Holds data' i es j := by
  induction es generalizing i with
  | nil => exact h
  | cons e es ih =>
    obtain ⟨he, hslice, hes⟩ := h
    have hle := hes.le
    refine ⟨he, ?_, ih hes fun k hk hkj => heq k (by omega) hkj⟩
    rw [slice_congr fun k hk => heq (i + k) (by omega) (by omega), hslice]

theorem Holds.concat (h : Holds data i es j) (he : IsEntry e) (hslice : slice data j e.length = e) :
    Holds data i (es ++ [e]) (j + e.length) := by
  induction es generalizing i with
  | nil =>
    obtain rfl : i = j := h
    exact ⟨he, hslice, rfl⟩
  | cons e' es ih => exact ⟨h.1, h.2.1, ih h.2.2⟩

theorem Holds.scan_eq {u : Ulog} (h : Holds u.data i es j) (hj : j * 8 ≤ u.capacity)
    (hend : j * 8 < u.capacity → u.data j = 0) {fuel : Nat} (hfuel : es.length < fuel) :
    u.scan fuel i = some (es, decide (j * 8 = u.capacity)) := by
  induction es generalizing i fuel with
  | nil =>
    obtain rfl : i = j := h
    obtain ⟨fuel, rfl⟩ := Nat.exists_eq_succ_of_ne_zero (Nat.ne_of_gt hfuel)
    rw [scan]
    split
    · rename_i hlt
      have hinvalid : entryValid u.data i = false := by
        rw [entryValid, if_pos (hend hlt)]
      rw [hinvalid, if_neg (by decide), decide_eq_false (by omega)]
    · rw [decide_eq_true (by omega)]
  | cons e es ih =>
    obtain ⟨he, hslice, hes⟩ := h
    obtain ⟨fuel, rfl⟩ := Nat.exists_eq_succ_of_ne_zero (Nat.ne_of_gt (Nat.lt_of_le_of_lt
      (Nat.zero_le _) hfuel))
    obtain ⟨hvalid, hsize⟩ := he.valid hslice
    have hle := hes.le
    have hlen := he.eight_le
    rw [scan, if_pos (by omega), if_pos hvalid, hsize, if_neg (by omega),
      ih hes (by rw [length_cons] at hfuel; omega), Option.map_some, hslice]

theorem Holds.entries_eq {u : Ulog} (h : Holds u.data 0 es j) (hj : j * 8 ≤ u.capacity)
    (hend : j * 8 < u.capacity → u.data j = 0) :
    u.entries = some (es, decide (j * 8 = u.capacity)) := by
  have hle := h.le
  exact h.scan_eq hj hend (by omega)

/-! ## Chains -/

def Logged : List Ulog → List (List UInt64) → Prop
  | [], es => es = []
  | u :: us, es =>
    (∃ es₁ es₂, es = es₁ ++ es₂ ∧ Holds u.data 0 es₁ (u.capacity / 8) ∧
      u.capacity % 8 = 0 ∧ Logged us es₂) ∨
    ∃ j, Holds u.data 0 es j ∧ j * 8 < u.capacity ∧ u.data j = 0

theorem Logged.foreachEntry_eq {blocks : Nat → Option Ulog} {u : Ulog} {l : List (Nat × Ulog)}
    (hchain : Linked.Chain Ulog.next blocks u.next l) (h : Logged (u :: l.map Prod.snd) es)
    {fuel : Nat} (hfuel : l.length < fuel) : foreachEntry blocks fuel u = some es := by
  induction l generalizing u es fuel with
  | nil =>
    obtain ⟨fuel, rfl⟩ := Nat.exists_eq_succ_of_ne_zero (Nat.ne_of_gt hfuel)
    rw [foreachEntry]
    rcases h with ⟨es₁, es₂, rfl, hfull, hmod, rfl⟩ | ⟨j, hes, hlt, hz⟩
    · rw [hfull.entries_eq (by omega) (by omega), decide_eq_true (by omega)]
      have hnext : u.next = 0 := hchain
      dsimp only
      rw [if_pos hnext, append_nil]
    · rw [hes.entries_eq (by omega) fun _ => hz, decide_eq_false (by omega)]
  | cons x l ih =>
    obtain ⟨fuel, rfl⟩ := Nat.exists_eq_succ_of_ne_zero (Nat.ne_of_gt (Nat.lt_of_le_of_lt
      (Nat.zero_le _) hfuel))
    obtain ⟨hx, hne, hb, hl⟩ := hchain
    rw [foreachEntry]
    rcases h with ⟨es₁, es₂, rfl, hfull, hmod, hrest⟩ | ⟨j, hes, hlt, hz⟩
    · rw [hfull.entries_eq (by omega) (by omega), decide_eq_true (by omega)]
      dsimp only
      rw [hx, if_neg hne, hb]
      dsimp only
      rw [ih hl hrest (by rw [length_cons] at hfuel; omega), Option.map_some]
    · rw [hes.entries_eq (by omega) fun _ => hz, decide_eq_false (by omega)]

end Ulog

end Pmdk
