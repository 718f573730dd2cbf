import Pmdk.Obj.RedoReplay
import Pmdk.Obj.RedoStore
import Pmdk.Obj.UndoClobber

/-!
# Adding a buffer to an undo log

A buffer entry restores the bytes of a range. `pieces` lists the bytes of some entries with
their offsets, in the order in which the entries are met, and `piece_bufCreate` states that
what `ulog_entry_buf_create` has stored is read back.
-/

namespace Pmdk.UlogPieces

open RedoReplay Ulog List

def dataSize (e : List UInt64) : Nat := (e.getD 2 0).toNat

def piece (e : List UInt64) : List (Nat × UInt8) :=
  (List.range (dataSize e)).map fun i => (entryOffset e + i, dataByte e i)

def pieces (es : List (List UInt64)) : List (Nat × UInt8) := es.flatMap piece

def rangeBytes (dest : Nat) (bytes : List UInt8) : List (Nat × UInt8) :=
  (List.range bytes.length).map fun i => (dest + i, bytes.getD i 0)

theorem rangeBytes_append (dest : Nat) (bytes bytes' : List UInt8) :
    rangeBytes dest (bytes ++ bytes') =
      rangeBytes dest bytes ++ rangeBytes (dest + bytes.length) bytes' := by
  unfold rangeBytes
  rw [length_append, range_add, map_append, map_map]
  congr 1
  · refine map_congr_left fun i hi => ?_
    rw [getD_append _ _ _ _ (mem_range.mp hi)]
  · refine map_congr_left fun i _ => ?_
    rw [Function.comp_apply, getD_append_right _ _ _ _ (by omega), Nat.add_sub_cancel_left,
      Nat.add_assoc]

/-! ## Words of bytes -/

theorem toNat_byteOf (w : UInt64) (j : Nat) : (byteOf w j).toNat = w.toNat / 2 ^ (8 * j) % 256 := by
  have hbits : (byteOf w j).toNat = (w.toBitVec.extractLsb' (8 * j) 8).toNat := rfl
  rw [hbits, BitVec.extractLsb'_toNat, Nat.shiftRight_eq_div_pow]
  rfl

/-- The number that `pack` makes of at most eight bytes. -/
def packNat (l : List UInt8) : Nat := l.foldr (fun b acc => b.toNat + 256 * acc) 0

theorem packNat_lt (l : List UInt8) : packNat l < 256 ^ l.length := by
  induction l with
  | nil => decide
  | cons b l ih =>
    have hb := b.toNat_lt
    have hcons : packNat (b :: l) = b.toNat + 256 * packNat l := rfl
    rw [hcons, length_cons, Nat.pow_succ]
    omega

theorem packNat_div (l : List UInt8) (j : Nat) :
    packNat l / 2 ^ (8 * j) % 256 = (l.getD j 0).toNat := by
  induction l generalizing j with
  | nil => simp [packNat]
  | cons b l ih =>
    have hb := b.toNat_lt
    have hcons : packNat (b :: l) = b.toNat + 256 * packNat l := rfl
    cases j with
    | zero =>
      rw [hcons, Nat.mul_zero, Nat.pow_zero, Nat.div_one, getD_cons_zero]
      omega
    | succ j =>
      have hpow : 2 ^ (8 * (j + 1)) = 256 * 2 ^ (8 * j) := by
        rw [Nat.mul_succ, Nat.pow_add, Nat.mul_comm]
      have hdiv : packNat (b :: l) / 256 = packNat l := by
        rw [hcons]
        omega
      rw [hpow, ← Nat.div_div_eq_div_mul, hdiv, getD_cons_succ, ih]

theorem byteOf_pack {l : List UInt8} (h : l.length ≤ 8) (j : Nat) :
    byteOf (UInt64.ofNat (packNat l)) j = l.getD j 0 := by
  apply UInt8.toNat_inj.mp
  have hlt : packNat l < 2 ^ 64 :=
    Nat.lt_of_lt_of_le (packNat_lt l) (Nat.pow_le_pow_right (by decide) h : _ ≤ 256 ^ 8)
  rw [toNat_byteOf, UInt64.toNat_ofNat_of_lt' hlt, packNat_div]

theorem getD_pack {n : Nat} {bytes : List UInt8} {k : Nat} (hk : k < n) :
    (pack n bytes).getD k 0 = UInt64.ofNat (packNat ((bytes.drop (8 * k)).take 8)) := by
  induction n generalizing bytes k with
  | zero => exact absurd hk (Nat.not_lt_zero k)
  | succ n ih =>
    rw [pack]
    cases k with
    | zero => rfl
    | succ k =>
      rw [getD_cons_succ, ih (by omega), drop_drop, Nat.mul_succ, Nat.add_comm]

/-! ## Entries that were created -/

variable {dest newCapacity : Nat} {s' : State} {ok : Bool}

theorem piece_bufCreate {bytes : List UInt8} (h : dest + bytes.length < 2 ^ 61) :
    piece (bufCreate dest bytes) = rangeBytes dest bytes := by
  have hsize : dataSize (bufCreate dest bytes) = bytes.length := by
    change (UInt64.ofNat bytes.length).toNat = _
    exact UInt64.toNat_ofNat_of_lt' (by show _ < 2 ^ 64; omega)
  have hoffset : entryOffset (bufCreate dest bytes) = dest := by
    change (UInt64.ofNat (dest + 6 * 2 ^ 61)).toNat % 2 ^ 61 = _
    rw [UInt64.toNat_ofNat_of_lt' (by show _ < 2 ^ 64; omega)]
    omega
  unfold piece rangeBytes
  rw [hsize, hoffset]
  refine map_congr_left fun i hi => ?_
  have hlt := mem_range.mp hi
  have hword : (bufCreate dest bytes).getD (3 + i / 8) 0 =
      (pack (cachelineAlign (24 + bytes.length) / 8 - 3) bytes).getD (i / 8) 0 := by
    rw [Nat.add_comm]
    rfl
  have hbyte : dataByte (bufCreate dest bytes) i = bytes.getD i 0 := by
    rw [dataByte, hword, getD_pack (by rw [cachelineAlign_eq (by omega)]; omega),
      byteOf_pack (length_take_le _ _), getD_eq_getElem?_getD,
      getElem?_take_of_lt (by omega), getElem?_drop, Nat.div_add_mod,
      ← getD_eq_getElem?_getD]
  rw [hbyte]

end Pmdk.UlogPieces

/-!
## `operation_add_buffer`

`operation_add_buffer` stores a buffer in the current ulog of the chain. If a buffer is too large
for what is left of the ulog, the entry takes all of it, and the function calls itself for the rest
of the buffer, which goes into the next ulog. The reservation for the rest makes sure that there is
one.

A call answers `none` where a size would become negative, an assertion fails, or the recursion does
not end.
-/

namespace Pmdk.AddBuffer

open Ulog Undo UlogPieces List

/-- The chain of an undo log and the fields of `struct operation_context` that matter to it.
`heap` are the ulogs that `lane_undo_extend` will obtain, after which it fails. -/
structure State where
  logs : List Ulog
  heap : List Redo.Ulog
  ulogBaseNbytes : Nat
  ulogCapacity : Nat
  curr : Option Nat
  currOffset : Nat
  currCapacity : Nat
  totalLogged : Nat

/-- `operation_reserve`, with the loop of `ulog_reserve`. -/
def State.reserve (newCapacity : Nat) (s : State) : Bool × State :=
  if newCapacity ≤ s.ulogCapacity then (true, s)
  else
    let capacity := s.ulogBaseNbytes + (s.logs.tail.map Ulog.capacity).sum
    let (ok, pushed) := Redo.ulogReserve capacity newCapacity s.heap
    let s := { s with
      logs := s.logs ++ pushed.map fun u => Ulog.construct u.capacity
      heap := s.heap.drop pushed.length }
    if ok then (true, { s with ulogCapacity := Redo.totalCapacity capacity pushed })
    else (false, s)

def State.select (realSize : Nat) (s : State) : Option (Bool × State) :=
  if s.currCapacity = 0 then
    match s.reserve (s.totalLogged + realSize) with
    | (false, s) => some (false, s)
    | (true, s) =>
      let i := match s.curr with
        | none => 0
        | some i => i + 1
      (s.logs[i]?).map fun u =>
        (true, { s with curr := some i, currOffset := 0, currCapacity := u.capacity })
  else some (true, s)

/-- An entry of the data of `currSize` bytes is created in the current ulog. -/
def State.create (dest : Nat) (data : List UInt8) (currSize : Nat) (s : State) :
    Option State :=
  let entrySize := (currSize + 63) / 64 * 64
  if entrySize = cachelineAlign (24 + data.length) ∧ entrySize ≤ s.currCapacity then
    s.curr.map fun i => { s with
      logs := s.logs.modify i fun u => u.store (s.currOffset / 8) (bufCreate dest data)
      totalLogged := s.totalLogged + entrySize
      currOffset := s.currOffset + entrySize
      currCapacity := s.currCapacity - entrySize }
  else none

/-- `operation_add_buffer`: whether it succeeds, and the state after it. -/
def operationAddBuffer : Nat → Nat → List UInt8 → State → Option (Bool × State)
  | 0, _, _, _ => none
  | fuel + 1, dest, src, s =>
    let realSize := src.length + 24
    match s.select realSize with
    | none => none
    | some (false, s) => some (false, s)
    | some (true, s) =>
      let currSize := min realSize s.currCapacity
      if currSize < 24 then none
      else
        let dataSize := currSize - 24
        match s.create dest (src.take dataSize) currSize with
        | none => none
        | some s =>
          if src.length < dataSize then none
          else if src.length - dataSize = 0 then some (true, s)
          else operationAddBuffer fuel (dest + dataSize) (src.drop dataSize) s

structure Call where
  dest : Nat
  src : List UInt8

def addBuffers : List Call → State → Option (Bool × State)
  | [], s => some (true, s)
  | c :: cs, s =>
    match operationAddBuffer c.src.length c.dest c.src s with
    | some (true, s) => addBuffers cs s
    | r => r

def foreachEntry : List Ulog → Option (List (List UInt64))
  | [] => some []
  | u :: us =>
    match u.entries with
    | none => none
    | some (es, false) => some es
    | some (es, true) => (foreachEntry us).map (es ++ ·)

/-! ## The chain with its places -/

def placed (logs : List Ulog) : List (Loc × Ulog) :=
  logs.mapIdx fun i u => (.ext i, u)

def State.ctx (s : State) : Ctx where
  next := []
  ulogCapacity := s.ulogCapacity
  curr := s.curr.map .ext
  currOffset := s.currOffset
  currCapacity := s.currCapacity
  totalLogged := s.totalLogged

structure Sized (s : State) : Prop where
  base : ∃ rest, s.logs.map Ulog.capacity = s.ulogBaseNbytes :: rest
  aligned : ∀ c ∈ s.logs.map Ulog.capacity, 64 ≤ c ∧ c % 64 = 0
  ulogCapacity : s.ulogCapacity ≤ (s.logs.map Ulog.capacity).sum

/-- The log holds the entries `es` up to the current position, and zeroes behind it. -/
structure Holds (s : State) (es : List (List UInt64)) : Prop where
  sized : Sized s
  ready : Ready s.ctx (placed s.logs) es

variable {s : State} {u : Ulog}

theorem Sized.capacity (h : Sized s) (hu : u ∈ s.logs) : 64 ≤ u.capacity ∧ u.capacity % 64 = 0 :=
  h.aligned _ (mem_map_of_mem hu)

theorem placed_append (logs logs' : List Ulog) :
    placed (logs ++ logs') = placed logs ++ logs'.mapIdx fun i u => (.ext (i + logs.length), u) :=
  mapIdx_append

theorem getElem?_placed (logs : List Ulog) (i : Nat) :
    (placed logs)[i]? = (logs[i]?).map fun u => (.ext i, u) :=
  getElem?_mapIdx

theorem map_snd_placed (logs : List Ulog) : (placed logs).map Prod.snd = logs := by
  apply ext_getElem?
  intro i
  rw [getElem?_map, getElem?_placed]
  cases logs[i]? <;> rfl

variable {pre : List (Loc × Ulog)} {loc : Loc}

variable {post : List (Loc × Ulog)}

theorem placed_eq_append {logs : List Ulog} (h : placed logs = pre ++ (loc, u) :: post) :
    loc = .ext pre.length ∧ logs[pre.length]? = some u := by
  have hget := getElem?_placed logs pre.length
  rw [h, getElem?_append_right (Nat.le_refl _), Nat.sub_self, getElem?_cons_zero] at hget
  obtain ⟨v, hv, heq⟩ := Option.map_eq_some_iff.mp hget.symm
  obtain ⟨rfl, rfl⟩ := Prod.mk.inj heq
  exact ⟨rfl, hv⟩

theorem placed_modify {logs : List Ulog}
    (h : placed logs = pre ++ (loc, u) :: post) (f : Ulog → Ulog) :
    placed (logs.modify pre.length f) = pre ++ (loc, f u) :: post := by
  obtain ⟨rfl, hu⟩ := placed_eq_append h
  apply ext_getElem?
  intro i
  have hget := getElem?_placed logs i
  rw [h] at hget
  rw [getElem?_placed, getElem?_modify]
  by_cases hi : pre.length = i
  · subst hi
    rw [hu, getElem?_append_right (Nat.le_refl _), Nat.sub_self, getElem?_cons_zero]
    simp
  · simp only [if_neg hi, id_map']
    have hsame : (pre ++ (Loc.ext pre.length, f u) :: post)[i]? =
        (pre ++ (Loc.ext pre.length, u) :: post)[i]? := by
      rcases Nat.lt_or_ge i pre.length with hlt | hge
      · rw [getElem?_append_left hlt, getElem?_append_left hlt]
      · obtain ⟨k, hk⟩ : ∃ k, i - pre.length = k + 1 := ⟨i - pre.length - 1, by omega⟩
        rw [getElem?_append_right hge, getElem?_append_right hge, hk,
          getElem?_cons_succ, getElem?_cons_succ]
    rw [hsame, hget]

/-! ## Reserving -/

variable {es es₁ : List (List UInt64)} {ess : List (List (List UInt64))}

theorem ready_append {ctx : Ctx} {logs new : List (Loc × Ulog)}
    (h : Ready ctx logs es) (hnew : AllClean new) : Ready ctx (logs ++ new) es := by
  have happend : ∀ l, AllClean l → AllClean (l ++ new) := fun l hl x hx =>
    (mem_append.mp hx).elim (hl x) (hnew x)
  rcases h with ⟨hfresh, hes⟩ | ⟨pre, loc, u, post, ess, es₁, hlogs, hes, hat⟩
  · exact .inl ⟨{ hfresh with clean := happend _ hfresh.clean }, hes⟩
  · refine .inr ⟨pre, loc, u, post ++ new, ess, es₁, ?_, hes,
      { hat with clean := happend _ hat.clean }⟩
    rw [hlogs, append_assoc]
    rfl

theorem ready_congr {ctx ctx' : Ctx} {logs : List (Loc × Ulog)}
    (h : Ready ctx logs es) (hcurr : ctx'.curr = ctx.curr)
    (hoffset : ctx'.currOffset = ctx.currOffset) (hcapacity : ctx'.currCapacity = ctx.currCapacity)
    (htotal : ctx'.totalLogged = ctx.totalLogged) : Ready ctx' logs es := by
  rcases h with ⟨hfresh, hes⟩ | ⟨pre, loc, u, post, ess, es₁, hlogs, hes, hat⟩
  · exact .inl ⟨⟨hcurr.trans hfresh.curr, hcapacity.trans hfresh.capacity,
      htotal.trans hfresh.total, hfresh.clean⟩, hes⟩
  · exact .inr ⟨pre, loc, u, post, ess, es₁, hlogs, hes, ⟨hat.full, hoffset ▸ hat.holds,
      hoffset ▸ hat.aligned, hoffset ▸ hat.le, hoffset ▸ hat.head, hoffset ▸ hat.behind, hat.clean,
      hcurr.trans hat.curr, by rw [hcapacity, hoffset, hat.capacity],
      by rw [htotal, hoffset, hat.total]⟩⟩

/-- A reservation changes neither the current position nor the entries. It may leave the chain
longer. -/
theorem reserve_holds (h : Holds s es) (hs : s.reserve newCapacity = (ok, s')) :
    Holds s' es ∧ (ok = true → newCapacity ≤ s'.ulogCapacity) ∧ s'.curr = s.curr ∧
      s'.currCapacity = s.currCapacity ∧ s'.totalLogged = s.totalLogged := by
  unfold State.reserve at hs
  split at hs
  · rename_i hle
    obtain ⟨rfl, rfl⟩ := Prod.mk.inj hs
    exact ⟨h, fun _ => hle, rfl, rfl, rfl⟩
  · dsimp only at hs
    generalize hpushed : Redo.ulogReserve
      (s.ulogBaseNbytes + (s.logs.tail.map Ulog.capacity).sum) newCapacity s.heap = r at hs
    obtain ⟨ok', pushed⟩ := r
    obtain ⟨⟨rest, hbase⟩, haligned, hle⟩ := h.sized
    have hnew : (pushed.map fun u => Ulog.construct u.capacity).map Ulog.capacity =
        pushed.map Redo.Ulog.capacity := by
      rw [map_map]
      rfl
    have hhead : (s.logs ++ pushed.map fun u => Ulog.construct u.capacity).map Ulog.capacity =
        s.ulogBaseNbytes :: (rest ++ pushed.map Redo.Ulog.capacity) := by
      rw [map_append, hnew, hbase]
      rfl
    have hcap : ∀ c ∈ (s.logs ++ pushed.map fun u => Ulog.construct u.capacity).map
        Ulog.capacity, 64 ≤ c ∧ c % 64 = 0 := by
      rw [map_append, hnew, forall_mem_append]
      refine ⟨haligned, fun c hc => ?_⟩
      obtain ⟨w, -, rfl⟩ := mem_map.mp hc
      have hpos := w.pos
      have hdvd : 64 ∣ w.capacity := w.aligned
      omega
    have hsum : ((s.logs ++ pushed.map fun u => Ulog.construct u.capacity).map
        Ulog.capacity).sum = Redo.totalCapacity
          (s.ulogBaseNbytes + (s.logs.tail.map Ulog.capacity).sum) pushed := by
      rw [hhead, Redo.totalCapacity, map_tail, hbase, tail_cons, sum_cons,
        sum_append, Nat.add_assoc]
    have hready : Ready s.ctx
        (placed (s.logs ++ pushed.map fun u => Ulog.construct u.capacity)) es := by
      rw [placed_append]
      refine ready_append h.ready fun x hx => ?_
      obtain ⟨i, hi, rfl⟩ := mem_mapIdx.mp hx
      obtain ⟨w, -, hw⟩ := mem_map.mp (getElem_mem hi)
      rw [← hw]
      exact fun _ _ => rfl
    cases ok' with
    | true =>
      obtain ⟨rfl, rfl⟩ := Prod.mk.inj hs
      exact ⟨⟨⟨⟨_, hhead⟩, hcap, Nat.le_of_eq hsum.symm⟩,
        ready_congr hready rfl rfl rfl rfl⟩, fun _ => Redo.ulogReserve_le hpushed, rfl, rfl, rfl⟩
    | false =>
      obtain ⟨rfl, rfl⟩ := Prod.mk.inj hs
      refine ⟨⟨⟨⟨_, hhead⟩, hcap, ?_⟩,
        ready_congr hready rfl rfl rfl rfl⟩, fun hok => Bool.noConfusion hok, rfl, rfl, rfl⟩
      rw [map_append, sum_append]
      exact hle.trans (Nat.le_add_right _ _)

/-! ## Room for further buffers -/

/-- The bytes of the chain, with the ulogs that it can be extended with. -/
def State.available (s : State) : Nat :=
  s.ulogBaseNbytes + (s.logs.tail.map Ulog.capacity).sum + (s.heap.map Redo.Ulog.capacity).sum

/-- There is room for `n` bytes more, if each of them takes a cacheline. -/
def State.Room (n : Nat) (s : State) : Prop := s.totalLogged + 64 * n + 24 ≤ s.available

theorem ulogReserve_spec {capacity : Nat} {answers pushed : List Redo.Ulog}
    (h : Redo.ulogReserve capacity newCapacity answers = (ok, pushed)) :
    pushed ++ answers.drop pushed.length = answers ∧
      (newCapacity ≤ capacity + (answers.map Redo.Ulog.capacity).sum → ok = true) := by
  induction answers generalizing capacity pushed with
  | nil =>
    obtain ⟨rfl, rfl⟩ := Prod.mk.inj h
    exact ⟨rfl, decide_eq_true⟩
  | cons u answers ih =>
    rw [Redo.ulogReserve] at h
    split at h
    · obtain ⟨hok, rfl⟩ := Prod.mk.inj h
      obtain ⟨hpushed, hroom⟩ := ih (Prod.ext hok rfl)
      rw [cons_append, length_cons, drop_succ_cons, hpushed, map_cons, sum_cons, ← Nat.add_assoc]
      exact ⟨rfl, hroom⟩
    · obtain ⟨rfl, rfl⟩ := Prod.mk.inj h
      exact ⟨rfl, fun _ => rfl⟩

theorem reserve_available (hne : s.logs ≠ []) (hs : s.reserve newCapacity = (ok, s')) :
    s'.available = s.available ∧ s'.totalLogged = s.totalLogged ∧
      (newCapacity ≤ s.available → ok = true) := by
  unfold State.reserve at hs
  split at hs
  · obtain ⟨rfl, rfl⟩ := Prod.mk.inj hs
    exact ⟨rfl, rfl, fun _ => rfl⟩
  · dsimp only at hs
    generalize hpushed : Redo.ulogReserve
      (s.ulogBaseNbytes + (s.logs.tail.map Ulog.capacity).sum) newCapacity s.heap = r at hs
    obtain ⟨ok', pushed⟩ := r
    obtain ⟨hheap, hroom⟩ := ulogReserve_spec hpushed
    have hsum : (s.heap.map Redo.Ulog.capacity).sum = (pushed.map Redo.Ulog.capacity).sum +
          ((s.heap.drop pushed.length).map Redo.Ulog.capacity).sum := by
      rw [← sum_append, ← map_append, hheap]
    have hnew : ((pushed.map fun u => Ulog.construct u.capacity).map Ulog.capacity).sum =
        (pushed.map Redo.Ulog.capacity).sum := by
      rw [map_map]
      rfl
    have hsame : s.ulogBaseNbytes +
        ((s.logs ++ pushed.map fun u => Ulog.construct u.capacity).tail.map Ulog.capacity).sum +
        ((s.heap.drop pushed.length).map Redo.Ulog.capacity).sum = s.available := by
      unfold State.available
      rw [hsum, tail_append_of_ne_nil hne, map_append, sum_append, hnew]
      omega
    cases ok' with
    | true =>
      obtain ⟨rfl, rfl⟩ := Prod.mk.inj hs
      exact ⟨hsame, rfl, fun _ => rfl⟩
    | false =>
      obtain ⟨rfl, rfl⟩ := Prod.mk.inj hs
      exact ⟨hsame, rfl, hroom⟩

theorem select_available {realSize : Nat} (hne : s.logs ≠ [])
    (hs : s.select realSize = some (ok, s')) :
    s'.available = s.available ∧ s'.totalLogged = s.totalLogged ∧
      (s.totalLogged + realSize ≤ s.available → ok = true) := by
  unfold State.select at hs
  split at hs
  · generalize hs₁ : s.reserve (s.totalLogged + realSize) = r at hs
    obtain ⟨ok', s₁⟩ := r
    have hreserve := reserve_available hne hs₁
    cases ok' with
    | false =>
      obtain ⟨rfl, rfl⟩ := Prod.mk.inj (Option.some.inj hs)
      exact hreserve
    | true =>
      obtain ⟨u, -, heq⟩ := Option.map_eq_some_iff.mp hs
      obtain ⟨rfl, rfl⟩ := Prod.mk.inj heq
      exact hreserve
  · obtain ⟨rfl, rfl⟩ := Prod.mk.inj (Option.some.inj hs)
    exact ⟨rfl, rfl, fun _ => rfl⟩

/-! ## Choosing the ulog -/

theorem mem_placed {logs : List Ulog} {x : Loc × Ulog} (h : x ∈ placed logs) : x.2 ∈ logs := by
  rw [← map_snd_placed logs]
  exact mem_map_of_mem h

theorem sum_placed (logs : List Ulog) :
    ((placed logs).map fun x => x.2.capacity).sum = (logs.map Ulog.capacity).sum := by
  have hmap : (placed logs).map (fun x => x.2.capacity) =
      ((placed logs).map Prod.snd).map Ulog.capacity := by
    rw [map_map]
    rfl
  rw [hmap, map_snd_placed]

theorem curr_eq {staged : List UInt64} (hlogs : placed s.logs = pre ++ (loc, u) :: post)
    (hat : At s.ctx pre loc u post ess es₁ staged) : s.curr = some pre.length := by
  obtain ⟨i, hi, hloc⟩ := Option.map_eq_some_iff.mp (show s.curr.map Loc.ext =
      some loc from hat.curr)
  rw [(placed_eq_append hlogs).1] at hloc
  rw [hi, Loc.ext.inj hloc]

theorem writing_first {us : List Ulog} (hlogs : s.logs = u :: us)
    (hfresh : Fresh s.ctx (placed s.logs)) :
    Writing { s with curr := some 0, currOffset := 0, currCapacity := u.capacity : State }.ctx
      (placed s.logs) [] [] := by
  have hplaced : placed s.logs = (.ext 0, u) :: us.mapIdx fun i u => (Loc.ext (i + 1), u) := by
    rw [hlogs, placed, mapIdx_cons]
  have hclean := hfresh.clean (.ext 0, u) (by rw [hplaced]; exact mem_cons_self)
  refine ⟨[], .ext 0, u, _, [], [], hplaced, rfl, ?_⟩
  exact {
    full := .nil
    holds := (Nat.zero_div 8).symm
    aligned := rfl
    le := Nat.zero_le _
    head := fun k _ _ hk => hclean k hk
    behind := fun k _ hk => hclean k hk
    clean := fun x hx => hfresh.clean x (by rw [hplaced]; exact mem_cons_of_mem _ hx)
    curr := rfl
    capacity := rfl
    total := hfresh.total }

theorem writing_next {rest : List (Loc × Ulog)} {loc' : Loc} {w : Ulog}
    (hlogs : placed s.logs = pre ++ (loc, u) :: (loc', w) :: rest)
    (hat : At s.ctx pre loc u ((loc', w) :: rest) ess es₁ []) (hfull : s.currOffset = u.capacity) :
    s.logs[pre.length + 1]? = some w ∧
      Writing { s with
          curr := some (pre.length + 1), currOffset := 0, currCapacity := w.capacity : State }.ctx
        (placed s.logs) [] (ess.flatten ++ es₁) := by
  have hsplit : placed s.logs = (pre ++ [(loc, u)]) ++ (loc', w) :: rest := by
    rw [hlogs, append_assoc]
    rfl
  obtain ⟨hloc, hw⟩ := placed_eq_append hsplit
  rw [length_append, length_singleton] at hloc hw
  have hclean := hat.clean _ mem_cons_self
  have hholds : Ulog.Holds u.data 0 es₁ (s.currOffset / 8) := hat.holds
  have htotal : s.totalLogged = (pre.map fun x => x.2.capacity).sum + s.currOffset := hat.total
  refine ⟨hw, pre ++ [(loc, u)], loc', w, rest, ess ++ [es₁], [], hsplit, by simp, ?_⟩
  exact {
    full := rel_append hat.full (.cons (hfull ▸ hholds) .nil)
    holds := (Nat.zero_div 8).symm
    aligned := rfl
    le := Nat.zero_le _
    head := fun k _ _ hk => hclean k hk
    behind := fun k _ hk => hclean k hk
    clean := fun x hx => hat.clean x (mem_cons_of_mem _ hx)
    curr := by rw [hloc]; rfl
    capacity := rfl
    total := by
      rw [map_append, sum_append, map_singleton, sum_singleton, ← hfull]
      exact htotal }

theorem select_holds {realSize : Nat} (h : Holds s es) (hreal : 0 < realSize) :
    (∃ s', s.select realSize = some (false, s') ∧ Holds s' es) ∨
      ∃ s', s.select realSize = some (true, s') ∧ Sized s' ∧
        Writing s'.ctx (placed s'.logs) [] es ∧ 64 ≤ s'.currCapacity := by
  unfold State.select
  by_cases hzero : s.currCapacity = 0
  · rw [if_pos hzero]
    generalize hs₁ : s.reserve (s.totalLogged + realSize) = r
    obtain ⟨ok, s₁⟩ := r
    obtain ⟨h₁, hle, -, hcap, htotal⟩ := reserve_holds h hs₁
    cases ok with
    | false => exact .inl ⟨s₁, rfl, h₁⟩
    | true =>
      refine .inr ?_
      have hroom := (hle rfl).trans h₁.sized.ulogCapacity
      obtain ⟨rest, hrest⟩ := h₁.sized.base
      obtain ⟨u₀, us, hlogs₀, -, -⟩ := map_eq_cons_iff.mp hrest
      rcases h₁.ready with ⟨hfresh, rfl⟩ | ⟨pre, loc, u, post, ess, es₁, hlogs, rfl, hat⟩
      · have hnone : s₁.curr = none := Option.map_eq_none_iff.mp hfresh.curr
        refine ⟨{ s₁ with curr := some 0, currOffset := 0, currCapacity := u₀.capacity }, ?_,
          ⟨h₁.sized.base, h₁.sized.aligned, h₁.sized.ulogCapacity⟩,
          writing_first hlogs₀ hfresh, ?_⟩
        · dsimp only
          rw [hnone, hlogs₀]
          rfl
        · exact (h₁.sized.capacity (u := u₀) (by rw [hlogs₀]; exact mem_cons_self)).1
      · have hcurr := curr_eq hlogs hat
        have hcapacity : s₁.currCapacity = u.capacity - s₁.currOffset := hat.capacity
        have hoffset : s₁.currOffset ≤ u.capacity := hat.le
        have htot : s₁.totalLogged = (pre.map fun x => x.2.capacity).sum + s₁.currOffset :=
          hat.total
        have hfull : s₁.currOffset = u.capacity := by omega
        cases post with
        | nil =>
          -- the chain would be as long as what has been logged
          have hsum := sum_placed s₁.logs
          rw [hlogs, map_append, sum_append, map_singleton, sum_singleton] at hsum
          dsimp only at hsum
          omega
        | cons x rest =>
          obtain ⟨loc', w⟩ := x
          obtain ⟨hw, hwriting⟩ := writing_next hlogs hat hfull
          refine ⟨{ s₁ with
            curr := some (pre.length + 1), currOffset := 0, currCapacity := w.capacity }, ?_,
            ⟨h₁.sized.base, h₁.sized.aligned, h₁.sized.ulogCapacity⟩, hwriting, ?_⟩
          · dsimp only
            rw [hcurr]
            dsimp only
            rw [hw]
            rfl
          · exact (h₁.sized.capacity (mem_of_getElem? hw)).1
  · rw [if_neg hzero]
    refine .inr ⟨s, rfl, h.sized, ?_⟩
    rcases h.ready with ⟨hfresh, -⟩ | hw
    · exact absurd hfresh.capacity hzero
    · refine ⟨hw, ?_⟩
      obtain ⟨pre, loc, u, post, ess, es₁, hlogs, -, hat⟩ := hw
      have hmem : u ∈ s.logs := mem_placed (x := (loc, u)) (by rw [hlogs]; simp)
      have hu := h.sized.capacity hmem
      have haligned : s.currOffset % 64 = 0 := hat.aligned
      have hcapacity : s.currCapacity = u.capacity - s.currOffset := hat.capacity
      omega

/-! ## Creating entries -/

theorem store_store (u : Ulog) (i : Nat) {ws : List UInt64} (h : 8 ≤ ws.length) :
    (u.store (i + 8) (ws.drop 8)).store i (ws.take 8) = u.store i ws := by
  have hdata : ∀ k, ((u.store (i + 8) (ws.drop 8)).store i (ws.take 8)).data k =
      (u.store i ws).data k := by
    intro k
    rw [store_data, store_data, store_data, length_take, length_drop, Nat.min_eq_left h]
    by_cases hfirst : i ≤ k ∧ k < i + 8
    · rw [if_pos hfirst, if_pos (by omega), getD_eq_getElem?_getD,
        getElem?_take_of_lt (by omega), ← getD_eq_getElem?_getD]
    · rw [if_neg hfirst]
      by_cases hrest : i + 8 ≤ k ∧ k < i + ws.length
      · rw [if_pos (by omega), if_pos (by omega), getD_eq_getElem?_getD, getElem?_drop,
          ← getD_eq_getElem?_getD]
        congr 1
        omega
      · rw [if_neg (by omega), if_neg (by omega)]
  exact congrArg (Ulog.mk u.next u.capacity) (funext hdata)

theorem map_capacity_modify (logs : List Ulog) (i j : Nat) (ws : List UInt64) :
    (logs.modify i fun u => u.store j ws).map Ulog.capacity = logs.map Ulog.capacity := by
  apply ext_getElem?
  intro k
  rw [getElem?_map, getElem?_map, getElem?_modify]
  cases logs[k]? with
  | none => rfl
  | some u =>
    by_cases hk : i = k
    · simp [hk, Ulog.store]
    · simp [hk]

theorem create_available {currSize : Nat} {data : List UInt8}
    (hs : s.create dest data currSize = some s') :
    s'.available = s.available ∧ s'.totalLogged = s.totalLogged + (currSize + 63) / 64 * 64 := by
  unfold State.create at hs
  dsimp only at hs
  split at hs
  · obtain ⟨i, -, rfl⟩ := Option.map_eq_some_iff.mp hs
    unfold State.available
    dsimp only
    rw [map_tail, map_capacity_modify, ← map_tail]
    exact ⟨rfl, rfl⟩
  · cases hs

/-- An entry of the data that fits is created, without an underflow or a failing assertion. -/
theorem create_holds {src : List UInt8}
    (hsized : Sized s) (hw : Writing s.ctx (placed s.logs) [] es) (hcap : 64 ≤ s.currCapacity)
    (hdest : dest + src.length < 2 ^ 61) :
    ∃ s', s.create dest (src.take (min (src.length + 24) s.currCapacity - 24))
        (min (src.length + 24) s.currCapacity) = some s' ∧
      Holds s' (es ++ [bufCreate dest (src.take (min (src.length + 24) s.currCapacity - 24))]) := by
  obtain ⟨pre, loc, u, post, ess, es₁, hlogs, rfl, hat⟩ := hw
  have hcurr := curr_eq hlogs hat
  have hmem : u ∈ s.logs := mem_placed (x := (loc, u)) (by rw [hlogs]; simp)
  have hu := hsized.capacity hmem
  have hlen : (entryWords s.ctx ⟨dest, src, false⟩).length =
      (min (src.length + 24) s.currCapacity + 63) / 64 * 8 :=
    @length_entryWords ⟨dest, src, false⟩ s.ctx (by show src.length < _; omega) hcap
  have hfinish := (hat.stage ((entryWords s.ctx ⟨dest, src, false⟩).drop 8)).finish
    (show (Job.mk dest src false).dest + (Job.mk dest src false).bytes.length < _ from hdest)
    hcap hu.2
  rw [store_store _ _ (by rw [hlen]; omega), hlen] at hfinish
  have hdata : (src.take (min (src.length + 24) s.currCapacity - 24)).length =
      min (src.length + 24) s.currCapacity - 24 := by
    rw [length_take]
    omega
  have haligned : s.currOffset % 64 = 0 := hat.aligned
  have hcapacity : s.currCapacity = u.capacity - s.currOffset := hat.capacity
  have hguard : (min (src.length + 24) s.currCapacity + 63) / 64 * 64 = cachelineAlign
        (24 + (src.take (min (src.length + 24) s.currCapacity - 24)).length) ∧
      (min (src.length + 24) s.currCapacity + 63) / 64 * 64 ≤ s.currCapacity := by
    rw [hdata, cachelineAlign_eq (by omega)]
    omega
  unfold State.create
  dsimp only
  rw [if_pos hguard]
  have hbytes : (min (src.length + 24) s.currCapacity + 63) / 64 * 8 * 8 =
      (min (src.length + 24) s.currCapacity + 63) / 64 * 64 := by omega
  rw [hbytes] at hfinish
  refine ⟨_, Option.map_eq_some_iff.mpr ⟨_, hcurr, rfl⟩, ⟨?_, ?_, ?_⟩, ?_⟩
  · rw [map_capacity_modify]
    exact hsized.base
  · rw [map_capacity_modify]
    exact hsized.aligned
  · rw [map_capacity_modify]
    exact hsized.ulogCapacity
  · exact .inr ⟨pre, loc, _, post, ess, _, placed_modify hlogs _, append_assoc _ _ _, hfinish⟩

/-! ## Buffers -/

theorem Holds.logs_ne_nil (h : Holds s es) : s.logs ≠ [] := by
  obtain ⟨rest, hrest⟩ := h.sized.base
  exact fun hnil => by simp [hnil] at hrest

/-- A call does not get stuck. The entries that it adds hold the buffer when it succeeds, and a
first part of the buffer when the log cannot be extended. It succeeds where there is room. -/
theorem operationAddBuffer_holds {fuel : Nat} {src : List UInt8} (h : Holds s es)
    (hsrc : src ≠ []) (hdest : dest + src.length < 2 ^ 61) (hfuel : src.length ≤ fuel) :
    ∃ ok s' new k, operationAddBuffer fuel dest src s = some (ok, s') ∧ Holds s' (es ++ new) ∧
      pieces new = rangeBytes dest (src.take k) ∧ (ok = true → k = src.length) ∧
      ∀ n, s.Room (src.length + n) → ok = true ∧ s'.Room n := by
  induction fuel generalizing dest src s es with
  | zero => exact absurd (eq_nil_of_length_eq_zero (Nat.le_zero.mp hfuel)) hsrc
  | succ fuel ih =>
    rw [operationAddBuffer]
    rcases select_holds h (show 0 < src.length + 24 by omega) with
      ⟨s₁, hs₁, h₁⟩ | ⟨s₁, hs₁, hsized, hw, hcap⟩
    · dsimp only
      rw [hs₁]
      have hselect := select_available h.logs_ne_nil hs₁
      refine ⟨false, s₁, [], 0, rfl, by rwa [append_nil], rfl, nofun, fun n hroom => ?_⟩
      have hpos := length_pos_iff.mpr hsrc
      unfold State.Room at hroom
      exact absurd (hselect.2.2 (by omega)) nofun
    · obtain ⟨s₂, hs₂, h₂⟩ := create_holds hsized hw hcap hdest
      obtain ⟨havail₁, htotal₁, -⟩ := select_available h.logs_ne_nil hs₁
      obtain ⟨havail₂, htotal₂⟩ := create_available hs₂
      have hpos := length_pos_iff.mpr hsrc
      dsimp only
      rw [hs₁]
      dsimp only
      rw [if_neg (by omega), hs₂]
      dsimp only
      rw [if_neg (by omega)]
      have htake : (src.take (min (src.length + 24) s₁.currCapacity - 24)).length =
          min (src.length + 24) s₁.currCapacity - 24 := by
        rw [length_take]
        omega
      have hpiece := @piece_bufCreate dest
        (src.take (min (src.length + 24) s₁.currCapacity - 24)) (by omega)
      generalize hn : min (src.length + 24) s₁.currCapacity - 24 = n at *
      have hroom : ∀ m, s.Room (n + m) → s₂.Room m := by
        unfold State.Room
        omega
      by_cases hend : src.length - n = 0
      · rw [if_pos hend]
        refine ⟨true, s₂, _, src.length, rfl, h₂, ?_, fun _ => rfl, fun m hm => ⟨rfl, ?_⟩⟩
        · rw [pieces, flatMap_singleton, hpiece, take_of_length_le (by omega), take_length]
        · exact hroom m (by rwa [show n = src.length by omega])
      · rw [if_neg hend]
        have hrest : (src.drop n).length = src.length - n := length_drop
        have hdest' : dest + n + (src.drop n).length < 2 ^ 61 := by omega
        obtain ⟨ok, s', new, k, hcall, hs', hpieces, hok, hsucceeds⟩ :=
          ih h₂ (ne_nil_of_length_pos (by omega)) hdest' (by omega)
        refine ⟨ok, s', bufCreate dest (src.take n) :: new, n + k, hcall, ?_, ?_, fun hdone => ?_,
          fun m hm => hsucceeds m (hroom _ ?_)⟩
        · rw [append_cons]
          exact hs'
        · rw [pieces, flatMap_cons, hpiece, take_add, rangeBytes_append, htake]
          exact congrArg _ hpieces
        · have := hok hdone
          omega
        · rwa [hrest, ← Nat.add_assoc, Nat.add_sub_cancel' (by omega)]

def requested (cs : List Call) : List (Nat × UInt8) :=
  cs.flatMap fun c => rangeBytes c.dest c.src

theorem addBuffers_holds {cs : List Call} (h : Holds s es)
    (hcs : ∀ c ∈ cs, c.src ≠ [] ∧ c.dest + c.src.length < 2 ^ 61) :
    ∃ ok s' new, addBuffers cs s = some (ok, s') ∧ Holds s' (es ++ new) ∧
      pieces new <+: requested cs ∧ (ok = true → pieces new = requested cs) ∧
      (s.Room (cs.map fun c => c.src.length).sum → ok = true) := by
  induction cs generalizing s es with
  | nil =>
    exact ⟨true, s, [], rfl, by rwa [append_nil], prefix_refl _, fun _ => rfl, fun _ => rfl⟩
  | cons c cs ih =>
    rw [forall_mem_cons] at hcs
    obtain ⟨ok, s₁, new₁, k, hcall, h₁, hpieces, hok, hroom⟩ :=
      operationAddBuffer_holds h hcs.1.1 hcs.1.2 (Nat.le_refl _)
    rw [addBuffers, hcall, map_cons, sum_cons]
    have hpart : rangeBytes c.dest (c.src.take k) <+: rangeBytes c.dest c.src := by
      refine ⟨rangeBytes (c.dest + (c.src.take k).length) (c.src.drop k), ?_⟩
      rw [← rangeBytes_append, take_append_drop]
    cases ok with
    | false =>
      refine ⟨false, s₁, new₁, rfl, h₁, ?_, nofun, fun h => (hroom _ h).1⟩
      rw [hpieces]
      exact hpart.trans (prefix_append _ _)
    | true =>
      rw [hok rfl, take_length] at hpieces
      obtain ⟨ok, s', new, hcalls, hs', hpre, hall, hrest⟩ := ih h₁ hcs.2
      refine ⟨ok, s', new₁ ++ new, hcalls, by rwa [← append_assoc], ?_, fun hdone => ?_,
        fun h => hrest (hroom _ h).2⟩
      · rw [pieces, flatMap_append]
        change pieces new₁ ++ pieces new <+: rangeBytes c.dest c.src ++ requested cs
        rw [hpieces]
        exact prefix_append_right_inj _ |>.mpr hpre
      · rw [pieces, flatMap_append]
        change pieces new₁ ++ pieces new = rangeBytes c.dest c.src ++ requested cs
        rw [hpieces, hall hdone]

/-! ## Reading the log -/

theorem foreachEntry_eq {logs : List Ulog} (h : Logged logs es) : foreachEntry logs = some es := by
  induction logs generalizing es with
  | nil =>
    obtain rfl : es = [] := h
    rfl
  | cons u us ih =>
    rw [foreachEntry]
    rcases h with ⟨es₁, es₂, rfl, hfull, hmod, hrest⟩ | ⟨j, hes, hlt, hzero⟩
    · rw [hfull.entries_eq (by omega) (by omega), decide_eq_true (by omega)]
      dsimp only
      rw [ih hrest, Option.map_some]
    · rw [hes.entries_eq (by omega) fun _ => hzero, decide_eq_false (by omega)]

theorem Holds.foreachEntry (h : Holds s es) : foreachEntry s.logs = some es := by
  have hcap : ∀ x ∈ placed s.logs, 64 ≤ x.2.capacity ∧ x.2.capacity % 64 = 0 :=
    fun x hx => h.sized.capacity (mem_placed hx)
  apply foreachEntry_eq
  rw [← map_snd_placed s.logs]
  rcases h.ready with ⟨hfresh, rfl⟩ | ⟨pre, loc, u, post, ess, es₁, hlogs, rfl, hat⟩
  · refine logged_of_allClean hfresh.clean fun x hx => ?_
    have := hcap x hx
    omega
  · rw [hlogs] at hcap ⊢
    exact hat.logged hcap

/-- Let a log hold the entries `es`. After any sequence of calls, none of which gets stuck, the
loop over the log finds further entries behind them, which hold exactly the buffers of the calls
in order; if a call fails because the log cannot be extended, a first part of them. -/
theorem addBuffers_foreach {cs : List Call} {s : State} {es : List (List UInt64)}
    (h : Holds s es) (hcs : ∀ c ∈ cs, c.src ≠ [] ∧ c.dest + c.src.length < 2 ^ 61) :
    ∃ ok s' new, addBuffers cs s = some (ok, s') ∧ foreachEntry s'.logs = some (es ++ new) ∧
      pieces new <+: requested cs ∧ (ok = true → pieces new = requested cs) := by
  obtain ⟨ok, s', new, hcalls, hs', hpart, hall, -⟩ := addBuffers_holds h hcs
  exact ⟨ok, s', new, hcalls, hs'.foreachEntry, hpart, hall⟩

/-- No call fails where the lane can be extended far enough. -/
theorem addBuffers_of_room {cs : List Call} (h : Holds s es)
    (hcs : ∀ c ∈ cs, c.src ≠ [] ∧ c.dest + c.src.length < 2 ^ 61)
    (hroom : s.Room (cs.map fun c => c.src.length).sum) :
    ∃ s' new, addBuffers cs s = some (true, s') ∧ foreachEntry s'.logs = some (es ++ new) ∧
      pieces new = requested cs := by
  obtain ⟨ok, s', new, hcalls, hs', -, hall, hok⟩ := addBuffers_holds h hcs
  rw [hok hroom] at hcalls
  exact ⟨s', new, hcalls, hs'.foreachEntry, hall (hok hroom)⟩

theorem extension_pos : 0 < 128 := by decide

/-- A chain of one cacheline, after `operation_start`, that can be extended once. -/
def small : State where
  logs := [Ulog.construct 64]
  heap := [⟨128, extension_pos, by decide⟩]
  ulogBaseNbytes := 64
  ulogCapacity := 64
  curr := none
  currOffset := 0
  currCapacity := 0
  totalLogged := 0

theorem holds_small : Holds small [] where
  sized :=
    { base := ⟨[], rfl⟩
      aligned := by decide
      ulogCapacity := Nat.le_refl _ }
  ready := .inl ⟨⟨rfl, rfl, rfl, fun x hx => by
    rw [mem_singleton.mp hx]
    exact fun _ _ => rfl⟩, rfl⟩

/-- A buffer of 100 bytes is split into 40 and 60. -/
theorem addBuffers_foreach_split :
    ∃ s' new, addBuffers [⟨4096, List.replicate 100 7⟩] small = some (true, s') ∧
      foreachEntry s'.logs = some new ∧
      pieces new = requested [⟨4096, List.replicate 100 7⟩] := by
  obtain ⟨ok, s', new, hcalls, hentries, -, hall⟩ :=
    @addBuffers_foreach [⟨4096, List.replicate 100 7⟩] _ _ holds_small (by decide)
  have hok : (addBuffers [⟨4096, List.replicate 100 7⟩] small).map Prod.fst = some true := by
    decide +kernel
  rw [hcalls, Option.map_some, Option.some.injEq] at hok
  dsimp only at hok
  subst hok
  exact ⟨s', new, hcalls, hentries, hall rfl⟩

end Pmdk.AddBuffer
