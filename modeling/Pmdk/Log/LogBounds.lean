import Mathlib.Algebra.Order.Ring.Nat
import Mathlib.Data.List.Basic

/-!
# The bounds of the log

`pmemlog_appendv` adds up the lengths of its buffers in 64 bits before it compares them with the
free space, and `pmemlog_walk` adds the chunk size to its offset before it compares that with the
write offset.
-/

namespace Pmdk.LogBounds

open List

structure Pool where
  startOffset : UInt64
  writeOffset : UInt64
  endOffset : UInt64
  rdonly : Bool
  deriving DecidableEq

structure Pool.Ordered (p : Pool) : Prop where
  start_le : p.startOffset.toNat ≤ p.writeOffset.toNat
  write_le : p.writeOffset.toNat ≤ p.endOffset.toNat

structure Piece where
  off : Nat
  len : Nat
  deriving DecidableEq

def Piece.Touches (w : Piece) (x : Nat) : Prop := ∃ k < w.len, x = (w.off + k) % 2 ^ 64

/-! ## Appending -/

/-- What `pmemlog_appendv` returns, the copies that it makes, and the write offset. -/
structure Appended where
  ret : Int
  writes : List Piece
  writeOffset : UInt64
  deriving DecidableEq

def appendLoop : UInt64 → List UInt64 → List Piece × UInt64
  | off, [] => ([], off)
  | off, count :: iov =>
    let r := appendLoop (off + count) iov
    (⟨off.toNat, count.toNat⟩ :: r.1, r.2)

def pmemlogAppendv (p : Pool) (iovcnt : Int) (iov : List UInt64) : Appended :=
  if iovcnt < 0 then ⟨-1, [], p.writeOffset⟩
  else if p.rdonly then ⟨-1, [], p.writeOffset⟩
  else if p.writeOffset ≥ p.endOffset then ⟨-1, [], p.writeOffset⟩
  else
    let iov := iov.take iovcnt.toNat
    let count := iov.foldl (· + ·) 0
    if count > p.endOffset - p.writeOffset then ⟨-1, [], p.writeOffset⟩
    else
      let r := appendLoop p.writeOffset iov
      ⟨0, r.1, r.2⟩

def AppendsInside (p : Pool) (iovcnt : Int) (iov : List UInt64) : Prop :=
  let r := pmemlogAppendv p iovcnt iov
  (∀ w ∈ r.writes, ∀ x, w.Touches x → p.writeOffset.toNat ≤ x ∧ x < p.endOffset.toNat) ∧
    r.writeOffset.toNat ≤ p.endOffset.toNat

def total (iov : List UInt64) : Nat := (iov.map UInt64.toNat).sum

/-- Nothing can be appended, or the lengths add up in 64 bits, or what is left of their sum is
still more than the free space. -/
def AddsUp (p : Pool) (iovcnt : Int) (iov : List UInt64) : Prop :=
  iovcnt < 0 ∨ p.rdonly = true ∨ p.writeOffset = p.endOffset ∨
    total (iov.take iovcnt.toNat) < 2 ^ 64 ∨
    p.endOffset.toNat - p.writeOffset.toNat < total (iov.take iovcnt.toNat) % 2 ^ 64

theorem toNat_foldl (iov : List UInt64) (count : UInt64) :
    (iov.foldl (· + ·) count).toNat = (count.toNat + total iov) % 2 ^ 64 := by
  induction iov generalizing count with
  | nil => simp [total, Nat.mod_eq_of_lt count.toNat_lt]
  | cons len iov ih =>
    have htotal : total (len :: iov) = len.toNat + total iov := rfl
    rw [foldl_cons, ih, htotal, UInt64.toNat_add, Nat.mod_add_mod, Nat.add_assoc]

theorem touches_appendLoop (off : UInt64) (iov : List UInt64) (x : Nat) :
    (∃ w ∈ (appendLoop off iov).1, w.Touches x) ↔
      ∃ k < total iov, x = (off.toNat + k) % 2 ^ 64 := by
  induction iov generalizing off with
  | nil => simp [appendLoop, total]
  | cons count iov ih =>
    have htotal : total (count :: iov) = count.toNat + total iov := rfl
    have hnext : ∀ k, ((off + count).toNat + k) % 2 ^ 64 =
        (off.toNat + (count.toNat + k)) % 2 ^ 64 := by
      intro k
      rw [UInt64.toNat_add, Nat.mod_add_mod, Nat.add_assoc]
    unfold appendLoop
    dsimp only
    rw [exists_mem_cons_iff, ih, htotal]
    constructor
    · rintro (⟨k, hk, hx⟩ | ⟨k, hk, hx⟩)
      · exact ⟨k, Nat.lt_add_right _ hk, hx⟩
      · exact ⟨count.toNat + k, Nat.add_lt_add_left hk _, hx.trans (hnext k)⟩
    · rintro ⟨k, hk, hx⟩
      by_cases hlt : k < count.toNat
      · exact .inl ⟨k, hlt, hx⟩
      · obtain ⟨j, rfl⟩ := Nat.exists_eq_add_of_le (Nat.le_of_not_lt hlt)
        exact .inr ⟨j, Nat.lt_of_add_lt_add_left hk, hx.trans (hnext j).symm⟩

theorem toNat_appendLoop (off : UInt64) (iov : List UInt64) :
    (appendLoop off iov).2.toNat = (off.toNat + total iov) % 2 ^ 64 := by
  induction iov generalizing off with
  | nil => simp [appendLoop, total, Nat.mod_eq_of_lt off.toNat_lt]
  | cons count iov ih =>
    have htotal : total (count :: iov) = count.toNat + total iov := rfl
    unfold appendLoop
    dsimp only
    rw [ih, htotal, UInt64.toNat_add, Nat.mod_add_mod, Nat.add_assoc]

variable {p : Pool} {iovcnt : Int} {iov : List UInt64}

/-- The loop stays in the free space if and only if there is room for all bytes. -/
theorem appendLoop_inside_iff (hlt : p.writeOffset.toNat < p.endOffset.toNat) (iov : List UInt64) :
    ((∀ w ∈ (appendLoop p.writeOffset iov).1, ∀ x, w.Touches x →
        p.writeOffset.toNat ≤ x ∧ x < p.endOffset.toNat) ∧
      (appendLoop p.writeOffset iov).2.toNat ≤ p.endOffset.toNat) ↔
        p.writeOffset.toNat + total iov ≤ p.endOffset.toNat := by
  have hend := p.endOffset.toNat_lt
  have htouches := touches_appendLoop p.writeOffset iov
  constructor
  · rintro ⟨hinside, -⟩
    by_contra hroom
    -- the byte behind the free space
    obtain ⟨w, hw, hx⟩ := (htouches p.endOffset.toNat).mpr
      ⟨p.endOffset.toNat - p.writeOffset.toNat, by omega, by
        rw [Nat.add_sub_cancel' (Nat.le_of_lt hlt), Nat.mod_eq_of_lt hend]⟩
    exact Nat.lt_irrefl _ (hinside w hw _ hx).2
  · intro hroom
    refine ⟨fun w hw x hx => ?_, ?_⟩
    · obtain ⟨k, hk, rfl⟩ := (htouches x).mp ⟨w, hw, hx⟩
      rw [Nat.mod_eq_of_lt (by omega)]
      omega
    · rw [toNat_appendLoop, Nat.mod_eq_of_lt (by omega)]
      exact hroom

theorem appendsInside_iff (hp : p.Ordered) : AppendsInside p iovcnt iov ↔ AddsUp p iovcnt iov := by
  have hwrite := hp.write_le
  have hkeep : (∀ w ∈ ([] : List Piece), ∀ x, w.Touches x →
      p.writeOffset.toNat ≤ x ∧ x < p.endOffset.toNat) ∧
        p.writeOffset.toNat ≤ p.endOffset.toNat :=
    ⟨fun w hw => absurd hw not_mem_nil, hwrite⟩
  unfold AppendsInside AddsUp pmemlogAppendv
  dsimp only
  by_cases hneg : iovcnt < 0
  · rw [if_pos hneg]
    exact iff_of_true hkeep (.inl hneg)
  · rw [if_neg hneg]
    by_cases hrdonly : p.rdonly = true
    · rw [if_pos hrdonly]
      exact iff_of_true hkeep (.inr (.inl hrdonly))
    · rw [if_neg hrdonly]
      generalize iov.take iovcnt.toNat = iov
      by_cases hfull : p.writeOffset ≥ p.endOffset
      · rw [if_pos hfull]
        have heq : p.writeOffset = p.endOffset :=
          UInt64.toNat_inj.mp (Nat.le_antisymm hwrite (UInt64.le_iff_toNat_le.mp hfull))
        exact iff_of_true hkeep (.inr (.inr (.inl heq)))
      · rw [if_neg hfull]
        have hlt : p.writeOffset.toNat < p.endOffset.toNat :=
          UInt64.lt_iff_toNat_lt.mp (UInt64.not_le.mp hfull)
        have hne : p.writeOffset ≠ p.endOffset := by
          intro heq
          rw [heq] at hlt
          exact Nat.lt_irrefl _ hlt
        have hcount : iov.foldl (· + ·) 0 > p.endOffset - p.writeOffset ↔
            p.endOffset.toNat - p.writeOffset.toNat < total iov % 2 ^ 64 := by
          rw [gt_iff_lt, UInt64.lt_iff_toNat_lt, toNat_foldl,
            UInt64.toNat_sub_of_le _ _ (UInt64.le_iff_toNat_le.mpr hwrite), UInt64.toNat_zero,
            Nat.zero_add]
        simp only [hneg, hrdonly, hne, Bool.false_eq_true, false_or]
        by_cases hmore : iov.foldl (· + ·) 0 > p.endOffset - p.writeOffset
        · rw [if_pos hmore]
          exact iff_of_true hkeep (.inr (hcount.mp hmore))
        · rw [if_neg hmore]
          rw [hcount] at hmore
          rw [appendLoop_inside_iff hlt]
          have hend := p.endOffset.toNat_lt
          omega

/-! ## Walking -/

/-- The loop of `pmemlog_walk`, for a callback that always goes on. -/
def walkLoop (chunksize writeOffset : UInt64) : Nat → UInt64 → Option (List Piece)
  | 0, _ => none
  | fuel + 1, off =>
    if off < writeOffset then
      let len := if chunksize < writeOffset - off then chunksize else writeOffset - off
      (walkLoop chunksize writeOffset fuel (off + chunksize)).map
        (⟨off.toNat, len.toNat⟩ :: ·)
    else some []

def pmemlogWalk (fuel : Nat) (p : Pool) (chunksize : UInt64) : Option (List Piece) :=
  if chunksize = 0 then some [⟨p.startOffset.toNat, (p.writeOffset - p.startOffset).toNat⟩]
  else walkLoop chunksize p.writeOffset fuel p.startOffset

def numChunks (chunksize len : Nat) : Nat := (len + chunksize - 1) / chunksize

def chunksFrom (chunksize stop off n : Nat) : List Piece :=
  (List.range n).map fun k => ⟨off + k * chunksize, min chunksize (stop - (off + k * chunksize))⟩

def chunks (chunksize start stop : Nat) : List Piece :=
  if chunksize = 0 then [⟨start, stop - start⟩]
  else chunksFrom chunksize stop start (numChunks chunksize (stop - start))

def WalksData (p : Pool) (chunksize : UInt64) : Prop :=
  ∃ fuel, pmemlogWalk fuel p chunksize =
    some (chunks chunksize.toNat p.startOffset.toNat p.writeOffset.toNat)

def StepsFit (p : Pool) (chunksize : UInt64) : Prop :=
  p.startOffset.toNat + numChunks chunksize.toNat (p.writeOffset.toNat - p.startOffset.toNat) *
    chunksize.toNat < 2 ^ 64

variable {chunksize writeOffset : UInt64}

theorem chunksFrom_succ (chunksize stop off n : Nat) : chunksFrom chunksize stop off (n + 1) =
    ⟨off, min chunksize (stop - off)⟩ :: chunksFrom chunksize stop (off + chunksize) n := by
  unfold chunksFrom
  rw [range_succ_eq_map, map_cons, map_map, Nat.zero_mul, Nat.add_zero]
  congr 1
  refine map_congr_left fun k _ => ?_
  have hoff : off + (k + 1) * chunksize = off + chunksize + k * chunksize := by
    rw [Nat.add_one_mul]
    omega
  rw [Function.comp_apply, Nat.succ_eq_add_one, hoff]

theorem toNat_len {off : UInt64} (hlt : off.toNat < writeOffset.toNat) :
    (if chunksize < writeOffset - off then chunksize else writeOffset - off).toNat =
      min chunksize.toNat (writeOffset.toNat - off.toNat) := by
  have hsub : (writeOffset - off).toNat = writeOffset.toNat - off.toNat :=
    UInt64.toNat_sub_of_le _ _ (UInt64.le_iff_toNat_le.mpr (Nat.le_of_lt hlt))
  split
  · rename_i hless
    rw [UInt64.lt_iff_toNat_lt, hsub] at hless
    omega
  · rename_i hless
    rw [UInt64.lt_iff_toNat_lt, hsub] at hless
    rw [hsub]
    omega

theorem walkLoop_steps {n o : Nat} (fuel : Nat) {off : UInt64} (ho : off.toNat = o % 2 ^ 64)
    (hlt : ∀ k < n, o + k * chunksize.toNat < writeOffset.toNat) :
    ∃ next : UInt64, next.toNat = (o + n * chunksize.toNat) % 2 ^ 64 ∧
      walkLoop chunksize writeOffset (n + fuel) off = (walkLoop chunksize writeOffset fuel next).map
        (chunksFrom chunksize.toNat writeOffset.toNat o n ++ ·) := by
  induction n generalizing off o with
  | zero =>
    refine ⟨off, by rw [Nat.zero_mul, Nat.add_zero, ho], ?_⟩
    rw [Nat.zero_add]
    cases walkLoop chunksize writeOffset fuel off <;> rfl
  | succ n ih =>
    have hfirst := hlt 0 (Nat.succ_pos n)
    rw [Nat.zero_mul, Nat.add_zero] at hfirst
    rw [Nat.mod_eq_of_lt (Nat.lt_trans hfirst writeOffset.toNat_lt)] at ho
    obtain ⟨next, hnext, hwalk⟩ := @ih (o + chunksize.toNat) (off + chunksize)
      (by rw [UInt64.toNat_add, ho]) (fun k hk => by
        have hstep := hlt (k + 1) (Nat.succ_lt_succ hk)
        rw [Nat.add_one_mul] at hstep
        omega)
    refine ⟨next, ?_, ?_⟩
    · rw [hnext, Nat.add_one_mul]
      congr 1
      omega
    · have hbefore : off < writeOffset := by
        rw [UInt64.lt_iff_toNat_lt, ho]
        exact hfirst
      rw [Nat.succ_add, walkLoop, if_pos hbefore]
      dsimp only
      rw [hwalk, Option.map_map, chunksFrom_succ, toNat_len (by rw [ho]; exact hfirst), ho]
      rfl

theorem walkLoop_mono {fuel : Nat} {off : UInt64} {l : List Piece}
    (h : walkLoop chunksize writeOffset fuel off = some l) (more : Nat) :
    walkLoop chunksize writeOffset (fuel + more) off = some l := by
  induction fuel generalizing off l with
  | zero => cases h
  | succ fuel ih =>
    rw [Nat.succ_add]
    unfold walkLoop at h ⊢
    split
    · rename_i hlt
      rw [if_pos hlt] at h
      obtain ⟨rest, hrest, rfl⟩ := Option.map_eq_some_iff.mp h
      rw [ih hrest]
      rfl
    · rename_i hlt
      rw [if_neg hlt] at h
      exact h

theorem numChunks_spec {c len : Nat} (hc : 0 < c) :
    (∀ k < numChunks c len, k * c < len) ∧ len ≤ numChunks c len * c := by
  unfold numChunks
  have hdiv := Nat.div_add_mod (len + c - 1) c
  have hmod := Nat.mod_lt (len + c - 1) hc
  rw [Nat.mul_comm] at hdiv
  refine ⟨fun k hk => ?_, by omega⟩
  have hmul : (k + 1) * c ≤ (len + c - 1) / c * c := Nat.mul_le_mul_right c hk
  rw [Nat.add_one_mul] at hmul
  omega

theorem walkLoop_eq_nil {fuel : Nat} {off : UInt64}
    (h : walkLoop chunksize writeOffset fuel off = some []) : writeOffset ≤ off := by
  cases fuel with
  | zero => cases h
  | succ fuel =>
    unfold walkLoop at h
    by_contra hlt
    rw [if_pos (UInt64.not_le.mp hlt)] at h
    obtain ⟨rest, -, hcons⟩ := Option.map_eq_some_iff.mp h
    cases hcons

theorem walksData_iff (hp : p.Ordered) : WalksData p chunksize ↔ StepsFit p chunksize := by
  have hstart := hp.start_le
  have hwrite := p.writeOffset.toNat_lt
  unfold WalksData StepsFit pmemlogWalk chunks
  by_cases hzero : chunksize = 0
  · subst hzero
    have hsub : (p.writeOffset - p.startOffset).toNat = p.writeOffset.toNat - p.startOffset.toNat :=
      UInt64.toNat_sub_of_le _ _ (UInt64.le_iff_toNat_le.mpr hstart)
    refine iff_of_true ⟨0, ?_⟩ ?_
    · rw [if_pos rfl, if_pos UInt64.toNat_zero, hsub]
    · rw [UInt64.toNat_zero, Nat.mul_zero, Nat.add_zero]
      exact p.startOffset.toNat_lt
  · have hpos : 0 < chunksize.toNat :=
      Nat.pos_of_ne_zero fun h => hzero (UInt64.toNat_inj.mp h)
    simp only [if_neg hzero, if_neg (Nat.ne_of_gt hpos)]
    obtain ⟨hbegin, hreach⟩ :=
      @numChunks_spec chunksize.toNat (p.writeOffset.toNat - p.startOffset.toNat) hpos
    generalize hn : numChunks chunksize.toNat (p.writeOffset.toNat - p.startOffset.toNat) = n
      at hbegin hreach ⊢
    have hlt : ∀ k < n, p.startOffset.toNat + k * chunksize.toNat < p.writeOffset.toNat := by
      intro k hk
      have hk := hbegin k hk
      omega
    have hsteps := fun fuel => @walkLoop_steps chunksize p.writeOffset n p.startOffset.toNat fuel
      p.startOffset (Nat.mod_eq_of_lt p.startOffset.toNat_lt).symm hlt
    constructor
    · rintro ⟨fuel, hwalk⟩
      obtain ⟨next, hnext, hrest⟩ := hsteps fuel
      rw [Nat.add_comm, walkLoop_mono hwalk] at hrest
      obtain ⟨rest, hrest, happend⟩ := Option.map_eq_some_iff.mp hrest.symm
      rw [append_right_eq_self.mp happend] at hrest
      have hbehind := UInt64.le_iff_toNat_le.mp (walkLoop_eq_nil hrest)
      by_contra hwrap
      -- the last step wraps around, and the loop goes on before the write offset
      cases n with
      | zero => exact hwrap (by rw [Nat.zero_mul]; exact p.startOffset.toNat_lt)
      | succ n =>
        have hlast := hlt n (Nat.lt_succ_self n)
        have hc := chunksize.toNat_lt
        rw [Nat.add_one_mul] at hnext hwrap
        omega
    · intro hfit
      obtain ⟨next, hnext, hwalk⟩ := hsteps 1
      refine ⟨n + 1, ?_⟩
      rw [Nat.mod_eq_of_lt hfit] at hnext
      have hbehind : ¬ next < p.writeOffset := by
        rw [UInt64.lt_iff_toNat_lt, hnext]
        omega
      rw [hwalk, walkLoop, if_neg hbehind, Option.map_some, append_nil]

/-! ## Both -/

/-- Appending and walking stay inside of the data of a pool if and only if neither the sum of
the lengths nor the last step wraps around. -/
theorem log_inside_iff (hp : p.Ordered) (iovcnt : Int) (iov : List UInt64) (chunksize : UInt64) :
    AppendsInside p iovcnt iov ∧ WalksData p chunksize ↔
      AddsUp p iovcnt iov ∧ StepsFit p chunksize := by
  rw [appendsInside_iff hp, walksData_iff hp]

def halfFull : Pool := ⟨8192, 8208, 8224, false⟩

theorem halfFull_ordered : halfFull.Ordered := ⟨by decide, by decide⟩

theorem log_inside_halfFull : AppendsInside halfFull 2 [10, 6] ∧ WalksData halfFull 5 :=
  (log_inside_iff halfFull_ordered 2 [10, 6] 5).mpr
    ⟨.inr (.inr (.inr (.inl (by decide)))), by unfold StepsFit; decide⟩

/-- Two lengths whose sum wraps around pass the check, and a chunk size whose second step does so
brings the walk back to where the data has not begun. -/
theorem not_log_inside :
    halfFull.Ordered ∧ (pmemlogAppendv halfFull 2 [18446744073709551615, 2]).ret = 0 ∧
      ¬ AppendsInside halfFull 2 [18446744073709551615, 2] ∧
        ¬ WalksData halfFull 18446744073709551615 := by
  refine ⟨halfFull_ordered, by decide +kernel, ?_, ?_⟩
  · rw [appendsInside_iff halfFull_ordered]
    unfold AddsUp
    decide +kernel
  · rw [walksData_iff halfFull_ordered]
    unfold StepsFit
    decide +kernel

end Pmdk.LogBounds
