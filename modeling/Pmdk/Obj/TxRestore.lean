import Pmdk.Lib.Span
import Pmdk.Obj.Tx
import Pmdk.Obj.TxRange

/-!
# Restoring a range of the undo log around the locks

`tx_restore_range` copies the data of an entry back, except for the bytes of the locks that the
transaction holds. It starts with a list of one range and takes out one lock after the other. The
assertion after the loop expects that something is left, so that the locks must not cover the whole
range.
-/

namespace Pmdk.TxRestore

open TxRange (Entry)
open List

/-- `sizeof(PMEMmutex)` and `sizeof(PMEMrwlock)`. -/
def POBJ_CL_SIZE : Nat := 64

/-- The loop of `tx_remove_range`. `before` is the part of the list in front of `txr`, and new
ranges are put in front of it. -/
def removeRangeLoop (b e : Nat) : List Span → List Span → List Span
  | before, [] => before
  | before, txr :: next =>
    if b ≥ txr.hi ∨ e < txr.lo then removeRangeLoop b e (before ++ [txr]) next
    else
      let before := if b > txr.lo then ⟨txr.lo, b⟩ :: before else before
      let before := if e < txr.hi then ⟨e, txr.hi⟩ :: before else before
      removeRangeLoop b e before next

def txRemoveRange (txRanges : List Span) (b e : Nat) : List Span := removeRangeLoop b e [] txRanges

/-- A `memcpy` to persistent memory. -/
structure Copy where
  addr : Nat
  data : List UInt8
  deriving DecidableEq

def Copy.assigns (c : Copy) : List (Nat × UInt8) :=
  (List.range' c.addr c.data.length).zip c.data

/-- The last loop of `tx_restore_range`. A failed assertion is `none`. -/
def restoreLoop (dstPtr : Nat) (data : List UInt8) : List Span → Option (List Copy)
  | [] => some []
  | txr :: txRanges =>
    if txr.lo < dstPtr then none
    else if txr.hi < txr.lo then none
    else
      (restoreLoop dstPtr data txRanges).map
        (⟨txr.lo, (data.drop (txr.lo - dstPtr)).take (txr.hi - txr.lo)⟩ :: ·)

def txRestoreRange (pop : Nat) (txLocks : List Tx.Lock) (range : Entry) : Option (List Copy) :=
  let dstPtr := pop + range.offset
  let txRanges := txLocks.foldl
    (fun txRanges txl => txRemoveRange txRanges txl.addr (txl.addr + POBJ_CL_SIZE))
    [⟨dstPtr, dstPtr + range.data.length⟩]
  if txRanges = [] then none else restoreLoop dstPtr range.data txRanges

/-! ## The ranges that are left -/

theorem removeRangeLoop_perm (b e : Nat) (before txRanges : List Span) :
    (removeRangeLoop b e before txRanges).Perm (before ++ txRanges.flatMap (Span.cut b e)) := by
  induction txRanges generalizing before with
  | nil => rw [removeRangeLoop, flatMap_nil, append_nil]
  | cons txr next ih =>
    rw [removeRangeLoop, flatMap_cons]
    by_cases happart : b ≥ txr.hi ∨ e < txr.lo
    · rw [if_pos happart, Span.cut, if_pos happart]
      refine (ih _).trans ?_
      rw [append_assoc]
    · rw [if_neg happart, Span.cut, if_neg happart]
      refine (ih _).trans ?_
      rw [← append_assoc]
      refine List.Perm.append_right _ ?_
      have hfront : (if e < txr.hi then ⟨e, txr.hi⟩ :: (if b > txr.lo then
          ⟨txr.lo, b⟩ :: before else before) else (if b > txr.lo then
          ⟨txr.lo, b⟩ :: before else before)) = (txr.right e ++ txr.left b) ++ before := by
        unfold Span.right Span.left
        split <;> split <;> rfl
      rw [hfront]
      exact perm_append_comm

theorem txRemoveRange_perm (txRanges : List Span) (b e : Nat) :
    (txRemoveRange txRanges b e).Perm (txRanges.flatMap (Span.cut b e)) :=
  removeRangeLoop_perm b e [] txRanges

def Locked (txLocks : List Tx.Lock) (a : Nat) : Prop :=
  ∃ l ∈ txLocks, l.addr ≤ a ∧ a < l.addr + POBJ_CL_SIZE

instance (txLocks : List Tx.Lock) : DecidablePred (Locked txLocks) := fun _ =>
  inferInstanceAs (Decidable (∃ l ∈ txLocks, _ ∧ _))

def removeLocks (txLocks : List Tx.Lock) (txRanges : List Span) : List Span :=
  txLocks.foldl (fun txRanges txl => txRemoveRange txRanges txl.addr (txl.addr + POBJ_CL_SIZE))
    txRanges

theorem removeLocks_cons (l : Tx.Lock) (txLocks : List Tx.Lock) (txRanges : List Span) :
    removeLocks (l :: txLocks) txRanges =
      removeLocks txLocks (txRemoveRange txRanges l.addr (l.addr + POBJ_CL_SIZE)) := rfl

theorem removeLocks_points (txLocks : List Tx.Lock) (txRanges : List Span) :
    ((removeLocks txLocks txRanges).flatMap Span.points).Perm
      ((txRanges.flatMap Span.points).filter fun a => ¬ Locked txLocks a) := by
  induction txLocks generalizing txRanges with
  | nil =>
    rw [filter_eq_self.mpr fun a _ => by simp [Locked]]
    rfl
  | cons l txLocks ih =>
    have hone : ((txRemoveRange txRanges l.addr (l.addr + POBJ_CL_SIZE)).flatMap
        Span.points).Perm ((txRanges.flatMap Span.points).filter fun a =>
          ¬ (l.addr ≤ a ∧ a < l.addr + POBJ_CL_SIZE)) :=
      ((txRemoveRange_perm txRanges _ _).flatMap_right _).trans
        (Span.cutAll_points (Nat.le_add_right _ _) txRanges)
    rw [removeLocks_cons]
    refine (ih _).trans ((hone.filter _).trans ?_)
    rw [filter_filter]
    refine List.Perm.of_eq (filter_congr fun a _ => ?_)
    simp only [Locked, exists_mem_cons_iff, not_or, Bool.decide_and]
    exact Bool.and_comm _ _

theorem removeLocks_forall {P : Span → Prop}
    (hcut : ∀ b s t, P s → t ∈ s.cut b (b + POBJ_CL_SIZE) → P t) {txRanges : List Span}
    (txLocks : List Tx.Lock) (h : ∀ s ∈ txRanges, P s) :
    ∀ s ∈ removeLocks txLocks txRanges, P s := by
  induction txLocks generalizing txRanges with
  | nil => exact h
  | cons l txLocks ih =>
    rw [removeLocks_cons]
    refine ih fun t ht => ?_
    obtain ⟨s, hs, ht⟩ := mem_flatMap.mp ((txRemoveRange_perm _ _ _).mem_iff.mp ht)
    exact hcut _ s t (h s hs) ht

/-! ## The copies -/

/-- The range lies within `n` bytes from `dst` on. -/
structure Within (dst n : Nat) (s : Span) : Prop where
  lo : dst ≤ s.lo
  le : s.lo ≤ s.hi
  hi : s.hi ≤ dst + n

theorem Within.cut {dst n b e : Nat} {s t : Span} (h : Within dst n s) (ht : t ∈ s.cut b e) :
    Within dst n t := by
  obtain ⟨hlo, hle, hhi⟩ := h
  unfold Span.cut Span.left Span.right at ht
  split at ht
  · rw [mem_singleton.mp ht]
    exact ⟨hlo, hle, hhi⟩
  · rename_i hmeet
    rw [mem_append] at ht
    rcases ht with ht | ht
    · split at ht
      · rw [mem_singleton.mp ht]
        exact ⟨by dsimp only; omega, by dsimp only; omega, hhi⟩
      · exact absurd ht not_mem_nil
    · split at ht
      · rw [mem_singleton.mp ht]
        exact ⟨hlo, by dsimp only; omega, by dsimp only; omega⟩
      · exact absurd ht not_mem_nil

theorem assigns_part {dst : Nat} {data : List UInt8} {s : Span} (h : Within dst data.length s) :
    (Copy.mk s.lo ((data.drop (s.lo - dst)).take (s.hi - s.lo))).assigns =
      s.points.map fun a => (a, data.getD (a - dst) 0) := by
  obtain ⟨hlo, hle, hhi⟩ := h
  have hlen : ((data.drop (s.lo - dst)).take (s.hi - s.lo)).length = s.hi - s.lo := by
    rw [length_take, length_drop]
    omega
  unfold Copy.assigns Span.points
  dsimp only
  rw [hlen]
  apply ext_getElem
  · simp [hlen]
  · intro i hi hi'
    simp only [length_map, List.length_range'] at hi'
    have hget : s.lo + i - dst = s.lo - dst + i := by omega
    simp only [getElem_zip, getElem_map, List.getElem_range', Nat.one_mul, hget,
      getElem_take, getElem_drop]
    rw [getD_eq_getElem?_getD, getElem?_eq_getElem (by omega), Option.getD_some]

/-- No assertion in the last loop fails, and it writes the data at the points of the ranges. -/
theorem restoreLoop_eq {dst : Nat} {data : List UInt8} {txRanges : List Span}
    (h : ∀ s ∈ txRanges, Within dst data.length s) :
    ∃ copies, restoreLoop dst data txRanges = some copies ∧
      copies.flatMap Copy.assigns =
        (txRanges.flatMap Span.points).map fun a => (a, data.getD (a - dst) 0) := by
  induction txRanges with
  | nil => exact ⟨[], rfl, rfl⟩
  | cons txr txRanges ih =>
    rw [forall_mem_cons] at h
    obtain ⟨copies, hloop, hcopies⟩ := ih h.2
    have hlo := h.1.lo
    have hle := h.1.le
    refine ⟨⟨txr.lo, (data.drop (txr.lo - dst)).take (txr.hi - txr.lo)⟩ :: copies, ?_, ?_⟩
    · rw [restoreLoop, if_neg (by omega), if_neg (by omega), hloop, Option.map_some]
    · rw [flatMap_cons, flatMap_cons, map_append, hcopies, assigns_part h.1]

def wholeCopy (pop : Nat) (range : Entry) : Copy := ⟨pop + range.offset, range.data⟩

theorem assigns_wholeCopy (pop : Nat) (range : Entry) :
    (wholeCopy pop range).assigns =
      (Span.mk (pop + range.offset) (pop + range.offset + range.data.length)).points.map
        fun a => (a, range.data.getD (a - (pop + range.offset)) 0) := by
  have hpart := @assigns_part (pop + range.offset) range.data
    ⟨pop + range.offset, pop + range.offset + range.data.length⟩
    ⟨Nat.le_refl _, Nat.le_add_right _ _, Nat.le_refl _⟩
  dsimp only at hpart
  rw [Nat.sub_self, drop_zero, Nat.add_sub_cancel_left, take_length] at hpart
  exact hpart

/-- The function writes the bytes of the range that lie in no lock, each once and with the value
of the snapshot, and nothing else; no assertion fails. -/
def Restores (pop : Nat) (txLocks : List Tx.Lock) (range : Entry) : Prop :=
  ∃ copies, txRestoreRange pop txLocks range = some copies ∧
    (copies.flatMap Copy.assigns).Perm
      ((wholeCopy pop range).assigns.filter fun w => ¬ Locked txLocks w.1) ∧
    ∀ m : Nat → UInt8, ∀ a, Assign.assign (copies.flatMap Copy.assigns) m a =
      if pop + range.offset ≤ a ∧ a < pop + range.offset + range.data.length ∧
          ¬ Locked txLocks a then
        range.data.getD (a - (pop + range.offset)) 0
      else m a

def wholeRange (pop : Nat) (range : Entry) : Span :=
  ⟨pop + range.offset, pop + range.offset + range.data.length⟩

theorem txRestoreRange_eq (pop : Nat) (txLocks : List Tx.Lock) (range : Entry) :
    txRestoreRange pop txLocks range =
      if removeLocks txLocks [wholeRange pop range] = [] then none
      else restoreLoop (pop + range.offset) range.data
        (removeLocks txLocks [wholeRange pop range]) := rfl

theorem assign_filter_map {p : Nat → Prop} [DecidablePred p] {ws : List (Nat × UInt8)} {s : Span}
    {f : Nat → UInt8} (hws : ws.Perm ((s.points.map fun a => (a, f a)).filter fun w => ¬ p w.1))
    (m : Nat → UInt8) (a : Nat) :
    Assign.assign ws m a = if s.lo ≤ a ∧ a < s.hi ∧ ¬ p a then f a else m a := by
  have hmem : ∀ w, w ∈ ws ↔ (s.lo ≤ w.1 ∧ w.1 < s.hi ∧ ¬ p w.1) ∧ w.2 = f w.1 := by
    intro w
    rw [hws.mem_iff, mem_filter, mem_map, decide_eq_true_iff]
    constructor
    · rintro ⟨⟨x, hx, rfl⟩, hp⟩
      rw [Span.mem_points] at hx
      exact ⟨⟨hx.1, hx.2, hp⟩, rfl⟩
    · rintro ⟨⟨hlo, hhi, hp⟩, hval⟩
      exact ⟨⟨w.1, Span.mem_points.mpr ⟨hlo, hhi⟩, Prod.ext rfl hval.symm⟩, hp⟩
  split
  · rename_i hin
    refine Assign.assign_of_forall_eq (fun w hw ha => ?_)
      (.inl ⟨(a, f a), (hmem _).mpr ⟨hin, rfl⟩, rfl⟩)
    rw [((hmem w).mp hw).2, ha]
  · rename_i hout
    refine Assign.assign_of_forall_ne m fun w hw ha => hout ?_
    rw [← ha]
    exact ((hmem w).mp hw).1

theorem restores_of_ne_nil {pop : Nat} {txLocks : List Tx.Lock} {range : Entry}
    (h : removeLocks txLocks [wholeRange pop range] ≠ []) : Restores pop txLocks range := by
  have hwithin : ∀ s ∈ removeLocks txLocks [wholeRange pop range],
      Within (pop + range.offset) range.data.length s := by
    refine removeLocks_forall (fun b s t hs ht => hs.cut ht) txLocks fun s hs => ?_
    rw [mem_singleton.mp hs]
    exact ⟨Nat.le_refl _, Nat.le_add_right _ _, Nat.le_refl _⟩
  obtain ⟨copies, hloop, hcopies⟩ := restoreLoop_eq hwithin
  have hperm : (copies.flatMap Copy.assigns).Perm
      ((wholeCopy pop range).assigns.filter fun w => ¬ Locked txLocks w.1) := by
    have hpoints := removeLocks_points txLocks [wholeRange pop range]
    rw [flatMap_singleton] at hpoints
    rw [hcopies, assigns_wholeCopy, filter_map]
    exact hpoints.map _
  refine ⟨copies, ?_, hperm, ?_⟩
  · rw [txRestoreRange_eq, if_neg h, hloop]
  · rw [assigns_wholeCopy] at hperm
    exact assign_filter_map hperm

theorem restores_iff_ne_nil {pop : Nat} {txLocks : List Tx.Lock} {range : Entry} :
    Restores pop txLocks range ↔ removeLocks txLocks [wholeRange pop range] ≠ [] := by
  refine ⟨fun ⟨copies, hcall, _⟩ hnil => ?_, restores_of_ne_nil⟩
  rw [txRestoreRange_eq, if_pos hnil] at hcall
  exact absurd hcall nofun

theorem removeLocks_ne_nil_iff {s : Span} (hs : s.lo < s.hi) (txLocks : List Tx.Lock) :
    removeLocks txLocks [s] ≠ [] ↔ ∃ a, s.lo ≤ a ∧ a < s.hi ∧ ¬ Locked txLocks a := by
  have hpos : ∀ t ∈ removeLocks txLocks [s], t.lo < t.hi := by
    refine removeLocks_forall (fun b s t hs ht => Span.lt_of_mem_cut hs ht) txLocks fun t ht => ?_
    rwa [mem_singleton.mp ht]
  have hmem : ∀ a, a ∈ (removeLocks txLocks [s]).flatMap Span.points ↔
      a ∈ s.points ∧ ¬ Locked txLocks a := by
    intro a
    rw [(removeLocks_points txLocks [s]).mem_iff, flatMap_singleton, mem_filter, decide_eq_true_iff]
  constructor
  · intro hne
    obtain ⟨t, ht⟩ := exists_mem_of_ne_nil _ hne
    obtain ⟨hin, hfree⟩ := (hmem t.lo).mp
      (mem_flatMap.mpr ⟨t, ht, Span.mem_points.mpr ⟨Nat.le_refl _, hpos t ht⟩⟩)
    rw [Span.mem_points] at hin
    exact ⟨t.lo, hin.1, hin.2, hfree⟩
  · rintro ⟨a, hlo, hhi, hfree⟩ hnil
    have ha := (hmem a).mpr ⟨Span.mem_points.mpr ⟨hlo, hhi⟩, hfree⟩
    rw [hnil] at ha
    exact not_mem_nil ha

/-- An empty range is left over unless a lock begins before it and reaches up to it. -/
theorem removeLocks_empty (p : Nat) (txLocks : List Tx.Lock) :
    removeLocks txLocks [⟨p, p⟩] ≠ [] ↔
      ∀ l ∈ txLocks, p ≤ l.addr ∨ l.addr + POBJ_CL_SIZE < p := by
  induction txLocks with
  | nil => simp [removeLocks]
  | cons l txLocks ih =>
    rw [removeLocks_cons, forall_mem_cons]
    have hnil : removeLocks txLocks [] = [] := by
      refine eq_nil_iff_forall_not_mem.mpr fun s hs => ?_
      exact removeLocks_forall (P := fun _ => False) (fun _ _ _ h _ => h) txLocks
        (fun _ h => absurd h not_mem_nil) s hs
    unfold txRemoveRange removeRangeLoop
    by_cases happart : l.addr ≥ p ∨ l.addr + POBJ_CL_SIZE < p
    · rw [if_pos happart]
      exact ih.trans (and_iff_right happart).symm
    · dsimp only
      rw [if_neg happart, if_neg (by omega), if_neg (by omega)]
      exact iff_of_false (fun h => h hnil) fun h => happart h.1

/-- The range is restored around the locks if and only if a byte of it lies in no lock or, when
it is empty, no lock begins before it and reaches up to it. -/
theorem restores_iff (pop : Nat) (txLocks : List Tx.Lock) (range : Entry) :
    Restores pop txLocks range ↔
      (∃ a, pop + range.offset ≤ a ∧ a < pop + range.offset + range.data.length ∧
        ¬ Locked txLocks a) ∨ (range.data = [] ∧ ∀ l ∈ txLocks, pop + range.offset ≤ l.addr ∨
        l.addr + POBJ_CL_SIZE < pop + range.offset) := by
  rw [restores_iff_ne_nil]
  by_cases hdata : range.data = []
  · have hwhole : wholeRange pop range = ⟨pop + range.offset, pop + range.offset⟩ := by
      rw [wholeRange, hdata, List.length_nil, Nat.add_zero]
    rw [hwhole, removeLocks_empty]
    refine ⟨fun h => .inr ⟨hdata, h⟩, fun h => h.elim (fun ⟨a, hlo, hhi, _⟩ => ?_) And.right⟩
    rw [hdata, List.length_nil] at hhi
    omega
  · have hpos := List.length_pos_iff.mpr hdata
    rw [removeLocks_ne_nil_iff (by dsimp only [wholeRange]; omega)]
    exact (or_iff_left fun h => hdata h.1).symm

/-- A snapshot of a mutex that the transaction holds fails the assertion. -/
theorem not_restores_mutex : ¬ Restores 4096 [⟨.mutex, 8192⟩] ⟨4096, List.replicate 64 0⟩ := by
  rintro ⟨copies, hcall, -⟩
  have hnone : txRestoreRange 4096 [⟨.mutex, 8192⟩] ⟨4096, List.replicate 64 0⟩ = none := by decide
  rw [hnone] at hcall
  exact absurd hcall nofun

end Pmdk.TxRestore
