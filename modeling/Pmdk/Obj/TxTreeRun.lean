import Pmdk.Obj.TxTreeAdd

/-!
# The ranges and snapshots of a transaction are exact

Over any sequence of calls of `pmemobj_tx_add_common` the tree holds the bytes that were
requested, and each of them is snapshotted once, by the first call that requests it.
-/

namespace Pmdk.TxTree

open Transition List

/-! ## The list of ranges after a call -/

variable {a args : Range}

section Insert

variable {rs m : List Range} {r : Range}

theorem Apart.head_le (h : Apart m) {c : Range} (ha : m.head? = some a) (hc : c ∈ m) :
    a.offset ≤ c.offset := by
  cases m with
  | nil => cases ha
  | cons b m =>
    obtain rfl : b = a := by simpa using ha
    rcases mem_cons.mp hc with rfl | hc
    · exact Nat.le_refl _
    · have := (pairwise_cons.mp h.apart).1 c hc
      have := h.stop_pos mem_cons_self
      omega

theorem Apart.le_last (h : Apart m) {z c : Range} (hz : m.getLast? = some z) (hc : c ∈ m) :
    c.stop ≤ z.stop := by
  rcases List.eq_nil_or_concat' m with rfl | ⟨m', w, rfl⟩
  · cases hz
  · rw [getLast?_concat, Option.some.injEq] at hz
    subst hz
    rcases mem_append.mp hc with hc | hc
    · have := h.append_le hc mem_cons_self
      have := h.stop_pos (mem_append_right m' (mem_singleton_self w))
      omega
    · rw [mem_singleton.mp hc]

theorem fused_bounds (h : Apart m) (hm : ∀ a ∈ m, Fuses rs r a) (hsize : 0 < r.size) :
    (fused r m).offset ≤ r.offset ∧ r.stop ≤ (fused r m).stop ∧
      (∀ a ∈ m, (fused r m).offset ≤ a.offset ∧ a.stop ≤ (fused r m).stop) ∧
      ((fused r m).offset = r.offset ∨ ∃ a ∈ m, (fused r m).offset = a.offset) ∧
      ((fused r m).stop = r.stop ∨ ∃ a ∈ m, (fused r m).stop = a.stop) := by
  have hstop : r.stop = r.offset + r.size := rfl
  cases hhead : m.head? with
  | none =>
    rw [head?_eq_none_iff] at hhead
    subst hhead
    have hfused : (fused r []).offset = r.offset ∧ (fused r []).stop = r.stop := by
      refine ⟨rfl, ?_⟩
      show r.offset + (r.stop - r.offset) = r.stop
      omega
    refine ⟨hfused.1.le, hfused.2.ge, fun a ha => absurd ha not_mem_nil, .inl hfused.1,
      .inl hfused.2⟩
  | some a =>
    cases hlast : m.getLast? with
    | none =>
      rw [getLast?_eq_none_iff] at hlast
      rw [hlast] at hhead
      cases hhead
    | some z =>
      have ha := mem_of_head? hhead
      have hz := mem_of_getLast? hlast
      have hoffset : (fused r m).offset = min r.offset a.offset := by
        rw [fused, hhead]
        rfl
      have hfstop : (fused r m).stop = max r.stop z.stop := by
        rw [fused, hhead, hlast]
        show min r.offset a.offset + (max r.stop z.stop - min r.offset a.offset) = _
        omega
      rw [hoffset, hfstop]
      refine ⟨by omega, by omega, fun c hc => ?_, ?_, ?_⟩
      · have := h.head_le hhead hc
        have := h.le_last hlast hc
        omega
      · rcases Nat.le_total r.offset a.offset with hle | hle
        · exact .inl (Nat.min_eq_left hle)
        · exact .inr ⟨a, ha, Nat.min_eq_right hle⟩
      · rcases Nat.le_total z.stop r.stop with hle | hle
        · exact .inl (Nat.max_eq_left hle)
        · exact .inr ⟨z, hz, Nat.max_eq_right hle⟩

theorem fused_mem (h : Apart m) (hm : ∀ a ∈ m, Fuses rs r a) (hsize : 0 < r.size) (b : Nat) :
    (fused r m).Mem b ↔ r.Mem b ∨ ∃ a ∈ m, a.Mem b := by
  obtain ⟨hlo, hhi, hall, hfirst, hlast⟩ := fused_bounds h hm hsize
  have hstop : r.stop = r.offset + r.size := rfl
  constructor
  · rintro ⟨hge, hlt⟩
    by_cases hb : b < r.offset
    · rcases hfirst with heq | ⟨a, ha, heq⟩
      · omega
      · have := (hm a ha).1
        exact .inr ⟨a, ha, by omega, by omega⟩
    · by_cases hb' : b < r.stop
      · exact .inl ⟨by omega, hb'⟩
      · rcases hlast with heq | ⟨a, ha, heq⟩
        · omega
        · have := (hm a ha).2.1
          exact .inr ⟨a, ha, by omega, by omega⟩
  · rintro (⟨hge, hlt⟩ | ⟨a, ha, hge, hlt⟩)
    · exact ⟨by omega, by omega⟩
    · have := hall a ha
      exact ⟨by omega, by omega⟩

theorem mem_filter_fuses : a ∈ rs.filter (fun a => Fuses rs r a) ↔ a ∈ rs ∧ Fuses rs r a := by
  rw [mem_filter, decide_eq_true_eq]

theorem Apart.filter (h : Apart rs) (p : Range → Bool) : Apart (rs.filter p) :=
  ⟨fun a ha => h.pos a (mem_of_mem_filter ha), h.apart.filter p⟩

theorem Apart.insertRange (h : Apart rs) (hsize : 0 < r.size) : Apart (insertRange r rs) := by
  have hsplit := h.split (r := r)
  have hm : ∀ a ∈ rs.filter (fun a => Fuses rs r a), Fuses rs r a := fun a ha =>
    (mem_filter_fuses.mp ha).2
  obtain ⟨hlo, hhi, hall, hfirst, hlast⟩ := fused_bounds (h.filter _) hm hsize
  have hrstop : r.stop = r.offset + r.size := rfl
  have hfstop : (fused r (rs.filter fun a => Fuses rs r a)).stop =
    (fused r (rs.filter fun a => Fuses rs r a)).offset +
      (fused r (rs.filter fun a => Fuses rs r a)).size := rfl
  have hr : Apart (rs.filter (fun a => a.stop ≤ r.offset ∧ ¬ Fuses rs r a) ++
      rs.filter (fun a => Fuses rs r a) ++ rs.filter fun a => r.stop < a.offset) := by
    rw [append_assoc, hsplit]
    exact h
  refine hr.replace (by omega) (fun b hb => ?_) fun b hb => ?_
  · rcases hfirst with heq | ⟨a, ha, heq⟩
    · rw [mem_filter, decide_eq_true_eq] at hb
      omega
    · rw [heq]
      exact hr.left.append_le hb ha
  · rcases hlast with heq | ⟨a, ha, heq⟩
    · rw [mem_filter, decide_eq_true_eq] at hb
      omega
    · rw [heq]
      exact hr.append_le (mem_append_right _ ha) hb

theorem mem_insertRange (h : Apart rs) (hsize : 0 < r.size) (b : Nat) :
    (∃ a ∈ insertRange r rs, a.Mem b) ↔ r.Mem b ∨ ∃ a ∈ rs, a.Mem b := by
  have hm : ∀ a ∈ rs.filter (fun a => Fuses rs r a), Fuses rs r a := fun a ha =>
    (mem_filter_fuses.mp ha).2
  have hfused := fused_mem (h.filter _) hm hsize b
  have hsplit := h.split (r := r)
  unfold insertRange
  obtain ⟨l, hl⟩ : ∃ l, rs.filter (fun a => a.stop ≤ r.offset ∧ ¬ Fuses rs r a) = l := ⟨_, rfl⟩
  obtain ⟨m, hm⟩ : ∃ m, rs.filter (fun a => Fuses rs r a) = m := ⟨_, rfl⟩
  obtain ⟨t, ht⟩ : ∃ t, rs.filter (fun a => r.stop < a.offset) = t := ⟨_, rfl⟩
  rw [hl, hm, ht] at hsplit ⊢
  rw [hm] at hfused
  rw [← hsplit]
  simp only [mem_append, mem_cons, or_and_right, exists_or, exists_eq_left, hfused]
  rw [or_assoc, or_left_comm]

end Insert

/-! ## Runs -/

structure Calls where
  ranges : Ravl.Tree Range
  log : List (List Range)
  deriving DecidableEq

def Calls.empty : Calls := ⟨.nil, []⟩

def call (heap : TxRange.Heap) (args : Range) (t : Calls) : Option Calls :=
  match addCommon heap args ⟨t.ranges, []⟩ with
  | some (s, true) => some ⟨s.ranges, t.log ++ [s.snapshots]⟩
  | _ => none

structure Exact (calls : List Range) (t : Calls) : Prop where
  apart : Apart t.ranges.toList
  covers : ∀ b, (∃ a ∈ t.ranges.toList, a.Mem b) ↔ ∃ c ∈ calls, c.Mem b
  length : t.log.length = calls.length
  first : ∀ i c l, calls[i]? = some c → t.log[i]? = some l → ∀ b,
    hits l b = if c.Mem b ∧ ∀ d ∈ calls.take i, ¬ d.Mem b then 1 else 0
  once : ∀ b, hits t.log.flatten b = if ∃ c ∈ calls, c.Mem b then 1 else 0

/-- The arguments pass the checks of `pmemobj_tx_add_common`. -/
def Valid (heap : TxRange.Heap) (args : Range) : Prop :=
  0 < args.size ∧ args.size ≤ TxRange.maxAllocSize ∧ heap.offset ≤ args.offset ∧
    args.stop ≤ heap.offset + heap.size

theorem addCommon_valid {heap : TxRange.Heap} (h : Valid heap args) (s : State) :
    addCommon heap args s =
      (addLoop (args.size + 2) args .lessEqual none s).map fun s => (s, true) := by
  obtain ⟨-, hmax, hlo, hhi⟩ := h
  rw [addCommon, if_neg (by omega), if_neg (by omega)]

theorem Exact.call {heap : TxRange.Heap} {calls : List Range} {t : Calls} (h : Exact calls t)
    (hargs : Valid heap args) : ∃ t', call heap args t = some t' ∧ Exact (calls ++ [args]) t' := by
  obtain ⟨s, hs, hinserts⟩ := addLoop_inserts (s := ⟨t.ranges, []⟩) h.apart hargs.1
  obtain ⟨new, hnew, hhits⟩ := hinserts.snapshots
  have hnew' : s.snapshots = new := hnew
  have hlist : s.ranges.toList = insertRange args t.ranges.toList := hinserts.list
  have hcovers : ∀ b, (∀ a ∈ t.ranges.toList, ¬ a.Mem b) ↔ ∀ d ∈ calls, ¬ d.Mem b := fun b => by
    have hiff := not_congr (h.covers b)
    push Not at hiff
    exact hiff
  have hhits' : ∀ b, hits new b = if args.Mem b ∧ ∀ d ∈ calls, ¬ d.Mem b then 1 else 0 :=
    fun b => (hhits b).trans (if_congr (and_congr_right fun _ => hcovers b) rfl rfl)
  refine ⟨⟨s.ranges, t.log ++ [s.snapshots]⟩, ?_, ?_, fun b => ?_, ?_, fun i c l hc hl b => ?_,
    fun b => ?_⟩
  · rw [TxTree.call, addCommon_valid hargs, hs]
    rfl
  · rw [hlist]
    exact h.apart.insertRange hargs.1
  · rw [hlist, mem_insertRange h.apart hargs.1, h.covers]
    simp only [mem_append, mem_singleton, or_and_right, exists_or, exists_eq_left]
    exact or_comm
  · rw [length_append, length_append, h.length]
    rfl
  · rcases Nat.lt_or_ge i calls.length with hi | hi
    · rw [getElem?_append_left hi] at hc
      rw [getElem?_append_left (h.length ▸ hi)] at hl
      rw [take_append_of_le_length hi.le]
      exact h.first i c l hc hl b
    · have hi' : i = calls.length := by
        have hlt := (List.getElem?_eq_some_iff.mp hc).1
        rw [length_append, length_singleton] at hlt
        omega
      subst hi'
      rw [getElem?_concat_length, Option.some.injEq] at hc
      rw [← h.length, getElem?_concat_length, Option.some.injEq] at hl
      subst hc hl
      rw [take_left, hnew']
      exact hhits' b
  · rw [flatten_append, hits_append, h.once, flatten_singleton, hnew', hhits' b]
    by_cases hold : ∃ c ∈ calls, c.Mem b
    · obtain ⟨c, hc, hcb⟩ := hold
      rw [if_pos ⟨c, hc, hcb⟩, if_neg fun hand => hand.2 c hc hcb,
        if_pos ⟨c, mem_append_left _ hc, hcb⟩]
    · have hnone : ∀ d ∈ calls, ¬ d.Mem b := fun d hd hdb => hold ⟨d, hd, hdb⟩
      rw [if_neg hold, Nat.zero_add]
      refine if_congr ⟨fun hb => ⟨args, mem_append_right _ mem_cons_self, hb.1⟩, ?_⟩ rfl rfl
      rintro ⟨c, hc, hcb⟩
      rcases mem_append.mp hc with hc | hc
      · exact absurd hcb (hnone c hc)
      · rw [mem_singleton.mp hc] at hcb
        exact ⟨hcb, hnone⟩

theorem exact_run {heap : TxRange.Heap} {done calls : List Range} {t : Calls} (h : Exact done t)
    (hcalls : ∀ c ∈ calls, Valid heap c) :
    ∃ t', run (call heap) calls t = some t' ∧ Exact (done ++ calls) t' := by
  induction calls generalizing done t with
  | nil => exact ⟨t, rfl, (append_nil done).symm ▸ h⟩
  | cons c calls ih =>
    obtain ⟨u, hu, hexact⟩ := h.call (hcalls c mem_cons_self)
    obtain ⟨t', hrun, ht'⟩ := ih hexact fun d hd => hcalls d (mem_cons_of_mem c hd)
    refine ⟨t', run_cons_eq_some_iff.mpr ⟨u, hu, hrun⟩, ?_⟩
    rwa [append_assoc] at ht'

theorem exact_empty : Exact [] .empty where
  apart := ⟨fun _ ha => absurd ha not_mem_nil, .nil⟩
  covers _ := by simp [Calls.empty]
  length := rfl
  first _ _ _ hc := by simp at hc
  once _ := by simp [Calls.empty, hits]

/-- Whatever ranges are added, in any order: the tree holds their bytes in ranges that do not
overlap, and each byte is snapshotted once, by the first call that requests it. -/
theorem exact_calls (heap : TxRange.Heap) (calls : List Range)
    (hcalls : ∀ c ∈ calls, Valid heap c) :
    ∃ t, run (call heap) calls .empty = some t ∧ Exact calls t := by
  obtain ⟨t, hrun, ht⟩ := exact_run exact_empty hcalls
  exact ⟨t, hrun, ht⟩

/-- Ranges that overlap, touch and contain each other. -/
theorem exact_calls_overlapping : ∃ t,
    run (call ⟨0, 4096⟩) [⟨64, 16, 0⟩, ⟨96, 16, 0⟩, ⟨72, 24, 0⟩, ⟨0, 256, 0⟩] .empty = some t ∧
      Exact [⟨64, 16, 0⟩, ⟨96, 16, 0⟩, ⟨72, 24, 0⟩, ⟨0, 256, 0⟩] t :=
  exact_calls ⟨0, 4096⟩ _ (by unfold Valid; decide)

/-- A range that is longer than an object can be is refused, and it is not in the tree. -/
theorem not_exact_tooLarge :
    addCommon ⟨0, 2 ^ 40⟩ ⟨0, TxRange.maxAllocSize + 1, 0⟩ ⟨.nil, []⟩ = some (⟨.nil, []⟩, false) ∧
      ¬ ∃ t, run (call ⟨0, 2 ^ 40⟩) [⟨0, TxRange.maxAllocSize + 1, 0⟩] .empty = some t ∧
        Exact [⟨0, TxRange.maxAllocSize + 1, 0⟩] t := by
  refine ⟨by decide, ?_⟩
  rintro ⟨t, hrun, -⟩
  have hnone : run (call ⟨0, 2 ^ 40⟩) [⟨0, TxRange.maxAllocSize + 1, 0⟩] .empty = none := by decide
  rw [hnone] at hrun
  cases hrun

/-!
## What a commit flushes

A range in the tree has the flags of the first range that was fused into it. So a range that is
added without `POBJ_XADD_NO_FLUSH` is not flushed when it touches one that was added with the
flag, and begins after it.
-/

/-- `flags & POBJ_FLAG_NO_FLUSH`. -/
def noFlush (flags : Nat) : Bool := flags.testBit 1

def txFlushRange (range : Range) : List Range := if noFlush range.flags then [] else [range]

structure Requests where
  ranges : Ravl.Tree Range
  requested : List Range
  deriving DecidableEq

def Requests.empty : Requests := ⟨.nil, []⟩

/-- The ranges that `tx_pre_commit` flushes. -/
def Requests.preCommit (t : Requests) : List Range := t.ranges.toList.flatMap txFlushRange

inductive Op
  | xaddRange (args : Range)
  | xalloc (block : Range)
  deriving DecidableEq

def request (heap : TxRange.Heap) (op : Op) (t : Requests) : Option Requests :=
  match op with
  | .xaddRange args =>
    match addCommon heap args ⟨t.ranges, []⟩ with
    | some (s, true) => some ⟨s.ranges, args :: t.requested⟩
    | _ => none
  | .xalloc block => (t.ranges.emplace Range.offset block).map fun ranges =>
    ⟨ranges, block :: t.requested⟩

def Fresh (op : Op) (t : Requests) : Prop :=
  match op with
  | .xaddRange _ => True
  | .xalloc block => 0 < block.size ∧
      ∀ a ∈ t.ranges.toList, a.stop ≤ block.offset ∨ block.stop ≤ a.offset

/-- The first of the ranges that are fused with the new one is flushed by the commit, or the new
one and all of them have the flag. -/
def KeepsFlush (op : Op) (t : Requests) : Prop :=
  match op with
  | .xaddRange args => 0 < args.size →
      match (t.ranges.toList.filter fun a => Fuses t.ranges.toList args a).head? with
      | none => True
      | some f => noFlush f.flags → noFlush args.flags ∧
          ∀ a ∈ t.ranges.toList, Fuses t.ranges.toList args a → noFlush a.flags
  | .xalloc _ => True

def Flushed (t : Requests) : Prop :=
  ∀ c ∈ t.requested, ¬ noFlush c.flags → ∀ b, c.Mem b → ∃ a ∈ t.preCommit, a.Mem b

theorem mem_preCommit {t : Requests} :
    a ∈ t.preCommit ↔ a ∈ t.ranges.toList ∧ ¬ noFlush a.flags := by
  rw [Requests.preCommit, mem_flatMap]
  constructor
  · rintro ⟨c, hc, ha⟩
    unfold txFlushRange at ha
    split at ha
    · exact absurd ha not_mem_nil
    · rename_i hflag
      rw [mem_singleton.mp ha]
      exact ⟨hc, hflag⟩
  · rintro ⟨ha, hflag⟩
    refine ⟨a, ha, ?_⟩
    rw [txFlushRange, if_neg hflag]
    exact mem_singleton_self a

section Flush

variable {rs : List Range} {r : Range}

theorem fused_flags (r : Range) (m : List Range) :
    (fused r m).flags = m.head?.elim r.flags Range.flags := rfl

/-- Under the condition a byte that was in a flushed range, or is requested without the flag, is in
a flushed range after the call. -/
theorem flushed_insertRange (h : Apart rs) (hsize : 0 < r.size)
    (hkeeps : match (rs.filter fun a => Fuses rs r a).head? with
      | none => True
      | some f => noFlush f.flags → noFlush r.flags ∧
          ∀ a ∈ rs, Fuses rs r a → noFlush a.flags)
    {b : Nat} (hb : r.Mem b ∧ ¬ noFlush r.flags ∨ ∃ a ∈ rs, a.Mem b ∧ ¬ noFlush a.flags) :
    ∃ a ∈ insertRange r rs, a.Mem b ∧ ¬ noFlush a.flags := by
  have hm : ∀ a ∈ rs.filter (fun a => Fuses rs r a), Fuses rs r a := fun a ha =>
    (mem_filter_fuses.mp ha).2
  have hfused := fused_mem (h.filter _) hm hsize b
  have hmem : fused r (rs.filter fun a => Fuses rs r a) ∈ insertRange r rs :=
    mem_append_right _ mem_cons_self
  -- what is fused has the flag only if all of it has
  have hflags : noFlush (fused r (rs.filter fun a => Fuses rs r a)).flags →
      noFlush r.flags ∧ ∀ a ∈ rs, Fuses rs r a → noFlush a.flags := by
    intro hno
    rw [fused_flags] at hno
    cases hhead : (rs.filter fun a => Fuses rs r a).head? with
    | none =>
      rw [hhead] at hno
      refine ⟨hno, fun a ha hf => ?_⟩
      rw [head?_eq_none_iff] at hhead
      exact absurd (hhead ▸ mem_filter_fuses.mpr ⟨ha, hf⟩) not_mem_nil
    | some f =>
      rw [hhead] at hno hkeeps
      exact hkeeps hno
  rcases hb with ⟨hrb, hno⟩ | ⟨a, ha, hab, hno⟩
  · exact ⟨_, hmem, hfused.mpr (.inl hrb), fun hf => hno (hflags hf).1⟩
  · by_cases hf : Fuses rs r a
    · exact ⟨_, hmem, hfused.mpr (.inr ⟨a, mem_filter_fuses.mpr ⟨ha, hf⟩, hab⟩),
        fun hno' => hno ((hflags hno').2 a ha hf)⟩
    · rw [← h.split (r := r), mem_append, mem_append] at ha
      rcases ha with ha | ha | ha
      · exact ⟨a, mem_append_left _ ha, hab, hno⟩
      · exact absurd (hm a ha) hf
      · exact ⟨a, mem_append_right _ (mem_cons_of_mem _ ha), hab, hno⟩

theorem needed_insertRange (h : Apart rs) (hsize : 0 < r.size)
    (ha : a ∈ insertRange r rs) (hflag : ¬ noFlush a.flags) :
    (¬ noFlush r.flags ∧ ∀ b, r.Mem b → a.Mem b) ∨
      ∃ f ∈ rs, ¬ noFlush f.flags ∧ ∀ b, f.Mem b → a.Mem b := by
  have hm : ∀ a ∈ rs.filter (fun a => Fuses rs r a), Fuses rs r a := fun a ha =>
    (mem_filter_fuses.mp ha).2
  rw [insertRange, mem_append, mem_cons] at ha
  rcases ha with ha | rfl | ha
  · exact .inr ⟨a, mem_of_mem_filter ha, hflag, fun _ hb => hb⟩
  · rw [fused_flags] at hflag
    cases hhead : (rs.filter fun a => Fuses rs r a).head? with
    | none =>
      rw [hhead] at hflag
      exact .inl ⟨hflag, fun b hb => (fused_mem (h.filter _) hm hsize b).mpr (.inl hb)⟩
    | some f =>
      rw [hhead] at hflag
      have hf := mem_of_head? hhead
      exact .inr ⟨f, mem_of_mem_filter hf, hflag,
        fun b hb => (fused_mem (h.filter _) hm hsize b).mpr (.inr ⟨f, hf, hb⟩)⟩
  · exact .inr ⟨a, mem_of_mem_filter ha, hflag, fun _ hb => hb⟩

end Flush

structure FlushInv (t : Requests) : Prop where
  apart : Apart t.ranges.toList
  flushed : Flushed t
  needed : ∀ a ∈ t.ranges.toList, ¬ noFlush a.flags →
    ∃ c ∈ t.requested, ¬ noFlush c.flags ∧ ∃ b, c.Mem b ∧ a.Mem b

section Steps

variable {heap : TxRange.Heap} {t t' : Requests}

theorem Flushed.exists_range (h : Flushed t) {c : Range} (hc : c ∈ t.requested)
    (hno : ¬ noFlush c.flags) {b : Nat} (hb : c.Mem b) :
    ∃ a ∈ t.ranges.toList, a.Mem b ∧ ¬ noFlush a.flags := by
  obtain ⟨a, ha, hab⟩ := h c hc hno b hb
  obtain ⟨hmem, hflag⟩ := mem_preCommit.mp ha
  exact ⟨a, hmem, hab, hflag⟩

theorem FlushInv.xaddRange (h : FlushInv t) (hkeeps : KeepsFlush (.xaddRange args) t)
    (hstep : request heap (.xaddRange args) t = some t') : FlushInv t' := by
  rw [request] at hstep
  unfold addCommon at hstep
  by_cases hmax : args.size > TxRange.maxAllocSize
  · rw [if_pos hmax] at hstep
    cases hstep
  by_cases hheap : args.offset < heap.offset ∨ args.stop > heap.offset + heap.size
  · rw [if_neg hmax, if_pos hheap] at hstep
    cases hstep
  rw [if_neg hmax, if_neg hheap] at hstep
  by_cases hsize : args.size = 0
  · rw [hsize, addLoop_zero hsize] at hstep
    cases hstep
    refine ⟨h.apart, fun c hc hno b hb => ?_, fun a ha hflag => ?_⟩
    · rcases mem_cons.mp hc with rfl | hc
      · have hlt := hb.2
        have hle := hb.1
        rw [Range.stop] at hlt
        omega
      · exact h.flushed c hc hno b hb
    · obtain ⟨c, hc, hcb⟩ := h.needed a ha hflag
      exact ⟨c, mem_cons_of_mem args hc, hcb⟩
  · have hpos : 0 < args.size := Nat.pos_of_ne_zero hsize
    obtain ⟨s, hs, hinserts⟩ := addLoop_inserts (s := ⟨t.ranges, []⟩) h.apart hpos
    rw [hs] at hstep
    cases hstep
    have hlist : s.ranges.toList = insertRange args t.ranges.toList := hinserts.list
    refine ⟨?_, fun c hc hno b hb => ?_, fun a ha hflag => ?_⟩
    · show Apart s.ranges.toList
      rw [hlist]
      exact h.apart.insertRange hpos
    · obtain ⟨a, ha, hab, hflag⟩ := flushed_insertRange h.apart hpos (hkeeps hpos) (b := b) (by
        rcases mem_cons.mp hc with rfl | hc
        · exact .inl ⟨hb, hno⟩
        · exact .inr (h.flushed.exists_range hc hno hb))
      exact ⟨a, mem_preCommit.mpr ⟨hlist ▸ ha, hflag⟩, hab⟩
    · have ha' : a ∈ insertRange args t.ranges.toList := hlist ▸ ha
      rcases needed_insertRange h.apart hpos ha' hflag with ⟨hno, heq⟩ | ⟨f, hf, hno, hsub⟩
      · refine ⟨args, mem_cons_self, hno, args.offset, ⟨Nat.le_refl _, ?_⟩, ?_⟩
        · exact Nat.lt_add_of_pos_right hpos
        · exact heq _ ⟨Nat.le_refl _, Nat.lt_add_of_pos_right hpos⟩
      · obtain ⟨c, hc, hcno, b, hcb, hfb⟩ := h.needed f hf hno
        exact ⟨c, mem_cons_of_mem args hc, hcno, b, hcb, hsub b hfb⟩

theorem FlushInv.xalloc {block : Range} (h : FlushInv t) (hfresh : Fresh (.xalloc block) t)
    (hstep : request heap (.xalloc block) t = some t') : FlushInv t' := by
  obtain ⟨hsize, hapart⟩ := hfresh
  have hsorted := h.apart.sorted
  have hbstop : block.stop = block.offset + block.size := rfl
  obtain ⟨l, hl⟩ : ∃ l, t.ranges.toList.filter (fun a => a.offset < block.offset) = l := ⟨_, rfl⟩
  obtain ⟨r, hr⟩ : ∃ r, t.ranges.toList.filter (fun a => block.offset < a.offset) = r := ⟨_, rfl⟩
  have hnew : ∀ a ∈ t.ranges.toList, a.offset ≠ block.offset := by
    intro a ha
    have := h.apart.stop_pos ha
    have := hapart a ha
    omega
  obtain ⟨ranges, heq, hlist⟩ := Ravl.Tree.emplace_spec hsorted hnew
  rw [hl, hr] at hlist
  have hlmem : ∀ a ∈ l, a ∈ t.ranges.toList ∧ a.stop ≤ block.offset := by
    intro a ha
    rw [← hl, mem_filter, decide_eq_true_eq] at ha
    have := hapart a ha.1
    have := h.apart.stop_pos ha.1
    exact ⟨ha.1, by omega⟩
  have hrmem : ∀ a ∈ r, a ∈ t.ranges.toList ∧ block.stop ≤ a.offset := by
    intro a ha
    rw [← hr, mem_filter, decide_eq_true_eq] at ha
    have := hapart a ha.1
    have := h.apart.stop_pos ha.1
    exact ⟨ha.1, by omega⟩
  rw [request, heq] at hstep
  cases hstep
  refine ⟨⟨fun a ha => ?_, ?_⟩, fun c hc hno b hb => ?_, fun a ha hflag => ?_⟩
  · rw [hlist, mem_append, mem_cons] at ha
    rcases ha with ha | rfl | ha
    · exact h.apart.pos a (hlmem a ha).1
    · exact hsize
    · exact h.apart.pos a (hrmem a ha).1
  · rw [hlist]
    refine pairwise_append.mpr ⟨hl ▸ h.apart.apart.filter _,
      pairwise_cons.mpr ⟨fun a ha => (hrmem a ha).2, hr ▸ h.apart.apart.filter _⟩,
      fun a ha c hc => ?_⟩
    have hle := (hlmem a ha).2
    rcases mem_cons.mp hc with rfl | hc
    · exact hle
    · have := (hrmem c hc).2
      omega
  · rcases mem_cons.mp hc with rfl | hc
    · refine ⟨c, mem_preCommit.mpr ⟨?_, hno⟩, hb⟩
      rw [hlist]
      exact mem_append_right _ mem_cons_self
    · obtain ⟨a, ha, hab, hflag⟩ := h.flushed.exists_range hc hno hb
      refine ⟨a, mem_preCommit.mpr ⟨?_, hflag⟩, hab⟩
      rw [hlist, mem_append, mem_cons, ← hl, ← hr, mem_filter, mem_filter,
        decide_eq_true_eq, decide_eq_true_eq]
      have := hapart a ha
      have := h.apart.stop_pos ha
      rcases Nat.lt_or_ge a.offset block.offset with hlt | hge
      · exact .inl ⟨ha, hlt⟩
      · exact .inr (.inr ⟨ha, by omega⟩)
  · have hold : a ∈ t.ranges.toList → ∃ c ∈ block :: t.requested, ¬ noFlush c.flags ∧
        ∃ b, c.Mem b ∧ a.Mem b := fun ha => by
      obtain ⟨c, hc, hcb⟩ := h.needed a ha hflag
      exact ⟨c, mem_cons_of_mem block hc, hcb⟩
    rw [hlist, mem_append, mem_cons] at ha
    rcases ha with ha | rfl | ha
    · exact hold (hlmem a ha).1
    · have hself : a.Mem a.offset := ⟨Nat.le_refl _, Nat.lt_add_of_pos_right hsize⟩
      exact ⟨a, mem_cons_self, hflag, a.offset, hself, hself⟩
    · exact hold (hrmem a ha).1

theorem FlushInv.not_flushed {op : Op} (h : FlushInv t) (hkeeps : ¬ KeepsFlush op t)
    (hstep : request heap op t = some t') : ¬ Flushed t' := by
  cases op with
  | xalloc block => exact absurd trivial hkeeps
  | xaddRange args =>
    intro hflushed
    have hpos : 0 < args.size := by
      by_contra hzero
      exact hkeeps fun hpos => absurd hpos hzero
    obtain ⟨m, hm⟩ : ∃ m, (t.ranges.toList.filter fun a => Fuses t.ranges.toList args a) = m :=
      ⟨_, rfl⟩
    have hmem : ∀ a, a ∈ m ↔ a ∈ t.ranges.toList ∧ Fuses t.ranges.toList args a := fun a => by
      rw [← hm]
      exact mem_filter_fuses
    have hfused := fused_mem (hm ▸ h.apart.filter _ : Apart m) (fun a ha => ((hmem a).mp ha).2) hpos
    obtain ⟨s, hs, hinserts⟩ := addLoop_inserts (s := ⟨t.ranges, []⟩) h.apart hpos
    have hlist : s.ranges.toList = insertRange args t.ranges.toList := hinserts.list
    have ht' : t' = ⟨s.ranges, args :: t.requested⟩ := by
      rw [request] at hstep
      unfold addCommon at hstep
      split at hstep
      · rename_i heq
        split at heq
        · cases heq
        · split at heq
          · cases heq
          · rw [hs] at heq
            cases heq
            exact (Option.some.inj hstep).symm
      · cases hstep
    subst ht'
    -- the fused range has the flag, but something in it was requested without
    obtain ⟨f, hhead⟩ : ∃ f, m.head? = some f := by
      cases hhead : m.head? with
      | some f => exact ⟨f, rfl⟩
      | none =>
        refine absurd (fun _ => ?_) hkeeps
        rw [hm, hhead]
        trivial
    have hfflag : noFlush f.flags := by
      by_contra hno
      refine hkeeps fun _ => ?_
      rw [hm, hhead]
      exact fun hyes => absurd hyes hno
    have hflag : noFlush (fused args m).flags := by
      rw [fused_flags, hhead]
      exact hfflag
    have hsome : ∃ c ∈ args :: t.requested, ¬ noFlush c.flags ∧
        ∃ b, c.Mem b ∧ (fused args m).Mem b := by
      by_contra hnone
      refine hkeeps fun _ => ?_
      rw [hm, hhead]
      refine fun _ => ⟨?_, fun a ha hf => ?_⟩
      · by_contra hno
        have hself : args.Mem args.offset := ⟨Nat.le_refl _, Nat.lt_add_of_pos_right hpos⟩
        exact hnone ⟨args, mem_cons_self, hno, args.offset, hself, (hfused _).mpr (.inl hself)⟩
      · by_contra hno
        obtain ⟨c, hc, hcno, b, hcb, hab⟩ := h.needed a ha hno
        exact hnone ⟨c, mem_cons_of_mem args hc, hcno, b, hcb,
          (hfused b).mpr (.inr ⟨a, (hmem a).mpr ⟨ha, hf⟩, hab⟩)⟩
    obtain ⟨c, hc, hcno, b, hcb, hfb⟩ := hsome
    obtain ⟨a, ha, hab, haflag⟩ := hflushed.exists_range hc hcno hcb
    have ha' : a ∈ insertRange args t.ranges.toList := hlist ▸ ha
    have hfmem : fused args m ∈ insertRange args t.ranges.toList := by
      rw [insertRange, hm]
      exact mem_append_right _ mem_cons_self
    have heq := (h.apart.insertRange hpos).eq_of_mem ha' hfmem hab hfb
    rw [heq] at haflag
    exact haflag hflag

theorem FlushInv.request {op : Op} (h : FlushInv t) (hfresh : Fresh op t) (hkeeps : KeepsFlush op t)
    (hstep : request heap op t = some t') : FlushInv t' := by
  cases op with
  | xaddRange args => exact h.xaddRange hkeeps hstep
  | xalloc block => exact h.xalloc hfresh hstep

end Steps

instance (op : Op) (t : Requests) : Decidable (Fresh op t) :=
  match op with
  | .xaddRange _ => isTrue trivial
  | .xalloc block => inferInstanceAs (Decidable (0 < block.size ∧
      ∀ a ∈ t.ranges.toList, a.stop ≤ block.offset ∨ block.stop ≤ a.offset))

instance (op : Op) (t : Requests) : Decidable (KeepsFlush op t) :=
  match op with
  | .xaddRange args => decidable_of_iff
      (0 < args.size →
        ∀ f ∈ (t.ranges.toList.filter fun a => Fuses t.ranges.toList args a).head?,
          noFlush f.flags → noFlush args.flags ∧
            ∀ a ∈ t.ranges.toList, Fuses t.ranges.toList args a → noFlush a.flags)
      (imp_congr_right fun _ => by
        cases (t.ranges.toList.filter fun a => Fuses t.ranges.toList args a).head? <;> simp)
  | .xalloc _ => isTrue trivial

theorem flushed_iff (t : Requests) : (∀ c ∈ t.requested, ¬ noFlush c.flags →
      ∀ i < c.size, ∃ a ∈ t.preCommit, a.Mem (c.offset + i)) ↔ Flushed t := by
  refine forall₂_congr fun c _ => imp_congr_right fun _ => ⟨fun h b hb => ?_, fun h i hi => ?_⟩
  · have hlt := hb.2
    have hle := hb.1
    rw [Range.stop] at hlt
    have heq : c.offset + (b - c.offset) = b := by omega
    exact heq ▸ h (b - c.offset) (by omega)
  · exact h _ ⟨Nat.le_add_right _ _, Nat.add_lt_add_left hi _⟩

instance (t : Requests) : Decidable (Flushed t) := decidable_of_iff _ (flushed_iff t)

/-- As long as every call meets the condition, a commit flushes whatever was requested without the
flag, and the first call that does not meet it makes the commit miss a byte. -/
theorem flushed_run {heap : TxRange.Heap} {ops : List Op} {op : Op} {t t' : Requests}
    (hguard : Guarded (request heap) (fun op t => Fresh op t ∧ KeepsFlush op t) ops .empty)
    (hrun : run (request heap) ops .empty = some t) (hfresh : Fresh op t)
    (hstep : request heap op t = some t') : Flushed t ∧ (Flushed t' ↔ KeepsFlush op t) := by
  have hinit : FlushInv .empty :=
    ⟨exact_empty.apart, fun c hc => absurd hc List.not_mem_nil,
      fun a ha => absurd ha List.not_mem_nil⟩
  have ht : FlushInv t := run_invariant (fun op _ s u hs hg hstep => hs.request hg.1 hg.2 hstep)
    hguard hinit hrun
  refine ⟨ht.flushed, fun hflushed => ?_, fun hkeeps => (ht.request hfresh hkeeps hstep).flushed⟩
  by_contra hkeeps
  exact ht.not_flushed hkeeps hstep hflushed

/-- A range without the flag, one with it that touches it on the right, and an object. -/
theorem flushed_run_three : Flushed ⟨.node .nil 0 ⟨64, 16, 0⟩ .nil, [⟨72, 8, 2⟩, ⟨64, 8, 0⟩]⟩ ∧
    (Flushed ⟨.node .nil 1 ⟨64, 16, 0⟩ (.node .nil 0 ⟨128, 64, 2⟩ .nil),
      [⟨128, 64, 2⟩, ⟨72, 8, 2⟩, ⟨64, 8, 0⟩]⟩ ↔
      KeepsFlush (.xalloc ⟨128, 64, 2⟩)
        ⟨.node .nil 0 ⟨64, 16, 0⟩ .nil, [⟨72, 8, 2⟩, ⟨64, 8, 0⟩]⟩) :=
  @flushed_run ⟨0, 4096⟩ [.xaddRange ⟨64, 8, 0⟩, .xaddRange ⟨72, 8, 2⟩] _ _ _
    (by decide) (by decide) (by decide) (by decide)

/-- The second range touches one that has the flag, and is not flushed. -/
theorem not_flushed_adjacent : ∃ t, run (request ⟨0, 4096⟩)
    [.xaddRange ⟨64, 8, 2⟩, .xaddRange ⟨72, 8, 0⟩] .empty = some t ∧ ¬ Flushed t :=
  ⟨⟨.node .nil 0 ⟨64, 16, 2⟩ .nil, [⟨72, 8, 0⟩, ⟨64, 8, 2⟩]⟩, by decide, by decide⟩

/-! ## The bounds of a snapshot -/

structure HeapArea where
  heapOffset : UInt64
  heapSize : UInt64
  inside : heapOffset.toNat + heapSize.toNat < 2 ^ 64

/-- The checks of `pmemobj_tx_add_common`, in the arithmetic of `uint64_t`. -/
def addCommonChecks (heap : HeapArea) (offset size : UInt64) : Except String Unit :=
  if size > UInt64.ofNat TxRange.maxAllocSize then .error "snapshot size too large"
  else if offset < heap.heapOffset ∨ offset + size > heap.heapOffset + heap.heapSize then
    .error "object outside of heap"
  else .ok ()

def addRangeChecks (heap : HeapArea) (oidOff hoff size : UInt64) : Except String Unit :=
  addCommonChecks heap (oidOff + hoff) size

def InHeap (heap : HeapArea) (offset size : UInt64) : Prop :=
  size.toNat ≤ TxRange.maxAllocSize ∧
    Set.Ico offset.toNat (offset.toNat + size.toNat) ⊆
      Set.Ico heap.heapOffset.toNat (heap.heapOffset.toNat + heap.heapSize.toNat)

def EndWraps (heap : HeapArea) (offset size : UInt64) : Prop :=
  size.toNat ≤ TxRange.maxAllocSize ∧ heap.heapOffset ≤ offset ∧
    2 ^ 64 ≤ offset.toNat + size.toNat ∧
    offset.toNat + size.toNat ≤ 2 ^ 64 + (heap.heapOffset.toNat + heap.heapSize.toNat)

theorem addCommonChecks_ok_iff (heap : HeapArea) (offset size : UInt64) :
    addCommonChecks heap offset size = .ok () ↔
      size.toNat ≤ TxRange.maxAllocSize ∧ heap.heapOffset.toNat ≤ offset.toNat ∧
        (offset.toNat + size.toNat) % 2 ^ 64 ≤ heap.heapOffset.toNat + heap.heapSize.toNat := by
  have hmax : (UInt64.ofNat TxRange.maxAllocSize).toNat = TxRange.maxAllocSize := rfl
  have hend := UInt64.toNat_add heap.heapOffset heap.heapSize
  rw [Nat.mod_eq_of_lt heap.inside] at hend
  have hsum := UInt64.toNat_add offset size
  unfold addCommonChecks
  split
  · rename_i hsize
    have hsize := UInt64.lt_iff_toNat_lt.mp hsize
    exact ⟨fun h => (by cases h), fun h => absurd h.1 (Nat.not_le.mpr hsize)⟩
  · rename_i hsize
    rw [gt_iff_lt, UInt64.lt_iff_toNat_lt, hmax] at hsize
    split
    · rename_i hout
      rw [gt_iff_lt, UInt64.lt_iff_toNat_lt, UInt64.lt_iff_toNat_lt, hend, hsum] at hout
      refine ⟨fun h => (by cases h), fun h => ?_⟩
      omega
    · rename_i hin
      rw [gt_iff_lt, UInt64.lt_iff_toNat_lt, UInt64.lt_iff_toNat_lt, hend, hsum] at hin
      refine ⟨fun _ => ?_, fun _ => rfl⟩
      omega

theorem inHeap_of_checks_iff (heap : HeapArea) (oidOff hoff size : UInt64) :
    (addRangeChecks heap oidOff hoff size = .ok () → InHeap heap (oidOff + hoff) size) ↔
      ¬ EndWraps heap (oidOff + hoff) size := by
  unfold addRangeChecks InHeap EndWraps
  rw [addCommonChecks_ok_iff, UInt64.le_iff_toNat_le]
  generalize oidOff + hoff = offset
  have hinside := heap.inside
  have hoffset := offset.toNat_lt
  have hsmall : TxRange.maxAllocSize < 2 ^ 64 := by decide
  constructor
  · rintro h ⟨hsize, hle, hwrap, hlow⟩
    obtain ⟨-, hsub⟩ := h ⟨hsize, hle, by omega⟩
    -- the last byte of the address space is in the snapshot, but not in the heap
    have hlast := hsub (a := 2 ^ 64 - 1) ⟨by omega, by omega⟩
    have := hlast.2
    omega
  · rintro hnot ⟨hsize, hle, hend⟩
    refine ⟨hsize, Set.Ico_subset_Ico hle ?_⟩
    by_contra hover
    refine hnot ⟨hsize, hle, ?_, ?_⟩ <;> omega

/-- The last byte of the address space and the first one. -/
theorem not_inHeap_of_checks :
    ¬ ∀ (heap : HeapArea) (oidOff hoff size : UInt64),
      addRangeChecks heap oidOff hoff size = .ok () → InHeap heap (oidOff + hoff) size := by
  intro h
  have hchecks := inHeap_of_checks_iff ⟨0x3c0000, 0x400000, by decide⟩ 0x3c0550 (0 - 0x3c0551) 2
  refine hchecks.mp (h _ _ _ _) ?_
  exact ⟨by decide, by decide, by decide, by decide⟩

end Pmdk.TxTree
