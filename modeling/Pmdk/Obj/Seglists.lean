import Pmdk.Obj.Memblock
import Pmdk.Obj.Vecq

/-!
# Segregated lists

A container of free blocks of one run. It keeps one queue of offsets for each size from 1 to 64, and
a word that has a bit for each queue that is not empty. The best fit is the oldest block of the
first queue that is not empty, from that of the size on.
-/

namespace Pmdk.Seglists

open Memblock Function List

def SEGLIST_BLOCK_LISTS : Nat := 64

/-- `struct block_container_seglists`. -/
structure Container where
  m : MemoryBlock
  blocks : Nat → Vecq (Option Nat)
  nonemptyLists : BitVec 64

/-- `container_new_seglists`. The memory block is not initialized. -/
def Container.new (m : MemoryBlock) : Container := ⟨m, fun _ => Vecq.init, 0⟩

def blockOf (m : MemoryBlock) (sizeIdx blockOff : Nat) : MemoryBlock :=
  { m with blockOff := blockOff, sizeIdx := sizeIdx }

def Container.insertBlock (m : MemoryBlock) (c : Container) : Container :=
  let c := if c.nonemptyLists = 0 then { c with m := m } else c
  let i := m.sizeIdx - 1
  { c with
    blocks := update c.blocks i ((c.blocks i).enqueue (some m.blockOff))
    nonemptyLists := c.nonemptyLists ||| (1#64 <<< i) }

/-- `container_seglists_get_rm_block_bestfit`: the block, unless there is none, and the container
after it. The block is `none` if its offset is not one that has been stored. -/
def Container.getRmBlockBestfit (sizeIdx : Nat) (c : Container) :
    Option (Option MemoryBlock) × Container :=
  let sizeMask := (1#64 <<< (sizeIdx - 1)) - 1
  let v := c.nonemptyLists &&& ~~~sizeMask
  if v = 0 then (none, c)
  else
    let i := Bitmap.lssb v
    let q := (c.blocks i).dequeue
    (some ((c.blocks i).dequeued.map (blockOf c.m (i + 1))),
      { c with
        blocks := update c.blocks i q
        nonemptyLists :=
          if q.size = 0 then c.nonemptyLists &&& ~~~(1#64 <<< i) else c.nonemptyLists })

def Container.rmAll (c : Container) : Container :=
  { c with blocks := fun i => (c.blocks i).clear, nonemptyLists := 0 }

/-! ## Best fit -/

def bestfit (sizeIdx : Nat) (l : List MemoryBlock) : Option MemoryBlock :=
  (List.range' sizeIdx (SEGLIST_BLOCK_LISTS + 1 - sizeIdx)).findSome? fun k =>
    l.find? fun m => m.sizeIdx = k

def offsets (l : List MemoryBlock) (sizeIdx : Nat) : List (Option Nat) :=
  (l.filter fun m => m.sizeIdx = sizeIdx).map fun m => some m.blockOff

variable {l l' : List MemoryBlock} {m b : MemoryBlock} {sizeIdx k : Nat}

theorem bestfit_eq_none_iff (hl : ∀ m ∈ l, m.sizeIdx ≤ SEGLIST_BLOCK_LISTS) :
    bestfit sizeIdx l = none ↔ ∀ m ∈ l, m.sizeIdx < sizeIdx := by
  simp only [bestfit, findSome?_eq_none_iff, List.mem_range'_1, find?_eq_none, decide_eq_true_eq]
  constructor
  · intro h m hm
    by_contra hle
    have hlists := hl m hm
    exact h m.sizeIdx ⟨by omega, by omega⟩ m hm rfl
  · intro h k hk m hm heq
    have hlt := h m hm
    omega

theorem bestfit_eq_some_iff_find : bestfit sizeIdx l = some b ↔
    ∃ k, sizeIdx ≤ k ∧ k ≤ SEGLIST_BLOCK_LISTS ∧ (l.find? fun m => m.sizeIdx = k) = some b ∧
      ∀ j, sizeIdx ≤ j → j < k → ∀ m ∈ l, m.sizeIdx ≠ j := by
  simp only [bestfit, findSome?_eq_some_iff, List.range'_eq_append_iff, find?_eq_none,
    decide_eq_true_eq]
  constructor
  · rintro ⟨l₁, k, l₂, ⟨n, hn, rfl, hrest⟩, hfind, hfirst⟩
    obtain ⟨hk, hpos, -⟩ := List.range'_eq_cons_iff.mp hrest.symm
    refine ⟨k, by omega, by omega, hfind, fun j hle hlt => hfirst j ?_⟩
    rw [List.mem_range'_1]
    omega
  · rintro ⟨k, hle, hk, hfind, hfirst⟩
    refine ⟨List.range' sizeIdx (k - sizeIdx), k, _, ⟨k - sizeIdx, by omega, rfl,
      (List.range'_eq_cons_iff.mpr ⟨by omega, by omega, rfl⟩).symm⟩, hfind, fun j hj => ?_⟩
    rw [List.mem_range'_1] at hj
    exact hfirst j hj.1 (by omega)

theorem offsets_append (l l' : List MemoryBlock) (sizeIdx : Nat) :
    offsets (l ++ l') sizeIdx = offsets l sizeIdx ++ offsets l' sizeIdx := by
  simp [offsets]

theorem offsets_cons (m : MemoryBlock) (l : List MemoryBlock) (sizeIdx : Nat) :
    offsets (m :: l) sizeIdx =
      if m.sizeIdx = sizeIdx then some m.blockOff :: offsets l sizeIdx
      else offsets l sizeIdx := by
  unfold offsets
  by_cases h : m.sizeIdx = sizeIdx
  · simp [h]
  · simp [h]

theorem offsets_eq_nil_iff : offsets l sizeIdx = [] ↔ ∀ m ∈ l, m.sizeIdx ≠ sizeIdx := by
  simp [offsets]

theorem offsets_erase (hfind : (l.find? fun m => m.sizeIdx = sizeIdx) = some b) (j : Nat) :
    offsets l j = if j = sizeIdx then some b.blockOff :: offsets (l.erase b) j
      else offsets (l.erase b) j := by
  obtain ⟨hsize, l₁, l₂, rfl, hfirst⟩ := find?_eq_some_iff_append.mp hfind
  rw [decide_eq_true_eq] at hsize
  simp only [Bool.not_eq_true', decide_eq_false_iff_not] at hfirst
  have hnot : b ∉ l₁ := fun hmem => hfirst b hmem hsize
  rw [erase_append_right _ hnot, erase_cons_head, offsets_append, offsets_append,
    offsets_cons, hsize]
  by_cases hj : j = sizeIdx
  · subst hj
    rw [if_pos rfl, if_pos rfl, offsets_eq_nil_iff.mpr hfirst, nil_append, nil_append]
  · rw [if_neg hj, if_neg (Ne.symm hj)]

/-! ## Runs -/

abbrev Size := { sizeIdx : Nat // 0 < sizeIdx ∧ sizeIdx ≤ SEGLIST_BLOCK_LISTS }

inductive Op
  | insertBlock (sizeIdx : Size) (blockOff : Nat)
  | getRmBlockBestfit (sizeIdx : Size)
  | rmAll
  deriving DecidableEq

structure State where
  container : Container
  stored : List MemoryBlock

def exec (m : MemoryBlock) : Op → State → Option State
  | .insertBlock sizeIdx blockOff, s =>
    some ⟨s.container.insertBlock (blockOf m sizeIdx blockOff),
      s.stored ++ [blockOf m sizeIdx blockOff]⟩
  | .getRmBlockBestfit sizeIdx, s =>
    some ⟨(s.container.getRmBlockBestfit sizeIdx).2,
      (bestfit sizeIdx s.stored).elim s.stored s.stored.erase⟩
  | .rmAll, s => some ⟨s.container.rmAll, []⟩

def State.Represents (s : State) : Prop :=
  ∀ i < SEGLIST_BLOCK_LISTS, (s.container.blocks i).contents = offsets s.stored (i + 1)

def Answers : Op → State → Prop
  | .getRmBlockBestfit sizeIdx, s =>
    (s.container.getRmBlockBestfit sizeIdx).1 = (bestfit sizeIdx s.stored).map some
  | _, _ => True

def Faithful (m : MemoryBlock) (op : Op) (s : State) : Prop :=
  Answers op s ∧ ∀ t, exec m op s = some t → t.Represents

def Aligned : Op → State → Prop
  | .insertBlock sizeIdx _, s => (s.container.blocks (sizeIdx - 1)).Aligned
  | _, _ => True

instance (op : Op) (s : State) : Decidable (Aligned op s) :=
  match op with
  | .insertBlock _ _ => inferInstanceAs (Decidable (Vecq.Aligned _))
  | .getRmBlockBestfit _ => isTrue trivial
  | .rmAll => isTrue trivial

structure Inv (r : MemoryBlock) (s : State) : Prop where
  bounded : ∀ i, (s.container.blocks i).Bounded
  fresh : ∀ i, (s.container.blocks i).Fresh
  represents : s.Represents
  stored : ∀ m ∈ s.stored, 0 < m.sizeIdx ∧ m.sizeIdx ≤ SEGLIST_BLOCK_LISTS ∧
    m = blockOf r m.sizeIdx m.blockOff
  nonempty : ∀ i < SEGLIST_BLOCK_LISTS,
    s.container.nonemptyLists.getLsbD i = true ↔ (s.container.blocks i).size ≠ 0
  run : s.container.nonemptyLists ≠ 0 →
    ∀ sizeIdx blockOff, blockOf s.container.m sizeIdx blockOff = blockOf r sizeIdx blockOff

variable {r : MemoryBlock} {s t : State}

theorem inv_new (r m : MemoryBlock) : Inv r ⟨Container.new m, []⟩ where
  bounded _ := ⟨Nat.le_refl 0, Nat.le_refl 0, .inl rfl⟩
  fresh _ _ _ := rfl
  represents _ _ := rfl
  stored _ hm := absurd hm not_mem_nil
  nonempty _ _ := by simp [Container.new, Vecq.init, Vecq.size]
  run h := absurd rfl h

theorem Inv.size_ne_zero_iff (h : Inv r s) {i : Nat} (hi : i < SEGLIST_BLOCK_LISTS) :
    (s.container.blocks i).size ≠ 0 ↔ ∃ m ∈ s.stored, m.sizeIdx = i + 1 := by
  rw [← Vecq.length_contents, h.represents i hi, Ne, length_eq_zero_iff, offsets_eq_nil_iff]
  push Not
  exact Iff.rfl

theorem Inv.rmAll (h : Inv r s) : Inv r ⟨s.container.rmAll, []⟩ where
  bounded i := (h.bounded i).clear
  fresh i := h.fresh i
  represents _ _ := rfl
  stored _ hm := absurd hm not_mem_nil
  nonempty _ _ := by simp [Container.rmAll]
  run h := absurd rfl h

theorem blocks_insertBlock (m : MemoryBlock) (c : Container) :
    (c.insertBlock m).blocks = update c.blocks (m.sizeIdx - 1)
      ((c.blocks (m.sizeIdx - 1)).enqueue (some m.blockOff)) := by
  unfold Container.insertBlock
  split <;> rfl

theorem nonemptyLists_insertBlock (m : MemoryBlock) (c : Container) :
    (c.insertBlock m).nonemptyLists = c.nonemptyLists ||| (1#64 <<< (m.sizeIdx - 1)) := by
  unfold Container.insertBlock
  split <;> rfl

section

variable (h : Inv r s)

include h

theorem blockOf_insertBlock (sizeIdx blockOff sizeIdx' blockOff' : Nat) :
    blockOf (s.container.insertBlock (blockOf r sizeIdx blockOff)).m sizeIdx' blockOff' =
      blockOf r sizeIdx' blockOff' := by
  unfold Container.insertBlock
  by_cases hempty : s.container.nonemptyLists = 0
  · rw [if_pos hempty]
    rfl
  · rw [if_neg hempty]
    exact h.run hempty _ _

theorem Inv.insertBlock (sizeIdx : Size) (blockOff : Nat)
    (haligned : (s.container.blocks (sizeIdx - 1)).Aligned) :
    Inv r ⟨s.container.insertBlock (blockOf r sizeIdx blockOff),
      s.stored ++ [blockOf r sizeIdx blockOff]⟩ := by
  obtain ⟨n, hpos, hn⟩ := sizeIdx
  have hq := h.bounded (n - 1)
  have hcontents := hq.contents_enqueue haligned (some blockOff)
  have hat : ∀ i, (s.container.insertBlock (blockOf r n blockOff)).blocks i =
      if i = n - 1 then (s.container.blocks (n - 1)).enqueue (some blockOff)
      else s.container.blocks i := by
    intro i
    rw [blocks_insertBlock, update_apply]
    rfl
  refine ⟨fun i => ?_, fun i => ?_, fun i hi => ?_, fun m hm => ?_, fun i hi => ?_,
    fun _ => blockOf_insertBlock h n blockOff⟩
  · dsimp only
    rw [hat]
    split
    · exact hq.enqueue _
    · exact h.bounded i
  · dsimp only
    rw [hat]
    split
    · exact (h.fresh (n - 1)).enqueue hq _
    · exact h.fresh i
  · have hlist : blockOf r n blockOff = { r with blockOff := blockOff, sizeIdx := n } := rfl
    dsimp only
    rw [hat, offsets_append, offsets_cons, hlist]
    by_cases hin : i = n - 1
    · rw [if_pos hin, if_pos (show n = i + 1 by omega), hcontents, ← hin, h.represents i hi]
      rfl
    · rw [if_neg hin, if_neg (show n ≠ i + 1 by omega), h.represents i hi]
      exact (append_nil _).symm
  · rcases mem_append.mp hm with hm | hm
    · exact h.stored m hm
    · rw [mem_singleton.mp hm]
      exact ⟨hpos, hn, rfl⟩
  · have hbit : (1#64 <<< ((blockOf r n blockOff).sizeIdx - 1)).getLsbD i = decide (i = n - 1) :=
      Bitmap.getLsbD_one_shiftLeft
          (show n - 1 < 64 by simp only [SEGLIST_BLOCK_LISTS] at hn; omega) i
    dsimp only
    rw [nonemptyLists_insertBlock, BitVec.getLsbD_or, hbit, Bool.or_eq_true, h.nonempty i hi,
      decide_eq_true_eq, hat]
    by_cases hin : i = n - 1
    · have hlen := congrArg List.length hcontents
      rw [Vecq.length_contents, length_append] at hlen
      rw [if_pos hin, hlen]
      simp [hin]
    · rw [if_neg hin]
      simp [hin]

theorem Inv.getRmBlockBestfit_eq (sizeIdx : Size) :
    (s.container.getRmBlockBestfit sizeIdx = (none, s.container) ∧
        bestfit sizeIdx s.stored = none) ∨
      ∃ i b q, i < SEGLIST_BLOCK_LISTS ∧ bestfit sizeIdx s.stored = some b ∧
        (s.stored.find? fun m => m.sizeIdx = i + 1) = some b ∧
        q = s.container.blocks i ∧ q.size ≠ 0 ∧ s.container.nonemptyLists ≠ 0 ∧
        s.container.getRmBlockBestfit sizeIdx =
          (some (q.dequeued.map (blockOf s.container.m (i + 1))),
            { s.container with
              blocks := update s.container.blocks i q.dequeue
              nonemptyLists :=
                if q.dequeue.size = 0 then s.container.nonemptyLists &&& ~~~(1#64 <<< i)
                else s.container.nonemptyLists }) := by
  obtain ⟨n, hpos, hn⟩ := sizeIdx
  unfold Container.getRmBlockBestfit
  dsimp only
  generalize hv : s.container.nonemptyLists &&& ~~~((1#64 <<< (n - 1)) - 1) = v
  -- the bits of the lists that are large enough and not empty
  have hbit : ∀ i < SEGLIST_BLOCK_LISTS,
      v.getLsbD i = true ↔ n ≤ i + 1 ∧ ∃ m ∈ s.stored, m.sizeIdx = i + 1 := by
    intro i hi
    simp only [SEGLIST_BLOCK_LISTS] at hn hi
    rw [← hv, BitVec.getLsbD_and, Bool.and_eq_true, h.nonempty i hi, h.size_ne_zero_iff hi,
      BitVec.getLsbD_not, Bitmap.getLsbD_mask (by omega)]
    simp only [hi, decide_true, Bool.true_and, Bool.not_eq_true', decide_eq_false_iff_not]
    rw [and_comm]
    refine and_congr_left fun _ => ?_
    omega
  by_cases hzero : v = 0
  · rw [if_pos hzero]
    refine .inl ⟨rfl, (bestfit_eq_none_iff fun m hm => (h.stored m hm).2.1).mpr fun m hm => ?_⟩
    obtain ⟨hmpos, hmle, -⟩ := h.stored m hm
    by_contra hle
    have hset := (hbit (m.sizeIdx - 1) (by omega)).mpr ⟨by omega, m, hm, by omega⟩
    rw [hzero] at hset
    simp at hset
  · rw [if_neg hzero]
    have hlt : Bitmap.lssb v < SEGLIST_BLOCK_LISTS := Bitmap.lssb_lt hzero
    obtain ⟨hle, m, hm, hsize⟩ := (hbit _ hlt).mp (Bitmap.getLsbD_lssb hzero)
    obtain ⟨b, hb⟩ : ∃ b, (s.stored.find? fun m => m.sizeIdx = Bitmap.lssb v + 1) = some b := by
      rw [← Option.isSome_iff_exists, find?_isSome]
      exact ⟨m, hm, decide_eq_true hsize⟩
    refine .inr ⟨_, b, _, hlt, bestfit_eq_some_iff_find.mpr ⟨_, hle, hlt, hb, ?_⟩, hb, rfl,
      (h.size_ne_zero_iff hlt).mpr ⟨m, hm, hsize⟩, ?_, rfl⟩
    · intro j hj hjlt m' hm' heq
      have hmpos := (h.stored m' hm').1
      have hclear := Bitmap.getLsbD_of_lt_lssb (v := v) (j := j - 1) (by omega)
      rw [(hbit (j - 1) (by omega)).mpr ⟨by omega, m', hm', by omega⟩] at hclear
      cases hclear
    · intro hempty
      rw [hempty] at hv
      exact hzero (by rw [← hv]; exact BitVec.zero_and)

theorem Inv.getRmBlockBestfit (sizeIdx : Size) :
    (s.container.getRmBlockBestfit sizeIdx).1 = (bestfit sizeIdx s.stored).map some ∧
      Inv r ⟨(s.container.getRmBlockBestfit sizeIdx).2,
        (bestfit sizeIdx s.stored).elim s.stored s.stored.erase⟩ := by
  rcases h.getRmBlockBestfit_eq sizeIdx with
    ⟨hget, hnone⟩ | ⟨i, b, q, hi, hbest, hfind, rfl, hsize, hne, hget⟩
  · rw [hget, hnone]
    exact ⟨rfl, h⟩
  · obtain ⟨hbsize, -⟩ := find?_eq_some_iff_append.mp hfind
    rw [decide_eq_true_eq] at hbsize
    have hstored := (h.stored b (mem_of_find?_eq_some hfind)).2.2
    -- the queue of the size before and after
    have hcons := Vecq.contents_eq_cons hsize
    rw [h.represents i hi, offsets_erase hfind, if_pos rfl] at hcons
    obtain ⟨hhead, htail⟩ := List.cons.inj hcons
    rw [hget, hbest]
    refine ⟨?_, fun j => ?_, fun j => ?_, fun j hj => ?_, fun m hm => ?_, fun j hj => ?_, ?_⟩
    · dsimp only
      rw [← hhead, Option.map_some, Option.map_some, h.run hne, ← hbsize, ← hstored]
    · dsimp only
      rw [update_apply]
      split
      · exact (h.bounded i).dequeue hsize
      · exact h.bounded j
    · dsimp only
      rw [update_apply]
      split
      · exact h.fresh i
      · exact h.fresh j
    · dsimp only
      rw [update_apply, Option.elim_some]
      by_cases hji : j = i
      · rw [if_pos hji, ← htail, hji]
      · rw [if_neg hji, h.represents j hj, offsets_erase hfind, if_neg (by omega)]
    · exact h.stored m (mem_of_mem_erase hm)
    · have hclear : (s.container.nonemptyLists &&& ~~~(1#64 <<< i)).getLsbD j =
          (s.container.nonemptyLists.getLsbD j && !decide (j = i)) := by
        simp only [SEGLIST_BLOCK_LISTS] at hi hj
        rw [BitVec.getLsbD_and, BitVec.getLsbD_not, Bitmap.getLsbD_one_shiftLeft hi,
          decide_eq_true hj, Bool.true_and]
      dsimp only
      rw [update_apply]
      by_cases hji : j = i
      · rw [if_pos hji]
        split
        · rename_i hlast
          simp [hji, hlast]
        · rename_i hlast
          rw [h.nonempty j hj, hji]
          exact iff_of_true hsize hlast
      · rw [if_neg hji, ← h.nonempty j hj]
        split
        · simp [hclear, hji]
        · exact Iff.rfl
    · exact fun _ => h.run hne

/-! ## Main theorem -/

theorem Inv.not_represents (sizeIdx : Size) (blockOff : Nat)
    (haligned : ¬ (s.container.blocks (sizeIdx - 1)).Aligned) :
    ¬ State.Represents ⟨s.container.insertBlock (blockOf r sizeIdx blockOff),
      s.stored ++ [blockOf r sizeIdx blockOff]⟩ := by
  intro hrep
  have hsize := sizeIdx.2
  have hlost := (h.fresh (sizeIdx - 1)).none_mem_contents (h.bounded _) haligned (some blockOff)
  have hat : (s.container.insertBlock (blockOf r sizeIdx blockOff)).blocks (sizeIdx - 1) =
      (s.container.blocks (sizeIdx - 1)).enqueue (some blockOff) := by
    rw [blocks_insertBlock]
    exact update_self _ _ _
  have hcontents := hrep (sizeIdx - 1) (by omega)
  dsimp only at hcontents
  rw [hat] at hcontents
  rw [hcontents] at hlost
  simp [offsets] at hlost

/-- An operation is faithful if and only if no queue loses an element. -/
theorem Inv.faithful_iff (op : Op) : Faithful r op s ↔ Aligned op s := by
  cases op with
  | insertBlock sizeIdx blockOff =>
    constructor
    · intro hfaithful
      by_contra hlost
      exact h.not_represents sizeIdx blockOff hlost (hfaithful.2 _ rfl)
    · intro haligned
      refine ⟨trivial, fun t ht => ?_⟩
      cases ht
      exact (h.insertBlock sizeIdx blockOff haligned).represents
  | getRmBlockBestfit sizeIdx =>
    obtain ⟨hanswer, hinv⟩ := h.getRmBlockBestfit sizeIdx
    refine iff_of_true ⟨hanswer, fun t ht => ?_⟩ trivial
    cases ht
    exact hinv.represents
  | rmAll =>
    refine iff_of_true ⟨trivial, fun t ht => ?_⟩ trivial
    cases ht
    exact h.rmAll.represents

theorem Inv.exec {op : Op} (hop : Aligned op s) (ht : exec r op s = some t) :
    Inv r t := by
  cases op with
  | insertBlock sizeIdx blockOff =>
    cases ht
    exact h.insertBlock sizeIdx blockOff hop
  | getRmBlockBestfit sizeIdx =>
    cases ht
    exact (h.getRmBlockBestfit sizeIdx).2
  | rmAll =>
    cases ht
    exact h.rmAll

end

/-- From an empty container on, every operation is faithful if and only if no queue grows whose
first element would have to be moved. -/
theorem faithful_iff_aligned (r m : MemoryBlock) (ops : List Op) :
    Transition.Guarded (exec r) (Faithful r) ops ⟨Container.new m, []⟩ ↔
      Transition.Guarded (exec r) Aligned ops ⟨Container.new m, []⟩ :=
  Transition.guarded_congr (fun op _ h => h.faithful_iff op)
    (fun op _ _ h hop ht => h.exec ((h.faithful_iff op).mp hop) ht) ops (inv_new r m)

def unit : Size := ⟨1, by decide, by decide⟩

/-- Blocks until the queue is full, one that is taken and two that are put in its place, and the
blocks that have not wrapped around. -/
def wrapped : List Op :=
  (List.range 64).map (.insertBlock unit ·) ++
    [.getRmBlockBestfit unit, .insertBlock unit 64, .insertBlock unit 65] ++
    List.replicate 63 (.getRmBlockBestfit unit)

def ofRun : MemoryBlock := ⟨⟨0, 0, 0⟩, 1, .compact, .run⟩

/-- The queue grows with an element that has wrapped around. When its turn comes, the block that is
returned has an offset that nobody has stored. -/
theorem not_faithful_wrapped :
    ¬ Transition.Guarded (exec ofRun) (Faithful ofRun) wrapped ⟨Container.new ofRun, []⟩ ∧
      (Transition.run (exec ofRun) wrapped ⟨Container.new ofRun, []⟩).map (fun s =>
        ((s.container.getRmBlockBestfit 1).1, bestfit 1 s.stored)) =
          some (some none, some (blockOf ofRun 1 64)) := by
  constructor
  · rw [faithful_iff_aligned]
    decide +kernel
  · decide +kernel

end Pmdk.Seglists
