import Pmdk.Obj.TxRangeAdd

/-!
# An abort restores the memory

As long as `pmemobj_tx_free` removes no node that covers more than the object that is given
back, every byte of an object that is older than the transaction is snapshotted at most once,
before it is changed for the first time.
-/

namespace Pmdk.TxRange

open Function List

section Abort

variable (pre : List Block)

def PreMem (b : Nat) : Prop := ∃ P ∈ pre, P.Mem b

def Live (s : State) (b : Nat) : Prop := PreMem pre b ∨ ∃ B ∈ s.allocated, B.Mem b

/-- What a program may do: it adds ranges of allocated objects, frees allocated objects and
stores to what it has added or allocated. The heap hands out blocks that are not in use. -/
def Allowed (op : Op) (s : State) : Prop :=
  match op with
  | .addRange offset size _ => ∀ b, offset ≤ b → b < offset + size → Live pre s b
  | .alloc block _ _ => ∀ b, block.Mem b → ¬ Live pre s b
  | .free offset => (∃ P ∈ pre, P.offset = offset) ∨ ∃ B ∈ s.allocated, B.offset = offset
  | .store addr _ => (∃ r ∈ s.added, r.1 ≤ addr ∧ addr < r.1 + r.2) ∨
      ∃ B ∈ s.allocated, B.Mem addr
  | .abort => True

def RemovesOwn (op : Op) (s : State) : Prop :=
  match op with
  | .free offset => ∀ n, s.tx.ranges offset = some n →
      (∃ a ∈ s.tx.actions, a.heapOffset = some offset) →
      ∃ B ∈ s.allocated, B.offset = offset ∧ n.size ≤ B.size
  | _ => True

instance (b : Nat) : Decidable (PreMem pre b) :=
  inferInstanceAs (Decidable (∃ P ∈ pre, P.Mem b))

instance (s : State) (b : Nat) : Decidable (Live pre s b) :=
  inferInstanceAs (Decidable (_ ∨ ∃ B ∈ s.allocated, B.Mem b))

instance (op : Op) (s : State) : Decidable (Allowed pre op s) :=
  match op with
  | .addRange offset size _ => inferInstanceAs
      (Decidable (∀ b, offset ≤ b → b < offset + size → Live pre s b))
  | .alloc block _ _ => decidable_of_iff
      (∀ b, block.offset ≤ b → b < block.offset + block.size → ¬ Live pre s b)
      ⟨fun h b hb => h b hb.1 hb.2, fun h b hlo hhi => h b ⟨hlo, hhi⟩⟩
  | .free offset => inferInstanceAs
      (Decidable ((∃ P ∈ pre, P.offset = offset) ∨ ∃ B ∈ s.allocated, B.offset = offset))
  | .store addr _ => inferInstanceAs
      (Decidable ((∃ r ∈ s.added, r.1 ≤ addr ∧ addr < r.1 + r.2) ∨
        ∃ B ∈ s.allocated, B.Mem addr))
  | .abort => isTrue trivial

instance (op : Op) (s : State) : Decidable (RemovesOwn op s) :=
  match op with
  | .free offset => decidable_of_iff
      (∀ n ∈ s.tx.ranges offset, (∃ a ∈ s.tx.actions, a.heapOffset = some offset) →
        ∃ B ∈ s.allocated, B.offset = offset ∧ n.size ≤ B.size)
      Iff.rfl
  | .addRange _ _ _ => isTrue trivial
  | .alloc _ _ _ => isTrue trivial
  | .store _ _ => isTrue trivial
  | .abort => isTrue trivial

/-- The bytes of the older objects are as in `mem₀`. -/
def Restored (mem₀ : Nat → UInt8) (s : State) : Prop := ∀ b, PreMem pre b → s.mem b = mem₀ b

structure Inv (mem₀ : Nat → UInt8) (s : State) : Prop where
  apart : Apart s.tx.ranges
  live : ∀ b ∈ covered s.tx.ranges, Live pre s b
  disjoint : ∀ B ∈ s.allocated, ∀ b, B.Mem b → ¬ PreMem pre b ∧
    ∀ B' ∈ s.allocated, B'.Mem b → B' = B
  inside : ∀ B ∈ s.allocated, ∃ k n, s.tx.ranges k = some n ∧ k ≤ B.offset ∧
    B.offset + B.size ≤ k + n.size
  reserved : ∀ B ∈ s.allocated, .alloc B.offset ∈ s.tx.actions
  freed : ∀ o, .free o ∈ s.tx.actions →
    (∃ P ∈ pre, P.offset = o) ∨ ∃ B ∈ s.allocated, B.offset = o
  merged : ∀ B ∈ s.allocated, .free B.offset ∈ s.tx.actions → s.tx.ranges B.offset = none
  recorded : ∀ w ∈ s.tx.undo.entries.flatMap Entry.assigns, PreMem pre w.1 → w.2 = mem₀ w.1
  snapshot : ∀ b, PreMem pre b → (b ∈ covered s.tx.ranges ↔
    ∃ w ∈ s.tx.undo.entries.flatMap Entry.assigns, w.1 = b)
  unchanged : ∀ b, PreMem pre b → b ∉ covered s.tx.ranges → s.mem b = mem₀ b
  added : ∀ r ∈ s.added, ∀ b, r.1 ≤ b → b < r.1 + r.2 → PreMem pre b →
    b ∈ covered s.tx.ranges

variable {pre} {mem₀ : Nat → UInt8} {s t : State}

theorem Block.mem_offset (B : Block) : B.Mem B.offset :=
  ⟨Nat.le_refl _, Nat.lt_add_of_pos_right B.pos⟩

/-- Applying the entries restores what they hold, and the rest was not changed. -/
theorem restored_abort
    (hrecorded : ∀ w ∈ s.tx.undo.entries.flatMap Entry.assigns, PreMem pre w.1 →
      w.2 = mem₀ w.1)
    (hrest : ∀ b, PreMem pre b →
      (∃ w ∈ s.tx.undo.entries.flatMap Entry.assigns, w.1 = b) ∨ s.mem b = mem₀ b) :
    Restored pre mem₀ s.abort := by
  intro b hb
  refine Assign.assign_of_forall_eq (fun w hw hwb => ?_) (hrest b hb)
  rw [← hwb] at hb ⊢
  exact hrecorded w hw hb

theorem Inv.abort (h : Inv pre mem₀ s) : Restored pre mem₀ s.abort := by
  refine restored_abort h.recorded fun b hb => ?_
  by_cases hcov : b ∈ covered s.tx.ranges
  · exact .inl ((h.snapshot b hb).mp hcov)
  · exact .inr (h.unchanged b hb hcov)

theorem inv_begin (mem₀ : Nat → UInt8) (ulogs : List Nat) :
    Inv pre mem₀ (State.begin mem₀ ulogs) where
  apart := ⟨nofun, nofun⟩
  live := by
    rintro b ⟨k, n, hk, -⟩
    cases hk
  disjoint := nofun
  inside := nofun
  reserved := nofun
  freed := nofun
  merged := nofun
  recorded := nofun
  snapshot := by
    refine fun b _ => ⟨?_, ?_⟩
    · rintro ⟨k, n, hk, -⟩
      cases hk
    · rintro ⟨w, hw, -⟩
      cases hw
  unchanged := fun _ _ _ => rfl
  added := nofun

/-! ## Adding a range -/

theorem Inv.recorded_of_adds (h : Inv pre mem₀ s) {I : Set Nat} {r : Tx × Bool}
    (hadds : Adds s.mem I s.tx r) :
    ∀ w ∈ r.1.undo.entries.flatMap Entry.assigns, PreMem pre w.1 → w.2 = mem₀ w.1 := by
  obtain ⟨new, S, hes, hnew, hsub, -, -⟩ := hadds
  intro w hw hpre
  rw [hes, flatMap_append, mem_append] at hw
  rcases hw with hw | hw
  · exact h.recorded w hw hpre
  · obtain ⟨hS, hval⟩ := (hnew w).mp hw
    rw [hval]
    exact h.unchanged w.1 hpre (hsub hS).2

theorem Inv.addRange (h : Inv pre mem₀ s) {offset size : Nat} {tx : Tx}
    (hlive : ∀ b, offset ≤ b → b < offset + size → Live pre s b)
    (hadds : Adds s.mem (Set.Ico offset (offset + size)) s.tx (tx, true)) :
    Inv pre mem₀ { s with tx, added := (offset, size) :: s.added } := by
  have hrecorded := h.recorded_of_adds hadds
  obtain ⟨new, S, hes, hnew, -, hactions, hok⟩ := hadds
  obtain ⟨rfl, hext⟩ := hok rfl
  have hcov : ∀ b, b ∈ covered tx.ranges ↔
      b ∈ covered s.tx.ranges ∨ offset ≤ b ∧ b < offset + size := by
    intro b
    rw [hext.covered_eq]
    rfl
  have halloc : ∀ o, .alloc o ∈ tx.actions ↔ .alloc o ∈ s.tx.actions := fun o =>
    hactions (.alloc o) nofun
  have hfree : ∀ o, .free o ∈ tx.actions ↔ .free o ∈ s.tx.actions := fun o =>
    hactions (.free o) nofun
  exact {
    apart := hext.apart
    live := fun b hb => ((hcov b).mp hb).elim (h.live b) fun hb => hlive b hb.1 hb.2
    disjoint := h.disjoint
    inside := by
      intro B hB
      obtain ⟨k, n, hk, hle, hend⟩ := h.inside B hB
      obtain ⟨k', n', hk', hle', hend'⟩ := hext.inside hk
      exact ⟨k', n', hk', Nat.le_trans hle' hle, Nat.le_trans hend hend'⟩
    reserved := fun B hB => (halloc B.offset).mpr (h.reserved B hB)
    freed := fun o ho => h.freed o ((hfree o).mp ho)
    merged := by
      intro B hB hB'
      obtain ⟨k, n, hk, hle, hend⟩ := h.inside B hB
      have hpos := B.pos
      exact hext.starts ⟨k, n, hk, hle, by omega⟩ (h.merged B hB ((hfree B.offset).mp hB'))
    recorded := hrecorded
    snapshot := by
      intro b hb
      have hold := h.snapshot b hb
      show _ ↔ ∃ w ∈ tx.undo.entries.flatMap Entry.assigns, w.1 = b
      rw [hcov, hes, flatMap_append]
      constructor
      · intro hb'
        by_cases hc : b ∈ covered s.tx.ranges
        · obtain ⟨w, hw, hwb⟩ := hold.mp hc
          exact ⟨w, mem_append_left _ hw, hwb⟩
        · have hw := (hnew (b, s.mem b)).mpr ⟨⟨hb'.resolve_left hc, hc⟩, rfl⟩
          exact ⟨_, mem_append_right _ hw, rfl⟩
      · rintro ⟨w, hw, rfl⟩
        rcases mem_append.mp hw with hw | hw
        · exact .inl (hold.mpr ⟨w, hw, rfl⟩)
        · exact .inr ((hnew w).mp hw).1.1
    unchanged := fun b hb hc => h.unchanged b hb fun hc' => hc ((hcov b).mpr (.inl hc'))
    added := by
      intro r hr b hlo hhi hb
      rcases mem_cons.mp hr with rfl | hr
      · exact (hcov b).mpr (.inr ⟨hlo, hhi⟩)
      · exact (hcov b).mpr (.inl (h.added r hr b hlo hhi hb)) }

/-- When a snapshot fails, the transaction is aborted with what was recorded until then. -/
theorem Inv.restored_of_fail (h : Inv pre mem₀ s) {I : Set Nat} {tx : Tx}
    (hadds : Adds s.mem I s.tx (tx, false)) : Restored pre mem₀ { s with tx }.abort := by
  refine restored_abort (h.recorded_of_adds hadds) fun b hb => ?_
  obtain ⟨new, S, hes, -, -, -, -⟩ := hadds
  by_cases hcov : b ∈ covered s.tx.ranges
  · obtain ⟨w, hw, hwb⟩ := (h.snapshot b hb).mp hcov
    refine .inl ⟨w, ?_, hwb⟩
    show w ∈ tx.undo.entries.flatMap Entry.assigns
    rw [hes, flatMap_append]
    exact mem_append_left _ hw
  · exact .inr (h.unchanged b hb hcov)

/-! ## Allocating -/

theorem Inv.alloc (h : Inv pre mem₀ s) {block : Block} {flags : Nat} {data : Nat → UInt8}
    {ranges : Nat → Option Node} (hfresh : ∀ b, block.Mem b → ¬ Live pre s b)
    (hranges : ravlEmplace s.tx.ranges block.offset ⟨block.size, flags⟩ = some ranges) :
    Inv pre mem₀ { s with
      mem := fun a => if block.Mem a then data a else s.mem a
      tx := { s.tx with ranges, actions := s.tx.actions ++ [.alloc block.offset] }
      allocated := block :: s.allocated } := by
  have hpos := block.pos
  have hside : ∀ {k n}, s.tx.ranges k = some n →
      k + n.size ≤ block.offset ∨ block.offset + block.size ≤ k := by
    intro k n hk
    have hn := h.apart.pos hk
    by_contra hover
    -- the two intervals overlap at the larger of the two offsets
    refine hfresh (max k block.offset) ⟨by omega, by omega⟩ (h.live _ ⟨k, n, hk, ?_, ?_⟩) <;> omega
  have hnone : ∀ j, block.offset ≤ j → j < block.offset + block.size → s.tx.ranges j = none := by
    intro j hj hlt
    cases hn : s.tx.ranges j with
    | none => rfl
    | some n =>
      have := hside hn
      have := h.apart.pos hn
      omega
  rw [ravlEmplace_eq_fuse hpos flags hnone, Option.some.injEq] at hranges
  subst hranges
  have hext := extends_fuse h.apart flags (show block.offset < block.offset + block.size by omega)
    fun hk => (hside hk).imp_right .inl
  have hcov : ∀ b, b ∈ covered (fuse s.tx.ranges block.offset (block.offset + block.size) flags) ↔
      b ∈ covered s.tx.ranges ∨ block.Mem b := by
    intro b
    rw [hext.covered_eq]
    rfl
  have hpre : ∀ b, PreMem pre b → ¬ block.Mem b := fun b hb hB => hfresh b hB (.inl hb)
  have hfree : ∀ o, .free o ∈ s.tx.actions ++ [.alloc block.offset] → .free o ∈ s.tx.actions := by
    intro o ho
    simpa using ho
  exact {
    apart := hext.apart
    live := by
      intro b hb
      rcases (hcov b).mp hb with hb | hb
      · exact (h.live b hb).imp_right fun ⟨B, hB, hBb⟩ => ⟨B, mem_cons_of_mem _ hB, hBb⟩
      · exact .inr ⟨block, mem_cons_self, hb⟩
    disjoint := by
      intro B hB b hBb
      have hboth : ∀ B ∈ s.allocated, B.Mem b → ¬ block.Mem b := fun B hB hBb hb =>
        hfresh b hb (.inr ⟨B, hB, hBb⟩)
      rcases mem_cons.mp hB with rfl | hold
      · refine ⟨fun hb => hpre b hb hBb, fun B' hB' hb' => ?_⟩
        exact (mem_cons.mp hB').resolve_right fun hB' => hboth B' hB' hb' hBb
      · refine ⟨(h.disjoint B hold b hBb).1, fun B' hB' hb' => ?_⟩
        rcases mem_cons.mp hB' with rfl | hold'
        · exact absurd hb' (hboth B hold hBb)
        · exact (h.disjoint B hold b hBb).2 B' hold' hb'
    inside := by
      intro B hB
      rcases mem_cons.mp hB with rfl | hB
      · exact ⟨B.offset, _, fuse_self (by omega), Nat.le_refl _, by show _ ≤ _ + (_ - _); omega⟩
      · obtain ⟨k, n, hk, hle, hend⟩ := h.inside B hB
        obtain ⟨k', n', hk', hle', hend'⟩ := hext.inside hk
        exact ⟨k', n', hk', Nat.le_trans hle' hle, Nat.le_trans hend hend'⟩
    reserved := by
      intro B hB
      rcases mem_cons.mp hB with rfl | hB
      · exact mem_append_right _ mem_cons_self
      · exact mem_append_left _ (h.reserved B hB)
    freed := fun o ho => (h.freed o (hfree o ho)).imp_right fun ⟨B, hB, hBo⟩ =>
      ⟨B, mem_cons_of_mem _ hB, hBo⟩
    merged := by
      intro B hB hB'
      rcases mem_cons.mp hB with rfl | hB
      · -- a deferred free belongs to an object that is still allocated
        rcases h.freed _ (hfree _ hB') with ⟨P, hP, hPB⟩ | ⟨B', hB', hPB⟩
        · exact absurd (.inl ⟨P, hP, hPB ▸ P.mem_offset⟩) (hfresh _ B.mem_offset)
        · exact absurd (.inr ⟨B', hB', hPB ▸ B'.mem_offset⟩) (hfresh _ B.mem_offset)
      · obtain ⟨k, n, hk, hle, hend⟩ := h.inside B hB
        have := B.pos
        exact hext.starts ⟨k, n, hk, hle, by omega⟩ (h.merged B hB (hfree _ hB'))
    recorded := h.recorded
    snapshot := by
      intro b hb
      rw [← h.snapshot b hb]
      exact (hcov b).trans (or_iff_left (hpre b hb))
    unchanged := by
      intro b hb hc
      refine (if_neg (hpre b hb)).trans (h.unchanged b hb fun hc' => hc ?_)
      exact (hcov b).mpr (.inl hc')
    added := fun r hr b hlo hhi hb => (hcov b).mpr (.inl (h.added r hr b hlo hhi hb)) }

/-! ## Freeing and storing -/

theorem mem_of_mem_vecErase {α : Type} {v : List α} {i : Nat} {a : α}
    (h : a ∈ vecErase v i) : a ∈ v := by
  unfold vecErase at h
  split at h
  · exact h
  · rename_i back hback
    rcases mem_or_eq_of_mem_set ((dropLast_subset _) h) with h | rfl
    · exact h
    · exact mem_of_getLast? hback

theorem mem_vecErase {α : Type} {v : List α} {i : Nat} {a b : α} (h : a ∈ v)
    (hi : v[i]? = some b) (hne : a ≠ b) : a ∈ vecErase v i := by
  obtain ⟨j, hj⟩ := mem_iff_getElem?.mp h
  have hlti := (List.getElem?_eq_some_iff.mp hi).1
  have hltj := (List.getElem?_eq_some_iff.mp hj).1
  have hij : i ≠ j := by
    rintro rfl
    exact hne (Option.some.inj (hj.symm.trans hi))
  have hback : v.getLast? = v[v.length - 1]? := List.getLast?_eq_getElem?
  unfold vecErase
  rw [hback, getElem?_eq_getElem (by omega)]
  rw [mem_iff_getElem?]
  -- the last element is found in the place of the erased one
  by_cases hlast : j = v.length - 1
  · refine ⟨i, ?_⟩
    subst hlast
    rw [getElem?_dropLast, length_set, if_pos (by omega), getElem?_set_self hlti,
      ← hj, getElem?_eq_getElem]
  · refine ⟨j, ?_⟩
    rw [getElem?_dropLast, length_set, if_pos (by omega), getElem?_set_ne hij, hj]

section

variable (h : Inv pre mem₀ s)

include h

theorem Inv.free_deferred {offset : Nat}
    (hobj : (∃ P ∈ pre, P.offset = offset) ∨ ∃ B ∈ s.allocated, B.offset = offset)
    (hnone : s.tx.ranges offset = none ∨ ∀ a ∈ s.tx.actions, a.heapOffset ≠ some offset) :
    Inv pre mem₀ { s with tx := { s.tx with actions := s.tx.actions ++ [.free offset] } } :=
  { h with
    reserved := fun B hB => mem_append_left _ (h.reserved B hB)
    freed := by
      intro o ho
      rcases mem_append.mp ho with ho | ho
      · exact h.freed o ho
      · obtain rfl : o = offset := by simpa using ho
        exact hobj
    merged := by
      intro B hB hfree
      rcases mem_append.mp hfree with hfree | hfree
      · exact h.merged B hB hfree
      · obtain hBo : B.offset = offset := by simpa using hfree
        rw [hBo]
        refine hnone.resolve_right fun hact => ?_
        exact hact _ (h.reserved B hB) (congrArg some hBo) }

/-- A node that begins with an allocated object and does not go beyond it is the object's
own. -/
theorem Inv.size_eq {B : Block} (hB : B ∈ s.allocated) {n : Node}
    (hn : s.tx.ranges B.offset = some n) (hle : n.size ≤ B.size) : n.size = B.size := by
  obtain ⟨k, n', hk, hkB, hend⟩ := h.inside B hB
  have hpos := B.pos
  rcases Nat.lt_or_eq_of_le hkB with hlt | rfl
  · have := h.apart.apart hk hn hlt
    omega
  · rw [hn, Option.some.injEq] at hk
    rw [hk] at hle ⊢
    omega

theorem Inv.free_cancelled {B : Block} (hB : B ∈ s.allocated) {n : Node}
    (hn : s.tx.ranges B.offset = some n) (hsize : n.size = B.size) {i : Nat}
    (hi : s.tx.actions[i]? = some (.alloc B.offset)) :
    Inv pre mem₀ { s with
      tx := { s.tx with
        ranges := ravlRemove s.tx.ranges B.offset
        actions := vecErase s.tx.actions i }
      allocated := s.allocated.filter (·.offset ≠ B.offset) } := by
  have hmem : ∀ {B'}, B' ∈ s.allocated.filter (·.offset ≠ B.offset) ↔
      B' ∈ s.allocated ∧ B'.offset ≠ B.offset := by
    intro B'
    rw [mem_filter, decide_eq_true_eq]
  have hfree : .free B.offset ∉ s.tx.actions := fun hf => by
    rw [h.merged B hB hf] at hn
    cases hn
  have hnode : ∀ {k m}, ravlRemove s.tx.ranges B.offset k = some m ↔
      k ≠ B.offset ∧ s.tx.ranges k = some m := by
    intro k m
    rw [ravlRemove, update_apply]
    split_ifs with hk <;> simp [hk]
  have hcov : ∀ b, b ∈ covered (ravlRemove s.tx.ranges B.offset) ↔
      b ∈ covered s.tx.ranges ∧ ¬ B.Mem b := by
    intro b
    constructor
    · rintro ⟨k, m, hk, hle, hlt⟩
      obtain ⟨hne, hk⟩ := hnode.mp hk
      refine ⟨⟨k, m, hk, hle, hlt⟩, fun hBb => ?_⟩
      have := hBb.1
      have := hBb.2
      rcases Nat.lt_or_gt_of_ne hne with hlt' | hgt
      · have := h.apart.apart hk hn hlt'
        omega
      · have := h.apart.apart hn hk hgt
        omega
    · rintro ⟨⟨k, m, hk, hle, hlt⟩, hBb⟩
      refine ⟨k, m, hnode.mpr ⟨?_, hk⟩, hle, hlt⟩
      rintro rfl
      rw [hn, Option.some.injEq] at hk
      rw [← hk] at hlt
      exact hBb ⟨hle, by omega⟩
  have hpre : ∀ b, PreMem pre b → ¬ B.Mem b := fun b hb hBb => (h.disjoint B hB b hBb).1 hb
  exact {
    apart := ⟨fun hk => h.apart.pos (hnode.mp hk).2, fun hk hk' =>
      h.apart.apart (hnode.mp hk).2 (hnode.mp hk').2⟩
    live := by
      intro b hb
      obtain ⟨hb, hBb⟩ := (hcov b).mp hb
      refine (h.live b hb).imp_right fun hlive => ?_
      obtain ⟨B', hB', hb'⟩ := hlive
      refine ⟨B', hmem.mpr ⟨hB', fun heq => ?_⟩, hb'⟩
      have := (h.disjoint B hB _ B.mem_offset).2 B' hB' (heq ▸ B'.mem_offset)
      exact hBb (this ▸ hb')
    disjoint := fun B' hB' b hb' => ⟨(h.disjoint B' (hmem.mp hB').1 b hb').1,
      fun B'' hB'' hb'' => (h.disjoint B' (hmem.mp hB').1 b hb').2 B'' (hmem.mp hB'').1 hb''⟩
    inside := by
      intro B' hB'
      obtain ⟨hB', hne⟩ := hmem.mp hB'
      obtain ⟨k, m, hk, hle, hend⟩ := h.inside B' hB'
      refine ⟨k, m, hnode.mpr ⟨?_, hk⟩, hle, hend⟩
      rintro rfl
      rw [hn, Option.some.injEq] at hk
      rw [← hk] at hend
      have hpos := B'.pos
      have := (h.disjoint B hB B'.offset ⟨hle, by omega⟩).2 B' hB' B'.mem_offset
      exact hne (congrArg Block.offset this)
    reserved := by
      intro B' hB'
      obtain ⟨hB', hne⟩ := hmem.mp hB'
      exact mem_vecErase (h.reserved B' hB') hi fun heq => hne (Action.alloc.inj heq)
    freed := by
      intro o ho
      have ho' := mem_of_mem_vecErase ho
      refine (h.freed o ho').imp_right fun hfreed => ?_
      obtain ⟨B', hB', hBo⟩ := hfreed
      refine ⟨B', hmem.mpr ⟨hB', ?_⟩, hBo⟩
      intro heq
      rw [← hBo, heq] at ho'
      exact hfree ho'
    merged := by
      intro B' hB' hf
      obtain ⟨hB', hne⟩ := hmem.mp hB'
      exact (update_of_ne hne _ _).trans (h.merged B' hB' (mem_of_mem_vecErase hf))
    recorded := h.recorded
    snapshot := by
      intro b hb
      rw [← h.snapshot b hb]
      exact (hcov b).trans (and_iff_left (hpre b hb))
    unchanged := fun b hb hc => h.unchanged b hb fun hc' => hc ((hcov b).mpr ⟨hc', hpre b hb⟩)
    added := fun r hr b hlo hhi hb => (hcov b).mpr ⟨h.added r hr b hlo hhi hb, hpre b hb⟩ }

theorem Inv.store {addr : Nat} (value : UInt8)
    (hadded : (∃ r ∈ s.added, r.1 ≤ addr ∧ addr < r.1 + r.2) ∨ ∃ B ∈ s.allocated, B.Mem addr) :
    Inv pre mem₀ { s with mem := update s.mem addr value } :=
  { h with
    unchanged := by
      intro b hb hcov
      have hne : b ≠ addr := by
        rintro rfl
        rcases hadded with ⟨r, hr, hlo, hhi⟩ | ⟨B, hB, hBb⟩
        · exact hcov (h.added r hr b hlo hhi hb)
        · exact (h.disjoint B hB b hBb).1 hb
      exact (update_of_ne hne _ _).trans (h.unchanged b hb hcov) }

theorem Inv.free {offset : Nat} (hallowed : Allowed pre (.free offset) s)
    (hown : RemovesOwn (.free offset) s) : Inv pre mem₀ (s.free offset) := by
  unfold State.free
  split
  · rename_i n i hn hidx
    obtain ⟨hlt, hi, -⟩ := findIdx?_eq_some_iff_getElem.mp hidx
    rw [decide_eq_true_eq] at hi
    obtain ⟨B, hB, rfl, hle⟩ := hown n hn ⟨_, getElem_mem hlt, hi⟩
    have halloc : s.tx.actions[i] = .alloc B.offset := by
      have hfree : s.tx.actions[i] ≠ .free B.offset := fun heq => by
        rw [h.merged B hB (heq ▸ getElem_mem hlt)] at hn
        cases hn
      cases hact : s.tx.actions[i] with
      | alloc o => rw [hact] at hi; exact congrArg Action.alloc (Option.some.inj hi)
      | free o =>
        rw [hact] at hi hfree
        exact absurd (congrArg Action.free (Option.some.inj hi)) hfree
      | value => rw [hact] at hi; cases hi
    have hget : s.tx.actions[i]? = some (.alloc B.offset) :=
      (getElem?_eq_getElem hlt).trans (congrArg some halloc)
    rw [if_pos hget]
    exact h.free_cancelled hB hn (h.size_eq hB hn hle) hget
  · rename_i hnone
    refine h.free_deferred hallowed ?_
    by_contra hcon
    rw [not_or] at hcon
    obtain ⟨n, hn⟩ := Option.ne_none_iff_exists'.mp hcon.1
    cases hidx : s.tx.actions.findIdx? (·.heapOffset = some offset) with
    | none =>
      rw [findIdx?_eq_none_iff] at hidx
      exact hcon.2 fun a ha => by simpa using hidx a ha
    | some i => exact hnone n i hn hidx

end

/-! ## Whole transactions -/

def Safe (pre : List Block) (mem₀ : Nat → UInt8) (s : State) : Prop :=
  match s.stage with
  | .work => Inv pre mem₀ s
  | .onAbort => Restored pre mem₀ s

theorem safe_step {heap : Heap} {op : Op} (h : Safe pre mem₀ s) (hallowed : Allowed pre op s)
    (hown : RemovesOwn op s) (hstep : step heap op s = some t) : Safe pre mem₀ t := by
  unfold step at hstep
  split at hstep
  · cases hstep
  rename_i hstage
  have hwork : s.stage = .work := not_not.mp hstage
  have hinv : Inv pre mem₀ s := by
    rw [Safe, hwork] at h
    exact h
  have hsafe : ∀ {t : State}, t.stage = s.stage → Inv pre mem₀ t → Safe pre mem₀ t := by
    intro t hstage ht
    rw [Safe, hstage, hwork]
    exact ht
  cases op with
  | addRange offset size flags =>
    obtain ⟨⟨tx, ok⟩, hadd, hadds⟩ := addCommon_adds hinv.apart heap s.mem offset size flags
    dsimp only at hstep
    rw [hadd] at hstep
    cases ok with
    | true =>
      cases hstep
      exact hsafe rfl (hinv.addRange hallowed hadds)
    | false =>
      cases hstep
      exact hinv.restored_of_fail hadds
  | alloc block flags data =>
    obtain ⟨ranges, hranges, rfl⟩ := Option.map_eq_some_iff.mp hstep
    exact hsafe rfl (hinv.alloc hallowed hranges)
  | free offset =>
    cases hstep
    refine hsafe ?_ (hinv.free hallowed hown)
    unfold State.free
    split <;> rfl
  | store addr value =>
    cases hstep
    exact hsafe rfl (hinv.store value hallowed)
  | abort =>
    cases hstep
    exact hinv.abort

end Abort

/-- After a transaction that was aborted, every byte of every object that was allocated before
it began has its former value. -/
theorem restored_run {pre : List Block} {mem₀ : Nat → UInt8} {ulogs : List Nat} {heap : Heap}
    {ops : List Op} {t : State}
    (hops : Transition.Guarded (step heap) (fun op s => Allowed pre op s ∧ RemovesOwn op s) ops
      (State.begin mem₀ ulogs))
    (hrun : Transition.run (step heap) ops (State.begin mem₀ ulogs) = some t)
    (habort : t.stage = .onAbort) : ∀ b, PreMem pre b → t.mem b = mem₀ b := by
  have hsafe : Safe pre mem₀ t := by
    refine Transition.run_invariant (fun op _ s t hs hG hstep => ?_) hops ?_ hrun
    · exact safe_step hs hG.1 hG.2 hstep
    · exact inv_begin mem₀ ulogs
  rw [Safe, habort] at hsafe
  exact hsafe

/-- The objects of a class without headers at `128` and `256`; the second one is the older. -/
def neighbour : Block := ⟨128, 128, by decide⟩

def older : Block := ⟨256, 128, by decide⟩

def freeOwn : List Op :=
  [.alloc neighbour 0 fun _ => 5, .free 128, .addRange 256 128 0, .store 260 7, .abort]

theorem restored_run_freeOwn :
    ∃ t, Transition.run (step ⟨0, 1024⟩) freeOwn (State.begin (fun _ => 0) [31]) = some t ∧
      t.stage = .onAbort ∧ t.mem 260 = 0 := by
  have hops : Transition.Guarded (step ⟨0, 1024⟩)
      (fun op s => Allowed [older] op s ∧ RemovesOwn op s) freeOwn
      (State.begin (fun _ => 0) [31]) := by decide +kernel
  have hstage : (Transition.run (step ⟨0, 1024⟩) freeOwn (State.begin (fun _ => 0) [31])).map
      State.stage = some .onAbort := by decide +kernel
  obtain ⟨t, hrun, habort⟩ := Option.map_eq_some_iff.mp hstage
  exact ⟨t, hrun, habort, restored_run hops hrun habort 260 (by decide)⟩

def freeNeighbour : List Op :=
  [.alloc neighbour 0 fun _ => 5, .addRange 256 128 0, .store 260 7, .free 128,
    .addRange 256 128 0, .abort]

/-- The second snapshot of the older object holds the new value, and is applied last. -/
theorem not_restored_freeNeighbour :
    ¬ ∀ (pre : List Block) (mem₀ : Nat → UInt8) (ulogs : List Nat) (heap : Heap)
      (ops : List Op) (t : State),
      Transition.Guarded (step heap) (Allowed pre) ops (State.begin mem₀ ulogs) →
      Transition.run (step heap) ops (State.begin mem₀ ulogs) = some t →
      t.stage = .onAbort → ∀ b, PreMem pre b → t.mem b = mem₀ b := by
  intro h
  have hend : (Transition.run (step ⟨0, 1024⟩) freeNeighbour (State.begin (fun _ => 0) [31])).map
      (fun t => (t.stage, t.mem 260)) = some (.onAbort, 7) := by decide +kernel
  obtain ⟨t, hrun, ht⟩ := Option.map_eq_some_iff.mp hend
  obtain ⟨habort, hmem⟩ := Prod.mk.inj ht
  have hbyte := h [older] (fun _ => 0) [31] ⟨0, 1024⟩ freeNeighbour t (by decide +kernel) hrun
    habort 260 (by decide)
  rw [hmem] at hbyte
  exact absurd hbyte (by decide)

end Pmdk.TxRange
