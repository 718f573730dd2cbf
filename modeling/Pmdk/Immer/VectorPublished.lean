import Pmdk.Immer.VectorFlush
import Pmdk.Immer.RbtreeRefine

/-!
# Which vectors are flushed when they are returned

The copy helpers flush up to the last item that they copy, and not past it. A new inner node is
flushed if and only if no line starts at its array of children, and none at the last of the child
pointers that `do_copy_inner` copies; a leaf that `set_ptr` copies, if and only if no line starts in
its last value.
-/

namespace Pmdk.Regular

open FlushLog Cache Slices

variable {T : Type} {L : Layout} {B BL : Nat}

/-! ## The conditions -/

section Code

variable (L B BL)

/-- The new node is flushed by `do_copy_inner` on `n` pointers. -/
def InnerFlushed (n : Nat) : Prop :=
  ¬ lineSize ∣ L.inner 0 ∧ (n = 0 ∨ ¬ lineSize ∣ L.inner (n - 1))

/-- The new node is flushed by `copy_leaf` on `n` values. -/
def LeafFlushed (n : Nat) : Prop := ¬ StartsLine (L.leaf (n - 1)) (L.leaf n)

def SpineFlushed : Nat → Pos → Prop
  | 0, _ => True
  | k + 1, pos =>
    let shift := shiftAt B BL k
    let size := pos.size B shift
    let newIdx := Pos.index B shift (size + branches BL - 1)
    InnerFlushed L newIdx ∧
      (Pos.index B shift (size - 1) = newIdx → SpineFlushed k (.regular size))

def PathFlushed (idx : Nat) : Nat → Pos → Prop
  | 0, pos => LeafFlushed L (pos.leafCount BL)
  | k + 1, pos =>
    let shift := shiftAt B BL k
    InnerFlushed L (pos.count B shift) ∧
      PathFlushed idx k (pos.child B shift (Pos.index B shift idx))

/-- The tail has room, or the root is full, or there are no leaves but the tail, or the nodes on
the right of the tree are flushed. -/
def Rbtree.PushFlushed (t : Rbtree T) : Prop :=
  t.size - t.tailOffset BL < branches BL ∨ t.tailOffset BL = branches B <<< t.shift ∨
    t.tailOffset BL = 0 ∨ SpineFlushed L B BL (t.level B BL) (t.rootPos BL)

def Rbtree.SetFlushed (t : Rbtree T) (idx : Nat) : Prop :=
  if idx ≥ t.tailOffset BL then PathFlushed L B BL (idx - t.tailOffset BL) 0 (t.tailPos BL)
  else PathFlushed L B BL idx (t.level B BL) (t.rootPos BL)

end Code

/-! ## The nodes without their logs -/

@[simp] theorem Copied.erase_shared (node : Node T) : (Copied.shared node).erase = node := by
  rw [erase]

@[simp] theorem Copied.erase_leaf (log : List Event) (values : List T) :
    (Copied.leaf log values).erase = .leaf values := by
  rw [erase]

@[simp] theorem Copied.erase_inner (log : List Event) (children : List (Copied T)) :
    (Copied.inner log children).erase = .inner (children.map erase) := by
  rw [erase]

@[simp] theorem map_erase_shared (children : List (Node T)) :
    children.map (Copied.erase ∘ Copied.shared) = children :=
  List.map_id'' (fun node => Copied.erase_shared node) children

theorem erase_copiedPath (tail : Node T) (k : Nat) :
    (copiedPath L tail k).erase = makePath tail k := by
  induction k with
  | zero => rw [copiedPath, Copied.erase_shared, makePath]
  | succ k ih => simp [copiedPath, makePath, ih]

variable {values : List T}

theorem erase_copiedPushTail (tail : Node T) (k : Nat) (pos : Pos) (node : Node T) :
    (copiedPushTail L B BL tail k pos node).map Copied.erase =
      pushTailVisitor B BL tail k pos node := by
  induction k generalizing pos node with
  | zero => cases node <;> rfl
  | succ k ih =>
    cases node with
    | leaf values => rfl
    | inner children =>
      simp only [copiedPushTail, pushTailVisitor]
      split
      · cases hchild : children[Pos.index B (shiftAt B BL k)
            (pos.size B (shiftAt B BL k) - 1)]? with
        | none => rfl
        | some child =>
          simp only [Option.bind_eq_bind, Option.bind_some, ← ih]
          cases copiedPushTail L B BL tail k _ child with
          | none => rfl
          | some c =>
            cases firstN _ children with
            | none => rfl
            | some cs => simp
      · cases firstN _ children with
        | none => rfl
        | some cs => simp [erase_copiedPath]

theorem erase_copiedUpdate (fn : T → T) (idx k : Nat) (pos : Pos) (node : Node T) :
    (copiedUpdate L B BL fn idx k pos node).map Copied.erase =
      updateVisitor B BL fn idx k pos node := by
  induction k generalizing pos node with
  | zero =>
    cases node with
    | inner children => rfl
    | leaf values =>
      simp only [copiedUpdate, updateVisitor]
      cases firstN (pos.leafCount BL) values with
      | none => rfl
      | some values =>
        cases hx : values[Pos.leafIndex BL idx]? with
        | none => simp [hx]
        | some x => simp [hx]
  | succ k ih =>
    cases node with
    | leaf values => rfl
    | inner children =>
      simp only [copiedUpdate, updateVisitor]
      cases children[Pos.index B (shiftAt B BL k) idx]? with
      | none => rfl
      | some child =>
        simp only [Option.bind_eq_bind, Option.bind_some, ← ih]
        cases copiedUpdate L B BL fn idx k _ child with
        | none => rfl
        | some c =>
          cases firstN _ children with
          | none => rfl
          | some cs => simp [List.map_set]

theorem erase_pushBackPtr (t : Rbtree T) (value : T) :
    (t.pushBackPtr L B BL value).map NewVector.erase = t.pushBack B BL value := by
  simp only [Rbtree.pushBackPtr, Rbtree.pushBack]
  split
  · cases t.tail with
    | inner children => rfl
    | leaf values =>
      cases hvalues : firstN (t.size - t.tailOffset BL) values with
      | none => simp [hvalues]
      | some values => simp [hvalues, newVector, NewVector.erase]
  · split
    · simp [newVector, NewVector.erase, erase_copiedPath]
    · split
      · rw [← @erase_copiedPushTail T L]
        cases copiedPushTail L B BL t.tail _ _ t.root with
        | none => rfl
        | some c => simp [newVector, NewVector.erase]
      · simp [newVector, NewVector.erase, erase_copiedPath]

theorem erase_setPtr (t : Rbtree T) (idx : Nat) (value : T) :
    (t.setPtr L B BL idx value).map NewVector.erase = t.assoc B BL idx value := by
  simp only [Rbtree.setPtr, Rbtree.assoc, Rbtree.update]
  split
  · rw [← @erase_copiedUpdate T L]
    cases copiedUpdate L B BL _ (idx - _) 0 _ t.tail with
    | none => rfl
    | some c => simp [newVector, NewVector.erase]
  · rw [← @erase_copiedUpdate T L]
    cases copiedUpdate L B BL _ idx _ _ t.root with
    | none => rfl
    | some c => simp [newVector, NewVector.erase]

/-! ## One node -/

variable {n : Nat}

variable {b offset k : Nat} {children : List (Copied T)}

theorem pushTail_byte_iff :
    FlushedAtReturn (makeInnerN L ++ writeInner L n ++ [.flush (L.inner n) (L.inner n + 1)] ++
        doCopyInner L n) b ↔
      ((L.relaxed ≤ b ∧ b < L.relaxed + 8 ∨ L.inner n ≤ b ∧ b < L.inner (n + 1)) ∧
          ¬ Reaches (L.inner n) (L.inner n + 1) b ∨ L.inner 0 ≤ b ∧ b < L.inner n →
        Reaches (L.inner 0) (L.inner n - 8) b) := by
  rw [FlushedAtReturn, flushed_finalize_iff]
  simp [after, Byte.step, makeInnerN, writeInner, doCopyInner]

theorem update_byte_iff :
    FlushedAtReturn (makeInnerN L ++ doCopyInner L n ++ writeInner L offset) b ↔
      (((L.relaxed ≤ b ∧ b < L.relaxed + 8 ∨ L.inner 0 ≤ b ∧ b < L.inner n) ∨
          L.inner offset ≤ b ∧ b < L.inner (offset + 1)) →
        Reaches (L.inner 0) (L.inner n - 8) b) := by
  rw [FlushedAtReturn, flushed_finalize_iff]
  simp [after, Byte.step, makeInnerN, writeInner, doCopyInner]

theorem copyLeaf_byte_iff :
    FlushedAtReturn (copyLeaf L n ++ writeLeaf L offset) b ↔
      (L.leaf 0 ≤ b ∧ b < L.leaf n ∨ L.leaf offset ≤ b ∧ b < L.leaf (offset + 1) →
        Reaches (L.leaf 0) (L.leaf n - L.valueSize) b) := by
  rw [FlushedAtReturn, flushed_finalize_iff]
  simp [after, Byte.step, copyLeaf, writeLeaf]

/-- The line of the pointer to the relaxed data is that of the first child pointer, if no line
starts at the latter. -/
theorem flushed_pushTail_iff (hlength : children.length = n + 1) :
    (Copied.inner (makeInnerN L ++ writeInner L n ++
        [.flush (L.inner n) (L.inner n + 1)] ++ doCopyInner L n) children).Flushed L ↔
      InnerFlushed L n := by
  have hle := L.relaxed_le
  have hdvd := L.dvd_innerBuffer
  simp only [Copied.Flushed, hlength, pushTail_byte_iff]
  simp only [InnerFlushed, Reaches, line, lineSize, Layout.inner, Layout.relaxed]
  constructor
  · intro h
    refine ⟨fun hstart => ?_, or_iff_not_imp_left.mpr fun hn hstart => ?_⟩
    · have hrelaxed := h (L.innerBuffer - 8) (by omega) (by omega) (.inl (by omega))
      omega
    · have hlast := h (L.innerBuffer + 8 * (n - 1)) (by omega) (by omega) (.inr (by omega))
      omega
  · rintro ⟨hstart, hlast⟩ b - - hwrite
    omega

theorem flushed_update_iff (hlength : children.length = n) (hn : n ≠ 0) :
    (Copied.inner (makeInnerN L ++ doCopyInner L n ++ writeInner L offset) children).Flushed L ↔
      InnerFlushed L n := by
  have hle := L.relaxed_le
  have hdvd := L.dvd_innerBuffer
  simp only [Copied.Flushed, hlength, update_byte_iff]
  simp only [InnerFlushed, Reaches, line, lineSize, Layout.inner, Layout.relaxed]
  constructor
  · intro h
    refine ⟨fun hstart => ?_, .inr fun hstart => ?_⟩
    · have hrelaxed := h (L.innerBuffer - 8) (by omega) (by omega) (.inl (.inl (by omega)))
      omega
    · have hlast := h (L.innerBuffer + 8 * (n - 1)) (by omega) (by omega) (.inl (.inr (by omega)))
      omega
  · rintro ⟨hstart, hlast⟩ b - hlt hwrite
    omega

theorem flushed_copyLeaf_iff (hlength : values.length = n) (hoffset : offset < n) :
    (Copied.leaf (copyLeaf L n ++ writeLeaf L offset) values).Flushed L ↔ LeafFlushed L n := by
  obtain ⟨m, rfl⟩ : ∃ m, n = m + 1 := ⟨n - 1, by omega⟩
  have hmono : ∀ {i j : Nat}, i ≤ j → L.leaf i ≤ L.leaf j := fun h =>
    Nat.add_le_add_left (Nat.mul_le_mul_left _ h) _
  have hlast : L.leaf (m + 1) - L.valueSize = L.leaf m := by
    simp only [Layout.leaf, Nat.mul_succ]
    omega
  have hoffset' := hmono hoffset
  have hzero := hmono (Nat.zero_le offset)
  simp only [Copied.Flushed, hlength, copyLeaf_byte_iff, hlast, LeafFlushed, Nat.add_sub_cancel]
  rw [← forall_reaches_iff (hmono (Nat.zero_le m))]
  constructor
  · intro h b hle hlt
    exact h b hle hlt (.inl ⟨hle, hlt⟩)
  · intro h b hle hlt _
    exact h b hle hlt

/-! ## Trees -/

def Copied.AllFlushed (L : Layout) (c : Copied T) : Prop := ∀ n, Within n c → n.Flushed L

theorem allFlushed_shared (node : Node T) : (Copied.shared node).AllFlushed L := by
  intro n hn
  cases hn
  trivial

variable {log : List Event}

theorem allFlushed_leaf :
    (Copied.leaf log values).AllFlushed L ↔ (Copied.leaf log values).Flushed L := by
  constructor
  · intro h
    exact h _ (.self _)
  · intro h n hn
    cases hn
    exact h

theorem allFlushed_inner :
    (Copied.inner log children).AllFlushed L ↔
      (Copied.inner log children).Flushed L ∧ ∀ c ∈ children, c.AllFlushed L := by
  constructor
  · intro h
    exact ⟨h _ (.self _), fun c hc n hn => h n (.child hc hn)⟩
  · rintro ⟨hself, hchildren⟩ n hn
    cases hn with
    | self => exact hself
    | child hc hn => exact hchildren _ hc n hn

theorem flushed_of_flush_inner {count : Nat} (hlength : children.length = count) :
    (Copied.inner (log ++ [.flush 0 (L.sizeofPackedInnerN count)]) children).Flushed L := by
  intro b _ hlt
  rw [hlength] at hlt
  exact flushed_of_flush (Nat.zero_le b) hlt

theorem flushed_of_flush_leaf {count : Nat} (hlength : values.length = count) :
    (Copied.leaf (log ++ [.flush 0 (L.sizeofPackedLeafN count)]) values).Flushed L := by
  intro b _ hlt
  rw [hlength] at hlt
  exact flushed_of_flush (Nat.zero_le b) hlt

theorem allFlushed_copiedPath (tail : Node T) (k : Nat) : (copiedPath L tail k).AllFlushed L := by
  induction k with
  | zero => exact allFlushed_shared tail
  | succ k ih =>
    rw [copiedPath, allFlushed_inner]
    exact ⟨flushed_of_flush_inner rfl, by simpa using ih⟩

theorem firstN_length {α : Type} {l l' : List α} (h : firstN n l = some l') : l'.length = n := by
  rw [firstN, Option.ite_none_right_eq_some] at h
  obtain ⟨hle, heq⟩ := h
  rw [← Option.some.inj heq, List.length_take, Nat.min_eq_left hle]

theorem allFlushed_copiedPushTail (tail : Node T) {pos : Pos} {node : Node T}
    {c : Copied T} (hc : copiedPushTail L B BL tail k pos node = some c) :
    c.AllFlushed L ↔ SpineFlushed L B BL k pos := by
  induction k generalizing pos node c with
  | zero => cases node <;> simp [copiedPushTail] at hc
  | succ k ih =>
    cases node with
    | leaf values => simp [copiedPushTail] at hc
    | inner children =>
      simp only [copiedPushTail] at hc
      split at hc
      · rename_i hidx
        simp only [Option.bind_eq_bind, Option.bind_eq_some_iff, Option.some.injEq] at hc
        obtain ⟨child, -, newChild, hnew, cs, hcs, rfl⟩ := hc
        rw [allFlushed_inner, flushed_pushTail_iff (by simp [firstN_length hcs]), SpineFlushed]
        simp [or_imp, forall_and, allFlushed_shared, ih hnew, hidx]
      · rename_i hidx
        simp only [Option.bind_eq_bind, Option.bind_some, Option.bind_eq_some_iff,
          Option.some.injEq] at hc
        obtain ⟨cs, hcs, rfl⟩ := hc
        rw [allFlushed_inner, flushed_pushTail_iff (by simp [firstN_length hcs]), SpineFlushed]
        simp [or_imp, forall_and, allFlushed_shared, allFlushed_copiedPath, hidx]

theorem allFlushed_copiedUpdate {fn : T → T} {idx : Nat} {pos : Pos} {node : Node T}
    {c : Copied T} (h : Covers B BL k pos n) (hlt : idx % cap B BL k < n)
    (hc : copiedUpdate L B BL fn idx k pos node = some c) :
    c.AllFlushed L ↔ PathFlushed L B BL idx k pos := by
  induction k generalizing pos node c n with
  | zero =>
    cases node with
    | inner children => simp [copiedUpdate] at hc
    | leaf values =>
      simp only [copiedUpdate, Option.bind_eq_bind, Option.bind_eq_some_iff,
        Option.some.injEq] at hc
      obtain ⟨vs, hvs, x, -, rfl⟩ := hc
      rw [cap_zero, ← leafIndex_eq, ← h.leafCount_eq] at hlt
      rw [allFlushed_leaf, flushed_copyLeaf_iff (by simp [firstN_length hvs]) hlt, PathFlushed]
  | succ k ih =>
    cases node with
    | leaf values => simp [copiedUpdate] at hc
    | inner children =>
      simp only [copiedUpdate, Option.bind_eq_bind, Option.bind_eq_some_iff,
        Option.some.injEq] at hc
      obtain ⟨child, -, newChild, hnew, cs, hcs, rfl⟩ := hc
      have hcap := cap_pos B BL k
      have hsplit := mod_cap_succ B BL k idx
      have hi := (lt_count_iff hcap).mpr (Nat.lt_of_le_of_lt (Nat.le_add_right _ _) (hsplit ▸ hlt))
      have hmod := Nat.mod_lt idx hcap
      have hchild := ih (h.child hi) (by omega) hnew
      rw [← h.count_eq, ← firstN_length hcs] at hi
      have hcount : pos.count B (shiftAt B BL k) ≠ 0 := by
        rw [← firstN_length hcs]
        exact Nat.ne_zero_of_lt hi
      rw [allFlushed_inner, flushed_update_iff (by simp [firstN_length hcs]) hcount,
        PathFlushed, ← hchild]
      refine and_congr_right fun _ => ⟨fun hall => hall _ ?_, fun hnewChild d hd => ?_⟩
      · rw [← List.length_map (f := Copied.shared)] at hi
        exact List.mem_set hi newChild
      · rcases List.mem_or_eq_of_mem_set hd with hd | rfl
        · obtain ⟨node, -, rfl⟩ := List.mem_map.mp hd
          exact allFlushed_shared node
        · exact hnewChild

/-! ## Vectors -/

theorem published_newVector {size shift : Nat} {root tail : Copied T} :
    (newVector L size shift root tail).Published L ↔ root.AllFlushed L ∧ tail.AllFlushed L := by
  constructor
  · intro h
    exact ⟨h.root, h.tail⟩
  · rintro ⟨hroot, htail⟩
    refine ⟨hroot, htail, fun b hle hlt => ?_⟩
    rw [newVector, FlushedAtReturn, flushed_finalize_iff]
    intro
    simp [after, Byte.step, reaches_of_mem hle hlt]

theorem published_pushBackPtr {t : Rbtree T} {value : T} {v : NewVector T}
    (hv : t.pushBackPtr L B BL value = some v) : v.Published L ↔ t.PushFlushed L B BL := by
  have hnewTail : (Copied.leaf (writeLeaf L 0 ++ [.flush 0 (L.sizeofPackedLeafN 1)])
      [value]).AllFlushed L := allFlushed_leaf.mpr (flushed_of_flush_leaf rfl)
  simp only [Rbtree.pushBackPtr] at hv
  rw [Rbtree.PushFlushed]
  split at hv
  · rename_i hroom
    cases htail : t.tail with
    | inner children => simp [htail] at hv
    | leaf values =>
      simp only [htail, Option.bind_eq_bind, Option.bind_eq_some_iff, Option.some.injEq] at hv
      obtain ⟨vs, hvs, rfl⟩ := hv
      rw [published_newVector, allFlushed_leaf]
      exact iff_of_true ⟨allFlushed_shared t.root,
        flushed_of_flush_leaf (by simp [firstN_length hvs])⟩ (.inl hroom)
  · rename_i hroom
    split at hv
    · rename_i hfull
      rw [Option.some.injEq] at hv
      rw [← hv, published_newVector, allFlushed_inner]
      refine iff_of_true ⟨⟨flushed_of_flush_inner rfl, ?_⟩, hnewTail⟩ (.inr (.inl hfull))
      simp [allFlushed_shared, allFlushed_copiedPath]
    · rename_i hfull
      split at hv
      · rename_i hoff
        simp only [Option.bind_eq_bind, Option.bind_eq_some_iff, Option.some.injEq] at hv
        obtain ⟨root, hroot, rfl⟩ := hv
        rw [published_newVector, allFlushed_copiedPushTail t.tail hroot]
        simp [hroom, hfull, hoff, hnewTail]
      · rename_i hoff
        rw [Option.some.injEq] at hv
        rw [← hv, published_newVector]
        simp [not_not.mp hoff, hnewTail, allFlushed_copiedPath]

theorem Refines.published_setPtr {t : Rbtree T} {l : List T} {idx : Nat} {value : T}
    {v : NewVector T} (h : Refines B BL t l k) (hB : 0 < B) (hidx : idx < l.length)
    (hv : t.setPtr L B BL idx value = some v) : v.Published L ↔ t.SetFlushed L B BL idx := by
  have hle := le_offset_add BL l.length
  have hoff := offset_le BL l.length
  simp only [Rbtree.setPtr] at hv
  rw [Rbtree.SetFlushed]
  split at hv
  · rename_i htail
    simp only [Option.bind_eq_bind, Option.bind_eq_some_iff, Option.some.injEq] at hv
    obtain ⟨tail, hc, rfl⟩ := hv
    rw [h.tailOffset_eq] at htail
    have hmod : (idx - t.tailOffset BL) % cap B BL 0 < (l.drop (offset BL l.length)).length := by
      rw [h.tailOffset_eq, List.length_drop, cap_zero, Nat.mod_eq_of_lt (by omega)]
      omega
    rw [published_newVector, allFlushed_copiedUpdate (h.tailPos (Nat.zero_lt_of_lt hidx)) hmod hc,
      if_pos (h.tailOffset_eq ▸ htail)]
    simp [allFlushed_shared]
  · rename_i htail
    simp only [Option.bind_eq_bind, Option.bind_eq_some_iff, Option.some.injEq] at hv
    obtain ⟨root, hc, rfl⟩ := hv
    have hlt : idx < offset BL l.length := Nat.lt_of_not_le (h.tailOffset_eq ▸ htail)
    have hmod : idx % cap B BL (k + 1) < (l.take (offset BL l.length)).length := by
      rw [Nat.mod_eq_of_lt (hlt.trans_le h.smallest.2), List.length_take, Nat.min_eq_left hoff]
      exact hlt
    rw [h.level_eq hB] at hc ⊢
    rw [published_newVector,
      allFlushed_copiedUpdate (h.rootPos (Nat.zero_lt_of_lt hlt).ne') hmod hc, if_neg htail]
    simp [allFlushed_shared]

/-- What `push_back_ptr` and `set_ptr` return is flushed if and only if the copied nodes are. -/
theorem published_iff {t : Rbtree T} {l : List T} (L : Layout) (hB : 0 < B) (h : Built B BL t l) :
    (∀ value, ∃ v, t.pushBackPtr L B BL value = some v ∧
      t.pushBack B BL value = some v.erase ∧ (v.Published L ↔ t.PushFlushed L B BL)) ∧
    ∀ idx < l.length, ∀ value, ∃ v, t.setPtr L B BL idx value = some v ∧
      t.assoc B BL idx value = some v.erase ∧ (v.Published L ↔ t.SetFlushed L B BL idx) := by
  obtain ⟨k, hk⟩ := h.refines hB
  constructor
  · intro value
    obtain ⟨t', -, ht', -⟩ := hk.pushBack hB value
    rw [← @erase_pushBackPtr T L] at ht' ⊢
    obtain ⟨v, hv, -⟩ := Option.map_eq_some_iff.mp ht'
    exact ⟨v, hv, by rw [hv]; rfl, published_pushBackPtr hv⟩
  · intro idx hidx value
    obtain ⟨t', ht', -⟩ := hk.update hB (fun _ => value) (List.getElem?_eq_getElem hidx)
    rw [← Rbtree.assoc, ← @erase_setPtr T L] at ht'
    rw [← @erase_setPtr T L]
    obtain ⟨v, hv, -⟩ := Option.map_eq_some_iff.mp ht'
    exact ⟨v, hv, by rw [hv]; rfl, hk.published_setPtr hB hidx hv⟩

def wordLayout : Layout where
  innerBuffer := 16
  leafBuffer := 8
  valueSize := 8
  vector := 0
  vectorSize := 32
  relaxed_le := by decide
  dvd_innerBuffer := by decide
  valueSize_pos := by decide

def eight : Rbtree Nat := ⟨8, 5, .inner [], .leaf [0, 1, 2, 3, 4, 5, 6, 7]⟩

theorem built_eight : Built 5 5 eight [0, 1, 2, 3, 4, 5, 6, 7] := by
  have hfour := ((((Built.empty : Built 5 5 (empty 5 : Rbtree Nat) []).pushBack 0 rfl).pushBack 1
    rfl).pushBack 2 rfl).pushBack 3 rfl
  exact (((hfour.pushBack 4 rfl).pushBack 5 rfl).pushBack 6 rfl).pushBack 7 rfl

/-- The last of the eight values starts a line. -/
theorem published_iff_eight :
    (∃ v, eight.pushBackPtr wordLayout 5 5 8 = some v ∧ v.Published wordLayout) ∧
      ∃ v, eight.setPtr wordLayout 5 5 0 9 = some v ∧ ¬ v.Published wordLayout := by
  obtain ⟨hpush, hset⟩ := published_iff wordLayout (by decide) built_eight
  obtain ⟨v, hv, -, hpublished⟩ := hpush 8
  obtain ⟨w, hw, -, hiff⟩ := hset 0 (by decide) 9
  refine ⟨⟨v, hv, hpublished.mpr (.inl (by decide))⟩, w, hw, fun h => ?_⟩
  have hflushed : LeafFlushed wordLayout 8 := hiff.mp h
  exact hflushed (by decide)

/-- The first value is replaced, and the last one is not flushed with the copy. -/
theorem not_published_eight : ∃ v, Built 5 5 eight [0, 1, 2, 3, 4, 5, 6, 7] ∧
    eight.setPtr wordLayout 5 5 0 9 = some v ∧ ¬ v.Published wordLayout := by
  refine ⟨_, built_eight, rfl, fun h => ?_⟩
  have hlast : FlushedAtReturn (copyLeaf wordLayout 8 ++ writeLeaf wordLayout 0) 64 :=
    h.tail _ (.self _) 64 (by decide) (by decide)
  exact absurd hlast (by decide)

end Pmdk.Regular
