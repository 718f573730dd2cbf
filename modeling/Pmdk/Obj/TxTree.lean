import Pmdk.Obj.Ravl
import Pmdk.Obj.TxRange

/-!
# The tree of ranges of a transaction

`pmemobj_tx_add_common` on the tree itself. Its nodes are changed in place: a node is extended to
the left by a change of its key. The snapshots that it asks for are listed; their logging succeeds.
-/

namespace Pmdk.TxTree

open List

/-- `struct tx_range_def`. -/
structure Range where
  offset : Nat
  size : Nat
  flags : Nat
  deriving DecidableEq

namespace Range

def stop (r : Range) : Nat := r.offset + r.size

def Mem (b : Nat) (r : Range) : Prop := r.offset ≤ b ∧ b < r.stop

instance (b : Nat) (r : Range) : Decidable (r.Mem b) := inferInstanceAs (Decidable (_ ∧ _))

end Range

/-- `tx->ranges`, and the ranges that were passed to `pmemobj_tx_add_snapshot`. -/
structure State where
  ranges : Ravl.Tree Range
  snapshots : List Range
  deriving DecidableEq

def addSnapshot (snapshot : Range) (s : State) : State :=
  { s with snapshots := s.snapshots ++ [snapshot] }

/-- The first branch of `pmemobj_tx_add_common`: nothing overlaps `r` or touches it from the
left. A failed assertion is answered with `none`. -/
def createRange (r : Range) (nprev : Option Nat) (s : State) : Option State :=
  match nprev with
  | none => (s.ranges.emplace Range.offset r).map fun ranges => addSnapshot r { s with ranges }
  | some kprev =>
    match s.ranges.find Range.offset .equal kprev none with
    | none => none
    | some fprev =>
      if r.stop ≠ fprev.offset then none
      else some (addSnapshot r { s with
        ranges := s.ranges.modify Range.offset kprev fun fprev =>
          { fprev with offset := fprev.offset - r.size, size := fprev.size + r.size } })

/-- The second branch: `f` ends inside of `r`, or where `r` begins. It is extended and then merged
with the node that was found before. -/
def extendFound (r f : Range) (nprev : Option Nat) (s : State) : Option State :=
  let snapshot : Range := ⟨f.stop, r.stop - f.stop, r.flags⟩
  let s := { s with ranges := s.ranges.modify Range.offset f.offset fun f =>
    { f with size := f.size + snapshot.size } }
  let s := if snapshot.size ≠ 0 then addSnapshot snapshot s else s
  match nprev with
  | none => some s
  | some kprev =>
    match s.ranges.find Range.offset .equal kprev none with
    | none => none
    | some fprev =>
      if r.stop ≠ fprev.offset then none
      else
        let ranges := s.ranges.modify Range.offset f.offset fun f =>
          { f with size := f.size + fprev.size }
        some { s with ranges := ranges.remove Range.offset kprev }

/-- The loop of `pmemobj_tx_add_common`; `none` also when it takes more than `fuel` rounds. -/
def addLoop : Nat → Range → Ravl.Predicate → Option Nat → State → Option State
  | 0, _, _, _, _ => none
  | fuel + 1, r, p, nprev, s =>
    if r.size = 0 then some s else
    match s.ranges.find Range.offset p r.stop none with
    | none => createRange r nprev s
    | some f =>
      if f.stop = 0 ∨ f.stop < r.offset then createRange r nprev s
      else if f.stop ≤ r.stop then
        let intersection := f.stop - max f.offset r.offset
        (extendFound r f nprev s).bind
          (addLoop fuel { r with size := r.size - (intersection + (r.stop - f.stop)) } .less
            (some f.offset))
      else
        let overlap := r.stop - max f.offset r.offset
        addLoop fuel { r with size := r.size - overlap } .less (some f.offset) s

/-- `pmemobj_tx_add_common`; the second component is `false` when it aborts with `EINVAL`. -/
def addCommon (heap : TxRange.Heap) (args : Range) (s : State) : Option (State × Bool) :=
  if args.size > TxRange.maxAllocSize then some (s, false)
  else if args.offset < heap.offset ∨ args.stop > heap.offset + heap.size then some (s, false)
  else (addLoop (args.size + 2) args .lessEqual none s).map fun s => (s, true)

/-! ## What a call does -/

structure Apart (rs : List Range) : Prop where
  pos : ∀ a ∈ rs, 0 < a.size
  apart : rs.Pairwise fun a b => a.stop ≤ b.offset

/-- The call fuses the range `a` with its own range `r`: they overlap or touch. A range that ends
where `r` begins is left alone when another one begins there. -/
def Fuses (rs : List Range) (r a : Range) : Prop :=
  r.offset ≤ a.stop ∧ a.offset ≤ r.stop ∧ (a.stop = r.offset → ∀ c ∈ rs, c.offset ≠ r.offset)

instance (rs : List Range) (r a : Range) : Decidable (Fuses rs r a) :=
  inferInstanceAs (Decidable (_ ∧ _ ∧ _))

/-- The range that takes the place of `r` and of the ranges `as` that are fused with it. It has the
flags of the first of them. -/
def fused (r : Range) (as : List Range) : Range :=
  let offset := as.head?.elim r.offset fun a => min r.offset a.offset
  let stop := as.getLast?.elim r.stop fun a => max r.stop a.stop
  ⟨offset, stop - offset, as.head?.elim r.flags Range.flags⟩

def insertRange (r : Range) (rs : List Range) : List Range :=
  rs.filter (fun a => a.stop ≤ r.offset ∧ ¬ Fuses rs r a) ++
    fused r (rs.filter fun a => Fuses rs r a) :: rs.filter fun a => r.stop < a.offset

def hits (snapshots : List Range) (b : Nat) : Nat := snapshots.countP fun a => a.Mem b

theorem hits_append (l l' : List Range) (b : Nat) : hits (l ++ l') b = hits l b + hits l' b :=
  countP_append

theorem hits_singleton (a : Range) (b : Nat) : hits [a] b = if a.Mem b then 1 else 0 := by
  rw [hits, countP_singleton]
  simp only [decide_eq_true_eq]

section Apart

variable {l m r rs : List Range} {t : Ravl.Tree Range}

theorem Apart.sorted (h : Apart t.toList) : t.Sorted Range.offset := by
  refine (List.Pairwise.and_mem.mp h.apart).imp fun {a b} hab => ?_
  obtain ⟨ha, -, hle⟩ := hab
  have hpos := h.pos a ha
  rw [Range.stop] at hle
  omega

theorem Apart.append_le (h : Apart (l ++ r)) {a b : Range} (ha : a ∈ l) (hb : b ∈ r) :
    a.stop ≤ b.offset :=
  (pairwise_append.mp h.apart).2.2 a ha b hb

theorem Apart.left (h : Apart (l ++ r)) : Apart l :=
  ⟨fun a ha => h.pos a (mem_append_left r ha), (pairwise_append.mp h.apart).1⟩

theorem Apart.right (h : Apart (l ++ r)) : Apart r :=
  ⟨fun a ha => h.pos a (mem_append_right l ha), (pairwise_append.mp h.apart).2.1⟩

theorem Apart.stop_pos (h : Apart rs) {a : Range} (ha : a ∈ rs) : a.offset < a.stop :=
  Nat.lt_add_of_pos_right (h.pos a ha)

theorem Apart.eq_of_mem (h : Apart rs) {a c : Range} (ha : a ∈ rs) (hc : c ∈ rs) {b : Nat}
    (hab : a.Mem b) (hcb : c.Mem b) : a = c := by
  have hpairs : rs.Pairwise fun a c => ¬ (a.Mem b ∧ c.Mem b) := by
    refine h.apart.imp fun {a c} hle hboth => ?_
    have := hboth.1.2
    have := hboth.2.1
    omega
  by_contra hne
  have : Std.Symm fun a c : Range => ¬ (a.Mem b ∧ c.Mem b) :=
      ⟨fun _ _ hnot hboth => hnot hboth.symm⟩
  exact hpairs.forall ha hc hne ⟨hab, hcb⟩

theorem Apart.replace (h : Apart (l ++ m ++ r)) {a : Range} (ha : 0 < a.size)
    (hl : ∀ b ∈ l, b.stop ≤ a.offset) (hr : ∀ b ∈ r, a.stop ≤ b.offset) : Apart (l ++ a :: r) := by
  have hl' := h.left.left
  have hr' := h.right
  refine ⟨fun b hb => ?_, ?_⟩
  · rcases mem_append.mp hb with hb | hb
    · exact hl'.pos b hb
    · rcases mem_cons.mp hb with rfl | hb
      · exact ha
      · exact hr'.pos b hb
  · refine pairwise_append.mpr ⟨hl'.apart, pairwise_cons.mpr ⟨hr, hr'.apart⟩, fun b hb c hc => ?_⟩
    rcases mem_cons.mp hc with rfl | hc
    · exact hl b hb
    · exact h.append_le (mem_append_left m hb) hc

end Apart

end Pmdk.TxTree
