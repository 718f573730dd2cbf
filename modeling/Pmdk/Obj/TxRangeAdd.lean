import Mathlib.Data.Set.Lattice
import Mathlib.Order.CompletePartialOrder
import Pmdk.Obj.TxRange
import Mathlib.Order.Interval.Set.LinearOrder

/-!
# Adding a range to a transaction

The bytes that `pmemobj_tx_add_common` snapshots are those of its range that no node of the
tree covers, and afterwards the nodes cover the range.
-/

namespace Pmdk.TxRange

open List

/-! ## What the undo log records -/

def Records (mem : Nat → UInt8) (es : List Entry) (S : Set Nat) : Prop :=
  ∀ w, w ∈ es.flatMap Entry.assigns ↔ w.1 ∈ S ∧ w.2 = mem w.1

section Records

variable {mem : Nat → UInt8} {es es' : List Entry} {S S' : Set Nat}

theorem Records.nil (mem : Nat → UInt8) : Records mem [] ∅ := by
  simp [Records]

theorem Records.append (h : Records mem es S) (h' : Records mem es' S') :
    Records mem (es ++ es') (S ∪ S') := by
  intro w
  rw [flatMap_append, mem_append, h w, h' w, Set.mem_union]
  tauto

theorem records_bufCreate (mem : Nat → UInt8) (offset size : Nat) :
    Records mem [bufCreate mem offset size] (Set.Ico offset (offset + size)) := by
  rintro ⟨b, v⟩
  have hzip : (bufCreate mem offset size).assigns =
      (List.range' offset size).map fun b => (b, mem b) := by
    rw [Entry.assigns, bufCreate, length_map, List.length_range']
    conv_lhs => rw [← map_id (List.range' offset size), map_map]
    rw [List.zip_map']
    rfl
  rw [flatMap_singleton, hzip, mem_map]
  constructor
  · rintro ⟨b', hb', heq⟩
    obtain ⟨rfl, rfl⟩ := Prod.mk.inj heq
    rw [List.mem_range'_1] at hb'
    exact ⟨hb', rfl⟩
  · rintro ⟨hb, hv⟩
    exact ⟨b, List.mem_range'_1.mpr hb, Prod.ext rfl hv.symm⟩

theorem operationAddBuffer_spec (mem : Nat → UInt8) (ulogs : List Nat) (offset size : Nat)
    (es : List Entry) :
    ∃ new S, (operationAddBuffer mem ulogs offset size es).1.entries = es ++ new ∧
      Records mem new S ∧ S ⊆ Set.Ico offset (offset + size) ∧
      ((operationAddBuffer mem ulogs offset size es).2 = true →
        S = Set.Ico offset (offset + size)) := by
  induction ulogs generalizing offset size es with
  | nil =>
    exact ⟨[], ∅, (append_nil es).symm, Records.nil mem, Set.empty_subset _, nofun⟩
  | cons c ulogs ih =>
    rw [operationAddBuffer]
    generalize hn : min (size + 24) ((c + 1) * 64) - 24 = n
    have hpiece := records_bufCreate mem offset n
    split
    · have hsize : n = size := by omega
      subst hsize
      exact ⟨_, _, rfl, hpiece, subset_rfl, fun _ => rfl⟩
    · obtain ⟨new, S, hes, hnew, hsub, hok⟩ :=
        ih (offset + n) (size - n) (es ++ [bufCreate mem offset n])
      refine ⟨_, _, by rw [hes, append_assoc], hpiece.append hnew, ?_, fun h => ?_⟩
      · intro b hb
        rcases hb with hb | hb
        · rw [Set.mem_Ico] at hb ⊢
          omega
        · have := hsub hb
          rw [Set.mem_Ico] at this ⊢
          omega
      · rw [hok h]
        ext b
        rw [Set.mem_union, Set.mem_Ico, Set.mem_Ico, Set.mem_Ico]
        omega

end Records

/-! ## Adding a range -/

/-- The bytes of `I` that were not covered are recorded, and if nothing fails they all are and
the nodes cover `I`. -/
def Adds (mem : Nat → UInt8) (I : Set Nat) (tx : Tx) (r : Tx × Bool) : Prop :=
  ∃ new S, r.1.undo.entries = tx.undo.entries ++ new ∧ Records mem new S ∧
    S ⊆ I \ covered tx.ranges ∧ (∀ a ≠ .value, a ∈ r.1.actions ↔ a ∈ tx.actions) ∧
    (r.2 = true → S = I \ covered tx.ranges ∧ Extends tx.ranges r.1.ranges I)

variable {rend : Nat}

section Adds

variable {mem : Nat → UInt8} {I J : Set Nat} {tx tx' : Tx} {r : Tx × Bool}

theorem Extends.congr {ranges ranges' : Nat → Option Node} {S S' : Set Nat}
    (h : Extends ranges ranges' S)
    (heq : covered ranges ∪ S = covered ranges ∪ S') : Extends ranges ranges' S' :=
  { h with covered_eq := h.covered_eq.trans heq }

theorem Adds.of_extends {ranges : Nat → Option Node} (hext : Extends tx.ranges ranges I)
    (hI : I ⊆ covered tx.ranges) : Adds mem I tx ({ tx with ranges }, true) := by
  have hempty : I \ covered tx.ranges = ∅ := Set.sdiff_eq_empty.mpr hI
  exact ⟨[], ∅, (append_nil _).symm, Records.nil mem, Set.empty_subset _,
    fun _ _ => Iff.rfl, fun _ => ⟨hempty.symm, hext⟩⟩

theorem Adds.of_subset (hr : Apart tx.ranges) (hI : I ⊆ covered tx.ranges) :
    Adds mem I tx (tx, true) := by
  refine Adds.of_extends ((Extends.refl hr).congr ?_) hI
  rw [Set.union_empty, Set.union_eq_self_of_subset_right hI]

theorem adds_zero {offset : Nat} (hr : Apart tx.ranges) :
    Adds mem (Set.Ico offset (offset + 0)) tx (tx, true) := by
  refine Adds.of_subset hr ?_
  rw [Nat.add_zero, Set.Ico_self]
  exact Set.empty_subset _

theorem Adds.apart (h : Adds mem I tx (tx', true)) : Apart tx'.ranges := by
  obtain ⟨_, _, _, _, _, _, hok⟩ := h
  exact (hok rfl).2.apart

theorem Adds.trans (h : Adds mem I tx (tx', true)) (h' : Adds mem J tx' r) :
    Adds mem (I ∪ J) tx r := by
  obtain ⟨new, S, hes, hnew, -, hactions, hok⟩ := h
  obtain ⟨rfl, hext⟩ := hok rfl
  obtain ⟨new', S', hes', hnew', hsub', hactions', hok'⟩ := h'
  rw [hext.covered_eq] at hsub' hok'
  refine ⟨_, _, by rw [hes', hes, append_assoc], hnew.append hnew', ?_,
    fun a ha => (hactions' a ha).trans (hactions a ha), fun h => ⟨?_, ?_⟩⟩
  · rintro b (hb | hb)
    · exact ⟨.inl hb.1, hb.2⟩
    · exact ⟨.inr (hsub' hb).1, fun hc => (hsub' hb).2 (.inl hc)⟩
  · rw [(hok' h).1]
    ext b
    simp only [Set.mem_union, Set.mem_sdiff]
    tauto
  · exact hext.trans (hok' h).2

theorem Adds.mono_of_fail (h : Adds mem I tx (tx', false)) (hIJ : I ⊆ J) :
    Adds mem J tx (tx', false) := by
  obtain ⟨new, S, hes, hnew, hsub, hactions, -⟩ := h
  exact ⟨new, S, hes, hnew, fun b hb => ⟨hIJ (hsub hb).1, (hsub hb).2⟩, hactions, nofun⟩

theorem Adds.congr (h : Adds mem I tx r) (hIJ : I \ covered tx.ranges = J \ covered tx.ranges) :
    Adds mem J tx r := by
  obtain ⟨new, S, hes, hnew, hsub, hactions, hok⟩ := h
  rw [hIJ] at hsub hok
  refine ⟨new, S, hes, hnew, hsub, hactions, fun h => ⟨(hok h).1, (hok h).2.congr ?_⟩⟩
  rw [← Set.union_sdiff_self, hIJ, Set.union_sdiff_self]

/-- A snapshot of bytes that no node covers, taken together with a change of the tree. -/
theorem adds_addSnapshot {offset size : Nat} (hrend : offset + size = rend)
    {ranges : Nat → Option Node} (hdisj : Disjoint (Set.Ico offset rend) (covered tx.ranges))
    (hext : Extends tx.ranges ranges (Set.Ico offset rend)) :
    Adds mem (Set.Ico offset rend) tx (addSnapshot mem offset size { tx with ranges }) := by
  subst hrend
  obtain ⟨new, S, hes, hnew, hsub, hok⟩ :=
    operationAddBuffer_spec mem tx.undo.ulogs offset size tx.undo.entries
  refine ⟨new, S, hes, hnew, ?_, fun a ha => ?_, fun h => ⟨?_, hext⟩⟩
  · rw [hdisj.sdiff_eq_left]
    exact hsub
  · show (a ∈ if tx.firstSnapshot then tx.actions ++ [.value] else tx.actions) ↔ _
    split
    · simp [ha]
    · rfl
  · rw [hdisj.sdiff_eq_left]
    exact hok h

theorem addSnapshot_ranges (mem : Nat → UInt8) (offset size : Nat) (tx : Tx)
    (ranges : Nat → Option Node) :
    addSnapshot mem offset size { tx with ranges } =
      ({ (addSnapshot mem offset size tx).1 with ranges },
        (addSnapshot mem offset size tx).2) := rfl

end Adds

section Loop

variable {mem : Nat → UInt8} {tx : Tx} {offset size k : Nat} {f : Node} {nprev : Option Nat}

/-- What the loop knows about `nprev`: it touches `r` from the right, and without it nothing
does. -/
def Touches (ranges : Nat → Option Node) (rend : Nat) : Option Nat → Prop
  | none => ranges rend = none
  | some kprev => kprev = rend ∧ ∃ n, ranges rend = some n

def touchEnd (ranges : Nat → Option Node) (rend : Nat) : Option Nat → Nat
  | none => rend
  | some _ => rend + ((ranges rend).map Node.size).getD 0

/-- A node that ends at `rend` is fused with the one that touches it there. -/
theorem Touches.extends_fuse {ranges : Nat → Option Node} (hr : Apart ranges) {lo : Nat}
    (h : Touches ranges rend nprev) (flags : Nat) (hlt : lo < rend)
    (hin : ∀ {j n}, ranges j = some n → j < rend →
      j + n.size ≤ lo ∨ lo ≤ j ∧ j + n.size ≤ rend) :
    Extends ranges (fuse ranges lo (touchEnd ranges rend nprev) flags) (Set.Ico lo rend) := by
  cases nprev with
  | none =>
    refine TxRange.extends_fuse hr flags hlt fun {j n} hj => ?_
    rcases Nat.lt_or_ge j rend with hlt' | hge
    · exact (hin hj hlt').imp_right .inr
    · exact .inr (.inl hge)
  | some kprev =>
    obtain ⟨-, n, hn⟩ := h
    rw [touchEnd, hn, Option.map_some, Option.getD_some]
    refine (TxRange.extends_fuse hr flags (by omega) fun {j n'} hj => ?_).congr ?_
    · rcases Nat.lt_trichotomy j rend with hlt' | rfl | hgt
      · exact (hin hj hlt').imp_right fun h => .inr ⟨h.1, by omega⟩
      · rw [hn, Option.some.injEq] at hj
        exact .inr (.inr ⟨by omega, by rw [hj]⟩)
      · exact .inr (.inl (hr.apart hn hj hgt))
    · ext b
      constructor
      · rintro (hb | ⟨hlo, hhi⟩)
        · exact .inl hb
        · rcases Nat.lt_or_ge b rend with hlt' | hge
          · exact .inr ⟨hlo, hlt'⟩
          · exact .inl ⟨rend, n, hn, hge, hhi⟩
      · rintro (hb | ⟨hlo, hhi⟩)
        · exact .inl hb
        · exact .inr ⟨hlo, by omega⟩

theorem createRange_adds (hr : Apart tx.ranges) (flags : Nat) (hsize : 0 < size)
    (hnext : Touches tx.ranges (offset + size) nprev)
    (hbefore : ∀ {j n}, tx.ranges j = some n → j < offset + size → j + n.size ≤ offset) :
    ∃ r, createRange mem offset size flags nprev tx = some r ∧
      Adds mem (Set.Ico offset (offset + size)) tx r := by
  have hnone : ∀ j, offset ≤ j → j < offset + size → tx.ranges j = none := by
    intro j hj hlt
    cases hn : tx.ranges j with
    | none => rfl
    | some n =>
      have := hbefore hn hlt
      have := hr.pos hn
      omega
  have hdisj : Disjoint (Set.Ico offset (offset + size)) (covered tx.ranges) := by
    rw [Set.disjoint_left]
    rintro b hb ⟨j, n, hn, hle, hlt⟩
    rw [Set.mem_Ico] at hb
    have := hbefore hn (by omega)
    omega
  have hext : ∀ flags, Extends tx.ranges
      (fuse tx.ranges offset (touchEnd tx.ranges (offset + size) nprev) flags)
      (Set.Ico offset (offset + size)) := fun flags =>
    hnext.extends_fuse hr flags (by omega) fun hj hlt => .inl (hbefore hj hlt)
  cases nprev with
  | none =>
    refine ⟨_, ?_, adds_addSnapshot rfl hdisj (hext flags)⟩
    rw [createRange, ravlEmplace_eq_fuse hsize flags hnone]
    rfl
  | some kprev =>
    obtain ⟨rfl, n, hn⟩ := hnext
    refine ⟨_, rfl, adds_addSnapshot rfl hdisj ?_⟩
    have hfuse := hext n.flags
    rw [touchEnd, hn, Option.map_some, Option.getD_some] at hfuse
    rw [growLeft_eq_fuse hr hsize hn hnone]
    exact hfuse

theorem extendFound_adds (mem : Nat → UInt8) (hr : Apart tx.ranges)
    (hnext : Touches tx.ranges rend nprev) (hk : tx.ranges k = some f)
    (hend : k + f.size ≤ rend) (hnone : ∀ j, k < j → j < rend → tx.ranges j = none) :
    Adds mem (Set.Ico k rend) tx (extendFound mem k (k + f.size) rend nprev tx) := by
  have hpos := hr.pos hk
  have hcov : Set.Ico k (k + f.size) ⊆ covered tx.ranges := fun b hb =>
    ⟨k, f, hk, hb.1, hb.2⟩
  have hbefore : ∀ {j n}, tx.ranges j = some n → j < rend →
      j + n.size ≤ k ∨ j = k ∧ n = f := by
    intro j n hj hlt
    rcases Nat.lt_trichotomy j k with hjk | rfl | hjk
    · exact .inl (hr.apart hj hk hjk)
    · exact .inr ⟨rfl, Option.some.inj (hj.symm.trans hk)⟩
    · rw [hnone j hjk hlt] at hj
      cases hj
  have hin : ∀ {j n}, tx.ranges j = some n → j < rend →
      j + n.size ≤ k ∨ k ≤ j ∧ j + n.size ≤ rend := by
    intro j n hj hlt
    rcases hbefore hj hlt with h | ⟨rfl, rfl⟩
    · exact .inl h
    · exact .inr ⟨Nat.le_refl _, hend⟩
  have hdisj : Disjoint (Set.Ico (k + f.size) rend) (covered tx.ranges) := by
    rw [Set.disjoint_left]
    rintro b ⟨hlo, hhi⟩ ⟨j, n, hn, hle, hlt⟩
    rcases hbefore hn (by omega) with h | ⟨rfl, rfl⟩ <;> omega
  have hunion : Set.Ico k (k + f.size) ∪ Set.Ico (k + f.size) rend = Set.Ico k rend :=
    Set.Ico_union_Ico_eq_Ico (by omega) hend
  -- only the bytes behind the found node are new
  have htail : ∀ {ranges}, Extends tx.ranges ranges (Set.Ico k rend) →
      Extends tx.ranges ranges (Set.Ico (k + f.size) rend) := by
    intro ranges hext
    refine hext.congr ?_
    rw [← hunion, ← Set.union_assoc, Set.union_eq_self_of_subset_right hcov]
  have hgrow : Extends tx.ranges (growRight tx.ranges k (rend - (k + f.size)))
      (Set.Ico (k + f.size) rend) := by
    rw [growRight_eq_fuse hr hk hend hnone]
    refine htail (extends_fuse hr f.flags (by omega) fun {j n} hj => ?_)
    rcases Nat.lt_or_ge j rend with hlt | hge
    · exact (hin hj hlt).imp_right .inr
    · exact .inr (.inl hge)
  have hmerge : ∀ kprev, nprev = some kprev → Extends tx.ranges
      (mergeNext (growRight tx.ranges k (rend - (k + f.size))) k kprev)
      (Set.Ico (k + f.size) rend) := by
    intro kprev hnprev
    have hext := hnext.extends_fuse hr f.flags (by omega) hin
    rw [hnprev] at hnext hext
    obtain ⟨rfl, n, hn⟩ := hnext
    rw [touchEnd, hn, Option.map_some, Option.getD_some] at hext
    rw [growRight_eq_fuse hr hk hend hnone, mergeNext_fuse hr (by omega) hn]
    exact htail hext
  rw [← hunion]
  refine (Adds.of_subset hr hcov).trans ?_
  have hsnap : ∀ {ranges}, Extends tx.ranges ranges (Set.Ico (k + f.size) rend) →
      Adds mem (Set.Ico (k + f.size) rend) tx
        (addSnapshot mem (k + f.size) (rend - (k + f.size)) { tx with ranges }) := fun hext =>
    adds_addSnapshot (by omega) hdisj hext
  unfold extendFound
  by_cases hz : rend - (k + f.size) = 0
  · have hempty : Set.Ico (k + f.size) rend ⊆ covered tx.ranges := by
      rw [Set.Ico_eq_empty (by omega)]
      exact Set.empty_subset _
    cases nprev with
    | none => simpa [hz] using Adds.of_extends hgrow hempty
    | some kprev => simpa [hz] using Adds.of_extends (hmerge kprev rfl) hempty
  · simp only [ne_eq, hz, not_false_eq_true, if_true]
    generalize hres : addSnapshot mem (k + f.size) (rend - (k + f.size))
      { tx with ranges := growRight tx.ranges k (rend - (k + f.size)) } = res
    have hadds := hsnap hgrow
    rw [hres] at hadds
    obtain ⟨tx', ok⟩ := res
    cases ok with
    | false => exact hadds
    | true =>
      cases nprev with
      | none => exact hadds
      | some kprev =>
        have hranges : tx'.ranges = growRight tx.ranges k (rend - (k + f.size)) :=
          (congrArg (fun r => r.1.ranges) hres).symm
        have hadds := hsnap (hmerge kprev rfl)
        rw [addSnapshot_ranges _ _ _
          { tx with ranges := growRight tx.ranges k (rend - (k + f.size)) }, hres] at hadds
        simpa [hranges] using hadds

theorem exists_ranges_extendFound (mem : Nat → UInt8) (hnext : Touches tx.ranges rend nprev)
    (hlt : k < rend) (hk : tx.ranges k = some f) :
    ∃ n, (extendFound mem k (k + f.size) rend nprev tx).1.ranges k = some n := by
  have hgrow : growRight tx.ranges k (rend - (k + f.size)) k =
      some { f with size := f.size + (rend - (k + f.size)) } := by
    rw [growRight, Function.update_self, hk, Option.map_some]
  unfold extendFound
  dsimp only
  cases nprev with
  | none =>
    have hsnap : ∀ p : Tx × Bool, p.1.ranges = growRight tx.ranges k (rend - (k + f.size)) →
        ∃ n, (if p.2 = false then (p.1, false) else (p.1, true) : Tx × Bool).1.ranges k =
          some n := by
      intro p hp
      split <;> exact ⟨_, hp ▸ hgrow⟩
    split
    · exact hsnap _ rfl
    · exact hsnap (_, true) rfl
  | some kprev =>
    obtain ⟨rfl, -⟩ := hnext
    have hsnap : ∀ p : Tx × Bool, p.1.ranges = growRight tx.ranges k (kprev - (k + f.size)) →
        ∃ n, (if p.2 = false then (p.1, false)
          else ({ p.1 with ranges := mergeNext p.1.ranges k kprev }, true) :
            Tx × Bool).1.ranges k = some n := by
      intro p hp
      split
      · exact ⟨_, hp ▸ hgrow⟩
      · show ∃ n, mergeNext p.1.ranges k kprev k = some n
        rw [mergeNext, ravlRemove, Function.update_of_ne (by omega), growRight,
          Function.update_self, hp, hgrow]
        exact ⟨_, rfl⟩
    split
    · exact hsnap _ rfl
    · exact hsnap (_, true) rfl

theorem addLoop_less_adds (mem : Nat → UInt8) (offset flags : Nat) {fuel : Nat}
    (hr : Apart tx.ranges) (hfuel : size ≤ fuel)
    (hnext : size ≠ 0 → Touches tx.ranges (offset + size) nprev) :
    ∃ r, addLoop mem offset flags fuel size .less nprev tx = some r ∧
      Adds mem (Set.Ico offset (offset + size)) tx r := by
  induction fuel generalizing size nprev tx with
  | zero =>
    obtain rfl : size = 0 := by omega
    exact ⟨_, rfl, adds_zero hr⟩
  | succ fuel ih =>
    rw [addLoop]
    by_cases hz : size = 0
    · subst hz
      exact ⟨_, rfl, adds_zero hr⟩
    rw [if_neg hz]
    replace hnext := hnext hz
    dsimp only [ravlFind]
    split
    · rename_i hfind
      refine createRange_adds hr flags (by omega) hnext fun {j n} hj hlt => ?_
      rw [findLess_eq_none hfind j hlt] at hj
      cases hj
    · rename_i k f hfind
      obtain ⟨hk, hlt, hnone⟩ := findLess_eq_some hfind
      have hpos := hr.pos hk
      -- what is left of `r` lies to the left of the node at `k`
      have hrest : ∀ {tx' : Tx} {size' : Nat},
          Adds mem (Set.Ico (max k offset) (offset + size)) tx (tx', true) →
          (∃ n, tx'.ranges k = some n) → offset + size' = max k offset →
          ∃ r, addLoop mem offset flags fuel size' .less (some k) tx' = some r ∧
            Adds mem (Set.Ico offset (offset + size)) tx r := by
        intro tx' size' hadds hself hsize'
        have htouch : size' ≠ 0 → Touches tx'.ranges (offset + size') (some k) := fun hne =>
          ⟨by omega, by rwa [show offset + size' = k by omega]⟩
        obtain ⟨r, hloop, hr'⟩ := ih hadds.apart (by omega) htouch
        have htotal := hadds.trans hr'
        rw [hsize', Set.union_comm, Set.Ico_union_Ico_eq_Ico (by omega) (by omega)] at htotal
        exact ⟨r, hloop, htotal⟩
      split
      · refine createRange_adds hr flags (by omega) hnext fun {j n} hj hlt' => ?_
        rcases Nat.lt_trichotomy j k with hjk | rfl | hjk
        · have := hr.apart hj hk hjk
          omega
        · rw [hk, Option.some.injEq] at hj
          rw [← hj]
          omega
        · rw [hnone j hjk hlt'] at hj
          cases hj
      · split
        · rename_i hfend hrend
          have hadds := extendFound_adds mem hr hnext hk hrend hnone
          have hself := exists_ranges_extendFound mem hnext hlt hk
          have hcut : Set.Ico k (offset + size) \ covered tx.ranges =
              Set.Ico (max k offset) (offset + size) \ covered tx.ranges := by
            ext b
            simp only [Set.mem_sdiff, Set.mem_Ico]
            refine ⟨fun h => ⟨⟨?_, h.1.2⟩, h.2⟩, fun h => ⟨⟨by omega, h.1.2⟩, h.2⟩⟩
            by_contra hb
            exact h.2 ⟨k, f, hk, h.1.1, by omega⟩
          replace hadds := hadds.congr hcut
          generalize extendFound mem k (k + f.size) (offset + size) nprev tx = res at *
          obtain ⟨tx', ok⟩ := res
          cases ok with
          | false =>
            exact ⟨_, rfl, hadds.mono_of_fail (Set.Ico_subset_Ico_left (by omega))⟩
          | true => exact hrest hadds hself (by omega)
        · refine hrest (Adds.of_subset hr fun b hb => ⟨k, f, hk, ?_, ?_⟩) ⟨f, hk⟩ (by omega)
          · exact Nat.le_trans (Nat.le_max_left k offset) hb.1
          · have := hb.2
            omega

end Loop

theorem findLess_succ_of_none {ranges : Nat → Option Node} {x : Nat} (h : ranges x = none) :
    findLess ranges (x + 1) = findLess ranges x := by
  rw [findLess, h]

theorem addCommon_adds {tx : Tx} (hr : Apart tx.ranges) (heap : Heap) (mem : Nat → UInt8)
    (offset size flags : Nat) :
    ∃ r, addCommon heap mem offset size flags tx = some r ∧
      Adds mem (Set.Ico offset (offset + size)) tx r := by
  have hfail : Adds mem (Set.Ico offset (offset + size)) tx (tx, false) :=
    ⟨[], ∅, (append_nil _).symm, Records.nil mem, Set.empty_subset _, fun _ _ => Iff.rfl, nofun⟩
  unfold addCommon
  split
  · exact ⟨_, rfl, hfail⟩
  split
  · exact ⟨_, rfl, hfail⟩
  by_cases hz : size = 0
  · subst hz
    exact ⟨_, rfl, adds_zero hr⟩
  cases hn : tx.ranges (offset + size) with
  | none =>
    have hless : addLoop mem offset flags (size + 1) size .lessEqual none tx =
        addLoop mem offset flags (size + 1) size .less none tx := by
      rw [addLoop, addLoop]
      dsimp only [ravlFind]
      rw [findLess_succ_of_none hn]
    rw [hless]
    exact addLoop_less_adds mem offset flags hr (Nat.le_succ size) fun _ => hn
  | some n =>
    have hpos := hr.pos hn
    have hless : addLoop mem offset flags (size + 1) size .lessEqual none tx =
        addLoop mem offset flags size size .less (some (offset + size)) tx := by
      have hfind : findLess tx.ranges (offset + size + 1) = some (offset + size, n) := by
        rw [findLess, hn]
      rw [addLoop, if_neg hz]
      dsimp only [ravlFind]
      rw [hfind]
      dsimp only
      rw [if_neg (by omega), if_neg (by omega)]
      congr 1
      omega
    rw [hless]
    exact addLoop_less_adds mem offset flags hr (Nat.le_refl size) fun _ => ⟨rfl, n, hn⟩

end Pmdk.TxRange
