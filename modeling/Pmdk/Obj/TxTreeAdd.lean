import Pmdk.Obj.TxTree

/-!
# A call inserts its range

The loop of `pmemobj_tx_add_common` goes over the ranges that it fuses from the last one to the
first. In each round the range that is left ends where the node of the round before begins.
-/

namespace Pmdk.TxTree

open List

/-- What is left to do with `r` when the ranges in `as` are fused with it: the ranges before and
after them do not change, and each byte of `r` that was in no range is in one new snapshot. -/
structure Adds (r : Range) (l as rs : List Range) (s s' : State) : Prop where
  list : s'.ranges.toList = l ++ fused r as :: rs
  snapshots : ∃ new, s'.snapshots = s.snapshots ++ new ∧
    ∀ b, hits new b = if r.Mem b ∧ ∀ a ∈ as, ¬ a.Mem b then 1 else 0

section Rounds

variable {s : State} {r f n : Range} {l m rs : List Range}

def Follows (r : Range) (rs : List Range) : Option Range → Prop
  | none => ∀ a ∈ rs, r.stop < a.offset
  | some n => n.offset = r.stop

variable {next : Option Range} {fuel : Nat}

theorem Follows.le (h : Follows r rs next) (hr : Apart (next.toList ++ rs))
    {a : Range} (ha : a ∈ next.toList ++ rs) : r.stop ≤ a.offset := by
  cases next with
  | none => exact Nat.le_of_lt (h a ha)
  | some n =>
    have hn : n.offset = r.stop := h
    rcases mem_cons.mp ha with rfl | ha
    · exact Nat.le_of_eq hn.symm
    · have := hr.append_le mem_cons_self ha
      have := hr.stop_pos (mem_append_left rs mem_cons_self)
      omega

theorem createRange_adds (next : Option Range) (hlist : s.ranges.toList = l ++ (next.toList ++ rs))
    (hr : Apart (l ++ (next.toList ++ rs))) (hsize : 0 < r.size)
    (hl : ∀ a ∈ l, a.stop < r.offset) (hnext : Follows r rs next) :
    ∃ s', createRange r (next.map Range.offset) s = some s' ∧ Adds r l next.toList rs s s' := by
  have hsorted : s.ranges.Sorted Range.offset := (hlist.symm ▸ hr : Apart s.ranges.toList).sorted
  have hstop : r.stop = r.offset + r.size := rfl
  cases next with
  | none =>
    obtain ⟨t', heq, ht'⟩ := @Ravl.Tree.emplace_append _ _ _ _ _ r _ _ hsorted hlist (fun a ha => by
        have := hl a ha
        have := hr.stop_pos (mem_append_left _ ha)
        omega)
      (fun a ha => by
        have := hnext a ha
        omega)
    refine ⟨addSnapshot r { s with ranges := t' }, ?_, ?_, [r], rfl, fun b => ?_⟩
    · rw [Option.map_none, createRange, heq]
      rfl
    · refine ht'.trans ?_
      have hsub : r.stop - r.offset = r.size := by omega
      rw [fused]
      simp only [Option.toList_none, head?_nil, getLast?_nil, Option.elim_none, hsub]
      rfl
    · rw [hits_singleton]
      simp
  | some n =>
    have hn : n.offset = r.stop := hnext
    have hfind := Ravl.Tree.find_equal_append hsorted (m := n) hlist
    have hmodify := Ravl.Tree.toList_modify_append hsorted (m := n) hlist fun fprev =>
      { fprev with offset := fprev.offset - r.size, size := fprev.size + r.size }
    refine ⟨addSnapshot r { s with
      ranges := s.ranges.modify Range.offset n.offset fun fprev =>
        { fprev with offset := fprev.offset - r.size, size := fprev.size + r.size } }, ?_, ?_,
      [r], rfl, fun b => ?_⟩
    · rw [Option.map_some, createRange, hfind]
      dsimp only
      rw [if_neg (not_not.mpr hn.symm)]
    · refine hmodify.trans ?_
      rw [fused]
      simp only [Option.toList_some, head?_cons, getLast?_singleton, Option.elim_some, Range.stop]
      rw [Range.stop] at hn
      congr 2
      rw [Range.mk.injEq]
      omega
    · rw [hits_singleton]
      refine if_congr ⟨fun hb => ⟨hb, fun a ha hb' => ?_⟩, And.left⟩ rfl rfl
      obtain rfl : a = n := by simpa using ha
      have := hb.2
      have := hb'.1
      omega

/-- The node `f`, extended up to the end of `r` and merged with the next node. -/
def merged (r f : Range) (next : Option Range) : Range :=
  { f with size := next.elim r.stop Range.stop - f.offset }

theorem extendFound_spec (next : Option Range)
    (hlist : s.ranges.toList = l ++ f :: (next.toList ++ rs))
    (hr : Apart (l ++ f :: (next.toList ++ rs))) (hle : f.stop ≤ r.stop)
    (hnext : Follows r rs next) :
    ∃ s', extendFound r f (next.map Range.offset) s = some s' ∧
      s'.ranges.toList = l ++ merged r f next :: rs ∧
      ∃ new, s'.snapshots = s.snapshots ++ new ∧
        ∀ b, hits new b = if f.stop ≤ b ∧ b < r.stop then 1 else 0 := by
  have hsorted : s.ranges.Sorted Range.offset := (hlist.symm ▸ hr : Apart s.ranges.toList).sorted
  have hfstop : f.stop = f.offset + f.size := rfl
  obtain ⟨d, hd⟩ : ∃ d, r.stop - f.stop = d := ⟨_, rfl⟩
  -- the tree after the extension
  obtain ⟨t₁, ht₁⟩ : ∃ t, s.ranges.modify Range.offset f.offset (fun f =>
    { f with size := f.size + d }) = t := ⟨_, rfl⟩
  have hlist₁ := Ravl.Tree.toList_modify_append hsorted (m := f) hlist fun f =>
    { f with size := f.size + d }
  have hsorted₁ : t₁.Sorted Range.offset := ht₁ ▸ hsorted.modify fun _ => rfl
  rw [ht₁] at hlist₁
  obtain ⟨s₁, hs₁⟩ : ∃ s₁, (if d ≠ 0 then
    addSnapshot ⟨f.stop, d, r.flags⟩ { s with ranges := t₁ } else { s with ranges := t₁ }) = s₁ :=
      ⟨_, rfl⟩
  have hranges : s₁.ranges = t₁ := by
    rw [← hs₁]
    split <;> rfl
  have hsnaps : ∃ new, s₁.snapshots = s.snapshots ++ new ∧
      ∀ b, hits new b = if f.stop ≤ b ∧ b < r.stop then 1 else 0 := by
    rw [← hs₁]
    split
    · refine ⟨[⟨f.stop, d, r.flags⟩], rfl, fun b => ?_⟩
      have hstop : (⟨f.stop, d, r.flags⟩ : Range).stop = r.stop := by
        rw [Range.stop, ← hd, Nat.add_sub_cancel' hle]
      refine (hits_singleton _ b).trans (if_congr ?_ rfl rfl)
      rw [← hstop]
      rfl
    · refine ⟨[], (append_nil _).symm, fun b => ?_⟩
      rw [if_neg (by omega)]
      rfl
  unfold extendFound
  dsimp only
  rw [hd, ht₁, hs₁]
  cases next with
  | none =>
    refine ⟨s₁, rfl, ?_, hsnaps⟩
    have hsize : f.size + d = r.stop - f.offset := by omega
    rw [hranges, hlist₁, merged, Option.elim_none, hsize]
    rfl
  | some n =>
    have hn : n.offset = r.stop := hnext
    have hlist₁' : t₁.toList = (l ++ [{ f with size := f.size + d }]) ++ n :: rs := by
      rw [hlist₁, append_assoc]
      rfl
    have hfind := Ravl.Tree.find_equal_append hsorted₁ hlist₁'
    obtain ⟨t₂, ht₂⟩ : ∃ t, t₁.modify Range.offset f.offset (fun f =>
      { f with size := f.size + n.size }) = t := ⟨_, rfl⟩
    have hlist₂ : t₂.toList = l ++ { f with size := f.size + d + n.size } :: (n :: rs) := by
      rw [← ht₂]
      exact Ravl.Tree.toList_modify_append hsorted₁ hlist₁ fun f =>
        { f with size := f.size + n.size }
    have hsorted₂ : t₂.Sorted Range.offset := ht₂ ▸ hsorted₁.modify fun _ => rfl
    have hmerged : ({ f with size := f.size + d + n.size } : Range) = merged r f (some n) := by
      have hsize : f.size + d + n.size = n.stop - f.offset := by
        rw [Range.stop]
        omega
      rw [hsize]
      rfl
    rw [hmerged] at hlist₂
    have hlist₂' : t₂.toList = (l ++ [merged r f (some n)]) ++ n :: rs := by
      rw [hlist₂, append_assoc]
      rfl
    refine ⟨{ s₁ with ranges := t₂.remove Range.offset n.offset }, ?_, ?_, hsnaps⟩
    · rw [Option.map_some]
      dsimp only
      rw [hranges, hfind]
      dsimp only
      rw [if_neg (not_not.mpr hn.symm), ht₂]
    · refine (Ravl.Tree.toList_remove_append hsorted₂ hlist₂').trans ?_
      rw [append_assoc]
      rfl

theorem merged_eq (hle : f.stop ≤ r.stop) (hnext : Follows r rs next) :
    merged r f next = ⟨f.offset, max r.stop (next.getD f).stop - f.offset, f.flags⟩ := by
  cases next with
  | none =>
    have hmax : max r.stop f.stop = r.stop := Nat.max_eq_left hle
    rw [merged, Option.getD_none, hmax]
    rfl
  | some n =>
    have hn : n.offset = r.stop := hnext
    have hnstop : n.stop = n.offset + n.size := rfl
    have hmax : max r.stop n.stop = n.stop := Nat.max_eq_right (by omega)
    rw [merged, Option.getD_some, hmax]
    rfl

theorem Apart.merged (hr : Apart (l ++ f :: (next.toList ++ rs)))
    (hf : f.offset < r.stop) (hle : f.stop ≤ r.stop) (hnext : Follows r rs next) :
    Apart (l ++ merged r f next :: rs) := by
  have hmid : Apart (l ++ (f :: next.toList) ++ rs) := by
    rw [append_assoc]
    exact hr
  have hgstop : (TxTree.merged r f next).stop = max r.stop (next.getD f).stop := by
    rw [merged_eq hle hnext, Range.stop]
    dsimp only
    omega
  refine hmid.replace ?_ (fun b hb => ?_) fun b hb => ?_
  · rw [merged_eq hle hnext]
    dsimp only
    omega
  · have hle' : b.stop ≤ f.offset := hr.append_le hb mem_cons_self
    rw [merged_eq hle hnext]
    exact hle'
  · rw [hgstop]
    cases next with
    | none =>
      have hlt : r.stop < b.offset := hnext b hb
      rw [Option.getD_none]
      omega
    | some n =>
      have hn : n.offset = r.stop := hnext
      have hnstop : n.stop = n.offset + n.size := rfl
      have := hmid.append_le (mem_append_right _ (mem_cons_of_mem f mem_cons_self)) hb
      rw [Option.getD_some]
      omega

theorem fused_concat (r : Range) (m : List Range) (f : Range) :
    fused r (m ++ [f]) = ⟨min r.offset (m.head?.getD f).offset,
      max r.stop f.stop - min r.offset (m.head?.getD f).offset, (m.head?.getD f).flags⟩ := by
  have hhead : (m ++ [f]).head? = some (m.head?.getD f) := by
    cases m with
    | nil => rfl
    | cons a m => rfl
  rw [fused, hhead, getLast?_concat]
  rfl

theorem fused_concat_next (r : Range) (m : List Range) (f : Range) (next : Option Range) :
    fused r (m ++ [f] ++ next.toList) = ⟨min r.offset (m.head?.getD f).offset,
      max r.stop (next.getD f).stop - min r.offset (m.head?.getD f).offset,
      (m.head?.getD f).flags⟩ := by
  cases next with
  | none =>
    rw [Option.toList_none, append_nil]
    exact fused_concat r m f
  | some n =>
    have hhead : (m ++ [f]).head?.getD n = m.head?.getD f := by
      cases m with
      | nil => rfl
      | cons a m => rfl
    rw [Option.toList_some, fused_concat, hhead]
    rfl

/-- After a round only the part of `r` before `f` is left, and `g` has taken the place of `f`. -/
theorem Adds.round {s s₁ s' : State} {g : Range} {size : Nat}
    (hsize : size = f.offset - r.offset) (hlt : r.offset < f.offset) (hf : f.offset < r.stop)
    (hm : ∀ a ∈ m, a.stop ≤ f.offset) (hfstop : f.offset ≤ f.stop)
    (hoffset : g.offset = f.offset) (hflags : g.flags = f.flags)
    (hstop : g.stop = max r.stop (next.getD f).stop)
    (hmem : ∀ b, b < r.stop → ((f.Mem b ∨ ∃ n ∈ next, n.Mem b) ↔ f.offset ≤ b ∧ b < f.stop))
    (hnew : ∃ new, s₁.snapshots = s.snapshots ++ new ∧
      ∀ b, hits new b = if f.stop ≤ b ∧ b < r.stop then 1 else 0)
    (h : Adds { r with size } l (m ++ [g]) rs s₁ s') :
    Adds r l (m ++ [f] ++ next.toList) rs s s' := by
  have hrstop : ({ r with size } : Range).stop = f.offset := by
    rw [Range.stop]
    dsimp only
    omega
  obtain ⟨new, hs₁, hhits⟩ := hnew
  obtain ⟨hlist, new', hs', hhits'⟩ := h
  refine ⟨?_, new ++ new', ?_, fun b => ?_⟩
  · have hhead : (m.head?.getD g).offset = (m.head?.getD f).offset ∧
        (m.head?.getD g).flags = (m.head?.getD f).flags := by
      cases m with
      | nil => exact ⟨hoffset, hflags⟩
      | cons a m => exact ⟨rfl, rfl⟩
    have hmax : max f.offset g.stop = max r.stop (next.getD f).stop := by
      rw [hstop]
      omega
    rw [hlist, fused_concat, fused_concat_next, hhead.1, hhead.2, hrstop, hmax]
  · rw [hs', hs₁, append_assoc]
  · rw [hits_append, hhits, hhits']
    have hall : (∀ a ∈ m ++ [g], ¬ a.Mem b) ↔ (∀ a ∈ m, ¬ a.Mem b) ∧ ¬ g.Mem b := by
      simp [or_imp, forall_and]
    have hall' : (∀ a ∈ m ++ [f] ++ next.toList, ¬ a.Mem b) ↔
        (∀ a ∈ m, ¬ a.Mem b) ∧ ¬ (f.Mem b ∨ ∃ n ∈ next, n.Mem b) := by
      cases next <;> simp [or_imp, forall_and]
    have hg : g.Mem b ↔ f.offset ≤ b ∧ b < max r.stop (next.getD f).stop := by
      rw [Range.Mem, hoffset, hstop]
    have hr' : ({ r with size } : Range).Mem b ↔ r.offset ≤ b ∧ b < f.offset := by
      rw [Range.Mem, hrstop]
    have hr : r.Mem b ↔ r.offset ≤ b ∧ b < r.stop := Iff.rfl
    rcases Nat.lt_or_ge b r.stop with hb | hb
    · rcases Nat.lt_or_ge b f.offset with hbf | hbf
      · rw [if_neg (by omega), Nat.zero_add]
        refine if_congr ?_ rfl rfl
        rw [hall, hall', hg, hr', hr, hmem b hb]
        constructor
        · rintro ⟨⟨hle, -⟩, hnot, -⟩
          exact ⟨⟨hle, hb⟩, hnot, by omega⟩
        · rintro ⟨⟨hle, -⟩, hnot, -⟩
          exact ⟨⟨hle, hbf⟩, hnot, by omega⟩
      · have hnot : ∀ a ∈ m, ¬ a.Mem b := fun a ha hab => by
          have := hm a ha
          have := hab.2
          omega
        have hzero : ¬ (({ r with size } : Range).Mem b ∧ ∀ a ∈ m ++ [g], ¬ a.Mem b) := fun h =>
          Nat.not_lt.mpr hbf (hr'.mp h.1).2
        rw [if_neg hzero, Nat.add_zero]
        refine if_congr ?_ rfl rfl
        rw [hall', hr, hmem b hb]
        constructor
        · rintro ⟨hle, -⟩
          exact ⟨⟨by omega, hb⟩, hnot, by omega⟩
        · rintro ⟨-, -, hnmem⟩
          exact ⟨by omega, hb⟩
    · have hzero : ¬ (({ r with size } : Range).Mem b ∧ ∀ a ∈ m ++ [g], ¬ a.Mem b) := fun h => by
        have := (hr'.mp h.1).2
        omega
      rw [if_neg (by omega), if_neg hzero, if_neg fun h => Nat.not_lt.mpr hb (hr.mp h.1).2]

/-- The range is used up when `f` begins at or before it: then nothing before `f` is fused. -/
theorem Adds.last {s s₁ : State} {g : Range} (hle : f.offset ≤ r.offset) (hfr : r.offset ≤ f.stop)
    (hg : g = ⟨f.offset, max r.stop (next.getD f).stop - f.offset, f.flags⟩)
    (hmem : ∀ b, b < r.stop → ((f.Mem b ∨ ∃ n ∈ next, n.Mem b) ↔ f.offset ≤ b ∧ b < f.stop))
    (hnew : ∃ new, s₁.snapshots = s.snapshots ++ new ∧
      ∀ b, hits new b = if f.stop ≤ b ∧ b < r.stop then 1 else 0)
    (hlist : s₁.ranges.toList = l ++ g :: rs) :
    Adds r l ([f] ++ next.toList) rs s s₁ := by
  obtain ⟨new, hs₁, hhits⟩ := hnew
  refine ⟨?_, new, hs₁, fun b => ?_⟩
  · have hfused := fused_concat_next r [] f next
    rw [nil_append, head?_nil, Option.getD_none, Nat.min_eq_right hle] at hfused
    rw [hlist, hfused, hg]
  · have hall : (∀ a ∈ [f] ++ next.toList, ¬ a.Mem b) ↔ ¬ (f.Mem b ∨ ∃ n ∈ next, n.Mem b) := by
      cases next <;> simp
    have hr : r.Mem b ↔ r.offset ≤ b ∧ b < r.stop := Iff.rfl
    rw [hhits]
    refine if_congr ?_ rfl rfl
    rw [hall, hr]
    constructor
    · rintro ⟨hfb, hb⟩
      rw [hmem b hb]
      exact ⟨⟨by omega, hb⟩, by omega⟩
    · rintro ⟨⟨hrb, hb⟩, hnot⟩
      rw [hmem b hb] at hnot
      exact ⟨by omega, hb⟩

theorem addLoop_zero {r : Range} {p : Ravl.Predicate} {nprev : Option Nat} {s : State}
    (hsize : r.size = 0) : addLoop (fuel + 1) r p nprev s = some s := by
  rw [addLoop, if_pos hsize]

theorem addLoop_found {nprev : Option Nat} (hsize : 0 < r.size)
    (hrf : r.offset ≤ f.stop) (hfr : f.offset < r.stop) (hpos : f.offset < f.stop)
    (hfind : s.ranges.find Range.offset .less r.stop none = some f) :
    addLoop (fuel + 1) r .less nprev s =
      if f.stop ≤ r.stop then
        (extendFound r f nprev s).bind
          (addLoop fuel { r with size := f.offset - r.offset } .less (some f.offset))
      else addLoop fuel { r with size := f.offset - r.offset } .less (some f.offset) s := by
  have hrstop : r.stop = r.offset + r.size := rfl
  rw [addLoop, if_neg (by omega), hfind]
  dsimp only
  rw [if_neg (by omega)]
  split
  · rename_i hle
    have hleft : r.size - (f.stop - max f.offset r.offset + (r.stop - f.stop)) =
        f.offset - r.offset := by omega
    rw [hleft]
  · have hleft : r.size - (r.stop - max f.offset r.offset) = f.offset - r.offset := by omega
    rw [hleft]

theorem addLoop_less_adds (m : List Range) {r : Range}
    {s : State} (hlist : s.ranges.toList = l ++ (m ++ (next.toList ++ rs)))
    (hr : Apart (l ++ (m ++ (next.toList ++ rs)))) (hsize : 0 < r.size) (hfuel : r.size < fuel)
    (hl : ∀ a ∈ l, a.stop < r.offset ∨ a.stop = r.offset ∧ ∃ c ∈ m, c.offset = r.offset)
    (hm : ∀ a ∈ m, r.offset ≤ a.stop ∧ a.offset < r.stop ∧
      (a.stop = r.offset → ∀ c ∈ m, c.offset ≠ r.offset)) (hnext : Follows r rs next) :
    ∃ s', addLoop fuel r .less (next.map Range.offset) s = some s' ∧
      Adds r l (m ++ next.toList) rs s s' := by
  induction m using List.reverseRecOn generalizing fuel r next s with
  | nil =>
    have hl' : ∀ a ∈ l, a.stop < r.offset := by
      intro a ha
      rcases hl a ha with hlt | ⟨-, c, hc, -⟩
      · exact hlt
      · exact absurd hc not_mem_nil
    have hstop : r.stop = r.offset + r.size := rfl
    have hcreate := createRange_adds next hlist hr hsize hl' hnext
    obtain ⟨fuel, rfl⟩ := Nat.exists_eq_add_one_of_ne_zero (Nat.ne_of_gt (Nat.zero_lt_of_lt hfuel))
    have hfind := Ravl.Tree.find_less_append (x := r.stop)
      (hlist.symm ▸ hr : Apart s.ranges.toList).sorted hlist
      (fun a ha => by
        have := hl' a ha
        have := hr.stop_pos (mem_append_left _ ha)
        omega)
      (fun a ha => hnext.le hr.right ha)
    rw [addLoop, if_neg (by omega), hfind]
    cases hlast : l.getLast? with
    | none => exact hcreate
    | some a =>
      have hlt := hl' a (mem_of_getLast? hlast)
      dsimp only
      rw [if_pos (.inr hlt)]
      exact hcreate
  | append_singleton m f ih =>
    obtain ⟨hrf, hfr, hfm⟩ := hm f (mem_append_right m mem_cons_self)
    have hmf : ∀ a ∈ m, a.stop ≤ f.offset := fun a ha =>
      hr.right.left.append_le ha mem_cons_self
    have hpos := hr.right.left.right.stop_pos mem_cons_self
    have hrstop : r.stop = r.offset + r.size := rfl
    have hlist' : s.ranges.toList = (l ++ m) ++ f :: (next.toList ++ rs) := by
      rw [hlist]
      simp
    have hr' : Apart ((l ++ m) ++ f :: (next.toList ++ rs)) := by
      rw [← hlist', hlist]
      exact hr
    have hsorted : s.ranges.Sorted Range.offset :=
      (hlist.symm ▸ hr : Apart s.ranges.toList).sorted
    obtain ⟨fuel, rfl⟩ := Nat.exists_eq_add_one_of_ne_zero (Nat.ne_of_gt (Nat.zero_lt_of_lt hfuel))
    have hlist'' : s.ranges.toList = (l ++ m ++ [f]) ++ (next.toList ++ rs) := by
      rw [hlist']
      simp
    have hfind := Ravl.Tree.find_less_append (x := r.stop) hsorted hlist'' (fun a ha => by
        rcases mem_append.mp ha with ha | ha
        · have := hr'.append_le ha mem_cons_self
          have := hr'.stop_pos (mem_append_left _ ha)
          omega
        · rw [mem_singleton.mp ha]
          exact hfr)
      (fun a ha => hnext.le hr.right.right ha)
    rw [getLast?_concat] at hfind
    -- what is left, with `g` in the place of `f` and the next node
    have hrest : ∀ (g : Range) (s₁ : State), s₁.ranges.toList = (l ++ m) ++ g :: rs →
        Apart ((l ++ m) ++ g :: rs) →
        g = ⟨f.offset, max r.stop (next.getD f).stop - f.offset, f.flags⟩ →
        (∀ b, b < r.stop → ((f.Mem b ∨ ∃ n ∈ next, n.Mem b) ↔ f.offset ≤ b ∧ b < f.stop)) →
        (∃ new, s₁.snapshots = s.snapshots ++ new ∧
          ∀ b, hits new b = if f.stop ≤ b ∧ b < r.stop then 1 else 0) →
        ∃ s', addLoop fuel { r with size := f.offset - r.offset } .less (some f.offset) s₁ =
          some s' ∧ Adds r l (m ++ [f] ++ next.toList) rs s s' := by
      intro g s₁ hlist₁ hr₁ hg hmem hnew
      have hgstop : g.stop = max r.stop (next.getD f).stop := by
        rw [hg, Range.stop]
        dsimp only
        omega
      have hgoffset : g.offset = f.offset := by rw [hg]
      have hgflags : g.flags = f.flags := by rw [hg]
      by_cases hlt : r.offset < f.offset
      · obtain ⟨r₁, hr₁def⟩ : ∃ r₁, ({ r with size := f.offset - r.offset } : Range) = r₁ :=
          ⟨_, rfl⟩
        have hr₁offset : r₁.offset = r.offset := hr₁def ▸ rfl
        have hr₁size : r₁.size = f.offset - r.offset := hr₁def ▸ rfl
        have hr₁stop : r₁.stop = f.offset := by
          rw [Range.stop, hr₁offset, hr₁size]
          omega
        have hassoc : (l ++ m) ++ g :: rs = l ++ (m ++ ((some g).toList ++ rs)) := by
          rw [append_assoc]
          rfl
        have hl₁ : ∀ a ∈ l, a.stop < r₁.offset ∨
            a.stop = r₁.offset ∧ ∃ c ∈ m, c.offset = r₁.offset := by
          intro a ha
          rw [hr₁offset]
          rcases hl a ha with hlt' | ⟨heq, c, hc, hco⟩
          · exact .inl hlt'
          · rcases mem_append.mp hc with hc | hc
            · exact .inr ⟨heq, c, hc, hco⟩
            · rw [mem_singleton.mp hc] at hco
              omega
        have hm₁ : ∀ a ∈ m, r₁.offset ≤ a.stop ∧ a.offset < r₁.stop ∧
            (a.stop = r₁.offset → ∀ c ∈ m, c.offset ≠ r₁.offset) := by
          intro a ha
          obtain ⟨hra, -, hne⟩ := hm a (mem_append_left [f] ha)
          have hapos := hr.right.left.stop_pos (mem_append_left [f] ha)
          have hamf := hmf a ha
          rw [hr₁offset, hr₁stop]
          exact ⟨hra, by omega, fun heq c hc => hne heq c (mem_append_left [f] hc)⟩
        have hlist₂ : s₁.ranges.toList = l ++ (m ++ ((some g).toList ++ rs)) := hassoc ▸ hlist₁
        obtain ⟨s', hs', hadds⟩ := ih hlist₂ (hassoc ▸ hr₁)
          (by omega) (show r₁.size < fuel by omega) hl₁ hm₁ (hgoffset.trans hr₁stop.symm)
        rw [Option.map_some, hgoffset] at hs'
        rw [hr₁def]
        refine ⟨s', hs', Adds.round rfl hlt hfr hmf hpos.le hgoffset hgflags hgstop hmem hnew ?_⟩
        rw [hr₁def]
        exact hadds
      · have hzero : f.offset - r.offset = 0 := by omega
        have hnil : m = [] := by
          rcases List.eq_nil_or_concat' m with rfl | ⟨m', a, rfl⟩
          · rfl
          · exfalso
            have ha : a ∈ m' ++ [a] := mem_append_right m' mem_cons_self
            have hle := hmf a ha
            obtain ⟨hra, -, hne⟩ := hm a (mem_append_left [f] ha)
            refine hne (by omega) f (mem_append_right _ mem_cons_self) (by omega)
        subst hnil
        obtain ⟨fuel, rfl⟩ := Nat.exists_eq_add_one_of_ne_zero (n := fuel) (by omega)
        refine ⟨s₁, addLoop_zero hzero, .last (by omega) hrf hg hmem hnew ?_⟩
        rw [hlist₁, append_nil]
    have hmem : ∀ b, b < r.stop →
        ((f.Mem b ∨ ∃ n ∈ next, n.Mem b) ↔ f.offset ≤ b ∧ b < f.stop) := by
      intro b hb
      refine or_iff_left ?_
      rintro ⟨n, hn, hnb⟩
      obtain rfl : next = some n := hn
      have hno : n.offset = r.stop := hnext
      have := hnb.1
      omega
    rw [addLoop_found hsize hrf hfr hpos hfind]
    split
    · rename_i hle
      obtain ⟨s₁, hext, hlist₁, hnew⟩ := extendFound_spec next hlist' hr' hle hnext
      have hg := merged_eq hle hnext
      have hr₁ := hr'.merged hfr hle hnext
      rw [hext, Option.bind_some]
      exact hrest (merged r f next) s₁ hlist₁ hr₁ hg hmem hnew
    · rename_i hgt
      -- a node that goes beyond `r` is the last one
      have hnone : next = none := by
        cases next with
        | none => rfl
        | some n =>
          have hn : n.offset = r.stop := hnext
          have := hr'.right.append_le (l := [f]) mem_cons_self
            (mem_append_left rs (mem_singleton_self n))
          omega
      subst hnone
      refine hrest f s hlist' hr' ?_ hmem ⟨[], (append_nil _).symm, fun b => ?_⟩
      · have hmax : max r.stop f.stop - f.offset = f.size := by
          have hfstop : f.stop = f.offset + f.size := rfl
          omega
        rw [Option.getD_none, hmax]
      · rw [if_neg (by omega)]
        rfl

end Rounds

/-! ## The whole call -/

theorem filter_append_filter_not {α : Type} {p : α → Bool} {as : List α}
    (h : as.Pairwise fun a b => p b = true → p a = true) :
    as.filter p ++ as.filter (fun a => !p a) = as := by
  induction as with
  | nil => rfl
  | cons a as ih =>
    obtain ⟨ha, has⟩ := pairwise_cons.mp h
    by_cases hp : p a = true
    · rw [filter_cons_of_pos hp, filter_cons_of_neg (by simp [hp]), cons_append, ih has]
    · have hnone : as.filter p = [] := filter_eq_nil_iff.mpr fun b hb hpb => hp (ha b hb hpb)
      rw [filter_cons_of_neg hp, filter_cons_of_pos (by simp [hp]), hnone,
        nil_append, filter_eq_self.mpr fun b hb => ?_]
      simpa using fun hpb => hp (ha b hb hpb)

section Call

variable {rs : List Range} {r : Range}

theorem Apart.split (h : Apart rs) :
    rs.filter (fun a => a.stop ≤ r.offset ∧ ¬ Fuses rs r a) ++
      (rs.filter (fun a => Fuses rs r a) ++ rs.filter fun a => r.stop < a.offset) = rs := by
  obtain ⟨p, hp⟩ : ∃ p : Range → Bool,
      (fun a => decide (a.stop ≤ r.offset ∧ ¬ Fuses rs r a)) = p := ⟨_, rfl⟩
  obtain ⟨q, hq⟩ : ∃ q : Range → Bool, (fun a => decide (Fuses rs r a)) = q := ⟨_, rfl⟩
  have hpa : ∀ a, p a = true ↔ a.stop ≤ r.offset ∧ ¬ Fuses rs r a := fun a => by
    rw [← hp, decide_eq_true_eq]
  have hqa : ∀ a, q a = true ↔ Fuses rs r a := fun a => by
    rw [← hq, decide_eq_true_eq]
  have hpairs : rs.Pairwise fun a b => a.offset < a.stop ∧ b.offset < b.stop ∧ a.stop ≤ b.offset :=
    (List.Pairwise.and_mem.mp h.apart).imp fun {a b} hab =>
      ⟨h.stop_pos hab.1, h.stop_pos hab.2.1, hab.2.2⟩
  have hfirst := filter_append_filter_not (p := p) (hpairs.imp fun {a b} hab hpb => by
    obtain ⟨hle, -⟩ := (hpa b).mp hpb
    refine (hpa a).mpr ⟨by omega, fun hf => ?_⟩
    have := hf.1
    omega)
  have hsecond := @filter_append_filter_not _ q (rs.filter fun a => !p a) (by
    refine (List.Pairwise.and_mem.mp (hpairs.filter _)).imp fun {a b} hab hqb => ?_
    obtain ⟨ha, -, hpos, -, hle⟩ := hab
    have hb := ((hqa b).mp hqb).2.1
    have hnot : p a = false := by simpa using (mem_filter.mp ha).2
    by_contra hqa'
    have hstop : r.offset < a.stop := by
      by_contra hge
      have htrue := (hpa a).mpr ⟨by omega, fun hf => hqa' ((hqa a).mpr hf)⟩
      rw [hnot] at htrue
      cases htrue
    exact hqa' ((hqa a).mpr ⟨by omega, by omega, fun heq => absurd heq (by omega)⟩))
  have hmiddle : (rs.filter fun a => !p a).filter q = rs.filter q := by
    rw [filter_filter]
    refine filter_congr fun a _ => ?_
    have himp : q a = true → p a = false := fun hqt => by
      have hnot := mt (hpa a).mp (fun hand => hand.2 ((hqa a).mp hqt))
      simpa using hnot
    cases hqa' : q a with
    | false => rfl
    | true => rw [himp hqa']; rfl
  have hlast : (rs.filter fun a => !p a).filter (fun a => !q a) =
      rs.filter fun a => r.stop < a.offset := by
    rw [filter_filter]
    refine filter_congr fun a ha => ?_
    have hpos := h.stop_pos ha
    rw [Bool.eq_iff_iff, Bool.and_eq_true, Bool.not_eq_true', Bool.not_eq_true', decide_eq_true_eq,
      ← Bool.not_eq_true, ← Bool.not_eq_true, hpa, hqa]
    constructor
    · rintro ⟨hnf, hnb⟩
      by_contra hle
      have hlt : r.offset < a.stop := by
        by_contra hge
        exact hnb ⟨by omega, hnf⟩
      exact hnf ⟨by omega, by omega, fun heq => absurd heq (by omega)⟩
    · intro hlt
      have hnf : ¬ Fuses rs r a := fun hf => by
        have := hf.2.1
        omega
      refine ⟨hnf, fun hb => ?_⟩
      have := hb.1
      have hrstop : r.offset ≤ r.stop := Nat.le_add_right _ _
      omega
  rw [hmiddle, hlast] at hsecond
  rw [← hsecond, ← hp, ← hq] at hfirst
  exact hfirst

structure Inserts (r : Range) (s s' : State) : Prop where
  list : s'.ranges.toList = insertRange r s.ranges.toList
  snapshots : ∃ new, s'.snapshots = s.snapshots ++ new ∧
    ∀ b, hits new b = if r.Mem b ∧ ∀ a ∈ s.ranges.toList, ¬ a.Mem b then 1 else 0

theorem addLoop_inserts {s : State} (hr : Apart s.ranges.toList) (hsize : 0 < r.size) :
    ∃ s', addLoop (r.size + 2) r .lessEqual none s = some s' ∧ Inserts r s s' := by
  obtain ⟨rs, hrs⟩ : ∃ rs, s.ranges.toList = rs := ⟨_, rfl⟩
  rw [hrs] at hr
  have hsorted : s.ranges.Sorted Range.offset := (hrs.symm ▸ hr : Apart s.ranges.toList).sorted
  have hstop : r.stop = r.offset + r.size := rfl
  have hsplit := hr.split (r := r)
  obtain ⟨l, hl⟩ : ∃ l, rs.filter (fun a => a.stop ≤ r.offset ∧ ¬ Fuses rs r a) = l := ⟨_, rfl⟩
  obtain ⟨m, hm⟩ : ∃ m, rs.filter (fun a => Fuses rs r a) = m := ⟨_, rfl⟩
  obtain ⟨t, ht⟩ : ∃ t, rs.filter (fun a => r.stop < a.offset) = t := ⟨_, rfl⟩
  rw [hl, hm, ht] at hsplit
  have hlmem : ∀ a ∈ l, a ∈ rs ∧ a.stop ≤ r.offset ∧ ¬ Fuses rs r a := by
    intro a ha
    rw [← hl, mem_filter, decide_eq_true_eq] at ha
    exact ha
  have hmmem : ∀ a, a ∈ m ↔ a ∈ rs ∧ Fuses rs r a := by
    intro a
    rw [← hm, mem_filter, decide_eq_true_eq]
  have htmem : ∀ a ∈ t, a ∈ rs ∧ r.stop < a.offset := by
    intro a ha
    rw [← ht, mem_filter, decide_eq_true_eq] at ha
    exact ha
  -- a range that begins where `r` does is fused with it
  have hbegin : ∀ c ∈ rs, c.offset = r.offset → c ∈ m := by
    intro c hc heq
    have hpos := hr.stop_pos hc
    exact (hmmem c).mpr ⟨hc, by omega, by omega, fun h => absurd h (by omega)⟩
  have hlbefore : ∀ a ∈ l,
      a.stop < r.offset ∨ a.stop = r.offset ∧ ∃ c ∈ m, c.offset = r.offset := by
    intro a ha
    obtain ⟨-, hle, hnot⟩ := hlmem a ha
    rcases Nat.lt_or_eq_of_le hle with hlt | heq
    · exact .inl hlt
    · right
      by_contra hnone
      refine hnot ⟨by omega, ?_, fun _ c hc hco => hnone ⟨heq, c, hbegin c hc hco, hco⟩⟩
      have := hr.stop_pos (hlmem a ha).1
      omega
  have hfinish : ∀ s', Adds r l m t s s' → Inserts r s s' := by
    rintro s' ⟨hlist, new, hsnap, hhits⟩
    refine ⟨?_, new, hsnap, fun b => ?_⟩
    · rw [hlist, hrs, insertRange, hl, hm, ht]
    · rw [hhits, hrs]
      refine if_congr (and_congr_right fun hb => ⟨fun hnot a ha hab => ?_, fun hnot a ha => ?_⟩)
        rfl rfl
      · rw [← hsplit, mem_append, mem_append] at ha
        have hb' := hb.2
        have hb'' := hb.1
        rcases ha with ha | ha | ha
        · have := (hlmem a ha).2.1
          have := hab.2
          omega
        · exact hnot a ha hab
        · have := (htmem a ha).2
          have := hab.1
          omega
      · exact hnot a ((hmmem a).mp ha).1
  have hfind := Ravl.Tree.find_lessEqual_append (x := r.stop) (l := l ++ m) (r := t) hsorted
    (by rw [hrs, append_assoc, hsplit])
    (fun a ha => by
      rcases mem_append.mp ha with ha | ha
      · have := (hlmem a ha).2.1
        have := hr.stop_pos (hlmem a ha).1
        omega
      · exact ((hmmem a).mp ha).2.2.1)
    (fun a ha => (htmem a ha).2)
  have hless : (∀ a ∈ m, a.offset < r.stop) →
      ∃ s', addLoop (r.size + 2) r .lessEqual none s = some s' ∧ Adds r l m t s s' := by
    intro hlt
    have hfind' := Ravl.Tree.find_less_append (x := r.stop) (l := l ++ m) (r := t) hsorted
      (by rw [hrs, append_assoc, hsplit])
      (fun a ha => by
        rcases mem_append.mp ha with ha | ha
        · have := (hlmem a ha).2.1
          have := hr.stop_pos (hlmem a ha).1
          omega
        · exact hlt a ha)
      (fun a ha => (htmem a ha).2.le)
    have heq : addLoop (r.size + 2) r .lessEqual none s = addLoop (r.size + 2) r .less none s := by
      rw [addLoop, addLoop, hfind, hfind']
    have hmid : ∀ a ∈ m, r.offset ≤ a.stop ∧ a.offset < r.stop ∧
        (a.stop = r.offset → ∀ c ∈ m, c.offset ≠ r.offset) := fun a ha =>
      have hf := ((hmmem a).mp ha).2
      ⟨hf.1, hlt a ha, fun hs c hc => hf.2.2 hs c ((hmmem c).mp hc).1⟩
    have hlist : s.ranges.toList = l ++ (m ++ ((none : Option Range).toList ++ t)) := by
      rw [hrs]
      exact hsplit.symm
    have hfuel : r.size < r.size + 2 := by omega
    have hadds := addLoop_less_adds m hlist (by exact hsplit ▸ hr) hsize hfuel hlbefore hmid
      fun a ha => (htmem a ha).2
    rw [heq]
    simpa using hadds
  rcases List.eq_nil_or_concat' m with hnil | ⟨m', n, hmn⟩
  · obtain ⟨s', hs', hadds⟩ := hless (fun a ha => by simp [hnil] at ha)
    exact ⟨s', hs', hfinish s' hadds⟩
  · have hrm : Apart (l ++ ((m' ++ [n]) ++ t)) := by
      rw [← hmn, hsplit]
      exact hr
    have hnm : Fuses rs r n :=
      ((hmmem n).mp (hmn ▸ mem_append_right m' mem_cons_self)).2
    have hnpos := hrm.right.left.stop_pos (mem_append_right m' mem_cons_self)
    have hm'lt : ∀ a ∈ m', a.offset < r.stop := by
      intro a ha
      have := hrm.right.left.append_le ha mem_cons_self
      have := hrm.right.left.stop_pos (mem_append_left [n] ha)
      have := hnm.2.1
      omega
    have hm'mem : ∀ a ∈ m', a ∈ m := fun a ha => hmn ▸ mem_append_left [n] ha
    by_cases hn : n.offset = r.stop
    · -- the first round only finds the node that begins where `r` ends
      have hmid : ∀ a ∈ m', r.offset ≤ a.stop ∧ a.offset < r.stop ∧
          (a.stop = r.offset → ∀ c ∈ m', c.offset ≠ r.offset) := fun a ha =>
        have hf := ((hmmem a).mp (hm'mem a ha)).2
        ⟨hf.1, hm'lt a ha, fun hs c hc => hf.2.2 hs c ((hmmem c).mp (hm'mem c hc)).1⟩
      have hbefore : ∀ a ∈ l, a.stop < r.offset ∨
          a.stop = r.offset ∧ ∃ c ∈ m', c.offset = r.offset := by
        intro a ha
        rcases hlbefore a ha with hlt | ⟨heq, c, hc, hco⟩
        · exact .inl hlt
        · rw [hmn] at hc
          rcases mem_append.mp hc with hc | hc
          · exact .inr ⟨heq, c, hc, hco⟩
          · rw [mem_singleton.mp hc] at hco
            omega
      have hassoc : l ++ ((m' ++ [n]) ++ t) = l ++ (m' ++ ((some n).toList ++ t)) := by
        rw [append_assoc m']
        rfl
      have hlast : (l ++ m).getLast? = some n := by
        rw [hmn, ← append_assoc, getLast?_concat]
      have hlist : s.ranges.toList = l ++ (m' ++ ((some n).toList ++ t)) := by
        rw [hrs, ← hassoc, ← hmn, hsplit]
      obtain ⟨s', hs', hadds⟩ := addLoop_less_adds m' hlist (hassoc ▸ hrm) hsize
        (Nat.lt_succ_self r.size) hbefore hmid hn
      rw [hlast] at hfind
      have hleft : r.size - (r.stop - max n.offset r.offset) = r.size := by omega
      refine ⟨s', ?_, hfinish s' ?_⟩
      · rw [addLoop, if_neg (by omega), hfind]
        dsimp only
        rw [if_neg (by omega), if_neg (by omega), hleft]
        exact hs'
      · rw [hmn]
        exact hadds
    · obtain ⟨s', hs', hadds⟩ := hless (fun a ha => by
        rw [hmn] at ha
        rcases mem_append.mp ha with ha | ha
        · exact hm'lt a ha
        · rw [mem_singleton.mp ha]
          have := hnm.2.1
          omega)
      exact ⟨s', hs', hfinish s' hadds⟩

end Call

end Pmdk.TxTree
