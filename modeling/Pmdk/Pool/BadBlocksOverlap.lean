import Mathlib.Data.Finset.Lattice.Fold
import Pmdk.Pool.BadBlocksAssign
import Pmdk.Pool.Sync

/-!
# The analysis of overlapping bad blocks

The loops of `sync_check_bad_blocks_overlap` over the replicas and over their parts.
-/

namespace Pmdk.Sync

open List

variable {set : PoolSet} {hs cur : Health} {n r p b hi lo : Nat} {all : List BadBlock}
  {cut : Nat → Nat}

theorem mergeReplicas_congr {parts parts' : Nat → List (List BadBlock)}
    (h : ∀ g, g < n → parts g = parts' g) : mergeReplicas parts n = mergeReplicas parts' n := by
  induction n with
  | zero => rfl
  | succ n ih =>
    rw [mergeReplicas, mergeReplicas, h n (Nat.lt_succ_self n),
      ih fun g hg => h g (Nat.lt_succ_of_lt hg)]

def Health.blocks (set : PoolSet) (hs : Health) (r : Nat) : List BadBlock :=
  if r < set.nreplicas then (hs.badParts set r).flatten else []

theorem Health.covers_blocks (hr : r < set.nreplicas) : Covers (hs.blocks set r) b ↔
    ∃ p, p < set.nparts r ∧ (hs.part r p).hasBadBlocks = true ∧ Covers (hs.part r p).bbs b := by
  rw [blocks, if_pos hr, badParts, Covers]
  constructor
  · rintro ⟨bb, hbb, hhas⟩
    obtain ⟨_, hmem, hbb⟩ := mem_flatten.mp hbb
    obtain ⟨p, hp, rfl⟩ := mem_map.mp hmem
    obtain ⟨hp, hmark⟩ := mem_filter.mp hp
    exact ⟨p, mem_range.mp hp, hmark, bb, hbb, hhas⟩
  · rintro ⟨p, hp, hmark, bb, hbb, hhas⟩
    exact ⟨bb, mem_flatten.mpr ⟨_, mem_map.mpr
      ⟨p, mem_filter.mpr ⟨mem_range.mpr hp, hmark⟩, rfl⟩, hbb⟩, hhas⟩

theorem Health.mem_blocks {bb : BadBlock} (hr : r < set.nreplicas) (hp : p < set.nparts r)
    (hmark : (hs.part r p).hasBadBlocks = true) (hbb : bb ∈ (hs.part r p).bbs) :
    bb ∈ hs.blocks set r := by
  rw [blocks, if_pos hr]
  exact mem_flatten.mpr ⟨_, mem_map.mpr ⟨p, mem_filter.mpr ⟨mem_range.mpr hp, hmark⟩, rfl⟩, hbb⟩

/-! ## One part -/

variable {blocks : Nat → List BadBlock}

structure PartAssigned (blocks : Nat → List BadBlock) (n : Nat) (before after : PartHealth) :
    Prop where
  broken : after.broken = before.broken
  hasBadBlocks : after.hasBadBlocks = before.hasBadBlocks
  row : before.hasBadBlocks = true → ∃ lo hi, Row (Right blocks n) lo after.bbs hi
  same : before.hasBadBlocks ≠ true → after = before
  covers : ∀ b, Covers after.bbs b ↔ Covers before.bbs b

theorem PartAssigned.right {before after : PartHealth} (h : PartAssigned blocks n before after)
    (hmark : before.hasBadBlocks = true) : ∀ bb ∈ after.bbs, Right blocks n bb := by
  obtain ⟨lo, hi, hrow⟩ := h.row hmark
  exact fun bb hbb => (hrow.mem hbb).2.2.1

theorem PartAssigned.of_unmarked {before : PartHealth} (h : before.hasBadBlocks ≠ true) :
    PartAssigned blocks n before before :=
  ⟨rfl, rfl, fun hmark => absurd hmark h, fun _ => rfl, fun _ => Iff.rfl⟩

def Health.assignPart (r : Nat) (s : Health × List BadBlock) (p : Nat) :
    Option (Health × List BadBlock) :=
  if (s.1.part r p).hasBadBlocks then do
    let (new, all) ← assignHealthyReplica s.2 (s.1.part r p).bbs
    some (s.1.setBbs r p new, all)
  else some s

/-- The status and the pieces that are left, when the parts of replica `r` before `k` are done. -/
structure Health.Assigning (cut : Nat → Nat) (blocks : Nat → List BadBlock) (n r hi : Nat)
    (hs : Health) (k : Nat) (s : Health × List BadBlock) : Prop where
  replica : s.1.replica = hs.replica
  others : ∀ g p, g ≠ r → s.1.part g p = hs.part g p
  before : ∀ p, p < k → PartAssigned blocks n (hs.part r p) (s.1.part r p)
  after : ∀ p, k ≤ p → s.1.part r p = hs.part r p
  left : ∃ lo, Row (Right blocks n) lo s.2 hi
  todo : ∀ b, cut k ≤ b → Bad blocks r b → Covers s.2 b

variable {s : Health × List BadBlock}

theorem Health.Assigning.step {k : Nat} (hr : r < n) (h : Assigning cut blocks n r hi hs k s)
    (hrow : (hs.part r k).hasBadBlocks = true →
      Row Unmerged (cut k) (hs.part r k).bbs (cut (k + 1)) ∧
        ∀ bb ∈ (hs.part r k).bbs, bb ∈ blocks r)
    (hmono : cut k ≤ cut (k + 1)) (hle : cut (k + 1) ≤ hi) :
    ∃ s', Health.assignPart r s k = some s' ∧ Assigning cut blocks n r hi hs (k + 1) s' := by
  have hsame := h.after k (Nat.le_refl k)
  rw [assignPart, hsame]
  by_cases hmark : (hs.part r k).hasBadBlocks = true
  · obtain ⟨lo, hleft⟩ := h.left
    obtain ⟨hrow, hmem⟩ := hrow hmark
    obtain ⟨new, all, lo₁, lo₂, hassign, hnew, hcov, hrow', -, -, hleast, hkeep⟩ :=
      assignHealthyReplica_row hr (hrow.mono_hi hle) hmem hleft h.todo
    rw [if_pos hmark, hassign]
    refine ⟨_, rfl, h.replica, fun g p hg => ?_, fun p hp => ?_, fun p hp => ?_, ⟨lo₂, hrow'⟩,
      fun b hb hbad => hkeep b (Nat.le_trans ?_ hb) hbad⟩
    · dsimp only [setBbs]
      rw [if_neg fun hc => hg hc.1, h.others g p hg]
    · dsimp only [setBbs]
      by_cases hpk : p = k
      · subst hpk
        rw [if_pos ⟨rfl, rfl⟩, hsame]
        exact ⟨rfl, rfl, fun _ => ⟨_, _, hnew⟩, fun hnot => absurd hmark hnot, hcov⟩
      · rw [if_neg fun hc => hpk hc.2]
        exact h.before p (by omega)
    · dsimp only [setBbs]
      rw [if_neg (by omega), h.after p (by omega)]
    · exact hleast _ (fun bb hbb => (hrow.mem hbb).2.2.2) hmono
  · rw [if_neg hmark]
    refine ⟨_, rfl, h.replica, h.others, fun p hp => ?_, fun p hp => h.after p (by omega), h.left,
      fun b hb => h.todo b (Nat.le_trans hmono hb)⟩
    by_cases hpk : p = k
    · rw [hpk, hsame]
      exact .of_unmarked hmark
    · exact h.before p (by omega)

/-! ## All parts -/

/-- The marked parts of replica `r` have their bad blocks between the cuts. -/
structure Health.Divided (set : PoolSet) (hs : Health) (r hi : Nat) (cut : Nat → Nat) : Prop where
  mono : ∀ p, cut p ≤ cut (p + 1)
  le : cut (set.nparts r) ≤ hi
  row : ∀ p, p < set.nparts r → (hs.part r p).hasBadBlocks = true →
    Row Unmerged (cut p) (hs.part r p).bbs (cut (p + 1))

theorem Health.Divided.cut_le (h : hs.Divided set r hi cut) {k m : Nat} (hk : k ≤ m) :
    cut k ≤ cut m :=
  monotone_nat_of_le_succ h.mono hk

theorem Health.Divided.row_badParts (h : hs.Divided set r hi cut) :
    Row Unmerged 0 (hs.badParts set r).flatten hi := by
  have hparts : ∀ k, k ≤ set.nparts r → Row Unmerged 0 (((List.range k).filter fun p =>
      (hs.part r p).hasBadBlocks).map fun p => (hs.part r p).bbs).flatten (cut k) := by
    intro k hk
    induction k with
    | zero => exact Nat.zero_le _
    | succ k ih =>
      rw [range_succ, filter_append, map_append, flatten_append]
      refine (ih (Nat.le_of_succ_le hk)).append ?_
      by_cases hmark : (hs.part r k).hasBadBlocks = true
      · rw [filter_cons, if_pos hmark, filter_nil, map_cons, map_nil,
          flatten_cons, flatten_nil, append_nil]
        exact h.row k hk hmark
      · rw [filter_cons, if_neg hmark, filter_nil]
        exact h.mono k
  exact (hparts _ (Nat.le_refl _)).mono_hi h.le

theorem Health.Assigning.run (hr : r < n)
    (h : Assigning cut blocks n r hi hs 0 s) (hcut : hs.Divided set r hi cut)
    (hmem : ∀ p, p < set.nparts r → (hs.part r p).hasBadBlocks = true →
      ∀ bb ∈ (hs.part r p).bbs, bb ∈ blocks r) {k : Nat} (hk : k ≤ set.nparts r) :
    ∃ s', (List.range k).foldlM (Health.assignPart r) s = some s' ∧
      Assigning cut blocks n r hi hs k s' := by
  induction k with
  | zero => exact ⟨s, rfl, h⟩
  | succ k ih =>
    obtain ⟨s₁, hfold, h₁⟩ := ih (Nat.le_of_succ_le hk)
    obtain ⟨s₂, hstep, h₂⟩ := h₁.step hr (fun hmark => ⟨hcut.row k hk hmark, hmem k hk hmark⟩)
      (hcut.mono k) (Nat.le_trans (hcut.cut_le hk) hcut.le)
    refine ⟨s₂, ?_, h₂⟩
    rw [range_succ, foldlM_append, hfold]
    exact (Option.bind_some ..).trans (by rw [foldlM_cons, hstep]; rfl)

structure Health.Assigned (set : PoolSet) (blocks : Nat → List BadBlock) (n : Nat) (hs : Health)
    (k : Nat) (cur : Health) : Prop where
  replica : cur.replica = hs.replica
  before : ∀ r p, r < k → p < set.nparts r →
    PartAssigned blocks n (hs.part r p) (cur.part r p)
  after : ∀ r p, k ≤ r → cur.part r p = hs.part r p

theorem Health.Assigned.step (h : Assigned set blocks n hs r cur) (hr : r < n)
    (hcut : hs.Divided set r hi cut)
    (hmem : ∀ p, p < set.nparts r → (hs.part r p).hasBadBlocks = true →
      ∀ bb ∈ (hs.part r p).bbs, bb ∈ blocks r)
    (hleft : Row (Right blocks n) lo all hi) (htodo : ∀ b, Bad blocks r b → Covers all b) :
    ∃ cur' all', cur.assignParts set r all = some (cur', all') ∧
      Assigned set blocks n hs (r + 1) cur' := by
  have hstart : Assigning cut blocks n r hi cur 0 (cur, all) :=
    ⟨rfl, fun _ _ _ => rfl, fun p hp => absurd hp (Nat.not_lt_zero p), fun _ _ => rfl,
      ⟨lo, hleft⟩, fun b _ => htodo b⟩
  have hsame : ∀ p, cur.part r p = hs.part r p := fun p => h.after r p (Nat.le_refl r)
  have hcut' : cur.Divided set r hi cut :=
    ⟨hcut.mono, hcut.le, fun p hp => (hsame p).symm ▸ hcut.row p hp⟩
  obtain ⟨⟨cur', all'⟩, hrun, hdone⟩ := hstart.run hr hcut'
    (fun p hp => (hsame p).symm ▸ hmem p hp) (Nat.le_refl _)
  refine ⟨cur', all', hrun, hdone.replica.trans h.replica, fun g p hg hp => ?_, fun g p hg => ?_⟩
  · by_cases hgr : g = r
    · subst hgr
      exact hsame p ▸ hdone.before p hp
    · rw [hdone.others g p hgr]
      exact h.before g p (by omega) hp
  · rw [hdone.others g p (by omega), h.after g p (by omega)]

theorem Health.Assigned.skip (h : Assigned set blocks n hs r cur)
    (hmark : ∀ p, p < set.nparts r → (hs.part r p).hasBadBlocks ≠ true) :
    Assigned set blocks n hs (r + 1) cur := by
  refine ⟨h.replica, fun g p hg hp => ?_, fun g p hg => h.after g p (by omega)⟩
  by_cases hgr : g = r
  · subst hgr
    rw [h.after g p (Nat.le_refl g)]
    exact .of_unmarked (hmark p hp)
  · exact h.before g p (by omega) hp

/-! ## All replicas -/

/-- The loop of `sync_check_bad_blocks_overlap` that assigns healthy replicas. -/
def Health.assignReplica (set : PoolSet) (all : List BadBlock) (hs : Health) (r : Nat) :
    Option Health :=
  if (hs.replica r).hasBadBlocks then do
    let (hs, _) ← hs.assignParts set r all
    some hs
  else some hs

structure Health.AllDivided (set : PoolSet) (hs : Health) (hi : Nat) (cut : Nat → Nat → Nat) :
    Prop where
  divided : ∀ r, r < set.nreplicas → hs.Divided set r hi (cut r)
  marked : ∀ r p, r < set.nreplicas → p < set.nparts r → (hs.part r p).hasBadBlocks = true →
    (hs.replica r).hasBadBlocks = true

variable {cuts : Nat → Nat → Nat}

section

variable (h : hs.AllDivided set hi cuts)

include h

theorem Health.AllDivided.merged :
    Row (Right (hs.blocks set) set.nreplicas) 0 (mergeReplicas (hs.badParts set) set.nreplicas) hi ∧
      ∀ b, Covers (mergeReplicas (hs.badParts set) set.nreplicas) b ↔
        ∃ g, g < set.nreplicas ∧ Bad (hs.blocks set) g b := by
  have hrow : ∀ g, Row Unmerged 0 (hs.blocks set g) hi := by
    intro g
    rw [blocks]
    split
    · exact (h.divided g ‹_›).row_badParts
    · exact Nat.zero_le hi
  have hparts : ∀ g, (if g < set.nreplicas then hs.badParts set g else []).flatten =
      hs.blocks set g := by
    intro g
    rw [blocks]
    split
    · rfl
    · rfl
  have hmerge := mergeReplicas_row (fun g bb hbb => ((hrow g).mem hbb).2.1) hparts hrow
    set.nreplicas
  rwa [mergeReplicas_congr fun g hg => if_pos hg] at hmerge

theorem Health.AllDivided.assignReplicas
    (hleft : Row (Right (hs.blocks set) set.nreplicas) lo all hi)
    (hcov : ∀ g, g < set.nreplicas → ∀ b, Bad (hs.blocks set) g b → Covers all b) {k : Nat}
    (hk : k ≤ set.nreplicas) :
    ∃ cur, (List.range k).foldlM (Health.assignReplica set all) hs = some cur ∧
      Assigned set (hs.blocks set) set.nreplicas hs k cur := by
  induction k with
  | zero =>
    exact ⟨_, rfl, rfl, fun r _ hr => absurd hr (Nat.not_lt_zero r), fun _ _ _ => rfl⟩
  | succ k ih =>
    obtain ⟨cur, hfold, hcur⟩ := ih (Nat.le_of_succ_le hk)
    have hstep : ∃ cur', Health.assignReplica set all cur k = some cur' ∧
        Assigned set (hs.blocks set) set.nreplicas hs (k + 1) cur' := by
      rw [assignReplica, hcur.replica]
      by_cases hmark : (hs.replica k).hasBadBlocks = true
      · obtain ⟨cur', all', hassign, hdone⟩ := hcur.step hk (h.divided k hk)
          (fun p hp hpart bb hbb => mem_blocks hk hp hpart hbb) hleft (hcov k hk)
        exact ⟨cur', by rw [if_pos hmark, hassign]; rfl, hdone⟩
      · exact ⟨cur, if_neg hmark, hcur.skip fun p hp hpart => hmark (h.marked k p hk hp hpart)⟩
    obtain ⟨cur', hcur', hdone⟩ := hstep
    refine ⟨cur', ?_, hdone⟩
    rw [range_succ, foldlM_append, hfold]
    exact (Option.bind_some ..).trans (by rw [foldlM_cons, hcur']; rfl)

/-- Either there is a piece that is bad in all replicas, or every piece gets the first replica in
which it is not bad. -/
theorem Health.AllDivided.overlap :
    (hs.checkBadBlocksOverlap set = some none ∧
      ∃ bb ∈ mergeReplicas (hs.badParts set) set.nreplicas, bb.nhealthy = none) ∨
    ∃ cur, hs.checkBadBlocksOverlap set = some (some cur) ∧
      Assigned set (hs.blocks set) set.nreplicas hs set.nreplicas cur ∧
      ∀ bb ∈ mergeReplicas (hs.badParts set) set.nreplicas, bb.nhealthy ≠ none := by
  obtain ⟨hleft, hcov⟩ := h.merged
  obtain ⟨cur, hfold, hdone⟩ := h.assignReplicas hleft
    (fun g hg b hbad => (hcov b).mpr ⟨g, hg, hbad⟩) (Nat.le_refl _)
  have hcheck : hs.checkBadBlocksOverlap set =
      if (mergeReplicas (hs.badParts set) set.nreplicas).any (fun bb => bb.nhealthy = none) then
        some none
      else ((List.range set.nreplicas).foldlM (Health.assignReplica set
        (mergeReplicas (hs.badParts set) set.nreplicas)) hs).bind fun hs => some (some hs) := rfl
  rw [hcheck, hfold, Option.bind_some]
  by_cases hany : (mergeReplicas (hs.badParts set) set.nreplicas).any
      (fun bb => bb.nhealthy = none) = true
  · obtain ⟨bb, hbb, hnone⟩ := any_eq_true.mp hany
    exact .inl ⟨if_pos hany, bb, hbb, of_decide_eq_true hnone⟩
  · exact .inr ⟨cur, if_neg hany, hdone, fun bb hbb hnone =>
      hany (any_eq_true.mpr ⟨bb, hbb, decide_eq_true hnone⟩)⟩

theorem Health.AllDivided.assigned (hcheck : hs.checkBadBlocksOverlap set = some (some cur)) :
    Assigned set (hs.blocks set) set.nreplicas hs set.nreplicas cur := by
  rcases h.overlap with ⟨hnone, -⟩ | ⟨cur', hsome, hdone, -⟩
  · rw [hcheck] at hnone
    exact absurd (Option.some_inj.mp hnone) nofun
  · rw [hcheck] at hsome
    obtain rfl := Option.some_inj.mp (Option.some_inj.mp hsome)
    exact hdone

end

/-! ## Exactness -/

def Health.BadIn (set : PoolSet) (hs : Health) (r b : Nat) : Prop :=
  ∃ p, p < set.nparts r ∧ Covers (hs.part r p).bbs b

/-- The bad blocks of every replica are sorted, disjoint and not empty, ascending over its parts,
and have no healthy replica yet; the marks are set where there are some. -/
structure Health.Recalculated (set : PoolSet) (hs : Health) : Prop where
  marked : ∀ r p, (hs.part r p).hasBadBlocks = !(hs.part r p).bbs.isEmpty
  replica : ∀ r, (hs.replica r).hasBadBlocks =
    (List.range (set.nparts r)).any fun p => (hs.part r p).hasBadBlocks
  row : ∀ r, r < set.nreplicas →
    ∃ hi, Row Unmerged 0 ((List.range (set.nparts r)).flatMap fun p => (hs.part r p).bbs) hi

/-- The new bad blocks of a part: sorted and disjoint, the same bytes as before, and each with a
replica in which none of its bytes is bad. -/
structure Health.PartFixable (set : PoolSet) (hs : Health) (before after : List BadBlock) :
    Prop where
  row : ∃ lo hi, Row (fun bb => ∃ h, bb.nhealthy = some h ∧ h < set.nreplicas ∧
    ∀ b, bb.Has b → ¬hs.BadIn set h b) lo after hi
  covers : ∀ b, Covers after b ↔ Covers before b

/-- A row of the bad blocks of all parts is divided between the parts. -/
theorem exists_cuts {f : Nat → List BadBlock} {P : BadBlock → Prop}
    (h : Row P 0 ((List.range n).flatMap f) hi) :
    ∃ cut : Nat → Nat, (∀ p, cut p ≤ cut (p + 1)) ∧ cut n ≤ hi ∧
      ∀ p, p < n → Row P (cut p) (f p) (cut (p + 1)) := by
  induction n generalizing hi with
  | zero => exact ⟨fun _ => 0, fun _ => Nat.le_refl 0, Nat.zero_le hi, fun p hp => by omega⟩
  | succ n ih =>
    rw [range_succ, flatMap_append, flatMap_singleton] at h
    obtain ⟨mid, hfirst, hlast⟩ := h.split
    obtain ⟨cut, hmono, hle, hrow⟩ := ih hfirst
    refine ⟨fun p => if p ≤ n then cut p else hi, fun p => ?_, ?_, fun p hp => ?_⟩
    · dsimp only
      have hcut := monotone_nat_of_le_succ hmono
      by_cases hp : p + 1 ≤ n
      · rw [if_pos hp, if_pos (by omega)]
        exact hmono p
      · rw [if_neg hp]
        split
        · exact Nat.le_trans (hcut ‹_›) (Nat.le_trans hle hlast.le)
        · exact Nat.le_refl hi
    · dsimp only
      rw [if_neg (by omega)]
    · dsimp only
      by_cases hpn : p < n
      · rw [if_pos (Nat.le_of_lt hpn), if_pos (Nat.succ_le_of_lt hpn)]
        exact hrow p hpn
      · obtain rfl : p = n := by omega
        rw [if_pos (Nat.le_refl p), if_neg (by omega)]
        exact hlast.mono_lo hle

theorem Health.Recalculated.exists_divided (h : hs.Recalculated set) :
    ∃ hi cuts, hs.AllDivided set hi cuts := by
  have hex : ∀ r, ∃ hi, ∃ cut : Nat → Nat, r < set.nreplicas → hs.Divided set r hi cut := by
    intro r
    by_cases hr : r < set.nreplicas
    · obtain ⟨hi, hrow⟩ := h.row r hr
      obtain ⟨cut, hmono, hle, hparts⟩ := exists_cuts hrow
      exact ⟨hi, cut, fun _ => ⟨hmono, hle, fun p hp _ => hparts p hp⟩⟩
    · exact ⟨0, fun _ => 0, fun hr' => absurd hr' hr⟩
  choose his cuts hcuts using hex
  refine ⟨(Finset.range set.nreplicas).sup his, cuts, fun r hr => ?_, fun r p hr hp hmark => ?_⟩
  · have hle : his r ≤ (Finset.range set.nreplicas).sup his :=
      Finset.le_sup (Finset.mem_range.mpr hr)
    exact ⟨(hcuts r hr).mono, Nat.le_trans (hcuts r hr).le hle, (hcuts r hr).row⟩
  · rw [h.replica r]
    exact any_eq_true.mpr ⟨p, mem_range.mpr hp, hmark⟩

theorem Health.Recalculated.bad_iff (h : hs.Recalculated set) (hr : r < set.nreplicas) :
    Bad (hs.blocks set) r b ↔ hs.BadIn set r b := by
  rw [Bad, covers_blocks hr]
  constructor
  · rintro ⟨p, hp, -, hcov⟩
    exact ⟨p, hp, hcov⟩
  · rintro ⟨p, hp, hcov⟩
    refine ⟨p, hp, ?_, hcov⟩
    rw [h.marked r p]
    cases hbbs : (hs.part r p).bbs with
    | nil => exact absurd (hbbs ▸ hcov) covers_nil
    | cons bb bbs => rfl

theorem Health.Recalculated.nil_of_unmarked (h : hs.Recalculated set)
    (hmark : (hs.part r p).hasBadBlocks ≠ true) : (hs.part r p).bbs = [] := by
  rw [h.marked r p, ne_eq, Bool.not_eq_true, Bool.not_eq_false'] at hmark
  exact List.isEmpty_iff.mp hmark

/-- If every merged piece has a healthy replica, so has every piece of a part. -/
theorem Health.Recalculated.partFixable (h : hs.Recalculated set)
    (hmerged : ∀ b, (∃ g, g < set.nreplicas ∧ hs.BadIn set g b) →
      ∃ g, g < set.nreplicas ∧ ¬hs.BadIn set g b) (hr : r < set.nreplicas) (hp : p < set.nparts r)
    (hpart : PartAssigned (hs.blocks set) set.nreplicas (hs.part r p) (cur.part r p)) :
    hs.PartFixable set (hs.part r p).bbs (cur.part r p).bbs := by
  refine ⟨?_, hpart.covers⟩
  by_cases hmark : (hs.part r p).hasBadBlocks = true
  · obtain ⟨lo, hi, hrow⟩ := hpart.row hmark
    refine ⟨lo, hi, hrow.imp fun bb hbb _ hright => ?_⟩
    have hlen := (hrow.mem hbb).2.1
    have hhas : bb.Has bb.offset := ⟨Nat.le_refl _, by omega⟩
    have hfirst := hright.first
    cases hnh : bb.nhealthy with
    | none =>
      rw [hnh] at hfirst
      obtain ⟨g, hg, hgood⟩ := hmerged bb.offset ⟨r, hr, p, hp, (hpart.covers _).mp ⟨bb, hbb, hhas⟩⟩
      exact absurd ((h.bad_iff hg).mp (hfirst _ hhas g hg)) hgood
    | some g =>
      rw [hnh] at hfirst
      exact ⟨g, rfl, (hfirst _ hhas).1, fun b hb hbad =>
        (hfirst b hb).2.1 ((h.bad_iff (hfirst b hb).1).mpr hbad)⟩
  · rw [hpart.same hmark, h.nil_of_unmarked hmark]
    exact ⟨0, 0, Nat.le_refl 0⟩

/-- `sync_check_bad_blocks_overlap` fails no assertion. It finds out whether a byte is bad in all
replicas, and if there is none, it cuts the bad blocks of every part into pieces that can be fixed.
-/
theorem checkBadBlocksOverlap_exact (set : PoolSet) (hs : Health) (h : hs.Recalculated set) :
    ∃ result, hs.checkBadBlocksOverlap set = some result ∧
      (result = none ↔ 0 < set.nreplicas ∧ ∃ b, ∀ r, r < set.nreplicas → hs.BadIn set r b) ∧
      ∀ cur, result = some cur → ∀ r p, r < set.nreplicas → p < set.nparts r →
        hs.PartFixable set (hs.part r p).bbs (cur.part r p).bbs := by
  obtain ⟨hi, cuts, hdiv⟩ := h.exists_divided
  obtain ⟨hleft, hcov⟩ := hdiv.merged
  rcases hdiv.overlap with ⟨hcheck, bb, hbb, hnone⟩ | ⟨cur, hcheck, hdone, hsome⟩
  · obtain ⟨-, hlen, hright, -⟩ := hleft.mem hbb
    have hhas : bb.Has bb.offset := ⟨Nat.le_refl _, by omega⟩
    have hfirst := hright.first _ hhas
    rw [hnone] at hfirst
    obtain ⟨g, hg, -⟩ := (hcov bb.offset).mp ⟨bb, hbb, hhas⟩
    exact ⟨none, hcheck, iff_of_true rfl ⟨by omega, bb.offset, fun r hr =>
      (h.bad_iff hr).mp (hfirst r hr)⟩, fun cur hcur => absurd hcur nofun⟩
  · have hgood : ∀ b, (∃ g, g < set.nreplicas ∧ hs.BadIn set g b) →
        ∃ g, g < set.nreplicas ∧ ¬hs.BadIn set g b := by
      rintro b ⟨g, hg, hbad⟩
      obtain ⟨bb, hbb, hhas⟩ := (hcov b).mpr ⟨g, hg, (h.bad_iff hg).mpr hbad⟩
      obtain ⟨g', hg'⟩ := Option.ne_none_iff_exists'.mp (hsome bb hbb)
      have hfirst := ((hleft.mem hbb).2.2.1).first b hhas
      rw [hg'] at hfirst
      exact ⟨g', hfirst.1, fun hbad => hfirst.2.1 ((h.bad_iff hfirst.1).mpr hbad)⟩
    refine ⟨some cur, hcheck, iff_of_false nofun ?_, fun cur' hcur r p hr hp => ?_⟩
    · rintro ⟨hpos, b, hall⟩
      obtain ⟨g, hg, hnot⟩ := hgood b ⟨0, hpos, hall 0 hpos⟩
      exact hnot (hall g hg)
    · obtain rfl := Option.some_inj.mp hcur
      exact h.partFixable hgood hr hp (hdone.before r p hr hp)

def overlappingSet : PoolSet where
  nreplicas := 3
  nparts _ := 1
  part _ _ := ⟨16384, 4096⟩
  singlehdr := true
  mmapAlign := 4096

def overlapping : Health where
  replica r := ⟨false, false, r < 2, false, 16384⟩
  part
    | 0, 0 => ⟨false, true, false, [⟨0, 8192, none⟩]⟩
    | 1, 0 => ⟨false, true, false, [⟨4096, 8192, none⟩]⟩
    | _, _ => ⟨false, false, false, []⟩

theorem overlapping_recalculated : overlapping.Recalculated overlappingSet where
  marked r p := by
    rcases r with _ | _ | r <;> rcases p with _ | p <;> rfl
  replica r := by
    rcases r with _ | _ | r
    · rfl
    · rfl
    · exact decide_eq_false (show ¬r + 2 < 2 by omega)
  row r hr := by
    have hr : r < 3 := hr
    rcases r with _ | _ | r
    · exact ⟨8192, by decide, by decide, rfl, Nat.le_refl 8192⟩
    · exact ⟨12288, by decide, by decide, rfl, Nat.le_refl 12288⟩
    · obtain rfl : r = 0 := by omega
      exact ⟨0, Nat.le_refl 0⟩

theorem checkBadBlocksOverlap_overlapping :
    ∃ cur, overlapping.checkBadBlocksOverlap overlappingSet = some (some cur) ∧
      (cur.part 0 0).bbs = [⟨0, 4096, some 1⟩, ⟨4096, 4096, some 2⟩] ∧
      ∀ r p, r < overlappingSet.nreplicas → p < overlappingSet.nparts r →
        overlapping.PartFixable overlappingSet (overlapping.part r p).bbs (cur.part r p).bbs := by
  obtain ⟨result, hresult, -, hfix⟩ :=
    checkBadBlocksOverlap_exact overlappingSet overlapping overlapping_recalculated
  have hcur : ((overlapping.checkBadBlocksOverlap overlappingSet).bind fun cur =>
      cur.map fun cur => (cur.part 0 0).bbs) = some [⟨0, 4096, some 1⟩, ⟨4096, 4096, some 2⟩] := by
    decide
  rw [hresult] at hcur
  obtain ⟨cur, rfl, hbbs⟩ := Option.map_eq_some_iff.mp hcur
  exact ⟨cur, hresult, hbbs, hfix cur rfl⟩

end Pmdk.Sync
