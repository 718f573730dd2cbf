import Mathlib.Algebra.Order.Ring.Nat
import Mathlib.Algebra.BigOperators.Group.List.Basic
import Mathlib.Data.List.GetD

/-!
# The plan of a concatenation

`shuffle` decides how many slots the nodes of a level get: as long as there are two nodes more than
needed, it takes the first short node, lets the slots move to the front over as many nodes as it
takes, and removes the node that becomes empty.
-/

namespace Pmdk.Rbts

open List

/-! ## The code -/

/-- The value of a `count_t`. -/
def countT (x : Nat) : Nat := x % 2 ^ 32

def rrbExtras : Nat := 2

def rrbInvariant : Nat := 1

/-- `concat_rebalance_plan`; the number of the counts is `n`. -/
structure RebalancePlan where
  counts : List Nat
  total : UInt32
deriving DecidableEq

def RebalancePlan.fill (subs : List Nat) : RebalancePlan where
  counts := subs
  total := subs.foldl (fun total count => total + UInt32.ofNat count) 0

def skip (branches : Nat) (counts : List Nat) (i : Nat) : Option Nat :=
  ((counts.drop i).findIdx? fun count => ¬ count > branches - rrbInvariant).map (i + ·)

def redistribute (branches : Nat) (counts : List Nat) (remaining i : Nat) :
    Option (List Nat × Nat) :=
  if h : i + 1 < counts.length then
    let both := countT (remaining + counts[i + 1])
    let count := min both branches
    if both - count > 0 then redistribute branches (counts.set i count) (both - count) (i + 1)
    else some (counts.set i count, i + 1)
  else none
termination_by counts.length - i
decreasing_by rw [length_set]; omega

/-- The outer loop of `shuffle`, for `n` nodes. -/
def shuffleLoop (branches optimal : Nat) : Nat → List Nat → Nat → Option (List Nat)
  | 0, counts, _ => some counts
  | n + 1, counts, i =>
    if optimal + rrbExtras ≤ n + 1 then do
      let i ← skip branches counts i
      let remaining ← counts[i]?
      let (counts, i) ← redistribute branches counts remaining i
      shuffleLoop branches optimal n (counts.eraseIdx i) (i - 1)
    else some counts

def planBits (B BL shift : Nat) : Nat := if shift = BL then BL else B

def RebalancePlan.shuffle (B BL shift : Nat) (p : RebalancePlan) : Option RebalancePlan :=
  let bits := planBits B BL shift
  let optimal := (p.total - 1).toNat >>> bits + 1
  (shuffleLoop (2 ^ bits) optimal p.counts.length p.counts 0).map fun counts => { p with counts }

/-! ## Prefix sums -/

def Dominates (l l' : List Nat) : Prop := ∀ k, (l.take k).sum ≤ (l'.take k).sum

theorem Dominates.refl (l : List Nat) : Dominates l l := fun _ => le_rfl

variable {l l' rest : List Nat} {x : Nat}

theorem Dominates.trans {l'' : List Nat} (h : Dominates l l') (h' : Dominates l' l'') :
    Dominates l l'' := fun k => (h k).trans (h' k)

theorem Dominates.cons (x : Nat) (h : Dominates l l') :
    Dominates (x :: l) (x :: l') := by
  intro k
  cases k with
  | zero => exact le_rfl
  | succ k => simpa using h k

theorem Dominates.append_left (p : List Nat) (h : Dominates l l') :
    Dominates (p ++ l) (p ++ l') := by
  induction p with
  | nil => exact h
  | cons x p ih => exact ih.cons x

theorem Dominates.carry {y x' y' : Nat} (hx : x ≤ x') (hxy : x + y = x' + y')
    (h : Dominates (y' :: l) l') : Dominates (x :: y :: l) (x' :: l') := by
  intro k
  match k with
  | 0 => exact le_rfl
  | 1 => simpa using hx
  | k + 2 =>
    have hk := h (k + 1)
    simp only [take_succ_cons, sum_cons] at hk ⊢
    omega

theorem Dominates.merge (x y : Nat) (l : List Nat) : Dominates (x :: y :: l) ((x + y) :: l) := by
  have hzero : Dominates (0 :: l) l := by
    intro k
    cases k with
    | zero => exact le_rfl
    | succ k =>
      rw [take_succ_cons, sum_cons, Nat.zero_add, take_add_one, sum_append]
      exact Nat.le_add_right _ _
  exact Dominates.carry (Nat.le_add_right x y) rfl hzero

/-! ## The inner loop -/

def spread (branches : Nat) : Nat → List Nat → Option (List Nat × Nat × List Nat)
  | _, [] => none
  | remaining, next :: rest =>
    let both := countT (remaining + next)
    let count := min both branches
    if both - count > 0 then
      (spread branches (both - count) rest).map fun r => (count :: r.1, r.2)
    else some ([count], next, rest)

theorem redistribute_append (branches remaining x : Nat) (front rest : List Nat) :
    redistribute branches (front ++ x :: rest) remaining front.length =
      (spread branches remaining rest).map fun r =>
        (front ++ r.1 ++ r.2.1 :: r.2.2, front.length + r.1.length) := by
  induction rest generalizing front x remaining with
  | nil =>
    rw [redistribute, dif_neg (by simp)]
    rfl
  | cons next rest ih =>
    have hlength : front.length + 1 < (front ++ x :: next :: rest).length := by simp
    have hnext : (front ++ x :: next :: rest)[front.length + 1] = next := by simp
    have hset : ∀ count, (front ++ x :: next :: rest).set front.length count =
        front ++ [count] ++ next :: rest := by simp
    rw [redistribute, dif_pos hlength, hnext]
    dsimp only
    rw [spread]
    split
    · have hlast : ∀ count, front.length + 1 = (front ++ [count]).length := by simp
      rw [hset, hlast, ih, Option.map_map]
      refine congrArg (Option.map · _) (funext fun r => Prod.ext (by simp) ?_)
      simp only [Function.comp_apply, length_append, length_cons, length_nil]
      omega
    · simp

def Legal (branches : Nat) (counts : List Nat) : Prop := ∀ c ∈ counts, 1 ≤ c ∧ c ≤ branches

variable {branches : Nat}

theorem Legal.tail (h : Legal branches (x :: rest)) :
    Legal branches rest := fun c hc => h c (mem_cons_of_mem x hc)

theorem Legal.cons (hx : 1 ≤ x ∧ x ≤ branches)
    (h : Legal branches rest) : Legal branches (x :: rest) :=
  forall_mem_cons.mpr ⟨hx, h⟩

structure Packs (branches : Nat) (counts filled rest : List Nat) : Prop where
  legal : Legal branches (filled ++ rest)
  length_eq : (filled ++ rest).length + 1 = counts.length
  sum_eq : (filled ++ rest).sum = counts.sum
  dominates : Dominates counts (filled ++ rest)
  full : ∀ c ∈ filled.dropLast, c = branches
  ne_nil : filled ≠ []

/-- With slack for one node behind the short one, the slots find room before the last node. -/
theorem spread_spec {remaining : Nat} (hremaining : 1 ≤ remaining)
    (hle : remaining ≤ branches) (hrest : Legal branches rest)
    (hcount : remaining + rest.sum < 2 ^ 32)
    (hslack : remaining + rest.sum ≤ branches * rest.length) :
    ∃ filled gone rest', spread branches remaining rest = some (filled, gone, rest') ∧
      Packs branches (remaining :: rest) filled rest' := by
  induction rest generalizing remaining with
  | nil => simp at hslack; omega
  | cons next rest ih =>
    obtain ⟨⟨hnext, hnextle⟩, hrest⟩ := forall_mem_cons.mp hrest
    simp only [sum_cons, length_cons, Nat.mul_succ] at hcount hslack
    have hboth : countT (remaining + next) = remaining + next :=
      Nat.mod_eq_of_lt (by omega)
    rw [spread, hboth]
    by_cases hover : remaining + next - min (remaining + next) branches > 0
    · have hmin : min (remaining + next) branches = branches := by omega
      rw [if_pos hover, hmin]
      rw [hmin] at hover
      have hone : 1 ≤ remaining + next - branches := hover
      obtain ⟨filled, gone, rest', heq, hpacks⟩ :=
        ih hone (by omega) hrest (by omega) (by omega)
      refine ⟨branches :: filled, gone, rest', by rw [heq]; rfl, ?_, ?_, ?_, ?_, ?_, ?_⟩
      · exact hpacks.legal.cons ⟨by omega, le_rfl⟩
      · simpa using hpacks.length_eq
      · have hsum := hpacks.sum_eq
        simp only [sum_cons, cons_append] at hsum ⊢
        omega
      · exact Dominates.carry hle (by omega) hpacks.dominates
      · rw [dropLast_cons_of_ne_nil hpacks.ne_nil]
        exact forall_mem_cons.mpr ⟨rfl, hpacks.full⟩
      · exact cons_ne_nil _ _
    · have hmin : min (remaining + next) branches = remaining + next := by omega
      rw [if_neg hover, hmin]
      refine ⟨[remaining + next], next, rest, rfl, ?_, ?_, ?_, ?_, ?_, ?_⟩
      · exact Legal.cons ⟨by omega, by omega⟩ hrest
      · simp
      · simp [Nat.add_assoc]
      · exact Dominates.merge remaining next rest
      · simp
      · exact cons_ne_nil _ _

/-! ## The outer loop -/

theorem exists_short (hrest : Legal branches rest) (hslack : rest.sum < branches * rest.length) :
    ∃ full x rest', rest = full ++ x :: rest' ∧ (∀ c ∈ full, c = branches) ∧ x < branches := by
  induction rest with
  | nil => simp at hslack
  | cons c rest ih =>
    simp only [sum_cons, length_cons, Nat.mul_succ] at hslack
    have hc := (hrest c mem_cons_self).2
    rcases hc.lt_or_eq with hshort | rfl
    · exact ⟨[], c, rest, rfl, by simp, hshort⟩
    · obtain ⟨full, x, rest', rfl, hfull, hx⟩ := ih hrest.tail (by omega)
      exact ⟨c :: full, x, rest', rfl, forall_mem_cons.mpr ⟨rfl, hfull⟩, hx⟩

theorem skip_append {front full : List Nat} (hfull : ∀ c ∈ full, c = branches) (hx : x < branches) :
    skip branches (front ++ (full ++ x :: rest)) front.length =
      some (front.length + full.length) := by
  rw [skip, drop_left]
  have hidx : (full ++ x :: rest).findIdx? (fun c => ¬ c > branches - rrbInvariant) =
      some full.length := by
    induction full with
    | nil =>
      have hle : x ≤ branches - rrbInvariant := Nat.le_sub_one_of_lt hx
      simp [findIdx?_cons, hle]
    | cons c full ih =>
      obtain ⟨rfl, hfull⟩ := forall_mem_cons.mp hfull
      have hgt : c > c - rrbInvariant := Nat.sub_lt (Nat.zero_lt_of_lt hx) (by decide)
      rw [cons_append, findIdx?_cons, if_neg (not_not_intro hgt <| of_decide_eq_true ·), ih hfull]
      rfl
  rw [hidx]
  rfl

theorem sum_of_forall_eq {full : List Nat} (h : ∀ c ∈ full, c = branches) :
    full.sum = branches * full.length := by
  rw [eq_replicate_of_mem h, sum_replicate_nat, length_replicate, Nat.mul_comm]

structure Turn (branches total : Nat) (counts : List Nat) (i : Nat) : Prop where
  legal : Legal branches counts
  sum_eq : counts.sum = total
  full : ∀ c ∈ counts.take i, c = branches
  le_length : i ≤ counts.length

theorem Turn.step {total optimal i : Nat} {counts : List Nat} (h : Turn branches total counts i)
    (hpos : 0 < branches) (htotal : total < 2 ^ 32) (hoptimal : total ≤ branches * optimal)
    (hlength : optimal + rrbExtras ≤ counts.length) :
    ∃ j remaining counts' j', skip branches counts i = some j ∧ counts[j]? = some remaining ∧
      redistribute branches counts remaining j = some (counts', j') ∧
      Turn branches total (counts'.eraseIdx j') (j' - 1) ∧
      (counts'.eraseIdx j').length + 1 = counts.length ∧
      Dominates counts (counts'.eraseIdx j') := by
  obtain ⟨front, rest, rfl, rfl⟩ : ∃ front rest, counts = front ++ rest ∧ front.length = i :=
    ⟨counts.take i, counts.drop i, (take_append_drop i counts).symm, length_take_of_le h.le_length⟩
  have hfront : ∀ c ∈ front, c = branches := by
    intro c hc
    exact h.full c (by rwa [take_left])
  have hsum := h.sum_eq
  have hmul : branches * (optimal + rrbExtras) ≤ branches * (front ++ rest).length :=
    Nat.mul_le_mul_left branches hlength
  rw [sum_append, sum_of_forall_eq hfront] at hsum
  simp only [length_append, Nat.mul_add, rrbExtras] at hmul
  have hlegal : Legal branches rest := fun c hc => h.legal c (mem_append_right front hc)
  obtain ⟨full, x, rest, rfl, hfull, hx⟩ := exists_short hlegal (by omega)
  -- the short node, with the full ones before it
  have hshort := hlegal x (mem_append_right full mem_cons_self)
  have hrest : Legal branches rest := fun c hc =>
    hlegal c (mem_append_right full (mem_cons_of_mem x hc))
  rw [sum_append, sum_cons, sum_of_forall_eq hfull] at hsum
  simp only [length_append, length_cons, Nat.mul_add, Nat.mul_one] at hmul
  obtain ⟨filled, gone, rest', heq, hpacks⟩ :=
    spread_spec hshort.1 hshort.2 hrest (by omega) (by omega)
  have hjoin : front ++ (full ++ x :: rest) = (front ++ full) ++ x :: rest :=
    (append_assoc front full (x :: rest)).symm
  have herase : ((front ++ full) ++ filled ++ gone :: rest').eraseIdx
      ((front ++ full).length + filled.length) = (front ++ full) ++ (filled ++ rest') := by
    rw [← length_append, eraseIdx_append_of_length_le le_rfl, Nat.sub_self,
      eraseIdx_cons_zero, append_assoc]
  have hfront : ∀ c ∈ front ++ full, c = branches := by
    intro c hc
    exact (mem_append.mp hc).elim (hfront c) (hfull c)
  refine ⟨front.length + full.length, x, (front ++ full) ++ filled ++ gone :: rest',
    (front ++ full).length + filled.length, skip_append hfull hx, ?_, ?_, ?_, ?_, ?_⟩
  · rw [hjoin, ← length_append, getElem?_append_right le_rfl, Nat.sub_self, getElem?_cons_zero]
  · rw [hjoin, ← length_append, redistribute_append, heq]
    rfl
  · rw [herase]
    refine ⟨?_, ?_, ?_, ?_⟩
    · intro c hc
      rcases mem_append.mp hc with hc | hc
      · rw [hfront c hc]
        exact ⟨hpos, le_rfl⟩
      · exact hpacks.legal c hc
    · rw [sum_append, hpacks.sum_eq, sum_of_forall_eq hfront, length_append, sum_cons, Nat.mul_add]
      omega
    · have hlast : (front ++ full).length + filled.length - 1 =
          (front ++ full ++ filled.dropLast).length := by
        have hlen := length_pos_of_ne_nil hpacks.ne_nil
        simp only [length_append, length_dropLast]
        omega
      have htake : (front ++ full) ++ (filled ++ rest') = (front ++ full ++ filled.dropLast) ++
          (filled.getLast hpacks.ne_nil :: rest') := by
        rw [← append_assoc]
        conv_lhs => rw [← dropLast_append_getLast hpacks.ne_nil]
        simp
      rw [hlast, htake, take_left]
      intro c hc
      exact (mem_append.mp hc).elim (hfront c) (hpacks.full c)
    · have hlen := length_pos_of_ne_nil hpacks.ne_nil
      simp only [length_append]
      omega
  · have hlength' := hpacks.length_eq
    rw [herase, hjoin]
    simp only [length_append, length_cons] at hlength' ⊢
    omega
  · rw [herase, hjoin]
    exact hpacks.dominates.append_left (front ++ full)

/-- The outer loop ends with a plan that has at most one node more than needed. -/
theorem Turn.shuffleLoop {total optimal n i : Nat} {counts : List Nat}
    (h : Turn branches total counts i) (hpos : 0 < branches) (htotal : total < 2 ^ 32)
    (hoptimal : total ≤ branches * optimal) (hlength : counts.length = n) :
    ∃ counts', shuffleLoop branches optimal n counts i = some counts' ∧
      Legal branches counts' ∧ counts'.sum = total ∧ counts'.length ≤ optimal + 1 ∧
      Dominates counts counts' := by
  induction n generalizing counts i with
  | zero =>
    exact ⟨counts, rfl, h.legal, h.sum_eq, by omega, .refl counts⟩
  | succ n ih =>
    by_cases hmore : optimal + rrbExtras ≤ n + 1
    · obtain ⟨j, remaining, counts', j', hskip, hremaining, hredistribute, hturn, hshorter,
        hdominates⟩ := h.step hpos htotal hoptimal (by omega)
      obtain ⟨counts'', heq, hlegal, hsum, hle, hdominates'⟩ := ih hturn (by omega)
      refine ⟨counts'', ?_, hlegal, hsum, hle, hdominates.trans hdominates'⟩
      rw [Rbts.shuffleLoop, if_pos hmore, hskip, Option.bind_eq_bind, Option.bind_some,
        hremaining, Option.bind_eq_bind, Option.bind_some, hredistribute, Option.bind_some]
      exact heq
    · refine ⟨counts, by rw [Rbts.shuffleLoop, if_neg hmore], h.legal, h.sum_eq, ?_, .refl counts⟩
      rw [rrbExtras] at hmore
      omega

/-! ## The plan -/

structure RebalancePlan.Fits (branches : Nat) (p : RebalancePlan) : Prop where
  legal : Legal branches p.counts
  total_eq : p.total.toNat = p.counts.sum

structure RebalancePlan.Shuffled (branches : Nat) (p p' : RebalancePlan) : Prop where
  legal : Legal branches p'.counts
  sum_eq : p'.counts.sum = p.total.toNat
  dominates : Dominates p.counts p'.counts
  length_le : p'.counts.length ≤ (p.total.toNat + (branches - 1)) / branches + 1

theorem optimal_eq {total : UInt32} (bits : Nat) (h : 0 < total.toNat) :
    (total - 1).toNat >>> bits + 1 = (total.toNat + (2 ^ bits - 1)) / 2 ^ bits := by
  have hone : (1 : UInt32) ≤ total := UInt32.le_iff_toNat_le.mpr h
  have hpow : 0 < 2 ^ bits := Nat.two_pow_pos bits
  have hsplit : total.toNat + (2 ^ bits - 1) = total.toNat - 1 + 2 ^ bits := by omega
  rw [UInt32.toNat_sub_of_le total 1 hone, Nat.shiftRight_eq_div_pow, hsplit,
    Nat.add_div_right _ hpow]
  rfl

theorem RebalancePlan.Fits.shuffle {B BL shift : Nat} {p : RebalancePlan}
    (h : p.Fits (2 ^ planBits B BL shift)) :
    ∃ p', p.shuffle B BL shift = some p' ∧ Shuffled (2 ^ planBits B BL shift) p p' := by
  generalize hbits : planBits B BL shift = bits at h ⊢
  have hpow : 0 < 2 ^ bits := Nat.two_pow_pos bits
  have hturn : Turn (2 ^ bits) p.total.toNat p.counts 0 :=
    ⟨h.legal, h.total_eq.symm, by simp, Nat.zero_le _⟩
  rcases Nat.eq_zero_or_pos p.total.toNat with hzero | htotal
  · have hnil : p.counts = [] := by
      rw [eq_nil_iff_forall_not_mem]
      intro c hc
      have hsum : p.counts.sum = 0 := h.total_eq.symm.trans hzero
      have hone := (h.legal c hc).1
      rw [List.sum_eq_zero_iff_forall_eq_nat.mp hsum c hc] at hone
      exact absurd hone (by decide)
    refine ⟨p, ?_, h.legal, h.total_eq.symm, .refl p.counts, ?_⟩
    · rw [RebalancePlan.shuffle, hnil]
      cases p
      simp_all [shuffleLoop]
    · rw [hnil]
      exact Nat.zero_le _
  · have hoptimal := optimal_eq bits htotal
    have hdiv : p.total.toNat ≤ 2 ^ bits * ((p.total - 1).toNat >>> bits + 1) := by
      have hmod := Nat.div_add_mod (p.total.toNat + (2 ^ bits - 1)) (2 ^ bits)
      have hlt := Nat.mod_lt (p.total.toNat + (2 ^ bits - 1)) hpow
      rw [hoptimal]
      omega
    obtain ⟨counts', heq, hlegal, hsum, hle, hdominates⟩ :=
      hturn.shuffleLoop hpow p.total.toNat_lt hdiv rfl
    refine ⟨{ p with counts := counts' }, ?_, hlegal, hsum, hdominates, ?_⟩
    · rw [RebalancePlan.shuffle, hbits, heq]
      rfl
    · rwa [← hoptimal]

end Pmdk.Rbts
