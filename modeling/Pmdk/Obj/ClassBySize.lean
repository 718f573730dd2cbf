import Mathlib.Data.List.MinMax
import Pmdk.Obj.ClassGeometry

/-!
# The class of a size

`alloc_class_by_alloc_size` looks for the class that wastes least for a size and keeps the answer
for all sizes of the same granule. The search divides by the number of units of a run, which may be
zero for a class of the user, and it does not ask whether a run has as many units as the size needs.
-/

namespace Pmdk.AllocClass

open Extend (chunkSize)
open List

/-! ## The search -/

def Class.units (c : Class) (n : Nat) : Nat := calcSizeIdx c.unitSize (n + c.headerType.size)

def Class.candidate (n : Nat) (c : Class) : Bool :=
  c.headerType ≠ .none && !(c.type = .run && RUN_UNIT_MAX_ALLOC < c.units n)

def Class.exact (n : Nat) (c : Class) : Bool := c.unitSize * c.units n = n + c.headerType.size

def Class.wasted (n : Nat) (c : Class) : Nat := c.waste (c.units n) (n + c.headerType.size)

def preferred (n : Nat) (cs : List Class) : Option Class :=
  let cs := cs.filter (Class.candidate n)
  (cs.find? (Class.exact n)).or (cs.argmin (Class.wasted n))

def divisors (n : Nat) : List Class → List Nat
  | [] => []
  | c :: cs =>
    if c.candidate n then
      if c.exact n then []
      else (if c.type = .run then [c.units n, c.nallocs] else []) ++ divisors n cs
    else divisors n cs

variable {c : Class}

theorem findMinFrag_eq_or (n : Nat) (cs : List Class) (best : Option Class) :
    findMinFrag n cs (best.map fun b => (b, b.wasted n)) =
      ((cs.filter (Class.candidate n)).find? (Class.exact n)).or
        ((cs.filter (Class.candidate n)).foldl
          (List.argAux fun b c => b.wasted n < c.wasted n) best) := by
  induction cs generalizing best with
  | nil => cases best <;> rfl
  | cons c cs ih =>
    have hunits : calcSizeIdx c.unitSize (n + c.headerType.size) = c.units n := rfl
    have hwaste : c.waste (c.units n) (n + c.headerType.size) = c.wasted n := rfl
    unfold findMinFrag
    dsimp only
    rw [hunits, hwaste]
    by_cases hnone : c.headerType = .none
    · have hskip : c.candidate n = false := by simp [Class.candidate, hnone]
      rw [if_pos hnone, ih, filter_cons_of_neg (by simp [hskip])]
    · rw [if_neg hnone]
      by_cases hmany : c.type = .run ∧ c.units n > RUN_UNIT_MAX_ALLOC
      · have hskip : c.candidate n = false := by simp [Class.candidate, hmany]
        rw [if_pos hmany, ih, filter_cons_of_neg (by simp [hskip])]
      · have htake : c.candidate n = true := by
          simp only [Class.candidate, Bool.and_eq_true, Bool.not_eq_true']
          exact ⟨decide_eq_true hnone, by simpa using hmany⟩
        rw [if_neg hmany, filter_cons_of_pos htake]
        by_cases hexact : c.unitSize * c.units n = n + c.headerType.size
        · have hfits : c.exact n = true := decide_eq_true hexact
          rw [if_pos hexact, find?_cons_of_pos hfits]
          rfl
        · rw [if_neg hexact, find?_cons_of_neg (by simpa [Class.exact] using hexact), foldl_cons]
          cases best with
          | none => exact ih (some c)
          | some b =>
            dsimp only [Option.map_some, List.argAux]
            by_cases hless : c.wasted n < b.wasted n
            · rw [if_pos hless, if_pos hless]
              exact ih (some c)
            · rw [if_neg hless, if_neg hless]
              exact ih (some b)

theorem findMinFrag_eq_preferred (n : Nat) (cs : List Class) :
    findMinFrag n cs none = preferred n cs :=
  findMinFrag_eq_or n cs none

variable {n : Nat} {cs : List Class}

theorem preferred_mem (h : preferred n cs = some c) : c ∈ cs ∧ c.candidate n = true := by
  have hmem : c ∈ cs.filter (Class.candidate n) := by
    rcases Option.or_eq_some_iff.mp h with hfind | ⟨-, hmin⟩
    · exact mem_of_find?_eq_some hfind
    · exact argmin_mem hmin
  exact mem_filter.mp hmem

theorem preferred_isSome (hc : c ∈ cs)
    (hcandidate : c.candidate n = true) : (preferred n cs).isSome := by
  have hmem : c ∈ cs.filter (Class.candidate n) := mem_filter.mpr ⟨hc, hcandidate⟩
  unfold preferred
  rw [Option.isSome_or, Bool.or_eq_true]
  refine .inr (Option.isSome_iff_ne_none.mpr fun hnone => ?_)
  rw [argmin_eq_none] at hnone
  rw [hnone] at hmem
  cases hmem

/-- The search divides by zero when it comes to a class without units before one that fits
exactly. -/
theorem zero_mem_divisors_iff (hunits : ∀ c ∈ cs, c.units n ≠ 0) :
    0 ∈ divisors n cs ↔
      ∃ c ∈ (cs.filter (Class.candidate n)).takeWhile (fun c => !c.exact n),
        c.type = .run ∧ c.nallocs = 0 := by
  induction cs with
  | nil => simp [divisors]
  | cons c cs ih =>
    obtain ⟨hpos, hunits⟩ := forall_mem_cons.mp hunits
    unfold divisors
    by_cases hcandidate : c.candidate n = true
    · rw [if_pos hcandidate, filter_cons_of_pos hcandidate, takeWhile_cons]
      by_cases hexact : c.exact n = true
      · simp [hexact]
      · rw [if_neg hexact, mem_append, ih hunits]
        have hstop : (!c.exact n) = true := by simpa using hexact
        rw [if_pos hstop, exists_mem_cons_iff]
        refine or_congr_left ?_
        by_cases hrun : c.type = .run
        · simp [hrun, hpos.symm, eq_comm]
        · simp [hrun]
    · rw [if_neg hcandidate, filter_cons_of_neg hcandidate, ih hunits]

/-! ## The steps -/

inductive Op
  | desc (registered buckets : Bool) (p : Desc) (classId : Option Nat)
  | lookup (size : Nat)
  | choose (id size : Nat)
  deriving DecidableEq

def exec : Op → Collection → Option Collection
  | .desc registered buckets p classId, ac =>
    some ((ctlWriteDesc registered buckets p classId ac).getD ac)
  | .lookup size, ac => (heapGetBestClass ac size).map Prod.snd
  | .choose _ _, ac => some ac

def mapIndex (size : Nat) : Nat := sizeToClassMapIndex size ALLOC_BLOCK_SIZE

def granule (size : Nat) : Nat := mapIndex size * ALLOC_BLOCK_SIZE

def Enough (c : Class) (size sizeIdx : Nat) : Prop :=
  0 < sizeIdx ∧ size + c.headerType.size ≤ c.unitSize * sizeIdx

def Usable (c : Class) (size : Nat) : Prop :=
  ∃ sizeIdx, allocClassCalcSizeIdx c size = some sizeIdx ∧ Enough c size sizeIdx

/-- A lookup does not divide by zero and returns a class that can be used; for a class that is
named, the number of units is enough if there is one. -/
def Selects : Op → Collection → Prop
  | .desc _ _ _ _, _ => True
  | .lookup size, ac => 1 ≤ size → size ≤ PMEMOBJ_MAX_ALLOC_SIZE →
      (size < ac.lastRunMaxSize → ac.classMap.lookup (mapIndex size) = none →
        0 ∉ divisors (granule size) ac.downward) ∧
      ∃ r, heapGetBestClass ac size = some r ∧ Usable r.1 size
  | .choose id size, ac => 1 ≤ size → size ≤ PMEMOBJ_MAX_ALLOC_SIZE →
      ∀ c ∈ ac.get id, ∀ sizeIdx, allocClassCalcSizeIdx c size = some sizeIdx →
        Enough c size sizeIdx

def Class.Refuses (c : Class) (units : Nat) : Prop :=
  c.type = .run ∧ ((c.headerType = .none ∧ units ≠ 1) ∨ units > 64 ∨ units > c.nallocs)

instance (c : Class) (units : Nat) : Decidable (c.Refuses units) :=
  inferInstanceAs (Decidable (_ ∧ _))

def Class.HasUnits (c : Class) (size : Nat) : Prop := c.type = .run → c.units size ≤ c.nallocs

instance (c : Class) (size : Nat) : Decidable (c.HasUnits size) :=
  inferInstanceAs (Decidable (_ → _))

/-- The search for a class comes to no class without units, and the runs of the class that is
best have enough units; so have the runs of a class that is in the map. The number of units of a
class that is named fits into 32 bits, or what is left of it is refused. -/
def Roomy : Op → Collection → Prop
  | .desc _ _ _ _, _ => True
  | .lookup size, ac => 1 ≤ size → size ≤ PMEMOBJ_MAX_ALLOC_SIZE → size < ac.lastRunMaxSize →
      (∀ id ∈ ac.classMap.lookup (mapIndex size), ∀ c ∈ ac.get id, c.HasUnits size) ∧
      (ac.classMap.lookup (mapIndex size) = none →
        (∀ c ∈ (ac.downward.filter (Class.candidate (granule size))).takeWhile
            (fun c => !c.exact (granule size)), c.type = .run → c.nallocs ≠ 0) ∧
        ∀ c ∈ preferred (granule size) ac.downward, c.HasUnits size)
  | .choose id size, ac => 1 ≤ size → size ≤ PMEMOBJ_MAX_ALLOC_SIZE →
      ∀ c ∈ ac.get id, (size + c.headerType.size - 1) / c.unitSize + 1 < 2 ^ 32 ∨
        c.Refuses (c.units size)

instance : ∀ (op : Op) (ac : Collection), Decidable (Roomy op ac)
  | .desc _ _ _ _, _ => isTrue trivial
  | .lookup _, _ => inferInstanceAs (Decidable (_ → _))
  | .choose _ _, _ => inferInstanceAs (Decidable (_ → _))

/-! ## Units -/

theorem calc_eq (c : Class) (size : Nat) : allocClassCalcSizeIdx c size =
    if c.Refuses (c.units size) then none else some (c.units size) := rfl

theorem enough_units {size : Nat} (hsize : 1 ≤ size)
    (hfits : (size + c.headerType.size - 1) / c.unitSize + 1 < 2 ^ 32) :
    Enough c size (c.units size) := by
  have hle := le_mul_calcSizeIdx c.pos hfits
  refine ⟨Nat.pos_of_ne_zero fun hzero => ?_, hle⟩
  unfold Class.units at hzero
  rw [hzero, Nat.mul_zero] at hle
  omega

theorem not_enough_of_cut {size : Nat}
    (hcut : 2 ^ 32 ≤ (size + c.headerType.size - 1) / c.unitSize + 1) :
    ¬ Enough c size (c.units size) := by
  rintro ⟨hpos, hle⟩
  have hmul := Nat.div_mul_le_self (size + c.headerType.size - 1) c.unitSize
  unfold Class.units calcSizeIdx at hpos hle
  split at hpos
  · omega
  · rename_i hsize
    rw [if_neg hsize] at hle
    generalize (size + c.headerType.size - 1) / c.unitSize = q at *
    have hlow : (q + 1) % 2 ^ 32 ≤ q := by omega
    have hbound := Nat.mul_le_mul_left c.unitSize hlow
    rw [Nat.mul_comm q] at hmul
    omega

theorem div_units_lt (c : Class) {size : Nat} (hsize : size < 2 ^ 32 - 64) :
    (size + c.headerType.size - 1) / c.unitSize + 1 < 2 ^ 32 := by
  have hdiv := Nat.div_le_self (size + c.headerType.size - 1) c.unitSize
  have hheader := c.headerType.size_le
  omega

theorem units_mono (c : Class) {size : Nat} (hle : size ≤ n) (hn : n < 2 ^ 32 - 64)
    (hsize : 1 ≤ size) : c.units size ≤ c.units n := by
  have hlt := div_units_lt c hn
  have hlt' := div_units_lt c (Nat.lt_of_le_of_lt hle hn)
  have hmono : (size + c.headerType.size - 1) / c.unitSize ≤
      (n + c.headerType.size - 1) / c.unitSize :=
    Nat.div_le_div_right (by omega)
  unfold Class.units calcSizeIdx
  rw [if_neg (by omega), if_neg (by omega), Nat.mod_eq_of_lt hlt, Nat.mod_eq_of_lt hlt']
  omega

/-- A class that was found for a granule can be used for a size in it if and only if its runs have
enough units. -/
theorem usable_iff {size : Nat} (hsize : 1 ≤ size) (hle : size ≤ n)
    (hn : n < 2 ^ 32 - 64) (hheader : c.headerType ≠ .none)
    (hunits : c.type = .run → c.units n ≤ RUN_UNIT_MAX_ALLOC) :
    Usable c size ↔ c.HasUnits size := by
  have henough := enough_units hsize (div_units_lt c (Nat.lt_of_le_of_lt hle hn))
  have hmono := units_mono c hle hn hsize
  have hrefuses : c.Refuses (c.units size) ↔ ¬ c.HasUnits size := by
    unfold Class.Refuses Class.HasUnits
    unfold RUN_UNIT_MAX_ALLOC at hunits
    by_cases hrun : c.type = .run
    · have hfew := hunits hrun
      simp only [hrun, true_and, hheader, false_and, false_or, forall_const]
      omega
    · simp [hrun]
  unfold Usable
  rw [calc_eq]
  by_cases hhas : c.HasUnits size
  · rw [if_neg fun h => hrefuses.mp h hhas]
    exact iff_of_true ⟨_, rfl, henough⟩ hhas
  · rw [if_pos (hrefuses.mpr hhas)]
    refine iff_of_false ?_ hhas
    rintro ⟨_, hnone, -⟩
    cases hnone

/-! ## The invariant -/

def Found (ac : Collection) (index id : Nat) : Prop :=
  ∃ c, ac.get id = some c ∧ c.headerType ≠ .none ∧
    (c.type = .run → c.units (index * ALLOC_BLOCK_SIZE) ≤ RUN_UNIT_MAX_ALLOC)

/-- The default class is the first one, every class knows its slot, and the map has classes that
the search would look at. -/
structure Inv (ac : Collection) : Prop where
  huge : ∃ c, ac.get 0 = some c ∧ c.type = .huge ∧ c.unitSize = chunkSize ∧
    c.headerType = .compact
  ids : ∀ i c, ac.get i = some c → c.id = i
  lastRun : ac.lastRunMaxSize ≤ MAX_RUN_SIZE
  found : ∀ e ∈ ac.classMap, Found ac e.1 e.2

theorem get_eq_some_iff {ac : Collection} {i : Nat} :
    ac.get i = some c ↔ ac.aclasses[i]? = some (some c) := by
  simp [Collection.get, Option.join_eq_some_iff]

theorem mem_downward_of_get {ac : Collection} {i : Nat} (h : ac.get i = some c) : c ∈ ac.downward :=
  mem_downward_iff.mpr (mem_of_getElem? (get_eq_some_iff.mp h))

theorem Inv.get_id {ac : Collection} (h : Inv ac) (hc : c ∈ ac.downward) :
    ac.get c.id = some c := by
  obtain ⟨i, hi⟩ := mem_iff_getElem?.mp (mem_downward_iff.mp hc)
  have hget := get_eq_some_iff.mpr hi
  rwa [h.ids i c hget]

theorem Inv.add {ac : Collection} (h : Inv ac) (hfree : ac.get c.id = none) :
    Inv { ac with aclasses := ac.aclasses.set c.id (some c) } := by
  have hold : ∀ i d, ac.get i = some d →
      Collection.get { ac with aclasses := ac.aclasses.set c.id (some c) } i = some d := by
    intro i d hd
    have hne : c.id ≠ i := by
      rintro rfl
      rw [hfree] at hd
      cases hd
    rw [get_eq_some_iff] at hd ⊢
    rw [getElem?_set_ne hne]
    exact hd
  refine ⟨?_, fun i d hd => ?_, h.lastRun, fun e he => ?_⟩
  · obtain ⟨d, hd, hhuge⟩ := h.huge
    exact ⟨d, hold 0 d hd, hhuge⟩
  · rw [get_eq_some_iff, getElem?_set] at hd
    split at hd
    · rename_i hi
      split at hd
      · obtain rfl := Option.some.inj (Option.some.inj hd)
        exact hi
      · cases hd
    · exact h.ids i d (get_eq_some_iff.mpr hd)
  · obtain ⟨d, hd, hfound⟩ := h.found e he
    exact ⟨d, hold e.2 d hd, hfound⟩

theorem Inv.remember {ac : Collection} (h : Inv ac) {index : Nat}
    (hc : preferred (index * ALLOC_BLOCK_SIZE) ac.downward = some c) :
    Inv { ac with classMap := (index, c.id) :: ac.classMap } := by
  obtain ⟨hmem, hcandidate⟩ := preferred_mem hc
  refine ⟨h.huge, h.ids, h.lastRun, forall_mem_cons.mpr ⟨?_, h.found⟩⟩
  refine ⟨c, h.get_id hmem, ?_, fun hrun => ?_⟩
  · intro hnone
    simp [Class.candidate, hnone] at hcandidate
  · simp only [Class.candidate, hrun, Bool.and_eq_true] at hcandidate
    simpa using hcandidate.2

theorem Inv.exists_preferred {ac : Collection} (h : Inv ac) (n : Nat) :
    ∃ c, preferred n ac.downward = some c := by
  obtain ⟨c, hget, htype, -, hheader⟩ := h.huge
  refine Option.isSome_iff_exists.mp (preferred_isSome (mem_downward_of_get hget) ?_)
  simp [Class.candidate, htype, hheader]

/-! ## One step -/

theorem granule_bounds {size : Nat} (hsize : 1 ≤ size) :
    size ≤ granule size ∧ granule size < size + 16 := by
  unfold granule mapIndex sizeToClassMapIndex ALLOC_BLOCK_SIZE
  omega

variable {ac : Collection} {size : Nat}

theorem Inv.usable_huge (h : Inv ac) (hsize : 1 ≤ size) (hmax : size ≤ PMEMOBJ_MAX_ALLOC_SIZE)
    (hlast : ¬ size < ac.lastRunMaxSize) :
    ∃ r, heapGetBestClass ac size = some r ∧ Usable r.1 size := by
  obtain ⟨c, hget, htype, hunit, hheader⟩ := h.huge
  have hrefuses : ¬ c.Refuses (c.units size) := by
    rintro ⟨hrun, -⟩
    rw [htype] at hrun
    cases hrun
  have hfits : (size + c.headerType.size - 1) / c.unitSize + 1 < 2 ^ 32 := by
    have hlarge : PMEMOBJ_MAX_ALLOC_SIZE < 2 ^ 34 := by decide
    have hsixteen : c.headerType.size = 16 := by rw [hheader]; rfl
    have hchunk : chunkSize = 2 ^ 18 := by decide
    rw [hunit, hsixteen, hchunk]
    omega
  refine ⟨(c, ac), ?_, _, ?_, enough_units hsize hfits⟩
  · rw [heapGetBestClass, if_neg hlast, hget, Option.map_some]
  · rw [calc_eq, if_neg hrefuses]

theorem heapGetBestClass_known {id : Nat} (hlast : size < ac.lastRunMaxSize)
    (hknown : ac.classMap.lookup (mapIndex size) = some id) (hget : ac.get id = some c) :
    heapGetBestClass ac size = some (c, ac) := by
  unfold mapIndex at hknown
  rw [heapGetBestClass, if_pos hlast, hknown]
  dsimp only
  rw [hget, Option.map_some]

theorem heapGetBestClass_new (hlast : size < ac.lastRunMaxSize)
    (hknown : ac.classMap.lookup (mapIndex size) = none)
    (hc : preferred (granule size) ac.downward = some c) : heapGetBestClass ac size =
      some (c, { ac with classMap := (mapIndex size, c.id) :: ac.classMap }) := by
  unfold mapIndex at hknown
  rw [← findMinFrag_eq_preferred] at hc
  unfold granule mapIndex at hc
  rw [heapGetBestClass, if_pos hlast, hknown]
  dsimp only
  unfold allocClassAssignBySize
  dsimp only
  rw [hc]
  rfl

variable {ac' : Collection}

section

variable (h : Inv ac)

include h

theorem Inv.granule_lt (hsize : 1 ≤ size) (hlast : size < ac.lastRunMaxSize) :
    granule size < 2 ^ 32 - 64 := by
  have hle := h.lastRun
  have hmax : MAX_RUN_SIZE < 2 ^ 30 := by decide
  have hgranule := (granule_bounds hsize).2
  omega

theorem Inv.usable_known (hsize : 1 ≤ size) (hlast : size < ac.lastRunMaxSize)
    {id : Nat} (hknown : ac.classMap.lookup (mapIndex size) = some id) :
    (∃ r, heapGetBestClass ac size = some r ∧ Usable r.1 size) ↔
      ∀ c ∈ ac.get id, c.HasUnits size := by
  obtain ⟨l₁, l₂, hmap, -⟩ := lookup_eq_some_iff.mp hknown
  have hmem : (mapIndex size, id) ∈ ac.classMap := by
    rw [hmap]
    exact mem_append_right l₁ mem_cons_self
  obtain ⟨c, hget, hheader, hunits⟩ := h.found _ hmem
  have husable : Usable c size ↔ c.HasUnits size :=
    usable_iff hsize (granule_bounds hsize).1 (h.granule_lt hsize hlast) hheader hunits
  rw [heapGetBestClass_known hlast hknown hget]
  dsimp only at hget
  rw [hget]
  constructor
  · rintro ⟨r, hr, hr'⟩ d hd
    obtain rfl := Option.some.inj hr
    obtain rfl := Option.some.inj hd
    exact husable.mp hr'
  · intro hall
    exact ⟨_, rfl, husable.mpr (hall c rfl)⟩

theorem Inv.usable_new (hsize : 1 ≤ size) (hlast : size < ac.lastRunMaxSize)
    (hknown : ac.classMap.lookup (mapIndex size) = none) :
    (∃ r, heapGetBestClass ac size = some r ∧ Usable r.1 size) ↔
      ∀ c ∈ preferred (granule size) ac.downward, c.HasUnits size := by
  obtain ⟨c, hc⟩ := h.exists_preferred (granule size)
  obtain ⟨-, hcandidate⟩ := preferred_mem hc
  have hheader : c.headerType ≠ .none := by
    intro hnone
    simp [Class.candidate, hnone] at hcandidate
  have hunits : c.type = .run → c.units (granule size) ≤ RUN_UNIT_MAX_ALLOC := by
    intro hrun
    simp only [Class.candidate, hrun, Bool.and_eq_true] at hcandidate
    simpa using hcandidate.2
  have husable : Usable c size ↔ c.HasUnits size :=
    usable_iff hsize (granule_bounds hsize).1 (h.granule_lt hsize hlast) hheader hunits
  rw [heapGetBestClass_new hlast hknown hc, hc]
  constructor
  · rintro ⟨r, hr, hr'⟩ d hd
    obtain rfl := Option.some.inj hr
    obtain rfl := Option.some.inj hd
    exact husable.mp hr'
  · intro hall
    exact ⟨_, rfl, husable.mpr (hall c rfl)⟩

theorem Inv.units_ne_zero (hsize : 1 ≤ size) (hlast : size < ac.lastRunMaxSize)
    (c : Class) : c.units (granule size) ≠ 0 := by
  have hbounds := granule_bounds hsize
  have hfits := div_units_lt c (h.granule_lt hsize hlast)
  exact Nat.ne_of_gt (enough_units (Nat.le_trans hsize hbounds.1) hfits).1

theorem Inv.selects_iff (op : Op) : Selects op ac ↔ Roomy op ac := by
  cases op with
  | desc => exact Iff.rfl
  | lookup size =>
    refine forall_congr' fun hsize => forall_congr' fun hmax => ?_
    by_cases hlast : size < ac.lastRunMaxSize
    · have hunits : ∀ c ∈ ac.downward, c.units (granule size) ≠ 0 :=
        fun c _ => h.units_ne_zero hsize hlast c
      cases hknown : ac.classMap.lookup (mapIndex size) with
      | some id =>
        have husable := h.usable_known hsize hlast hknown
        simp [hlast, husable]
      | none =>
        have husable := h.usable_new hsize hlast hknown
        rw [zero_mem_divisors_iff hunits, husable]
        simp [hlast]
    · have husable := h.usable_huge hsize hmax hlast
      simp [hlast, husable]
  | choose id size =>
    refine forall_congr' fun hsize => forall_congr' fun _ => forall_congr' fun c =>
      forall_congr' fun _ => ?_
    rw [calc_eq]
    by_cases hrefuses : c.Refuses (c.units size)
    · simp [hrefuses]
    · rw [if_neg hrefuses]
      simp only [Option.some.injEq, forall_eq', hrefuses, or_false]
      constructor
      · intro henough
        by_contra hcut
        exact not_enough_of_cut (Nat.le_of_not_lt hcut) henough
      · exact enough_units hsize

theorem Inv.exec {op : Op} (hexec : exec op ac = some ac') : Inv ac' := by
  cases op with
  | desc registered buckets p classId =>
    obtain rfl := Option.some.inj hexec
    cases hwrite : ctlWriteDesc registered buckets p classId ac with
    | none => exact h
    | some ac' =>
      obtain ⟨-, -, id, c, hfree, rfl, rfl, -⟩ := ctlWriteDesc_eq_some hwrite
      exact h.add hfree
  | lookup size =>
    obtain ⟨r, hr, rfl⟩ := Option.map_eq_some_iff.mp hexec
    unfold heapGetBestClass at hr
    split at hr
    · split at hr
      · obtain ⟨c, hc, rfl⟩ := Option.map_eq_some_iff.mp hr
        rw [findMinFrag_eq_preferred] at hc
        exact h.remember hc
      · obtain ⟨c, -, rfl⟩ := Option.map_eq_some_iff.mp hr
        exact h
    · obtain ⟨c, -, rfl⟩ := Option.map_eq_some_iff.mp hr
      exact h
  | choose id size =>
    obtain rfl := Option.some.inj hexec
    exact h

/-! ## Runs -/

theorem Inv.allocClassNewFree {unitSize sizeIdx : Nat} {r : Class × Collection}
    (hnew : allocClassNewFree ac unitSize sizeIdx = some r) : Inv r.2 := by
  obtain ⟨slot, hslot, hclass⟩ := Option.bind_eq_some_iff.mp hnew
  obtain ⟨hset, rfl, -⟩ := allocClassNew_eq_some hclass
  rw [hset]
  exact h.add (get_findFirstFreeSlot hslot)

theorem Inv.findOrCreate (hfind : findOrCreate ac n = some ac') : Inv ac' := by
  unfold AllocClass.findOrCreate at hfind
  dsimp only at hfind
  split at hfind
  · exact Option.some.inj hfind ▸ h
  · obtain ⟨n', -, hgrown⟩ := Option.bind_eq_some_iff.mp hfind
    split at hgrown
    · exact Option.some.inj hgrown ▸ h
    · obtain ⟨r, hr, rfl⟩ := Option.map_eq_some_iff.mp hgrown
      exact h.allocClassNewFree hr

theorem Inv.generate {last fuel : Nat} (hgen : generate last fuel n ac = some ac') : Inv ac' := by
  induction fuel generalizing n ac with
  | zero => cases hgen
  | succ fuel ih =>
    obtain ⟨mid, hmid, hrest⟩ := Option.bind_eq_some_iff.mp hgen
    have hinv := h.findOrCreate hmid
    split at hrest
    · exact ih hinv hrest
    · exact Option.some.inj hrest ▸ hinv

theorem Inv.generateAll {sizes : List Nat} (hgen : generateAll sizes ac = some ac') : Inv ac' := by
  induction sizes generalizing ac with
  | nil => exact Option.some.inj hgen ▸ h
  | cons prev sizes ih =>
    cases sizes with
    | nil => exact Option.some.inj hgen ▸ h
    | cons size rest =>
      obtain ⟨mid, hmid, hrest⟩ := Option.bind_eq_some_iff.mp hgen
      exact ih (h.generate hmid) hrest

end

theorem inv_huge (n : Nat) : Inv ⟨some hugeClass :: List.replicate n none, MAX_RUN_SIZE, []⟩ := by
  refine ⟨⟨hugeClass, rfl, rfl, rfl, rfl⟩, fun i c hc => ?_, Nat.le_refl _, forall_mem_nil _⟩
  rw [get_eq_some_iff] at hc
  cases i with
  | zero =>
    obtain rfl := Option.some.inj (Option.some.inj hc)
    rfl
  | succ i =>
    have hmem : some c ∈ List.replicate n (none : Option Class) := mem_of_getElem? hc
    cases (mem_replicate.mp hmem).2

theorem Inv.small (h : Inv ac) (hget : ac.get c.id = some c) (hunit : c.unitSize = 128)
    (hheader : c.headerType = .compact) :
    Inv { ac with classMap := (List.range (128 / ALLOC_BLOCK_SIZE)).map fun i => (i, c.id) } := by
  refine ⟨h.huge, h.ids, h.lastRun, fun e he => ?_⟩
  obtain ⟨i, hi, rfl⟩ := mem_map.mp he
  have hlt : i < 8 := mem_range.mp hi
  refine ⟨c, hget, by rw [hheader]; decide, fun _ => ?_⟩
  have hsixteen : c.headerType.size = 16 := by rw [hheader]; rfl
  unfold Class.units calcSizeIdx ALLOC_BLOCK_SIZE RUN_UNIT_MAX_ALLOC
  rw [hunit, hsixteen]
  dsimp only
  split <;> omega

theorem allocClassNewFree_get {unitSize sizeIdx : Nat} {r : Class × Collection}
    (hnew : allocClassNewFree ac unitSize sizeIdx = some r) :
    r.2.get r.1.id = some r.1 ∧ r.1.unitSize = unitSize ∧ r.1.headerType = .compact := by
  obtain ⟨slot, hslot, hclass⟩ := Option.bind_eq_some_iff.mp hnew
  obtain ⟨hset, rfl, -, hunit, hheader, -⟩ := allocClassNew_eq_some hclass
  obtain ⟨hlt, -⟩ := findIdx?_eq_some_iff_getElem.mp hslot
  refine ⟨?_, hunit, hheader⟩
  rw [get_eq_some_iff, hset, getElem?_set_self hlt]

theorem inv_default (hdefault : allocClassCollectionNew = some ac) : Inv ac := by
  unfold allocClassCollectionNew at hdefault
  dsimp only at hdefault
  obtain ⟨⟨c, start⟩, hfirst, hmap⟩ := Option.bind_eq_some_iff.mp hdefault
  obtain ⟨all, hall, rfl⟩ := Option.map_eq_some_iff.mp hmap
  have hstart : Inv start := (inv_huge _).allocClassNewFree hfirst
  obtain ⟨hget, hunit, hheader⟩ := allocClassNewFree_get hfirst
  have hinv : Inv all := (hstart.small hget hunit hheader).generateAll hall
  cases all.downward.head? with
  | none => exact hinv
  | some d => exact ⟨hinv.huge, hinv.ids, Nat.min_le_left _ _, hinv.found⟩

def Offered (c : Class) : Prop :=
  ∃ ops start ac, allocClassCollectionNew = some start ∧
    Transition.run exec ops start = some ac ∧ c ∈ ac.downward

theorem fits_exec {op : Op} (hfits : ∀ c ∈ ac.downward, c.Fits)
    (hexec : exec op ac = some ac') : ∀ c ∈ ac'.downward, c.Fits := by
  cases op with
  | desc registered buckets p classId =>
    obtain rfl := Option.some.inj hexec
    cases hwrite : ctlWriteDesc registered buckets p classId ac with
    | none => exact hfits
    | some ac' =>
      have hunit := ctlWriteDesc_unitSize hwrite
      obtain ⟨-, -, id, d, -, rfl, -, htype, hsize, -⟩ := ctlWriteDesc_eq_some hwrite
      intro c hc
      rw [Option.getD_some, mem_downward_iff] at hc
      rcases mem_or_eq_of_mem_set hc with hold | hnew
      · exact hfits c (mem_downward_iff.mpr hold)
      · obtain rfl := Option.some.inj hnew
        refine ⟨hsize ▸ hunit, fun hhuge => ?_⟩
        rw [htype] at hhuge
        cases hhuge
  | lookup size =>
    obtain ⟨r, hr, rfl⟩ := Option.map_eq_some_iff.mp hexec
    unfold heapGetBestClass at hr
    split at hr
    · split at hr
      · obtain ⟨c, -, rfl⟩ := Option.map_eq_some_iff.mp hr
        exact hfits
      · obtain ⟨c, -, rfl⟩ := Option.map_eq_some_iff.mp hr
        exact hfits
    · obtain ⟨c, -, rfl⟩ := Option.map_eq_some_iff.mp hr
      exact hfits
  | choose id size =>
    obtain rfl := Option.some.inj hexec
    exact hfits

theorem Offered.fits (h : Offered c) : c.Fits := by
  obtain ⟨ops, start, ac, hstart, hrun, hc⟩ := h
  obtain ⟨start', -, hstart', -, hall⟩ := default_classes
  obtain rfl := Option.some.inj (hstart.symm.trans hstart')
  have hstep : ∀ op ∈ ops, ∀ ac ac', (∀ c ∈ ac.downward, c.Fits) → True →
      exec op ac = some ac' → ∀ c ∈ ac'.downward, c.Fits :=
    fun _ _ _ _ hfits _ hexec => fits_exec hfits hexec
  have hguard : Transition.Guarded exec (fun _ _ => True) ops start :=
    Transition.Guarded.of_forall (fun _ _ => trivial) ops start
  exact Transition.run_invariant hstep hguard (fun c hc => (hall c hc).2) hrun c hc

theorem exists_offered {p : Desc} (hunit : 0 < p.unitSize)
    (hmax : p.unitSize ≤ PMEMOBJ_MAX_ALLOC_SIZE) (hunits : 0 < p.unitsPerBlock)
    (hdvd : p.alignment ≠ 0 → p.alignment ∣ p.unitSize) (hle : p.alignment ≤ 2 ^ 21) :
    ∃ c, Offered c ∧ c.type = .run ∧ c.unitSize = p.unitSize ∧ c.headerType = p.headerType ∧
      c.sizeIdx = p.sizeIdx ∧ c.alignment = p.alignment ∧
      c.nallocs = (memblockRunBitmap p.sizeIdx p.unitSize p.alignment).nbits := by
  obtain ⟨start, slot, hstart, hslot, -⟩ := default_classes
  obtain ⟨c, ac, hwrite, hc, -, hfields⟩ := ctlWriteDesc_free hslot hunit hmax hunits hdvd hle
  refine ⟨c, ⟨[.desc true true p none], start, ac, hstart, ?_, hc⟩, hfields⟩
  rw [Transition.run_cons, exec, hwrite]
  rfl

/-- In every run from the default collection, every step selects a class as it should if and only
if there is room for it in every step. -/
theorem selects_iff_roomy (hdefault : allocClassCollectionNew = some ac) (ops : List Op) :
    Transition.Guarded exec Selects ops ac ↔ Transition.Guarded exec Roomy ops ac :=
  Transition.guarded_congr (fun op _ h => h.selects_iff op)
    (fun _ _ _ h _ => h.exec) ops (inv_default hdefault)

/-- An object of one size, and one for which the default class is used. -/
theorem selects_default : ∃ ac, allocClassCollectionNew = some ac ∧
    Transition.Guarded exec Selects [.lookup 200, .lookup 200, .lookup 3000000, .choose 0 200]
      ac := by
  have h : (allocClassCollectionNew.any fun ac => Transition.Guarded exec Roomy
      [.lookup 200, .lookup 200, .lookup 3000000, .choose 0 200] ac) = true := by
    decide +kernel
  obtain ⟨ac, hac, hroomy⟩ := (Option.any_eq_true _ _).mp h
  exact ⟨ac, hac, (selects_iff_roomy hac _).mpr (of_decide_eq_true hroomy)⟩

def noUnits : Desc := ⟨262128, 0, 1, .compact⟩

/-- The search divides by the units of the class. -/
theorem not_selects_noUnits : ∃ ac, allocClassCollectionNew = some ac ∧
    ¬ Transition.Guarded exec Selects [.desc true true noUnits none, .lookup 200] ac := by
  have h : (allocClassCollectionNew.any fun ac => (ctlWriteDesc true true noUnits none ac).any
      fun ac => 200 < ac.lastRunMaxSize ∧ ac.classMap.lookup (mapIndex 200) = none ∧
        0 ∈ divisors (granule 200) ac.downward) = true := by
    decide +kernel
  obtain ⟨ac, hac, h⟩ := (Option.any_eq_true _ _).mp h
  obtain ⟨ac', hwrite, h⟩ := (Option.any_eq_true _ _).mp h
  obtain ⟨hlast, hknown, hzero⟩ := of_decide_eq_true h
  have hdesc : exec (.desc true true noUnits none) ac = some ac' := by
    unfold exec
    dsimp only
    rw [hwrite]
    rfl
  refine ⟨ac, hac, fun hguarded => ?_⟩
  obtain ⟨hselects, -⟩ := hguarded.tail hdesc
  exact (hselects (by decide) (by decide)).1 hlast hknown hzero

end Pmdk.AllocClass
