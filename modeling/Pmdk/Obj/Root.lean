import Pmdk.Obj.AllocClass

/-!
# Growing the root object

`pmemobj_root_construct` reallocates the root when it is asked for more than the recorded size. The
constructor runs on the new block, and the content of the old block is copied over it afterwards, as
far as the old block is usable.
-/

namespace Pmdk.Root

open Transition Function
open AllocClass (PMEMOBJ_MAX_ALLOC_SIZE)

abbrev Data := Nat → UInt8

structure Pool where
  root_offset : Nat
  root_size : Nat
  /-- The usable sizes of the allocated blocks, by their offsets. -/
  blocks : Nat → Option Nat
  /-- The bytes of the block of the root. -/
  data : Data

structure Reservation where
  offset : Nat
  usable_size : Nat
  data : Data

structure Constr where
  writes : Nat → Option UInt8
  ok : Bool

/-- `constructor_realloc` with `zero_init`. -/
def constructorRealloc (old_size usable_size : Nat) (data : Data) : Data :=
  fun i => if old_size ≤ i ∧ i < usable_size then 0 else data i

def constructorZreallocRoot (old_size : Nat) (constructor : Constr) (usable_size : Nat)
    (data : Data) : Data × Bool :=
  let data := constructorRealloc old_size usable_size data
  (fun i => (constructor.writes i).getD (data i), constructor.ok)

inductive Outcome where
  /-- The block has the size already. -/
  | canceled
  | failed
  | done (resv : Reservation)

/-- `palloc_operation` for an object with the usable size `user_size`, if there is one. There is no
reservation if no class or no memory is found. -/
def pallocOperation (user_size : Option Nat) (old : Data) (size : Nat)
    (constructor : Nat → Data → Data × Bool) (resv : Option Reservation) : Outcome :=
  if user_size = some size then .canceled
  else
    match resv with
    | none => .failed
    | some resv =>
      let (data, ok) := constructor resv.usable_size resv.data
      if ok then
        let to_cpy := min (user_size.getD 0) size
        .done { resv with data := fun i => if i < to_cpy then old i else data i }
      else .failed

def Pool.userSize (p : Pool) : Option Nat :=
  if p.root_offset = 0 then none else p.blocks p.root_offset

def Pool.process (p : Pool) (size : Nat) (resv : Reservation) : Pool where
  root_offset := resv.offset
  root_size := size
  blocks := update (if p.root_offset = 0 then p.blocks
    else update p.blocks p.root_offset none) resv.offset (some resv.usable_size)
  data := resv.data

def objAllocRoot (p : Pool) (size : Nat) (constructor : Constr) (resv : Option Reservation) :
    Pool × Nat × Bool :=
  match pallocOperation p.userSize p.data size
      (constructorZreallocRoot p.root_size constructor) resv with
  | .canceled => (p, 0, true)
  | .failed => (p, 0, false)
  | .done resv => (p.process size resv, 1, true)

def pmemobjRootSize (p : Pool) : Nat :=
  if p.root_offset ≠ 0 ∧ p.root_size ≠ 0 then p.root_size else 0

def pmemobjRootConstruct (p : Pool) (size : Nat) (constructor : Constr)
    (resv : Option Reservation) : Pool × Nat × Bool :=
  if PMEMOBJ_MAX_ALLOC_SIZE < size then (p, 0, false)
  else if size = 0 ∧ p.root_offset = 0 then (p, 0, false)
  else if p.root_size < size then objAllocRoot p size constructor resv
  else (p, 0, true)

/-! ## Runs -/

structure State where
  pool : Pool
  largest : Nat

inductive Act where
  | construct (size : Nat) (constructor : Constr) (resv : Option Reservation)
  /-- A store into the root. -/
  | store (i : Nat) (v : UInt8)

def step : Act → State → Option State
  | .construct size constructor resv, s =>
    let r := pmemobjRootConstruct s.pool size constructor resv
    some ⟨r.1, if r.2.2 then max s.largest size else s.largest⟩
  | .store i v, s =>
    if i < pmemobjRootSize s.pool then
      some { s with pool := { s.pool with data := update s.pool.data i v } }
    else none

def Sound (p : Pool) (size : Nat) (constructor : Constr) (resv : Option Reservation) : Prop :=
  (∀ i, constructor.writes i ≠ none → i < size) ∧
    ∀ r ∈ resv, r.offset ≠ 0 ∧ p.blocks r.offset = none ∧ size ≤ r.usable_size

def init (blocks : Nat → Option Nat) : State := ⟨⟨0, 0, blocks, fun _ => 0⟩, 0⟩

/-- The call is all or nothing, and `largest` sizes were asked for with success before it. -/
def AllOrNothing (s : State) (size : Nat) (constructor : Constr) (resv : Option Reservation) :
    Prop :=
  let (pool, ran, ok) := pmemobjRootConstruct s.pool size constructor resv
  pmemobjRootSize pool = (if ok then max s.largest size else s.largest) ∧
    (ok = false → pool = s.pool) ∧
    (ok → pmemobjRootSize s.pool < size → ran = 1 ∧ ∀ i < size, pool.data i =
      (constructor.writes i).getD (if i < pmemobjRootSize s.pool then s.pool.data i else 0))

def Grows (p : Pool) (size : Nat) (constructor : Constr) (resv : Option Reservation) : Prop :=
  p.root_size < size → size ≤ PMEMOBJ_MAX_ALLOC_SIZE → p.userSize ≠ some size ∧
    (resv.isSome → constructor.ok →
      ∀ i < p.userSize.getD 0, ∀ v ∈ constructor.writes i, v = p.data i)

def Fine : Act → State → Prop
  | .construct size constructor resv, s =>
    Sound s.pool size constructor resv ∧ Grows s.pool size constructor resv
  | .store _ _, _ => True

structure Valid (s : State) : Prop where
  noRoot : s.pool.root_offset = 0 → s.pool.root_size = 0
  root : s.pool.root_offset ≠ 0 → 0 < s.pool.root_size ∧
    s.pool.root_size ≤ s.pool.userSize.getD 0 ∧
    ∀ i, s.pool.root_size ≤ i → i < s.pool.userSize.getD 0 → s.pool.data i = 0
  largest : s.largest = s.pool.root_size

variable {p : Pool} {s t : State} {size : Nat} {c : Constr} {resv : Option Reservation}

/-! ## The calls -/

theorem construct_of_le (h : size ≤ p.root_size) :
    ∃ ok, pmemobjRootConstruct p size c resv = (p, 0, ok) := by
  rw [pmemobjRootConstruct]
  split_ifs <;> first | exact ⟨_, rfl⟩ | omega

theorem construct_of_max (h : PMEMOBJ_MAX_ALLOC_SIZE < size) :
    pmemobjRootConstruct p size c resv = (p, 0, false) := if_pos h

theorem construct_of_lt (h : p.root_size < size) (hmax : size ≤ PMEMOBJ_MAX_ALLOC_SIZE) :
    pmemobjRootConstruct p size c resv = objAllocRoot p size c resv := by
  rw [pmemobjRootConstruct, if_neg (by omega), if_neg (by omega), if_pos h]

theorem objAllocRoot_canceled (h : p.userSize = some size) :
    objAllocRoot p size c resv = (p, 0, true) := by
  simp [objAllocRoot, pallocOperation, h]

variable {r : Reservation}

theorem objAllocRoot_failed (h : p.userSize ≠ some size) (hfail : resv = none ∨ c.ok = false) :
    objAllocRoot p size c resv = (p, 0, false) := by
  cases resv with
  | none => simp [objAllocRoot, pallocOperation, h]
  | some r =>
    have hok := hfail.resolve_left (Option.some_ne_none r)
    simp [objAllocRoot, pallocOperation, h, constructorZreallocRoot, hok]

def grown (p : Pool) (size : Nat) (c : Constr) (r : Reservation) : Data := fun i =>
  if i < min (p.userSize.getD 0) size then p.data i
  else (c.writes i).getD (constructorRealloc p.root_size r.usable_size r.data i)

theorem objAllocRoot_done (h : p.userSize ≠ some size) (hok : c.ok) :
    objAllocRoot p size c (some r) =
      (p.process size { r with data := grown p size c r }, 1, true) := by
  simp only [objAllocRoot, pallocOperation, h, constructorZreallocRoot, hok, if_true, if_false]
  rfl

theorem userSize_process (hr : r.offset ≠ 0) (data : Data) :
    (p.process size { r with data := data }).userSize = some r.usable_size := by
  rw [Pool.userSize]
  exact (if_neg hr).trans (update_self ..)

namespace Valid

theorem rootSize (h : Valid s) : pmemobjRootSize s.pool = s.pool.root_size := by
  rw [pmemobjRootSize]
  split_ifs with hroot
  · rfl
  · by_cases hoffset : s.pool.root_offset = 0
    · exact (h.noRoot hoffset).symm
    · exact (Decidable.not_not.mp fun hsize => hroot ⟨hoffset, hsize⟩).symm

theorem data_eq (h : Valid s) {i : Nat} (hi : i < s.pool.userSize.getD 0) :
    s.pool.data i = if i < s.pool.root_size then s.pool.data i else 0 := by
  split_ifs with hlt
  · rfl
  · refine (h.root fun hoffset => ?_).2.2 i (Nat.le_of_not_lt hlt) hi
    rw [Pool.userSize, if_pos hoffset] at hi
    exact Nat.not_lt_zero _ hi

theorem le_userSize (h : Valid s) : s.pool.root_size ≤ s.pool.userSize.getD 0 := by
  by_cases hoffset : s.pool.root_offset = 0
  · exact (h.noRoot hoffset).le.trans (Nat.zero_le _)
  · exact (h.root hoffset).2.1

/-- What a byte of the grown root is, if nothing that the constructor wrote is copied over. -/
theorem grown_eq (h : Valid s) (hle : size ≤ r.usable_size)
    (hkeep : ∀ i < s.pool.userSize.getD 0, ∀ v ∈ c.writes i, v = s.pool.data i) {i : Nat}
    (hi : i < size) :
    grown s.pool size c r i =
      (c.writes i).getD (if i < s.pool.root_size then s.pool.data i else 0) := by
  have hsize := h.le_userSize
  rw [grown]
  split_ifs with hcopy hlt hlt
  · cases hw : c.writes i with
    | none => rfl
    | some v => exact (hkeep i (by omega) v hw).symm
  · cases hw : c.writes i with
    | none => exact (h.data_eq (by omega)).trans (if_neg hlt)
    | some v => exact (hkeep i (by omega) v hw).symm
  · omega
  · rw [constructorRealloc, if_pos ⟨Nat.le_of_not_lt hlt, by omega⟩]

theorem grown_of_le (hlt : p.root_size < size) (hin : ∀ i, c.writes i ≠ none → i < size) {i : Nat}
    (hi : size ≤ i) (hr : i < r.usable_size) : grown p size c r i = 0 := by
  have hnone : c.writes i = none := by
    by_contra hw
    exact absurd (hin i hw) (by omega)
  rw [grown, if_neg (by omega), hnone, Option.getD_none, constructorRealloc, if_pos (by omega)]

theorem same (h : Valid s) {ok : Bool} (hle : ok → size ≤ s.pool.root_size) :
    Valid ⟨s.pool, if ok then max s.largest size else s.largest⟩ where
  noRoot := h.noRoot
  root := h.root
  largest := by
    have hlargest := h.largest
    cases ok with
    | false => exact hlargest
    | true => exact (max_eq_left (hlargest ▸ hle rfl)).trans hlargest

theorem step (h : Valid s) {a : Act} (hfine : Fine a s) (hstep : Root.step a s = some t) :
    Valid t := by
  cases a with
  | store i v =>
    rw [Root.step, Option.ite_none_right_eq_some] at hstep
    obtain ⟨hi, heq⟩ := hstep
    rw [h.rootSize] at hi
    cases heq
    refine ⟨h.noRoot, fun hoffset => ?_, h.largest⟩
    obtain ⟨hpos, hle, hzero⟩ := h.root hoffset
    refine ⟨hpos, hle, fun j hj hlt => ?_⟩
    have hj : s.pool.root_size ≤ j := hj
    exact (update_of_ne (by omega) _ _).trans (hzero j hj hlt)
  | construct size c resv =>
    obtain ⟨⟨hin, hresv⟩, hgrows⟩ := hfine
    rw [Root.step, Option.some.injEq] at hstep
    subst hstep
    by_cases hle : size ≤ s.pool.root_size
    · obtain ⟨ok, heq⟩ : ∃ ok, pmemobjRootConstruct s.pool size c resv = (s.pool, 0, ok) :=
      construct_of_le hle
      rw [heq]
      exact h.same fun _ => hle
    by_cases hmax : size ≤ PMEMOBJ_MAX_ALLOC_SIZE
    swap
    · rw [construct_of_max (Nat.lt_of_not_le hmax)]
      exact h.same fun hok => Bool.noConfusion hok
    have hlt := Nat.lt_of_not_le hle
    have hne := (hgrows hlt hmax).1
    rw [construct_of_lt hlt hmax]
    by_cases hfail : resv = none ∨ c.ok = false
    · rw [objAllocRoot_failed hne hfail]
      exact h.same fun hok => Bool.noConfusion hok
    rw [not_or, Bool.not_eq_false] at hfail
    obtain ⟨r, rfl⟩ := Option.ne_none_iff_exists'.mp hfail.1
    obtain ⟨hoffset, -, husable⟩ := hresv r rfl
    rw [objAllocRoot_done hne hfail.2]
    refine ⟨fun hr => absurd hr hoffset, fun _ => ⟨Nat.zero_lt_of_lt hlt, ?_, ?_⟩, ?_⟩
    · rw [userSize_process hoffset]
      exact husable
    · intro i hi hu
      rw [userSize_process hoffset] at hu
      exact grown_of_le hlt hin hi hu
    · exact max_eq_right (h.largest.le.trans hlt.le)

theorem allOrNothing_iff (h : Valid s) (hsound : Sound s.pool size c resv) :
    AllOrNothing s size c resv ↔ Grows s.pool size c resv := by
  have hsize := h.rootSize
  have hlargest := h.largest
  rw [AllOrNothing, Grows]
  by_cases hle : size ≤ s.pool.root_size
  · obtain ⟨ok, heq⟩ : ∃ ok, pmemobjRootConstruct s.pool size c resv = (s.pool, 0, ok) :=
      construct_of_le hle
    rw [heq]
    refine iff_of_true ⟨?_, fun _ => rfl, fun _ hlt => ?_⟩ fun hlt => absurd hle (by omega)
    · exact hsize.trans (h.same fun _ => hle).largest.symm
    · omega
  by_cases hmax : size ≤ PMEMOBJ_MAX_ALLOC_SIZE
  swap
  · rw [construct_of_max (Nat.lt_of_not_le hmax)]
    exact iff_of_true ⟨hsize.trans hlargest.symm, fun _ => rfl, fun hok => Bool.noConfusion hok⟩
      fun _ hm => absurd hm hmax
  have hlt := Nat.lt_of_not_le hle
  rw [construct_of_lt hlt hmax, imp_iff_right hlt, imp_iff_right hmax]
  by_cases hne : s.pool.userSize = some size
  · rw [objAllocRoot_canceled hne]
    refine iff_of_false (fun hall => ?_) fun hgrows => hgrows.1 hne
    have heq : pmemobjRootSize s.pool = max s.largest size := hall.1
    omega
  rw [and_iff_right hne]
  by_cases hfail : resv = none ∨ c.ok = false
  · rw [objAllocRoot_failed hne hfail]
    refine iff_of_true ⟨hsize.trans hlargest.symm, fun _ => rfl, fun hok => Bool.noConfusion hok⟩ ?_
    rintro hsome hok
    rcases hfail with rfl | hfail
    · exact Bool.noConfusion hsome
    · exact Bool.noConfusion (hfail.symm.trans hok)
  rw [not_or, Bool.not_eq_false] at hfail
  obtain ⟨r, rfl⟩ := Option.ne_none_iff_exists'.mp hfail.1
  obtain ⟨hoffset, -, husable⟩ := hsound.2 r rfl
  have hsome : (some r).isSome := rfl
  rw [objAllocRoot_done hne hfail.2, imp_iff_right hsome, imp_iff_right hfail.2]
  constructor
  · rintro ⟨-, -, hdata⟩ i hi v hv
    have hsize' := hsound.1 i (by rw [hv]; exact Option.some_ne_none v)
    have hbyte := (hdata rfl (hsize ▸ hlt)).2 i hsize'
    rw [hv, Option.getD_some] at hbyte
    refine hbyte.symm.trans ?_
    show grown _ _ _ _ i = _
    rw [grown, if_pos (lt_min hi hsize')]
  · intro hkeep
    refine ⟨?_, fun hok => Bool.noConfusion hok, fun _ _ => ⟨rfl, fun i hi => ?_⟩⟩
    · have hpos : size ≠ 0 := by omega
      have hroot : pmemobjRootSize (s.pool.process size { r with data := grown s.pool size c r }) =
          size := if_pos ⟨hoffset, hpos⟩
      rw [hroot, if_pos rfl, max_eq_right (h.largest.le.trans hlt.le)]
    · rw [hsize]
      exact h.grown_eq husable hkeep hi

end Valid

theorem valid_init (blocks : Nat → Option Nat) : Valid (init blocks) :=
  ⟨fun _ => rfl, fun h => absurd rfl h, rfl⟩

/-- In a run whose calls have all grown the root, the next call is all or nothing exactly if it
grows the root too. -/
theorem root_allOrNothing_iff {blocks : Nat → Option Nat} {as : List Act}
    (hG : Guarded step Fine as (init blocks)) (hrun : run step as (init blocks) = some s)
    (hsound : Sound s.pool size c resv) : AllOrNothing s size c resv ↔ Grows s.pool size c resv :=
  have h : Valid s := run_invariant (fun _ _ _ _ hs hfine hstep => hs.step hfine hstep) hG
    (valid_init blocks) hrun
  h.allOrNothing_iff hsound

def firstCall : Act := .construct 100 ⟨fun _ => none, true⟩ (some ⟨64, 112, fun _ => 7⟩)

theorem guarded_firstCall : Guarded step Fine [firstCall] (init fun _ => none) := by
  refine ⟨⟨⟨fun _ hw => absurd rfl hw, fun r hr => ?_⟩, fun _ _ => ⟨nofun, fun _ _ i hi => ?_⟩⟩,
    trivial⟩
  · cases hr
    exact ⟨by decide, rfl, by decide⟩
  · exact absurd hi (Nat.not_lt_zero i)

theorem root_allOrNothing_iff_grown :
    ∃ s, run step [firstCall] (init fun _ => none) = some s ∧
      AllOrNothing s 200 ⟨fun i => if i = 150 then some 9 else none, true⟩
        (some ⟨512, 240, fun _ => 7⟩) := by
  refine ⟨_, rfl, (root_allOrNothing_iff guarded_firstCall rfl ⟨fun i hw => ?_, fun r hr => ?_⟩).mpr
    fun _ _ => ⟨by decide, fun _ _ i hi v hv => ?_⟩⟩
  · have hi : i = 150 := by
      by_contra hne
      exact hw (if_neg hne)
    omega
  · cases hr
    exact ⟨by decide, rfl, by decide⟩
  · have hlt : i < 112 := hi
    have hv : (if i = 150 then some 9 else none) = some v := hv
    rw [if_neg (by omega)] at hv
    cases hv

/-- A request for the 112 bytes succeeds, and the recorded size is still 100. -/
theorem not_allOrNothing_usable :
    ∃ s, run step [firstCall] (init fun _ => none) = some s ∧
      Sound s.pool 112 ⟨fun _ => none, true⟩ none ∧
      ¬ AllOrNothing s 112 ⟨fun _ => none, true⟩ none :=
  ⟨_, rfl, ⟨fun _ hw => absurd rfl hw, nofun⟩, fun h => absurd h.1 (by decide)⟩

end Pmdk.Root
