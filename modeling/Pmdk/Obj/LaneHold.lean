import Pmdk.Lib.Owners
import Pmdk.Lib.Run

/-!
# Holding lanes

A thread that works on a pool holds one of its lanes. `get_lane` tries the words of `lane_locks` one
after another, from the primary lane of the thread on. The holds of a thread are nested, and only
the outermost one takes a lane.
-/

namespace Pmdk.LaneHold

open Function Owners Transition

def LANE_JUMP : UInt32 := 8

def LANE_PRIMARY_ATTEMPTS : Nat := 128

def UINT64_MAX : Nat := 2 ^ 64 - 1

/-- `struct lane_info`, the record of the pool in the table of a thread. -/
structure Info where
  lane_idx : Nat
  nest_count : Nat
  primary : Nat
  primary_attempts : Nat

/-- The record that `get_lane_info_record` adds to the table. -/
def Info.new : Info := ⟨UINT64_MAX, 0, 0, LANE_PRIMARY_ATTEMPTS⟩

inductive Pc where
  | idle
  /-- In the loop of `get_lane`. -/
  | get
  | fatal (call : String)
  deriving DecidableEq

structure State (T : Type*) where
  next_lane_idx : UInt32
  lane_locks : Nat → Bool
  info : T → Info
  pc : T → Pc

variable {T : Type*}

/-- After `lane_boot`. -/
def State.boot : State T := ⟨0, fun _ => false, fun _ => .new, fun _ => .idle⟩

inductive Act (T : Type*)
  | hold (t : T)
  /-- A turn of the loop. -/
  | get (t : T)
  | release (t : T)

variable [DecidableEq T]

def State.put (s : State T) (t : T) (info : Info) (pc : Pc) : State T :=
  { s with info := update s.info t info, pc := update s.pc t pc }

/-- `lane_hold` up to the loop of `get_lane`. -/
def hold (runtime_nlanes : Nat) (t : T) (s : State T) : State T :=
  if runtime_nlanes = 0 then s
  else
    let (s, lane) :=
      if (s.info t).lane_idx = UINT64_MAX then
        let idx := s.next_lane_idx.toNat
        ({ s with next_lane_idx := s.next_lane_idx + LANE_JUMP },
          { s.info t with primary := idx, lane_idx := idx })
      else (s, s.info t)
    if lane.nest_count = 0 then s.put t { lane with nest_count := 1, lane_idx := lane.primary } .get
    else s.put t { lane with nest_count := lane.nest_count + 1 } .idle

/-- A turn of the inner loop of `get_lane`. The outer loop goes on from `nlocks` with the first
lane. -/
def get (nlocks : Nat) (t : T) (s : State T) : State T :=
  let info := s.info t
  let lane_idx := info.lane_idx % nlocks
  if s.lane_locks lane_idx then
    let primary_attempts :=
      if lane_idx = info.primary ∧ info.primary_attempts > 0 then info.primary_attempts - 1
      else info.primary_attempts
    s.put t { info with lane_idx := lane_idx + 1, primary_attempts } .get
  else
    let s := { s with lane_locks := update s.lane_locks lane_idx true }
    if lane_idx = info.primary then
      s.put t { info with lane_idx, primary_attempts := LANE_PRIMARY_ATTEMPTS } .idle
    else if info.primary_attempts = 0 then
      s.put t
        { info with lane_idx, primary := lane_idx, primary_attempts := LANE_PRIMARY_ATTEMPTS } .idle
    else s.put t { info with lane_idx } .idle

/-- `lane_release`. -/
def release (runtime_nlanes : Nat) (t : T) (s : State T) : State T :=
  let lane := s.info t
  let less := { lane with nest_count := lane.nest_count - 1 }
  if runtime_nlanes = 0 then s
  else if lane.nest_count = 0 then s.put t lane (.fatal "lane_release")
  else if less.nest_count = 0 then
    if s.lane_locks lane.lane_idx then
      { s with lane_locks := update s.lane_locks lane.lane_idx false }.put t less .idle
    else s.put t less (.fatal "util_bool_compare_and_swap64")
  else s.put t less .idle

/-- A thread makes one call after another. It nests fewer than `2 ^ 64` holds. -/
def step (nlanes : UInt32) : Act T → State T → Option (State T)
  | .hold t, s =>
    if s.pc t = .idle ∧ (s.info t).nest_count + 1 < 2 ^ 64 then some (hold nlanes.toNat t s)
    else none
  | .get t, s => if s.pc t = .get then some (get nlanes.toNat t s) else none
  | .release t, s => if s.pc t = .idle then some (release nlanes.toNat t s) else none

/-! ## The threads that hold a lane -/

section Held

omit [DecidableEq T]

/-- The outermost hold counts before it has found a lane. -/
def Info.held (info : Info) (pc : Pc) : Option Nat :=
  if pc = .idle ∧ info.nest_count ≠ 0 then some info.lane_idx else none

def State.held (s : State T) (t : T) : Option Nat := (s.info t).held (s.pc t)

def Fits (nlanes : UInt32) (info : Info) : Pc → Prop
  | .idle => True
  | .get => info.nest_count = 1 ∧ 0 < nlanes.toNat
  | .fatal call => call = "lane_release"

structure Valid (nlanes : UInt32) (s : State T) : Prop where
  exclusive : Exclusive s.held s.lane_locks
  lt : ∀ t i, s.held t = some i → i < nlanes.toNat
  fits : ∀ t, Fits nlanes (s.info t) (s.pc t)

theorem valid_boot (nlanes : UInt32) : Valid nlanes (State.boot : State T) :=
  ⟨⟨nofun, fun _ => iff_of_false Bool.false_ne_true nofun⟩, nofun, fun _ => trivial⟩

theorem Info.held_idle {info : Info} (h : info.nest_count ≠ 0) :
    info.held .idle = some info.lane_idx := if_pos ⟨rfl, h⟩

theorem Info.held_eq_none {info : Info} {pc : Pc} (h : pc = .idle → info.nest_count = 0) :
    info.held pc = none := if_neg fun hi => hi.2 (h hi.1)

end Held

variable {nlanes : UInt32} {s : State T} {t : T} {info : Info} {pc : Pc}

theorem State.put_held (s : State T) : (s.put t info pc).held = update s.held t (info.held pc) := by
  funext u
  by_cases hu : u = t
  · subst hu
    simp [State.held, State.put]
  · simp [State.held, State.put, hu]

namespace Valid

variable (h : Valid nlanes s)

include h

theorem put (n : UInt32) {locks : Nat → Bool}
    (hex : Exclusive (update s.held t (info.held pc)) locks)
    (hlt : ∀ i, info.held pc = some i → i < nlanes.toNat) (hfits : Fits nlanes info pc) :
    Valid nlanes ({ s with next_lane_idx := n, lane_locks := locks }.put t info pc) := by
  refine ⟨by rwa [State.put_held], fun u i hu => ?_, fun u => ?_⟩
  · rw [State.put_held] at hu
    exact (update_cases hu).elim (fun heq => hlt i heq.2) fun hold => h.lt u i hold.2
  · by_cases hu : u = t
    · subst hu
      simpa only [State.put, update_self] using hfits
    · simpa only [State.put, update_of_ne hu] using h.fits u

theorem stay (n : UInt32) (hheld : info.held pc = s.held t) (hfits : Fits nlanes info pc) :
    Valid nlanes ({ s with next_lane_idx := n }.put t info pc) := by
  refine h.put n ?_ (fun i hi => h.lt t i (hheld ▸ hi)) hfits
  rw [hheld, update_eq_self]
  exact h.exclusive

theorem take {k : Nat} (hnone : s.held t = none) (hfree : s.lane_locks k ≠ true)
    (hlt : k < nlanes.toNat) (hnest : info.nest_count ≠ 0) (hlane : info.lane_idx = k) :
    Valid nlanes ({ s with lane_locks := update s.lane_locks k true }.put t info .idle) := by
  have hheld : info.held .idle = some k := by rw [Info.held_idle hnest, hlane]
  refine h.put s.next_lane_idx ?_ (fun i hi => Option.some.inj (hheld.symm.trans hi) ▸ hlt) trivial
  rw [hheld]
  exact h.exclusive.take hnone (Bool.eq_false_iff.mpr hfree)

theorem hold (hpc : s.pc t = .idle) : Valid nlanes (LaneHold.hold nlanes.toNat t s) := by
  have hlt := nlanes.toNat_lt
  have hnone : (s.info t).nest_count = 0 → none = s.held t := fun hnest =>
    (Info.held_eq_none fun _ => hnest).symm
  unfold LaneHold.hold
  split_ifs with hzero hmax
  · exact h
  · have hnest : (s.info t).nest_count = 0 := by
      by_contra hne
      have hheld : s.held t = some UINT64_MAX := by
        rw [State.held, hpc, Info.held_idle hne, hmax]
      exact Nat.not_lt.mpr (by decide : 2 ^ 32 ≤ UINT64_MAX) ((h.lt t _ hheld).trans hlt)
    dsimp only
    rw [if_pos hnest]
    exact h.stay _ (hnone hnest) ⟨rfl, Nat.pos_of_ne_zero hzero⟩
  · dsimp only
    split_ifs with hnest
    · exact h.stay s.next_lane_idx (hnone hnest) ⟨rfl, Nat.pos_of_ne_zero hzero⟩
    · refine h.stay s.next_lane_idx ?_ trivial
      rw [State.held, hpc, Info.held_idle hnest, Info.held_idle (Nat.succ_ne_zero _)]

theorem getLane (hpc : s.pc t = .get) : Valid nlanes (LaneHold.get nlanes.toNat t s) := by
  have hfits := h.fits t
  rw [hpc] at hfits
  have hnone : s.held t = none := Info.held_eq_none fun hi => Pc.noConfusion (hpc.symm.trans hi)
  have hne : (s.info t).nest_count ≠ 0 := hfits.1.trans_ne Nat.one_ne_zero
  unfold LaneHold.get
  dsimp only
  by_cases hlock : s.lane_locks ((s.info t).lane_idx % nlanes.toNat) = true
  · rw [if_pos hlock]
    exact h.stay s.next_lane_idx hnone.symm hfits
  · rw [if_neg hlock]
    split_ifs <;> exact h.take hnone hlock (Nat.mod_lt _ hfits.2) hne rfl

theorem release (hpc : s.pc t = .idle) : Valid nlanes (LaneHold.release nlanes.toNat t s) := by
  have hheld : (s.info t).nest_count ≠ 0 → s.held t = some (s.info t).lane_idx := fun hnest => by
    rw [State.held, hpc, Info.held_idle hnest]
  unfold LaneHold.release
  dsimp only
  split_ifs with hzero hnest hless hlock
  · exact h
  · exact h.stay s.next_lane_idx (Info.held_eq_none fun _ => hnest).symm rfl
  · have hnone : Info.held { s.info t with nest_count := (s.info t).nest_count - 1 } .idle = none :=
      Info.held_eq_none fun _ => hless
    refine h.put s.next_lane_idx ?_ (fun i hi => absurd (hnone.symm.trans hi) nofun) trivial
    rw [hnone]
    exact h.exclusive.giveBack (hheld hnest)
  · exact absurd ((h.exclusive.marked_iff _).mpr ⟨t, hheld hnest⟩) hlock
  · refine h.stay s.next_lane_idx ?_ trivial
    rw [hheld hnest, Info.held_idle hless]

end Valid

theorem step_valid (a : Act T) (s s' : State T) (h : Valid nlanes s)
    (hstep : step nlanes a s = some s') : Valid nlanes s' := by
  cases a <;> obtain ⟨hpc, heq⟩ := Option.ite_none_right_eq_some.mp hstep <;> cases heq
  case hold t => exact h.hold hpc.1
  case get t => exact h.getLane hpc
  case release t => exact h.release hpc

theorem run_valid {as : List (Act T)} (hrun : run (step nlanes) as State.boot = some s) :
    Valid nlanes s :=
  run_invariant (G := fun _ _ => True) (fun a _ u v hu _ hstep => step_valid a u v hu hstep)
    (.of_forall (fun _ _ => trivial) as _) (valid_boot nlanes) hrun

/-- In every interleaving, no two threads hold one lane, a word of `lane_locks` is set if and only
if a thread holds the lane, and a release fails only in a thread that has no hold. -/
theorem lanes_exclusive (as : List (Act T)) (hrun : run (step nlanes) as State.boot = some s) :
    (∀ t u i, s.held t = some i → s.held u = some i → t = u) ∧
      (∀ i, s.lane_locks i = true ↔ ∃ t, s.held t = some i) ∧
      (∀ t i, s.held t = some i → i < nlanes.toNat) ∧
      ∀ t call, s.pc t = .fatal call → call = "lane_release" := by
  have h := run_valid hrun
  refine ⟨h.exclusive.injective, h.exclusive.marked_iff, h.lt, fun t call ht => ?_⟩
  have hfits := h.fits t
  rwa [ht] at hfits

/-- Thread `1` wants a lane that thread `0` holds. -/
def twoThreads : List (Act (Fin 2)) := [.hold 0, .get 0, .hold 1, .hold 0]

theorem lanes_exclusive_two :
    ∃ s, run (step 2) (twoThreads ++ [.get 1, .get 1]) State.boot = some s ∧
      ∃ i j, s.held 0 = some i ∧ s.held 1 = some j ∧ i ≠ j := by
  have hrun : (run (step 2) (twoThreads ++ [.get 1, .get 1]) State.boot).map
      (fun s => (s.held 0, s.held 1)) = some (some 0, some 1) := by decide
  obtain ⟨s, hs, hheld⟩ := Option.map_eq_some_iff.mp hrun
  obtain ⟨h0, h1⟩ := Prod.mk.inj hheld
  refine ⟨s, hs, 0, 1, h0, h1, fun heq => ?_⟩
  exact absurd ((lanes_exclusive _ hs).1 0 1 0 h0 (h1.trans (congrArg some heq.symm))) (by decide)

/-! ## A thread that runs alone -/

/-- How many turns of the loop lead from `lane_idx` to the lane `i`. -/
def turns (nlocks lane_idx i : Nat) : Nat :=
  if lane_idx % nlocks ≤ i then i - lane_idx % nlocks else nlocks - lane_idx % nlocks + i

theorem turns_succ {n j i : Nat} (hi : i < n) (hne : j % n ≠ i) :
    turns n (j % n + 1) i + 1 = turns n j i := by
  have hlt : j % n < n := Nat.mod_lt _ (Nat.zero_lt_of_lt hi)
  unfold turns
  rcases Nat.eq_or_lt_of_le (Nat.succ_le_of_lt hlt) with heq | hlt'
  · rw [show j % n + 1 = n from heq, Nat.mod_self]
    split_ifs <;> omega
  · rw [Nat.mod_eq_of_lt hlt']
    split_ifs <;> omega

theorem get_locked (hlock : s.lane_locks ((s.info t).lane_idx % nlanes.toNat) = true) :
    (get nlanes.toNat t s).lane_locks = s.lane_locks ∧ (get nlanes.toNat t s).pc t = .get ∧
      ((get nlanes.toNat t s).info t).lane_idx = (s.info t).lane_idx % nlanes.toNat + 1 := by
  unfold get
  rw [if_pos hlock]
  simp [State.put]

theorem get_free (hlock : s.lane_locks ((s.info t).lane_idx % nlanes.toNat) = false)
    (hnest : (s.info t).nest_count = 1) :
    (get nlanes.toNat t s).held t = some ((s.info t).lane_idx % nlanes.toNat) := by
  unfold get
  rw [if_neg (Bool.eq_false_iff.mp hlock)]
  dsimp only
  split_ifs <;> simp [State.put_held, Info.held, hnest]

theorem Valid.gets {i : Nat} (h : Valid nlanes s) (hpc : s.pc t = .get) (hi : i < nlanes.toNat)
    (hfree : s.lane_locks i = false) :
    ∃ n ≤ turns nlanes.toNat (s.info t).lane_idx i + 1, ∃ s' k,
      run (step nlanes) (List.replicate n (.get t)) s = some s' ∧ s'.held t = some k ∧
        s.lane_locks k = false := by
  induction hd : turns nlanes.toNat (s.info t).lane_idx i using Nat.strong_induction_on
    generalizing s with
  | _ d ih =>
    have hstep : step nlanes (.get t) s = some (get nlanes.toNat t s) := if_pos hpc
    by_cases hlock : s.lane_locks ((s.info t).lane_idx % nlanes.toNat) = true
    · obtain ⟨hlocks, hpc', hidx⟩ := get_locked hlock
      have hne : (s.info t).lane_idx % nlanes.toNat ≠ i := by
        rintro rfl
        exact Bool.false_ne_true (hfree.symm.trans hlock)
      have hless := turns_succ hi hne
      obtain ⟨n, hn, s', k, hrun, hk⟩ := ih (d - 1) (by omega) (h.getLane hpc) hpc'
        (by rw [hlocks, hfree]) (by rw [hidx]; omega)
      refine ⟨n + 1, by omega, s', k, ?_, by rwa [← hlocks]⟩
      exact run_cons_eq_some_iff.mpr ⟨_, hstep, hrun⟩
    · have hfits := h.fits t
      rw [hpc] at hfits
      rw [Bool.not_eq_true] at hlock
      refine ⟨1, Nat.le_add_left 1 d, _, _, ?_, get_free hlock hfits.1, hlock⟩
      exact run_cons_eq_some_iff.mpr ⟨_, hstep, rfl⟩

/-- While a lane is free, a thread in the loop of `get_lane` that is let run alone gets a free lane
in one round. -/
theorem getLane_ends (as : List (Act T)) (hrun : run (step nlanes) as State.boot = some s)
    (hpc : s.pc t = .get) {i : Nat} (hi : i < nlanes.toNat) (hfree : s.lane_locks i = false) :
    ∃ n ≤ nlanes.toNat, ∃ s' k, run (step nlanes) (List.replicate n (.get t)) s = some s' ∧
      s'.held t = some k ∧ s.lane_locks k = false := by
  obtain ⟨n, hn, hgets⟩ := (run_valid hrun).gets hpc hi hfree
  refine ⟨n, hn.trans ?_, hgets⟩
  have hlt : (s.info t).lane_idx % nlanes.toNat < nlanes.toNat :=
    Nat.mod_lt _ (Nat.zero_lt_of_lt hi)
  unfold turns
  split_ifs <;> omega

theorem getLane_ends_two : ∃ s, run (step 2) twoThreads State.boot = some s ∧ s.pc 1 = .get ∧
    ∃ n ≤ 2, ∃ s' k, run (step 2) (List.replicate n (.get 1)) s = some s' ∧
      s'.held 1 = some k ∧ s.lane_locks k = false := by
  have hrun : (run (step 2) twoThreads State.boot).map (fun s => (s.pc 1, s.lane_locks 1)) =
      some (.get, false) := by decide
  obtain ⟨s, hs, hget⟩ := Option.map_eq_some_iff.mp hrun
  obtain ⟨hpc, hfree⟩ := Prod.mk.inj hget
  exact ⟨s, hs, hpc, getLane_ends _ hs hpc (i := 1) (by decide) hfree⟩

end Pmdk.LaneHold
