import Pmdk.Lib.Run

/-!
# The initialisation of persistent locks

A mutex, a rwlock or a condition variable in a pool keeps a `runid` beside its bytes: the run id of
the session when the lock is initialised, one less while it is being initialised, and anything else
before.

The word outlives its session, so the run ids of the sessions must be told apart as well.
-/

namespace Pmdk.LockInit

open Transition List

/-- `obj_runtime_init` makes the run id unique by incrementing the previous value. -/
def nextRunId (run_id : UInt64) : UInt64 :=
  if run_id + 2 = 0 then run_id + 2 + 2 else run_id + 2

/-- Where a thread is in `get_mutex`, `get_rwlock` or `get_cond`, which are the same function for
different locks. From `load` to `set` it is in `_get_value`. -/
inductive Pc where
  | idle
  | fast
  | load (initializer : Int)
  | cas (tmp_runid : UInt64) (initializer : Int)
  | init
  | reset
  | set
  /-- `-1` gives `NULL`, everything else the lock. -/
  | returned (initializer : Int)
  deriving DecidableEq

def Pc.owns : Pc → Bool
  | .init | .reset | .set => true
  | _ => false

/-- A session of the threads `T`, seen from one lock. -/
structure State (T : Type*) where
  run_id : UInt64
  /-- The number of this session. -/
  session : Nat
  runid : UInt64
  /-- What the killed session has left in `runid`. -/
  left : UInt64
  stored : List UInt64
  initialised : Bool
  pc : T → Pc

variable {T : Type*}

def State.first : State T where
  run_id := nextRunId 0
  session := 1
  runid := 0
  left := 0
  stored := []
  initialised := false
  pc _ := .idle

inductive Act (T : Type*) where
  /-- The thread `t` takes its next step; `init_value`, if that is the step, succeeds or not. -/
  | turn (t : T) (ok : Bool)
  /-- The session is killed and leaves `v` on media, and the pool is opened again. -/
  | kill (v : UInt64)

def State.store (s : State T) (v : UInt64) : State T :=
  { s with runid := v, stored := v :: s.stored }

/-- The session after `s`, which has left `v`. -/
def State.reopen (s : State T) (v : UInt64) : State T where
  run_id := nextRunId s.run_id
  session := s.session + 1
  runid := v
  left := v
  stored := []
  initialised := false
  pc _ := .idle

variable [DecidableEq T]

def State.goto (s : State T) (t : T) (p : Pc) : State T :=
  { s with pc := Function.update s.pc t p }

theorem State.goto_pc (s : State T) (t : T) (p : Pc) (u : T) :
    (s.goto t p).pc u = if u = t then p else s.pc u :=
  Function.update_apply _ _ _ _

/-- The step of a thread: one access to `runid`, or the call of `init_value`. -/
def turn (t : T) (ok : Bool) (s : State T) : State T :=
  match s.pc t with
  | .idle => s.goto t .fast
  | .fast => s.goto t (if s.runid = s.run_id then .returned 0 else .load 0)
  | .load initializer =>
    s.goto t
      (if s.runid = s.run_id then .returned initializer
      else if s.runid = s.run_id - 1 then .load initializer
      else .cas s.runid initializer)
  | .cas tmp_runid initializer =>
    if s.runid = tmp_runid then (s.store (s.run_id - 1)).goto t .init
    else s.goto t (.load initializer)
  | .init =>
    if ok then { s with initialised := true }.goto t .set
    else s.goto t .reset
  | .reset => (s.store (s.runid &&& 0)).goto t (.returned (-1))
  | .set =>
    if s.runid = s.run_id - 1 then (s.store s.run_id).goto t (.load 1)
    else s.goto t (.returned (-1))
  | .returned _ => s.goto t .idle

/-- A killed session leaves a value it had stored, or still the one it had found. There are fewer
than `2 ^ 63` sessions. -/
def step : Act T → State T → Option (State T)
  | .turn t ok, s => some (turn t ok s)
  | .kill v, s =>
    if v ∈ s.left :: s.stored ∧ s.session + 1 < 2 ^ 63 then some (s.reopen v) else none

/-! ## The invariant -/

variable {p : Pc}

section Words

omit [DecidableEq T]

/-- What the state tells about a thread at `p`. -/
def Fits (s : State T) : Pc → Prop
  | .cas tmp _ => tmp ≠ s.run_id ∧ tmp ≠ s.run_id - 1
  | .init | .reset => s.runid = s.run_id - 1 ∧ s.initialised = false
  | .set => s.runid = s.run_id - 1 ∧ s.initialised
  | .returned r => r ≠ -1 → s.initialised
  | _ => True

structure Valid (s : State T) : Prop where
  session_pos : 0 < s.session
  run_id : s.run_id.toNat = 2 * s.session
  left : s.left.toNat ≤ 2 * (s.session - 1)
  stored : ∀ v ∈ s.stored, v = 0 ∨ v = s.run_id - 1 ∨ v = s.run_id
  runid : s.runid ∈ s.left :: s.stored
  alone : ∀ t u, (s.pc t).owns → (s.pc u).owns → t = u
  fits : ∀ t, Fits s (s.pc t)
  ready : s.runid = s.run_id → s.initialised
  succeeded : s.initialised → s.runid = s.run_id ∨ ∃ t, s.pc t = .set

theorem Fits.mono {s s' : State T} (h : Fits s p) (hown : p.owns = false)
    (hrun : s'.run_id = s.run_id) (hinit : s.initialised → s'.initialised) : Fits s' p := by
  cases p with
  | cas tmp i =>
    rw [Fits, hrun]
    exact h
  | returned r => exact fun hr => hinit (h hr)
  | init => exact Bool.noConfusion hown
  | reset => exact Bool.noConfusion hown
  | set => exact Bool.noConfusion hown
  | _ => trivial

namespace Valid

variable {s : State T}

section

variable (h : Valid s)

include h

theorem toNat_mark : (s.run_id - 1).toNat = 2 * s.session - 1 := by
  have hpos := h.session_pos
  have hid := h.run_id
  have hle : (1 : UInt64) ≤ s.run_id := by
    rw [UInt64.le_iff_toNat_le, hid]
    show 1 ≤ _
    omega
  rw [UInt64.toNat_sub_of_le _ _ hle, hid]
  rfl

theorem mark_ne : s.run_id - 1 ≠ s.run_id := by
  intro heq
  have hmark := h.toNat_mark
  rw [heq, h.run_id] at hmark
  have hpos := h.session_pos
  omega

theorem zero_ne : (0 : UInt64) ≠ s.run_id := by
  intro heq
  have hid := h.run_id
  rw [← heq] at hid
  have hpos := h.session_pos
  have hzero : (0 : UInt64).toNat = 0 := rfl
  omega

theorem left_ne : s.left ≠ s.run_id ∧ s.left ≠ s.run_id - 1 := by
  have hleft := h.left
  have hpos := h.session_pos
  constructor
  · intro heq
    rw [heq, h.run_id] at hleft
    omega
  · intro heq
    rw [heq, h.toNat_mark] at hleft
    omega

theorem mem_stored (hv : s.runid = s.run_id ∨ s.runid = s.run_id - 1) :
    s.runid ∈ s.stored := by
  rcases mem_cons.mp h.runid with heq | hmem
  · rw [heq] at hv
    exact (hv.elim h.left_ne.1 h.left_ne.2).elim
  · exact hmem

theorem mark {t : T} (hown : (s.pc t).owns) : s.runid = s.run_id - 1 := by
  have hfits := h.fits t
  cases hpc : s.pc t <;> rw [hpc] at hown hfits <;>
    first | exact Bool.noConfusion hown | exact hfits.1

theorem toNat_le {v : UInt64} (hv : v ∈ s.left :: s.stored) :
    v.toNat ≤ 2 * s.session := by
  have hleft := h.left
  have hmark := h.toNat_mark
  have hid := h.run_id
  rcases mem_cons.mp hv with rfl | hmem
  · omega
  · rcases h.stored v hmem with rfl | rfl | rfl
    · exact Nat.zero_le _
    · omega
    · omega

theorem toNat_nextRunId (hlt : s.session + 1 < 2 ^ 63) :
    (nextRunId s.run_id).toNat = 2 * (s.session + 1) := by
  have hid := h.run_id
  have hadd : (s.run_id + 2).toNat = 2 * (s.session + 1) := by
    rw [UInt64.toNat_add, hid]
    show (2 * s.session + 2) % 2 ^ 64 = _
    rw [Nat.mod_eq_of_lt (by omega)]
    omega
  have hne : s.run_id + 2 ≠ 0 := by
    intro heq
    rw [heq] at hadd
    have hzero : (0 : UInt64).toNat = 0 := rfl
    omega
  rw [nextRunId, if_neg hne, hadd]

theorem reopen {v : UInt64} (hv : v ∈ s.left :: s.stored)
    (hlt : s.session + 1 < 2 ^ 63) : Valid (s.reopen v) where
  session_pos := Nat.succ_pos _
  run_id := h.toNat_nextRunId hlt
  left := h.toNat_le hv
  stored _ hmem := (not_mem_nil hmem).elim
  runid := mem_cons_self
  alone _ _ ht _ := Bool.noConfusion ht
  fits _ := trivial
  ready heq := by
    have hle := h.toNat_le hv
    have hid := h.toNat_nextRunId hlt
    have hval : v.toNat = (nextRunId s.run_id).toNat := congrArg _ heq
    omega
  succeeded hinit := Bool.noConfusion hinit

end

end Valid

theorem valid_first : Valid (State.first : State T) where
  session_pos := Nat.one_pos
  run_id := rfl
  left := Nat.zero_le _
  stored _ hmem := (not_mem_nil hmem).elim
  runid := mem_cons_self
  alone _ _ ht _ := Bool.noConfusion ht
  fits _ := trivial
  ready heq := by
    have hne : (0 : UInt64) ≠ nextRunId 0 := by decide
    exact (hne heq).elim
  succeeded hinit := Bool.noConfusion hinit

end Words

/-! ## The steps of a thread -/

namespace Valid

variable {s : State T} {t : T}

theorem goto (h : Valid s) (hown : (s.pc t).owns = false) (hp : p.owns = false)
    (hfits : Fits s p) : Valid (s.goto t p) := by
  have howner : ∀ u, ((s.goto t p).pc u).owns → (s.pc u).owns := by
    intro u hu
    rw [State.goto_pc] at hu
    split_ifs at hu
    · exact Bool.noConfusion (hp.symm.trans hu)
    · exact hu
  refine { h with
    alone := fun u v hu hv => h.alone u v (howner u hu) (howner v hv), fits := ?_, succeeded := ?_ }
  · intro u
    rw [State.goto_pc]
    split_ifs
    · exact hfits
    · exact h.fits u
  · intro hinit
    refine (h.succeeded hinit).imp id fun ⟨u, hu⟩ => ⟨u, ?_⟩
    have hne : u ≠ t := by
      rintro rfl
      exact Bool.noConfusion (hown.symm.trans (congrArg Pc.owns hu))
    rw [State.goto_pc, if_neg hne, hu]

theorem move (h : Valid s) {s' : State T} (hrun : s'.run_id = s.run_id)
    (hsession : s'.session = s.session) (hleft : s'.left = s.left)
    (hstored : ∀ v ∈ s'.stored, v = 0 ∨ v = s.run_id - 1 ∨ v = s.run_id)
    (hword : s'.runid ∈ s'.left :: s'.stored) (hfree : ∀ u, (s.pc u).owns → u = t)
    (hkeep : s.initialised → s'.initialised) (hready : s'.runid = s.run_id → s'.initialised)
    (hsucc : s'.initialised → s'.runid = s.run_id ∨ p = .set) (hfits : Fits s' p)
    (hpc : s'.pc = s.pc) : Valid (s'.goto t p) := by
  have howner : ∀ u, ((s'.goto t p).pc u).owns → u = t := by
    intro u hu
    by_contra hne
    rw [State.goto_pc, if_neg hne, hpc] at hu
    exact hne (hfree u hu)
  refine
    { session_pos := hsession ▸ h.session_pos
      run_id := (congrArg _ hrun).trans (h.run_id.trans (congrArg _ hsession.symm))
      left := by rw [State.goto, hleft, hsession]; exact h.left
      stored := by rw [State.goto, hrun]; exact hstored
      runid := hword
      alone := fun u v hu hv => (howner u hu).trans (howner v hv).symm
      fits := ?_
      ready := fun heq => hready (heq.trans hrun)
      succeeded := ?_ }
  · intro u
    rw [State.goto_pc, hpc]
    split_ifs with hut
    · exact hfits
    · exact (h.fits u).mono (Bool.eq_false_iff.mpr fun hu => hut (hfree u hu)) hrun hkeep
  · intro hinit
    refine (hsucc hinit).imp (fun heq => heq.trans hrun.symm) fun hp => ⟨t, ?_⟩
    rw [State.goto_pc, if_pos rfl, hp]

theorem store (h : Valid s) {v : UInt64} (hv : v = 0 ∨ v = s.run_id - 1 ∨ v = s.run_id)
    (hfree : ∀ u, (s.pc u).owns → u = t) (hinit : s.initialised ↔ v = s.run_id)
    (hfits : Fits (s.store v) p) : Valid ((s.store v).goto t p) := by
  refine h.move rfl rfl rfl ?_ (mem_cons_of_mem _ mem_cons_self) hfree id hinit.mpr
    (fun hs => .inl (hinit.mp hs)) hfits rfl
  intro w hw
  rcases mem_cons.mp hw with rfl | hmem
  · exact hv
  · exact h.stored w hmem

/-- The word is swapped for the mark only while no thread owns the mark. -/
theorem swap (h : Valid s) {i : Int} (hpc : s.pc t = .cas s.runid i) :
    Valid ((s.store (s.run_id - 1)).goto t .init) := by
  have hfits := h.fits t
  rw [hpc] at hfits
  have hinit : s.initialised = false := by
    rw [← Bool.not_eq_true]
    intro hinit
    rcases h.succeeded hinit with heq | ⟨u, hu⟩
    · exact hfits.1 heq
    · exact hfits.2 (h.mark (by rw [hu]; rfl))
  refine h.store (.inr (.inl rfl)) (fun u hu => (hfits.2 (h.mark hu)).elim) ?_ ⟨rfl, hinit⟩
  exact iff_of_false (by rw [hinit]; exact Bool.noConfusion) h.mark_ne

theorem turn (h : Valid s) (t : T) (ok : Bool) : Valid (LockInit.turn t ok s) := by
  have hfits := h.fits t
  have hfree : (s.pc t).owns → ∀ u, (s.pc u).owns → u = t := fun ht u hu => h.alone u t hu ht
  cases hpc : s.pc t <;> rw [hpc] at hfits hfree <;> simp only [LockInit.turn, hpc]
  case idle => exact h.goto (by rw [hpc]; rfl) rfl trivial
  case fast =>
    split_ifs with heq
    · exact h.goto (by rw [hpc]; rfl) rfl fun _ => h.ready heq
    · exact h.goto (by rw [hpc]; rfl) rfl trivial
  case load i =>
    split_ifs with heq hmark
    · exact h.goto (by rw [hpc]; rfl) rfl fun _ => h.ready heq
    · exact h.goto (by rw [hpc]; rfl) rfl trivial
    · exact h.goto (by rw [hpc]; rfl) rfl ⟨heq, hmark⟩
  case cas tmp i =>
    split_ifs with heq
    · exact h.swap (by rw [hpc, heq])
    · exact h.goto (by rw [hpc]; rfl) rfl trivial
  case init =>
    split_ifs
    · exact h.move rfl rfl rfl h.stored h.runid (hfree rfl) (fun _ => rfl) (fun _ => rfl)
        (fun _ => .inr rfl) ⟨hfits.1, rfl⟩ rfl
    · exact h.move rfl rfl rfl h.stored h.runid (hfree rfl) id h.ready
        (fun hs => Bool.noConfusion (hfits.2.symm.trans hs)) hfits rfl
  case reset =>
    have hzero : s.runid &&& 0 = 0 := UInt64.and_zero
    rw [hzero]
    refine h.store (.inl rfl) (hfree rfl) ?_ fun hr => (hr rfl).elim
    exact iff_of_false (by rw [hfits.2]; exact Bool.noConfusion) h.zero_ne
  case set =>
    rw [if_pos hfits.1]
    exact h.store (.inr (.inr rfl)) (hfree rfl) (iff_of_true hfits.2 rfl) trivial
  case returned i => exact h.goto (by rw [hpc]; rfl) rfl trivial

end Valid

theorem step_valid (a : Act T) (s s' : State T) (h : Valid s) (hstep : step a s = some s') :
    Valid s' := by
  cases a with
  | turn t ok =>
    cases hstep
    exact h.turn t ok
  | kill v =>
    rw [step, Option.ite_none_right_eq_some] at hstep
    obtain ⟨⟨hv, hlt⟩, heq⟩ := hstep
    cases heq
    exact h.reopen hv hlt

/-- In every interleaving of every session, `init_value` is not executed by two threads, nor after
it has succeeded, no thread returns with the lock before, and the marks of the session found in the
word are its own. -/
theorem initialised_once (as : List (Act T)) {s : State T}
    (hrun : run step as State.first = some s) :
    (∀ t u, s.pc t = .init → s.pc u = .init → t = u) ∧
      (s.initialised → ∀ t, s.pc t ≠ .init) ∧
      (∀ t r, s.pc t = .returned r → r ≠ -1 → s.initialised) ∧
      (s.runid = s.run_id ∨ s.runid = s.run_id - 1 → s.runid ∈ s.stored) ∧
      s.left ≠ s.run_id ∧ s.left ≠ s.run_id - 1 := by
  have h : Valid s := run_invariant (G := fun _ _ => True)
    (fun a _ u v hu _ hstep => step_valid a u v hu hstep) (.of_forall (fun _ _ => trivial) as _)
    valid_first hrun
  refine ⟨fun t u ht hu => ?_, fun hinit t ht => ?_, fun t r ht => ?_, h.mem_stored, h.left_ne⟩
  · exact h.alone t u (by rw [ht]; rfl) (by rw [hu]; rfl)
  · have hfits := h.fits t
    rw [ht] at hfits
    exact Bool.noConfusion (hfits.2.symm.trans hinit)
  · have hfits := h.fits t
    rw [ht] at hfits
    exact hfits

/-- Thread `0` is killed with its mark in the word. In the next session thread `1` initialises the
lock while thread `0` waits. -/
theorem initialised_once_killed :
    ∃ as : List (Act (Fin 2)), ∃ s, run step as State.first = some s ∧
      s.pc 1 = .returned 1 ∧ s.initialised := by
  let as : List (Act (Fin 2)) :=
    List.replicate 4 (.turn 0 true) ++ [.kill 1] ++ List.replicate 4 (.turn 1 true) ++
      List.replicate 3 (.turn 0 true) ++ List.replicate 3 (.turn 1 true)
  have hend : (run step as State.first).map (fun s => s.pc 1) = some (.returned 1) := by decide
  obtain ⟨s, hs, hpc⟩ := Option.map_eq_some_iff.mp hend
  exact ⟨as, s, hs, hpc, (initialised_once as hs).2.2.1 1 1 hpc (by decide)⟩

end Pmdk.LockInit
