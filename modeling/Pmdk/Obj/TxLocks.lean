import Mathlib.Data.List.Nodup
import Pmdk.Lib.Run
import Pmdk.Obj.Tx

/-!
# The locks of a transaction

`add_to_tx_and_lock` acquires a lock unless its address is on the list of the transaction, and
`release_and_free_tx_locks` unlocks what is on the list when the outermost level ends. The calls of
a thread are those of `Tx` and `pmemobj_tx_lock`. `World.attempts` keeps what the locking functions
were asked and what they answered.
-/

namespace Pmdk.TxLocks

open Tx (Lock LockType Param Thread Event)
open List

/-! ## The calls and what they ask for -/

/-- A call of `pmemobj_mutex_lock` or `pmemobj_rwlock_wrlock` with the value that it returned. -/
structure Attempt where
  lock : Lock
  ret : Int
  deriving DecidableEq

/-- The calls of a thread. A lock request comes with what its acquisition answers, like the
parameters of `pmemobj_tx_begin`. -/
inductive Call
  | tx (c : Tx.Call)
  | txLock (lockType : LockType) (addr : Nat) (malloc : Bool) (ret : Int)
  deriving DecidableEq

/-- `pmemobj_tx_lock`. It is fatal outside of the stage `TX_STAGE_WORK`. -/
def txLock (lockType : LockType) (addr : Nat) (malloc : Bool) (ret : Int) (t : Thread) :
    Option (Int × Thread) :=
  if t.stage ≠ .work then none
  else some (Tx.addToTxAndLock lockType addr malloc ret t)

def exec : Call → Thread → Option (Int × Thread)
  | .tx c, t => Tx.exec c t
  | .txLock lockType addr malloc ret, t => txLock lockType addr malloc ret t

/-- The acquisition that `add_to_tx_and_lock` makes, if it makes one. -/
def attempt (lockType : LockType) (addr : Nat) (malloc : Bool) (ret : Int) (t : Thread) :
    List Attempt :=
  if t.txLocks.any (fun l => l.addr = addr) then []
  else if malloc = false then []
  else [⟨⟨lockType, addr⟩, ret⟩]

def paramAttempts : List Param → Thread → List Attempt
  | [], _ => []
  | .cb cb arg :: params, t =>
    if t.stageCallback.any (fun old => old ≠ (cb, arg)) then []
    else paramAttempts params { t with stageCallback := some (cb, arg) }
  | .lock lockType addr malloc ret :: params, t =>
    attempt lockType addr malloc ret t ++
      if (Tx.addToTxAndLock lockType addr malloc ret t).1 ≠ 0 then []
      else paramAttempts params (Tx.addToTxAndLock lockType addr malloc ret t).2

def levelAttempts (malloc : Bool) (params : List Param) (t : Thread) : List Attempt :=
  if malloc = false then []
  else
    paramAttempts params
      { t with lastErrnum := 0, txEntries := t.txEntries + 1, stage := .work }

def beginAttempts (pop : Nat) (malloc : Bool) (params : List Param) (t : Thread) :
    List Attempt :=
  match t.stage with
  | .work => if t.pop ≠ some pop then [] else levelAttempts malloc params t
  | .none =>
    levelAttempts malloc params
      { Tx.laneHold t with txEntries := 0, txLocks := [], pop := some pop }
  | _ => []

structure World where
  thread : Thread
  attempts : List Attempt
  deriving DecidableEq

def World.init : World := ⟨Thread.init, []⟩

def World.fresh (w : World) : Thread := { w.thread with log := [] }

def attemptsAfter (c : Call) (w : World) : List Attempt :=
  match c with
  | .tx (.txBegin pop malloc params) => w.attempts ++ beginAttempts pop malloc params w.fresh
  | .tx .txEnd => if w.thread.txEntries = 1 then [] else w.attempts
  | .tx _ => w.attempts
  | .txLock lockType addr malloc ret => w.attempts ++ attempt lockType addr malloc ret w.fresh

def step (c : Call) (w : World) : Option World :=
  (exec c w.fresh).map fun r => ⟨r.2, attemptsAfter c w⟩

/-! ## What a call does to the list -/

def unlocked (log : List Event) : List Lock :=
  log.filterMap fun
    | .unlock l => some l
    | _ => none

@[simp] theorem unlocked_append (l l' : List Event) :
    unlocked (l ++ l') = unlocked l ++ unlocked l' := filterMap_append

theorem unlocked_map_unlock (locks : List Lock) : unlocked (locks.map .unlock) = locks := by
  induction locks with
  | nil => rfl
  | cons l locks ih => exact congrArg (l :: ·) ih

structure Quiet (t t' : Thread) : Prop where
  txLocks : t'.txLocks = t.txLocks
  unlocked : unlocked t'.log = unlocked t.log

theorem Quiet.refl (t : Thread) : Quiet t t := ⟨rfl, rfl⟩

variable {t t' : Thread}

theorem Quiet.trans {t'' : Thread} (h : Quiet t t') (h' : Quiet t' t'') : Quiet t t'' :=
  ⟨h'.txLocks.trans h.txLocks, h'.unlocked.trans h.unlocked⟩

theorem quiet_emit {e : Event} (t : Thread) (h : unlocked [e] = []) : Quiet t (t.emit e) :=
  ⟨rfl, by rw [Thread.emit, unlocked_append, h, append_nil]⟩

theorem quiet_callback (h : Tx.objTxCallback t = some t') : Quiet t t' := by
  unfold Tx.objTxCallback at h
  split at h
  · rw [← Option.some.inj h]
    exact .refl _
  · cases h
  · rw [← Option.some.inj h]
    exact quiet_emit _ rfl
  · rw [← Option.some.inj h]
    exact .refl _

theorem quiet_laneRelease (h : Tx.laneRelease t = some t') : Quiet t t' := by
  unfold Tx.laneRelease at h
  split at h
  · cases h
  · rw [← Option.some.inj h]
    exact ⟨rfl, by rw [Thread.emit, unlocked_append]; exact append_nil _⟩

theorem quiet_txAbort (t : Thread) : Quiet t (Tx.txAbort t) :=
  (quiet_emit t rfl).trans (quiet_emit _ rfl)

theorem quiet_objTxAbort {errnum : Int} (h : Tx.objTxAbort errnum t = some t') : Quiet t t' := by
  unfold Tx.objTxAbort at h
  split at h
  · cases h
  · dsimp only at h
    split at h
    · cases h
    · obtain ⟨u, hu, hcb⟩ := Option.bind_eq_some_iff.mp h
      have hrelease := (quiet_txAbort _).trans (quiet_laneRelease hu)
      have hcallback := quiet_callback hcb
      exact ⟨hcallback.txLocks.trans hrelease.txLocks, hcallback.unlocked.trans hrelease.unlocked⟩
    · have hcallback := quiet_callback h
      exact ⟨hcallback.txLocks, hcallback.unlocked⟩

theorem quiet_txCommit (h : Tx.txCommit t = some t') : Quiet t t' := by
  unfold Tx.txCommit at h
  split at h
  · cases h
  · obtain ⟨u, hu, h⟩ := Option.bind_eq_some_iff.mp h
    refine (quiet_callback hu).trans ?_
    split at h
    · cases h
    · obtain ⟨v, hv, hcb⟩ := Option.bind_eq_some_iff.mp h
      have hrelease := (((quiet_emit u rfl).trans (quiet_emit _ rfl)).trans
        (quiet_emit _ rfl)).trans (quiet_laneRelease hv)
      have hcallback := quiet_callback hcb
      exact ⟨hcallback.txLocks.trans hrelease.txLocks, hcallback.unlocked.trans hrelease.unlocked⟩
    · have hcallback := quiet_callback h
      exact ⟨hcallback.txLocks, hcallback.unlocked⟩

theorem quiet_txProcess (h : Tx.txProcess t = some t') : Quiet t t' := by
  unfold Tx.txProcess at h
  split at h
  · cases h
  · exact quiet_txCommit h
  · have hcallback := quiet_callback h
    exact ⟨hcallback.txLocks, hcallback.unlocked⟩
  · have hcallback := quiet_callback h
    exact ⟨hcallback.txLocks, hcallback.unlocked⟩
  · rw [← Option.some.inj h]
    exact ⟨rfl, rfl⟩

variable {r : Int × Thread}

theorem quiet_errAbort {err : Int} (h : Tx.errAbort err t = some r) : Quiet t r.2 := by
  unfold Tx.errAbort at h
  split at h
  · obtain ⟨u, hu, rfl⟩ := Option.map_eq_some_iff.mp h
    exact quiet_objTxAbort hu
  · rw [← Option.some.inj h]
    exact ⟨rfl, rfl⟩

theorem quiet_endFinally (h : Tx.endFinally t = some t') : Quiet t t' := by
  unfold Tx.endFinally at h
  split at h
  · have hcallback := quiet_callback h
    exact ⟨hcallback.txLocks, hcallback.unlocked⟩
  · rw [← Option.some.inj h]
    exact .refl _

theorem endFinally_txEntries (h : Tx.endFinally t = some t') : t'.txEntries = t.txEntries := by
  unfold Tx.endFinally Tx.objTxCallback at h
  split at h
  · split at h
    · rw [← Option.some.inj h]
    · cases h
    · rw [← Option.some.inj h]
      rfl
    · rw [← Option.some.inj h]
  · rw [← Option.some.inj h]

theorem quiet_txEnd (h : Tx.txEnd t = some r) (hinner : t.txEntries ≠ 1) : Quiet t r.2 := by
  unfold Tx.txEnd at h
  split at h
  · cases h
  · split at h
    · cases h
    · obtain ⟨u, hu, h⟩ := Option.bind_eq_some_iff.mp h
      refine (quiet_endFinally hu).trans ?_
      rw [← endFinally_txEntries hu] at hinner
      split at h
      · cases h
      · exact absurd ‹_› hinner
      · dsimp only at h
        split at h
        · obtain ⟨v, hv, rfl⟩ := Option.map_eq_some_iff.mp h
          have habort := quiet_objTxAbort hv
          exact ⟨habort.txLocks, habort.unlocked⟩
        · rw [← Option.some.inj h]
          exact ⟨rfl, rfl⟩

theorem txEnd_outermost (h : Tx.txEnd t = some r) (hone : t.txEntries = 1) :
    r.2.txLocks = [] ∧ unlocked r.2.log = unlocked t.log ++ t.txLocks := by
  unfold Tx.txEnd at h
  split at h
  · cases h
  · split at h
    · cases h
    · obtain ⟨u, hu, h⟩ := Option.bind_eq_some_iff.mp h
      have hfinally := quiet_endFinally hu
      rw [← endFinally_txEntries hu] at hone
      split at h
      · cases h
      · rw [← Option.some.inj h, ← hfinally.txLocks, ← hfinally.unlocked]
        unfold Tx.endOutermost Tx.releaseAndFreeTxLocks
        dsimp only
        split
        · exact ⟨rfl, by rw [unlocked_append, unlocked_map_unlock]⟩
        · refine ⟨rfl, ?_⟩
          rw [Thread.emit, unlocked_append]
          dsimp only
          rw [unlocked_append, unlocked_map_unlock]
          exact append_nil _
      · omega

structure Adds (as : List Attempt) (t t' : Thread) : Prop where
  txLocks : t'.txLocks = (as.map Attempt.lock).reverse ++ t.txLocks
  unlocked : unlocked t'.log = unlocked t.log
  nodup : (t.txLocks.map Lock.addr).Nodup → (t'.txLocks.map Lock.addr).Nodup

theorem Quiet.adds (h : Quiet t t') : Adds [] t t' :=
  ⟨h.txLocks, h.unlocked, fun hnodup => by rwa [h.txLocks]⟩

theorem Adds.trans {as as' : List Attempt} {t'' : Thread} (h : Adds as t t')
    (h' : Adds as' t' t'') : Adds (as ++ as') t t'' where
  txLocks := by
    rw [h'.txLocks, h.txLocks, map_append, reverse_append, append_assoc]
  unlocked := h'.unlocked.trans h.unlocked
  nodup := h'.nodup ∘ h.nodup

theorem addToTxAndLock_adds (lockType : LockType) (addr : Nat) (malloc : Bool) (ret : Int)
    (t : Thread) :
    Adds (attempt lockType addr malloc ret t) t
      (Tx.addToTxAndLock lockType addr malloc ret t).2 := by
  unfold attempt Tx.addToTxAndLock
  split
  · exact (Quiet.refl t).adds
  · rename_i hnew
    split
    · exact (Quiet.refl t).adds
    · refine ⟨rfl, rfl, fun hnodup => nodup_cons.mpr ⟨fun hmem => hnew ?_, hnodup⟩⟩
      obtain ⟨l, hl, haddr⟩ := mem_map.mp hmem
      exact any_eq_true.mpr ⟨l, hl, decide_eq_true haddr⟩

variable {params : List Param}

theorem handleParams_adds
    (h : Tx.handleParams params t = some r) : Adds (paramAttempts params t) t r.2 := by
  induction params generalizing t with
  | nil =>
    rw [Tx.handleParams] at h
    rw [← Option.some.inj h]
    exact (Quiet.refl t).adds
  | cons p params ih =>
    cases p with
    | cb cb arg =>
      rw [Tx.handleParams] at h
      rw [paramAttempts]
      split at h
      · cases h
      · rename_i hset
        rw [if_neg hset]
        have hrest := ih h
        exact ⟨hrest.txLocks, hrest.unlocked, hrest.nodup⟩
    | lock lockType addr malloc ret =>
      rw [Tx.handleParams] at h
      rw [paramAttempts]
      dsimp only at h
      have hadd := addToTxAndLock_adds lockType addr malloc ret t
      refine hadd.trans ?_
      split at h
      · rename_i herr
        rw [if_pos herr, ← Option.some.inj h]
        exact (Quiet.refl _).adds
      · rename_i herr
        rw [if_neg herr]
        exact ih h

theorem beginLevel_adds {malloc : Bool}
    (h : Tx.beginLevel malloc params t = some r) : Adds (levelAttempts malloc params t) t r.2 := by
  unfold Tx.beginLevel at h
  unfold levelAttempts
  split at h
  · rename_i hmalloc
    rw [if_pos hmalloc]
    exact (quiet_errAbort h).adds
  · rename_i hmalloc
    rw [if_neg hmalloc]
    obtain ⟨u, hu, h⟩ := Option.bind_eq_some_iff.mp h
    have hparams := handleParams_adds hu
    have hquiet : Quiet u.2 r.2 := by
      dsimp only at h
      split at h
      · exact quiet_errAbort h
      · rw [← Option.some.inj h]
        exact .refl _
    have hall := hparams.trans hquiet.adds
    rw [append_nil] at hall
    exact ⟨hall.txLocks, hall.unlocked, hall.nodup⟩

theorem txBegin_adds {pop : Nat} {malloc : Bool} (h : Tx.txBegin pop malloc params t = some r)
    (hkeep : t.stage = .none → t.txLocks = []) :
    Adds (beginAttempts pop malloc params t) t r.2 := by
  unfold Tx.txBegin at h
  unfold beginAttempts
  cases hstage : t.stage with
  | work =>
    rw [hstage] at h
    dsimp only at h ⊢
    split at h
    · rename_i hpop
      rw [if_pos hpop]
      obtain ⟨u, hu, rfl⟩ := Option.map_eq_some_iff.mp h
      exact (quiet_objTxAbort hu).adds
    · rename_i hpop
      rw [if_neg hpop]
      exact beginLevel_adds h
  | none =>
    rw [hstage] at h
    dsimp only at h ⊢
    have hlevel := beginLevel_adds h
    have hlog : unlocked (t.log ++ [.laneHold]) = unlocked t.log := by
      rw [unlocked_append]
      exact append_nil _
    have hnil := hkeep hstage
    refine ⟨?_, hlevel.unlocked.trans hlog, fun _ => hlevel.nodup nodup_nil⟩
    rw [hlevel.txLocks, hnil]
  | onCommit | onAbort | onFinally =>
    rw [hstage] at h
    cases h

/-! ## Runs -/

/-- A begin in the stage `TX_STAGE_NONE` empties the list. It finds nothing there unless
`pmemobj_tx_process` has left the stage of a level that has not ended. -/
def KeepsLocks (c : Call) (w : World) : Prop :=
  match c with
  | .tx (.txBegin _ _ _) => w.thread.stage = .none → w.thread.txLocks = []
  | _ => True

instance (c : Call) (w : World) : Decidable (KeepsLocks c w) := by
  unfold KeepsLocks
  split <;> infer_instance

structure Inv (w : World) : Prop where
  txLocks : w.thread.txLocks = (w.attempts.map Attempt.lock).reverse
  nodup : (w.thread.txLocks.map Lock.addr).Nodup

theorem inv_init : Inv World.init := ⟨rfl, nodup_nil⟩

variable {w : World}

theorem Inv.adds {as : List Attempt} (h : Inv w)
    (hadds : Adds as w.fresh t) : Inv ⟨t, w.attempts ++ as⟩ where
  txLocks := by
    dsimp only
    rw [hadds.txLocks, map_append, reverse_append]
    exact congrArg _ h.txLocks
  nodup := hadds.nodup h.nodup

theorem Inv.quiet (h : Inv w) (hquiet : Quiet w.fresh t) : Inv ⟨t, w.attempts⟩ where
  txLocks := hquiet.txLocks.trans h.txLocks
  nodup := by
    dsimp only
    rw [hquiet.txLocks]
    exact h.nodup

theorem inv_step {c : Call} {w' : World} (h : Inv w) (hkeep : KeepsLocks c w)
    (hstep : step c w = some w') : Inv w' := by
  obtain ⟨r, hr, rfl⟩ := Option.map_eq_some_iff.mp hstep
  cases c with
  | txLock lockType addr malloc ret =>
    rw [exec, txLock] at hr
    split at hr
    · cases hr
    · rw [← Option.some.inj hr]
      exact h.adds (addToTxAndLock_adds lockType addr malloc ret _)
  | tx c =>
    rw [exec] at hr
    cases c with
    | txBegin pop malloc params => exact h.adds (txBegin_adds hr hkeep)
    | txCommit =>
      obtain ⟨u, hu, rfl⟩ := Option.map_eq_some_iff.mp hr
      exact h.quiet (quiet_txCommit hu)
    | txAbort errnum =>
      obtain ⟨u, hu, rfl⟩ := Option.map_eq_some_iff.mp hr
      exact h.quiet (quiet_objTxAbort hu)
    | txProcess =>
      obtain ⟨u, hu, rfl⟩ := Option.map_eq_some_iff.mp hr
      exact h.quiet (quiet_txProcess hu)
    | txEnd =>
      unfold attemptsAfter
      dsimp only
      split
      · rename_i hone
        have hnil := (txEnd_outermost hr hone).1
        exact ⟨hnil, by dsimp only; rw [hnil]; exact nodup_nil⟩
      · rename_i hinner
        exact h.quiet (quiet_txEnd hr hinner)

theorem inv_run {calls : List Call} (hkeep : Transition.Guarded step KeepsLocks calls World.init)
    (hrun : Transition.run step calls World.init = some w) : Inv w :=
  Transition.run_invariant (fun _ _ _ _ h hG hstep => inv_step h hG hstep) hkeep inv_init hrun

def acquired (as : List Attempt) : List Lock :=
  (as.filter fun a => a.ret = 0).map Attempt.lock

def Releases (w w' : World) : Prop :=
  (unlocked w'.thread.log).Perm (acquired w.attempts) ∧
    ((unlocked w'.thread.log).map Lock.addr).Nodup

instance (w w' : World) : Decidable (Releases w w') := inferInstanceAs (Decidable (_ ∧ _))

/-- In a run in which no begin drops locks, the end of an outermost level releases the locks as
it should if and only if no acquisition has failed. -/
theorem releases_iff {calls : List Call} {w w' : World}
    (hkeep : Transition.Guarded step KeepsLocks calls World.init)
    (hrun : Transition.run step calls World.init = some w) (hend : step (.tx .txEnd) w = some w')
    (hone : w.thread.txEntries = 1) : Releases w w' ↔ ∀ a ∈ w.attempts, a.ret = 0 := by
  have hinv := inv_run hkeep hrun
  obtain ⟨r, hr, rfl⟩ := Option.map_eq_some_iff.mp hend
  have hunlocked : unlocked r.2.log = (w.attempts.map Attempt.lock).reverse :=
    (txEnd_outermost hr hone).2.trans hinv.txLocks
  unfold Releases
  dsimp only
  rw [hunlocked, ← hinv.txLocks]
  constructor
  · rintro ⟨hperm, -⟩
    have hlength := hperm.length_eq
    rw [hinv.txLocks, List.length_reverse, List.length_map, acquired, List.length_map] at hlength
    have hall := List.length_filter_eq_length_iff.mp hlength.symm
    exact fun a ha => of_decide_eq_true (hall a ha)
  · intro hall
    refine ⟨?_, hinv.nodup⟩
    rw [hinv.txLocks, acquired, List.filter_eq_self.mpr fun a ha => decide_eq_true (hall a ha)]
    exact List.reverse_perm _

def failedLock : List Call :=
  [.tx (.txBegin 0 true []), .txLock .mutex 4096 true Tx.EINVAL, .tx .txCommit]

/-- The mutex that was not acquired is unlocked. -/
theorem not_releases_failedLock :
    ∃ w w', Transition.run step failedLock World.init = some w ∧
      step (.tx .txEnd) w = some w' ∧ w.thread.txEntries = 1 ∧ ¬ Releases w w' := by
  refine ⟨_, _, rfl, rfl, rfl, ?_⟩
  decide

def nestedLocks : List Call :=
  [.tx (.txBegin 0 true [.lock .mutex 4096 true 0]),
    .tx (.txBegin 0 true [.lock .rwlock 8192 true 0, .lock .mutex 4096 true 0]),
    .tx .txCommit, .tx .txEnd, .tx .txCommit]

theorem releases_nestedLocks :
    ∃ w w', Transition.run step nestedLocks World.init = some w ∧
      step (.tx .txEnd) w = some w' ∧ unlocked w'.thread.log = [⟨.rwlock, 8192⟩, ⟨.mutex, 4096⟩] ∧
      Releases w w' :=
  ⟨_, _, rfl, rfl, rfl, (@releases_iff nestedLocks _ _ (by decide) rfl rfl rfl).mpr (by decide)⟩

/-- The stage is `TX_STAGE_NONE` while the level is open, and the begin drops the lock. -/
def droppedLock : List Call :=
  [.tx (.txBegin 0 true [.lock .mutex 4096 true 0]), .tx .txCommit, .tx .txProcess,
    .tx .txProcess, .tx (.txBegin 0 true []), .tx .txCommit]

example : ((Transition.run step droppedLock World.init).bind fun w =>
    (step (.tx .txEnd) w).map fun w' => decide (Releases w w')) = some false := by decide

end Pmdk.TxLocks
