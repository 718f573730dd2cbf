import Pmdk.Lib.Run
import Pmdk.Obj.Tx

/-!
# Nested transactions

`openLevels` reads off the calls of a trace how many levels are open and which calls belong to the
outermost transaction that was started last. `NestedSpec` says what that transaction must have done
to the lane, to the undo log and to the heap, and what its `pmemobj_tx_end` calls must have
returned.
-/

namespace Pmdk.Tx

open List

def Event.isEffect : Event → Bool
  | .laneHold | .laneRelease | .undoApply | .publish => true
  | _ => false

def effects (log : List Event) : List Event := log.filter Event.isEffect

@[simp] theorem effects_nil : effects [] = [] := rfl

@[simp] theorem effects_append (l l' : List Event) :
    effects (l ++ l') = effects l ++ effects l' := by
  simp [effects]

/-- The error number with which `obj_tx_abort` leaves the transaction. -/
def abortErrnum (errnum : Int) : Int := if errnum = 0 then ECANCELED else errnum

theorem abortErrnum_ne_zero (errnum : Int) : abortErrnum errnum ≠ 0 := by
  unfold abortErrnum ECANCELED
  split <;> omega

variable {errnum : Int}

theorem abortErrnum_of_ne_zero (h : errnum ≠ 0) : abortErrnum errnum = errnum := by
  simp [abortErrnum, h]

/-! ## What each function does -/

variable {t t' : Thread}

theorem objTxCallback_eq (h : objTxCallback t = some t') :
    ∃ l, t' = { t with log := l } ∧ effects l = effects t.log := by
  unfold objTxCallback at h
  split at h
  · exact ⟨t.log, (Option.some.inj h).symm, rfl⟩
  · cases h
  · exact ⟨_, (Option.some.inj h).symm, by simp [effects, Event.isEffect]⟩
  · exact ⟨t.log, (Option.some.inj h).symm, rfl⟩

theorem laneRelease_eq (h : laneRelease t = some t') :
    0 < t.nestCount ∧
      t' = { t with nestCount := t.nestCount - 1, log := t.log ++ [.laneRelease] } := by
  unfold laneRelease at h
  split at h
  · cases h
  · exact ⟨by omega, (Option.some.inj h).symm⟩

/-- `obj_tx_abort` records the error; at the outermost level it also applies the undo log
and gives the lane back. -/
theorem objTxAbort_cases (h : objTxAbort errnum t = some t') :
    t.stage = .work ∧ ∃ l,
      (1 < t.txEntries ∧ effects l = effects t.log ∧
        t' = { t with stage := .onAbort, lastErrnum := abortErrnum errnum, log := l }) ∨
      (t.txEntries = 1 ∧ effects l = effects t.log ++ [.undoApply, .laneRelease] ∧
        t' = { t with stage := .onAbort, lastErrnum := abortErrnum errnum, lane := false,
                      nestCount := t.nestCount - 1, log := l }) := by
  unfold objTxAbort at h
  split at h
  · cases h
  · rename_i hstage
    refine ⟨not_not.mp hstage, ?_⟩
    dsimp only at h
    split at h
    · cases h
    · rename_i hone
      obtain ⟨u, hu, hcb⟩ := Option.bind_eq_some_iff.mp h
      obtain ⟨-, rfl⟩ := laneRelease_eq hu
      obtain ⟨l, rfl, hl⟩ := objTxCallback_eq hcb
      refine ⟨l, .inr ⟨hone, ?_, rfl⟩⟩
      rw [hl]
      simp only [txAbort, Thread.emit, effects_append, append_assoc]
      rfl
    · rename_i n hmany
      obtain ⟨l, rfl, hl⟩ := objTxCallback_eq h
      exact ⟨l, .inl ⟨by omega, hl, rfl⟩⟩

theorem txCommit_cases (h : txCommit t = some t') :
    t.stage = .work ∧ ∃ l,
      (1 < t.txEntries ∧ effects l = effects t.log ∧
        t' = { t with stage := .onCommit, log := l }) ∨
      (t.txEntries = 1 ∧ effects l = effects t.log ++ [.publish, .laneRelease] ∧
        t' = { t with stage := .onCommit, lane := false,
                      nestCount := t.nestCount - 1, log := l }) := by
  unfold txCommit at h
  split at h
  · cases h
  · rename_i hstage
    refine ⟨not_not.mp hstage, ?_⟩
    obtain ⟨u, hu, h⟩ := Option.bind_eq_some_iff.mp h
    obtain ⟨l₀, rfl, hl₀⟩ := objTxCallback_eq hu
    split at h
    · cases h
    · rename_i hone
      obtain ⟨u, hu, hcb⟩ := Option.bind_eq_some_iff.mp h
      obtain ⟨-, rfl⟩ := laneRelease_eq hu
      obtain ⟨l, rfl, hl⟩ := objTxCallback_eq hcb
      refine ⟨l, .inr ⟨hone, ?_, rfl⟩⟩
      rw [hl]
      simp only [Thread.emit, effects_append, hl₀, append_assoc]
      rfl
    · rename_i n hmany
      obtain ⟨l, rfl, hl⟩ := objTxCallback_eq h
      exact ⟨l, .inl ⟨by simp at hmany; omega, hl.trans hl₀, rfl⟩⟩

theorem txProcess_cases (h : txProcess t = some t') :
    (t.stage = .work ∧ txCommit t = some t') ∨
    ((t.stage = .onAbort ∨ t.stage = .onCommit) ∧ ∃ l, effects l = effects t.log ∧
      t' = { t with stage := .onFinally, log := l }) ∨
    (t.stage = .onFinally ∧ t' = { t with stage := .none }) := by
  unfold txProcess at h
  split at h
  · cases h
  · exact .inl ⟨‹_›, h⟩
  · obtain ⟨l, rfl, hl⟩ := objTxCallback_eq h
    exact .inr (.inl ⟨.inl ‹_›, l, hl, rfl⟩)
  · obtain ⟨l, rfl, hl⟩ := objTxCallback_eq h
    exact .inr (.inl ⟨.inr ‹_›, l, hl, rfl⟩)
  · exact .inr (.inr ⟨‹_›, (Option.some.inj h).symm⟩)

/-- A parameter that cannot make `pmemobj_tx_begin` fail. -/
def Param.Succeeds : Param → Prop
  | .cb _ _ => True
  | .lock _ _ malloc ret => malloc = true ∧ ret = 0

instance : DecidablePred Param.Succeeds
  | .cb _ _ => isTrue trivial
  | .lock _ _ malloc ret => inferInstanceAs (Decidable (malloc = true ∧ ret = 0))

variable {params : List Param}

section

variable (hparams : ∀ p ∈ params, p.Succeeds)

include hparams

theorem handleParams_of_succeeds {err : Int} (h : handleParams params t = some (err, t')) :
    err = 0 ∧ ∃ locks cb, t' = { t with txLocks := locks, stageCallback := cb } := by
  induction params generalizing t with
  | nil =>
    obtain ⟨rfl, rfl⟩ := Prod.mk.inj (Option.some.inj h)
    exact ⟨rfl, t.txLocks, t.stageCallback, rfl⟩
  | cons p params ih =>
    have hrest : ∀ q ∈ params, q.Succeeds :=
      fun q hq => hparams q (mem_cons_of_mem p hq)
    have hp : p.Succeeds := hparams p mem_cons_self
    cases p with
    | cb cb arg =>
      simp only [handleParams] at h
      split at h
      · cases h
      · obtain ⟨herr, locks, cb', rfl⟩ := ih hrest h
        exact ⟨herr, locks, cb', rfl⟩
    | lock lockType addr malloc ret =>
      obtain ⟨rfl, rfl⟩ := hp
      simp only [handleParams, addToTxAndLock] at h
      split at h <;> simp only [ne_eq, not_true_eq_false, if_false, Bool.true_eq_false] at h <;>
      · obtain ⟨herr, locks, cb', rfl⟩ := ih hrest h
        exact ⟨herr, locks, cb', rfl⟩

variable {ret : Int} {pop : Nat}

theorem beginLevel_of_succeeds (h : beginLevel true params t = some (ret, t')) :
    ret = 0 ∧ ∃ locks cb, t' = { t with
      lastErrnum := 0, txEntries := t.txEntries + 1, stage := .work,
      txLocks := locks, stageCallback := cb } := by
  simp only [beginLevel, Bool.true_eq_false, if_false] at h
  obtain ⟨⟨err, u⟩, hu, h⟩ := Option.bind_eq_some_iff.mp h
  obtain ⟨rfl, locks, cb, rfl⟩ := handleParams_of_succeeds hparams hu
  simp only [ne_eq, not_true_eq_false, if_false, Option.some.injEq, Prod.mk.injEq] at h
  exact ⟨h.1.symm, locks, cb, h.2.symm⟩

theorem txBegin_cases
    (hpop : t.stage = .work → t.pop = some pop) (h : txBegin pop true params t = some (ret, t')) :
    ret = 0 ∧ ∃ locks cb,
      (t.stage = .work ∧ t' = { t with
        lastErrnum := 0, txEntries := t.txEntries + 1, txLocks := locks,
        stageCallback := cb }) ∨
      (t.stage = .none ∧ t' = { t with
        pop := some pop, stage := .work, lastErrnum := 0, lane := true, txLocks := locks,
        txEntries := 1, stageCallback := cb, nestCount := t.nestCount + 1,
        log := t.log ++ [.laneHold] }) := by
  unfold txBegin at h
  split at h
  · rename_i hstage
    rw [if_neg (not_not.mpr (hpop hstage))] at h
    obtain ⟨hret, locks, cb, rfl⟩ := beginLevel_of_succeeds hparams h
    exact ⟨hret, locks, cb, .inl ⟨hstage, by rw [hstage]⟩⟩
  · rename_i hstage
    obtain ⟨hret, locks, cb, rfl⟩ := beginLevel_of_succeeds hparams h
    exact ⟨hret, locks, cb, .inr ⟨hstage, rfl⟩⟩
  · cases h

end

theorem endFinally_eq (h : endFinally t = some t') :
    ∃ s l, t' = { t with stage := s, log := l } ∧ effects l = effects t.log := by
  unfold endFinally at h
  split at h
  · obtain ⟨l, rfl, hl⟩ := objTxCallback_eq h
    exact ⟨.onFinally, l, rfl, hl⟩
  · exact ⟨t.stage, t.log, (Option.some.inj h).symm, rfl⟩

theorem effects_map_unlock (locks : List Lock) : effects (locks.map .unlock) = [] := by
  simp [effects, Event.isEffect]

theorem endOutermost_eq (t : Thread) :
    ∃ l, effects l = effects t.log ∧ endOutermost t = { t with
      pop := .none, stage := .none, txLocks := [], stageCallback := .none, log := l } := by
  unfold endOutermost releaseAndFreeTxLocks
  dsimp only
  split
  · rename_i hcb
    exact ⟨t.log ++ t.txLocks.map .unlock,
      by rw [effects_append, effects_map_unlock, append_nil], by rw [hcb]⟩
  · exact ⟨t.log ++ t.txLocks.map .unlock ++ [.callback .none],
      by rw [effects_append, effects_append, effects_map_unlock]; simp [effects, Event.isEffect],
      rfl⟩

theorem txEnd_cases (h : txEnd t = some (ret, t')) :
    t.stage ≠ .work ∧ t.pop ≠ .none ∧ ∃ l, effects l = effects t.log ∧
      ((t.txEntries = 1 ∧ ret = t.lastErrnum ∧ t' = { t with
          txEntries := 0, pop := .none, stage := .none, txLocks := [],
          stageCallback := .none, log := l }) ∨
      (1 < t.txEntries ∧ t.lastErrnum = 0 ∧ ret = 0 ∧ t' = { t with
          txEntries := t.txEntries - 1, stage := .work, log := l }) ∨
      (1 < t.txEntries ∧ t.lastErrnum ≠ 0 ∧ ret = t'.lastErrnum ∧
        objTxAbort t.lastErrnum { t with
          txEntries := t.txEntries - 1, stage := .work, log := l } = some t')) := by
  unfold txEnd at h
  split at h
  · cases h
  · rename_i hstage
    split at h
    · cases h
    · rename_i hpop
      refine ⟨hstage, hpop, ?_⟩
      obtain ⟨u, hu, h⟩ := Option.bind_eq_some_iff.mp h
      obtain ⟨s, l, rfl, hl⟩ := endFinally_eq hu
      dsimp only at h
      split at h
      · cases h
      · rename_i hone
        obtain ⟨l', hl', heq⟩ :=
          endOutermost_eq { t with stage := s, log := l, txEntries := 0 }
        rw [heq] at h
        obtain ⟨rfl, rfl⟩ := Prod.mk.inj (Option.some.inj h)
        exact ⟨l', hl'.trans hl, .inl ⟨hone, rfl, rfl⟩⟩
      · rename_i n hmany
        have hn : t.txEntries - 1 = n + 1 := by omega
        refine ⟨l, hl, .inr ?_⟩
        rw [hn]
        split at h
        · rename_i herr
          obtain ⟨v, hv, heq⟩ := Option.map_eq_some_iff.mp h
          obtain ⟨rfl, rfl⟩ := Prod.mk.inj heq
          exact .inr ⟨by omega, herr, rfl, hv⟩
        · rename_i herr
          obtain ⟨rfl, rfl⟩ := Prod.mk.inj (Option.some.inj h)
          exact .inl ⟨by omega, not_not.mp herr, not_not.mp herr, rfl⟩

/-! ## The specification -/

def Entry.isAbort (e : Entry) : Bool :=
  match e.call with
  | .txAbort _ => true
  | _ => false

def errnumOf : List Entry → Int
  | [] => 0
  | ⟨.txAbort errnum, _, _⟩ :: _ => abortErrnum errnum
  | _ :: es => errnumOf es

/-- The number of open levels, and the calls of the outermost transaction that was started
last, after one more call. -/
def openLevel (acc : Nat × List Entry) (e : Entry) : Nat × List Entry :=
  match e.call with
  | .txBegin _ _ _ => (acc.1 + 1, if acc.1 = 0 then [e] else acc.2 ++ [e])
  | .txEnd => (acc.1 - 1, acc.2 ++ [e])
  | _ => (acc.1, acc.2 ++ [e])

def openLevels (trace : List Entry) : Nat × List Entry :=
  trace.foldl openLevel (0, [])

def effectsOf (es : List Entry) : List Event :=
  es.flatMap fun e => effects e.events

/-- What an outermost transaction with the calls `es` must have done when `levels` of its
levels are still open and the thread is in state `t`.

An aborted transaction takes the lane, applies the undo log and gives the lane back, and a
committed one publishes its actions instead. This is complete when the last level has been
closed. Until the outermost commit or abort the lane is the only effect. -/
structure NestedSpec (levels : Nat) (es : List Entry) (t : Thread) : Prop where
  closed : levels = 0 → es ≠ [] → effectsOf es =
    if es.any Entry.isAbort then [.laneHold, .undoApply, .laneRelease]
    else [.laneHold, .publish, .laneRelease]
  opened : levels ≠ 0 → effectsOf es = [.laneHold] ∨ effectsOf es =
    if es.any Entry.isAbort then [.laneHold, .undoApply, .laneRelease]
    else [.laneHold, .publish, .laneRelease]
  inner : 1 < levels → effectsOf es = [.laneHold]
  held : (t.lane = true ∧ t.nestCount = 1 ∧ effectsOf es = [.laneHold]) ∨
    (t.lane = false ∧ t.nestCount = 0 ∧ effectsOf es ≠ [.laneHold])
  stage : levels = 0 → t.stage = .none
  aborts : es.countP Entry.isAbort ≤ 1
  returned : ∀ before e after, es = before ++ e :: after → e.call = .txEnd →
    e.ret = errnumOf before

/-! ## The invariant -/

theorem errnumOf_append_singleton (es : List Entry) (e : Entry) (h : e.isAbort = false) :
    errnumOf (es ++ [e]) = errnumOf es := by
  induction es with
  | nil =>
    obtain ⟨call, events, ret⟩ := e
    cases call <;> simp_all [errnumOf, Entry.isAbort]
  | cons e' es ih =>
    obtain ⟨call, events, ret⟩ := e'
    cases call <;> simp_all [errnumOf]

variable {e : Entry}

theorem errnumOf_append_abort (es : List Entry) (errnum : Int) (events : List Event) (ret : Int)
    (h : es.any Entry.isAbort = false) :
    errnumOf (es ++ [⟨.txAbort errnum, events, ret⟩]) = abortErrnum errnum := by
  induction es with
  | nil => rfl
  | cons e es ih =>
    obtain ⟨call, events', ret'⟩ := e
    cases call <;> simp_all [errnumOf, Entry.isAbort]

/-- Each `pmemobj_tx_end` returned the error number of the abort before it. -/
def Returned (es : List Entry) : Prop :=
  ∀ before e after, es = before ++ e :: after → e.call = .txEnd → e.ret = errnumOf before

variable {es : List Entry}

theorem Returned.append_singleton (h : Returned es)
    (he : e.call = .txEnd → e.ret = errnumOf es) : Returned (es ++ [e]) := by
  intro before e' after heq hend
  rcases append_eq_append_iff.mp heq with ⟨l, hl, hr⟩ | ⟨l, hl, hr⟩
  · cases l with
    | nil =>
      obtain ⟨rfl, -⟩ := List.cons.inj hr
      rw [append_nil] at hl
      exact hl ▸ he hend
    | cons x l => simp at hr
  · cases l with
    | nil =>
      obtain ⟨rfl, -⟩ := List.cons.inj hr
      rw [append_nil] at hl
      exact hl ▸ he hend
    | cons x l =>
      obtain ⟨rfl, -⟩ := List.cons.inj hr
      exact h before e' l hl hend

theorem effectsOf_append_singleton (es : List Entry) (e : Entry) :
    effectsOf (es ++ [e]) = effectsOf es ++ effects e.events := by
  simp [effectsOf]

inductive Phase (pop : Nat) : Nat → List Entry → Thread → Prop
  | idle {es : List Entry} {t : Thread} (hstage : t.stage = .none) (hpop : t.pop = .none)
      (hentries : t.txEntries = 0) (hlane : t.lane = false) (hnest : t.nestCount = 0)
      (heffects : es ≠ [] → effectsOf es =
        if es.any Entry.isAbort then [.laneHold, .undoApply, .laneRelease]
        else [.laneHold, .publish, .laneRelease]) :
      Phase pop 0 es t
  | live {levels : Nat} {es : List Entry} {t : Thread} (hlevels : levels = t.txEntries)
      (hopen : 0 < levels) (hpop : t.pop = some pop)
      (hstage : t.stage ≠ .onAbort) (houter : levels = 1 → t.stage = .work)
      (herr : t.lastErrnum = 0) (hnoAbort : es.any Entry.isAbort = false)
      (hlane : t.lane = true) (hnest : t.nestCount = 1)
      (heffects : effectsOf es = [.laneHold]) :
      Phase pop levels es t
  | committed {es : List Entry} {t : Thread} (hentries : t.txEntries = 1)
      (hpop : t.pop = some pop) (hstage : t.stage ≠ .work)
      (herr : t.lastErrnum = 0) (hnoAbort : es.any Entry.isAbort = false)
      (hlane : t.lane = false) (hnest : t.nestCount = 0)
      (heffects : effectsOf es = [.laneHold, .publish, .laneRelease]) :
      Phase pop 1 es t
  | aborted {levels : Nat} {es : List Entry} {t : Thread} (hlevels : levels = t.txEntries)
      (hopen : 0 < levels) (hpop : t.pop = some pop)
      (hstage : t.stage ≠ .work) (herr : t.lastErrnum ≠ 0)
      (hAbort : es.any Entry.isAbort = true)
      (heffects : (1 < levels ∧ t.lane = true ∧ t.nestCount = 1 ∧
          effectsOf es = [.laneHold]) ∨
        (levels = 1 ∧ t.lane = false ∧ t.nestCount = 0 ∧
          effectsOf es = [.laneHold, .undoApply, .laneRelease])) :
      Phase pop levels es t

/-- The invariant of a thread that works on one pool, with `levels` open levels and the calls
`es` of the outermost transaction started last. -/
structure Inv (pop levels : Nat) (es : List Entry) (t : Thread) : Prop where
  phase : Phase pop levels es t
  errnum : levels ≠ 0 → errnumOf es = t.lastErrnum
  aborts : es.countP Entry.isAbort ≤ 1
  returned : Returned es

variable {levels : Nat}

theorem Inv.nestedSpec (h : Inv pop levels es t) : NestedSpec levels es t := by
  obtain ⟨hphase, -, haborts, hreturned⟩ := h
  cases hphase with
  | idle hstage hpop hentries hlane hnest heffects =>
    refine ⟨fun _ => heffects, fun h => absurd rfl h, fun h => by omega,
      .inr ⟨hlane, hnest, ?_⟩, fun _ => hstage, haborts, hreturned⟩
    by_cases hes : es = []
    · simp [hes, effectsOf]
    · rw [heffects hes]
      split <;> simp
  | live hlevels hopen hpop hstage houter herr hnoAbort hlane hnest heffects =>
    exact ⟨fun h => by omega, fun _ => .inl heffects, fun _ => heffects,
      .inl ⟨hlane, hnest, heffects⟩, fun h => by omega, haborts, hreturned⟩
  | committed hentries hpop hstage herr hnoAbort hlane hnest heffects =>
    refine ⟨fun h => by omega, fun _ => .inr ?_, fun h => by omega,
      .inr ⟨hlane, hnest, by simp [heffects]⟩, fun h => by omega, haborts, hreturned⟩
    simp [hnoAbort, heffects]
  | aborted hlevels hopen hpop hstage herr hAbort heffects =>
    rcases heffects with ⟨hmany, hlane, hnest, heffects⟩ | ⟨hone, hlane, hnest, heffects⟩
    · exact ⟨fun h => by omega, fun _ => .inl heffects, fun _ => heffects,
        .inl ⟨hlane, hnest, heffects⟩, fun h => by omega, haborts, hreturned⟩
    · refine ⟨fun h => by omega, fun _ => .inr ?_, fun h => by omega,
        .inr ⟨hlane, hnest, by simp [heffects]⟩, fun h => by omega, haborts, hreturned⟩
      simp [hAbort, heffects]

theorem Phase.work_inv (h : Phase pop levels es t) (hwork : t.stage = .work) :
    levels = t.txEntries ∧ 0 < t.txEntries ∧ t.pop = some pop ∧ t.lastErrnum = 0 ∧
      es.any Entry.isAbort = false ∧ t.lane = true ∧ t.nestCount = 1 ∧
      effectsOf es = [.laneHold] := by
  cases h with
  | idle hstage => exact absurd (hstage.symm.trans hwork) (by decide)
  | live hlevels hopen hpop _ _ herr hnoAbort hlane hnest heffects =>
    exact ⟨hlevels, hlevels ▸ hopen, hpop, herr, hnoAbort, hlane, hnest, heffects⟩
  | committed _ _ hstage => exact absurd hwork hstage
  | aborted _ _ _ hstage => exact absurd hwork hstage

/-- The calls that are neither an abort nor an end keep what has been returned. -/
theorem Inv.append_entry (h : Inv pop levels es t) (habort : e.isAbort = false)
    (hret : e.call = .txEnd → e.ret = errnumOf es) (herr : t'.lastErrnum = t.lastErrnum)
    {levels' : Nat} (hlevels : levels' ≠ 0 → levels ≠ 0)
    (hphase : Phase pop levels' (es ++ [e]) t') : Inv pop levels' (es ++ [e]) t' where
  phase := hphase
  errnum := fun hne => by
    rw [errnumOf_append_singleton es e habort, h.errnum (hlevels hne), herr]
  aborts := by
    rw [countP_append, countP_singleton, habort]
    simpa using h.aborts
  returned := h.returned.append_singleton hret

theorem any_isAbort_append (h : e.isAbort = false) :
    (es ++ [e]).any Entry.isAbort = es.any Entry.isAbort := by
  simp [h]

theorem Inv.txCommit (h : Inv pop levels es t) (hlog : t.log = [])
    (hc : txCommit t = some t') (hevents : e.events = t'.log)
    (hcall : e.call = .txCommit ∨ e.call = .txProcess) : Inv pop levels (es ++ [e]) t' := by
  have habort : e.isAbort = false := by
    rcases hcall with hcall | hcall <;> simp [Entry.isAbort, hcall]
  have hend : e.call = .txEnd → e.ret = errnumOf es := by
    rcases hcall with hcall | hcall <;> simp [hcall]
  obtain ⟨hwork, l, hcases⟩ := txCommit_cases hc
  obtain ⟨rfl, hopen, hpop, herr, hnoAbort, hlane, hnest, heffects⟩ := h.phase.work_inv hwork
  rcases hcases with ⟨hmany, hl, rfl⟩ | ⟨hone, hl, rfl⟩
  · refine h.append_entry habort hend (by rfl) id ?_
    refine Phase.live rfl hopen hpop (by simp) ?_ herr ?_ hlane hnest ?_
    · intro hone
      exact absurd hone (Nat.ne_of_gt hmany)
    · rw [any_isAbort_append habort, hnoAbort]
    · rw [effectsOf_append_singleton, heffects, hevents, hl, hlog]
      rfl
  · rw [hone] at h ⊢
    refine h.append_entry habort hend (by rfl) id ?_
    refine Phase.committed rfl hpop (by simp) herr ?_ rfl ?_ ?_
    · rw [any_isAbort_append habort, hnoAbort]
    · exact congrArg (· - 1) hnest
    · rw [effectsOf_append_singleton, heffects, hevents, hl, hlog]
      rfl

theorem Inv.setStage {s : Stage}
    {l : List Event} (h : Inv pop levels es t) (hne : t.stage ≠ .none) (hwork : t.stage ≠ .work)
    (hs : s ≠ .work ∧ s ≠ .onAbort) (hcall : e.call = .txProcess)
    (hevents : effects e.events = []) :
    Inv pop levels (es ++ [e]) { t with stage := s, log := l } := by
  have habort : e.isAbort = false := by simp [Entry.isAbort, hcall]
  have heffects' : effectsOf (es ++ [e]) = effectsOf es := by
    rw [effectsOf_append_singleton, hevents, append_nil]
  refine h.append_entry habort (by simp [hcall]) (by rfl) id ?_
  cases h.phase with
  | idle hstage => exact absurd hstage hne
  | live hlevels hopen hpop _ houter herr hnoAbort hlane hnest heffects =>
    exact Phase.live hlevels hopen hpop hs.2 (fun hone => absurd (houter hone) hwork) herr
      (by rw [any_isAbort_append habort, hnoAbort]) hlane hnest (by rw [heffects', heffects])
  | committed hentries hpop _ herr hnoAbort hlane hnest heffects =>
    exact Phase.committed hentries hpop hs.1 herr
      (by rw [any_isAbort_append habort, hnoAbort]) hlane hnest (by rw [heffects', heffects])
  | aborted hlevels hopen hpop _ herr hAbort heffects =>
    exact Phase.aborted hlevels hopen hpop hs.1 herr
      (by rw [any_isAbort_append habort, hAbort]) (by rw [heffects']; exact heffects)

theorem Inv.txProcess (h : Inv pop levels es t) (hlog : t.log = [])
    (hp : txProcess t = some t') (hevents : e.events = t'.log) (hcall : e.call = .txProcess) :
    Inv pop levels (es ++ [e]) t' := by
  rcases txProcess_cases hp with ⟨-, hc⟩ | ⟨hstage, l, hl, rfl⟩ | ⟨hstage, rfl⟩
  · exact h.txCommit hlog hc hevents (.inr hcall)
  · refine h.setStage ?_ ?_ (by decide) hcall ?_
    · rcases hstage with hstage | hstage <;> simp [hstage]
    · rcases hstage with hstage | hstage <;> simp [hstage]
    · rw [hevents, hl, hlog]
      rfl
  · refine h.setStage (by simp [hstage]) (by simp [hstage]) (by decide) hcall ?_
    rw [hevents, hlog]
    rfl

/-- An abort of the level on top, whose calls are then `es'`: either the caller's own, or the
one that `pmemobj_tx_end` passes on. -/
theorem Phase.objTxAbort {es' : List Entry} (hpop : t.pop = some pop)
    (hlane : t.lane = true) (hnest : t.nestCount = 1) (ha : objTxAbort errnum t = some t')
    (hAbort : es'.any Entry.isAbort = true) (heffects : effectsOf es = [.laneHold])
    (hlog : effects t.log = []) (hes' : effectsOf es' = effectsOf es ++ effects t'.log) :
    Phase pop t.txEntries es' t' := by
  obtain ⟨-, l, ⟨hmany, hl, rfl⟩ | ⟨hone, hl, rfl⟩⟩ := objTxAbort_cases ha
  · refine Phase.aborted rfl (Nat.lt_of_succ_lt hmany) hpop (by simp) (abortErrnum_ne_zero _)
      hAbort (.inl ⟨hmany, hlane, hnest, ?_⟩)
    rw [hes', heffects, hl, hlog]
    rfl
  · refine Phase.aborted rfl (by simp [hone]) hpop (by simp)
      (abortErrnum_ne_zero _) hAbort (.inr ⟨hone, rfl, congrArg (· - 1) hnest, ?_⟩)
    rw [hes', heffects, hl, hlog]
    rfl

theorem Inv.txAbort
    (h : Inv pop levels es t) (hlog : t.log = []) (ha : objTxAbort errnum t = some t') :
    Inv pop levels (es ++ [⟨.txAbort errnum, t'.log, ret⟩]) t' := by
  obtain ⟨hwork, l, hcases⟩ := objTxAbort_cases ha
  obtain ⟨rfl, -, hpop, -, hnoAbort, hlane, hnest, heffects⟩ := h.phase.work_inv hwork
  have herr : t'.lastErrnum = abortErrnum errnum := by
    rcases hcases with ⟨-, -, rfl⟩ | ⟨-, -, rfl⟩ <;> rfl
  refine ⟨?_, fun _ => ?_, ?_, h.returned.append_singleton (by simp)⟩
  · exact Phase.objTxAbort hpop hlane hnest ha (by simp [Entry.isAbort]) heffects
      (by rw [hlog]; rfl) (effectsOf_append_singleton _ _)
  · rw [errnumOf_append_abort es errnum _ _ hnoAbort, herr]
  · have hzero : es.countP Entry.isAbort = 0 := by
      rw [countP_eq_zero]
      simpa using hnoAbort
    rw [countP_append, hzero, countP_singleton]
    split <;> omega

theorem Inv.txEnd (h : Inv pop levels es t) (hlog : t.log = [])
    (he : txEnd t = some (ret, t')) : Inv pop (levels - 1) (es ++ [⟨.txEnd, t'.log, ret⟩]) t' := by
  obtain ⟨hstage, hsome, l, hl, hcases⟩ := txEnd_cases he
  have habort : Entry.isAbort ⟨.txEnd, t'.log, ret⟩ = false := rfl
  have hlevels : levels - 1 ≠ 0 → levels ≠ 0 := by omega
  have hmem : levels = t.txEntries ∧ levels ≠ 0 := by
    cases h.phase with
    | idle _ hpop => exact absurd hpop hsome
    | live hlevels hopen => exact ⟨hlevels, by omega⟩
    | committed hentries => exact ⟨hentries.symm, by omega⟩
    | aborted hlevels hopen => exact ⟨hlevels, by omega⟩
  have herrnum : errnumOf es = t.lastErrnum := h.errnum hmem.2
  rcases hcases with ⟨hone, rfl, rfl⟩ | ⟨hmany, hzero, rfl, rfl⟩ | ⟨hmany, hne, rfl, ha⟩
  · -- the outermost level is closed
    refine h.append_entry habort (fun _ => herrnum.symm) (by rfl) hlevels ?_
    have hlevel : levels - 1 = 0 := by omega
    have hes : effectsOf (es ++ [⟨.txEnd, l, t.lastErrnum⟩]) = effectsOf es := by
      rw [effectsOf_append_singleton, hl, hlog]
      simp
    rw [hlevel]
    cases h.phase with
    | idle _ hpop => exact absurd hpop hsome
    | live hlevels' _ _ _ houter => exact absurd (houter (hlevels'.trans hone)) hstage
    | committed hentries hpop _ herr hnoAbort hlane hnest heffects =>
      refine Phase.idle rfl rfl rfl hlane hnest (fun _ => ?_)
      rw [hes, any_isAbort_append habort, hnoAbort, heffects]
      rfl
    | aborted _ hopen hpop _ herr hAbort heffects =>
      obtain ⟨hmany, -⟩ | ⟨-, hlane, hnest, heffects⟩ := heffects
      · omega
      · refine Phase.idle rfl rfl rfl hlane hnest (fun _ => ?_)
        rw [hes, any_isAbort_append habort, hAbort, heffects]
        rfl
  · -- an inner level without an error is closed
    refine h.append_entry habort (fun _ => (herrnum.trans hzero).symm) (by rfl) hlevels ?_
    rw [hmem.1]
    cases h.phase with
    | idle _ hpop => exact absurd hpop hsome
    | live _ _ hpop _ _ herr hnoAbort hlane hnest heffects =>
      refine Phase.live rfl
        (Nat.sub_pos_of_lt hmany) hpop (by simp) (fun _ => rfl) herr ?_ hlane hnest ?_
      · rw [any_isAbort_append habort, hnoAbort]
      · rw [effectsOf_append_singleton, heffects, hl, hlog]
        rfl
    | committed hentries => omega
    | aborted _ _ _ _ herr => exact absurd hzero herr
  · -- an inner level that failed is closed, and the error goes on to the enclosing one
    have herr : t'.lastErrnum = t.lastErrnum := by
      obtain ⟨-, l', ⟨-, -, rfl⟩ | ⟨-, -, rfl⟩⟩ := objTxAbort_cases ha <;>
        exact abortErrnum_of_ne_zero hne
    refine h.append_entry habort (fun _ => herr.trans herrnum.symm) herr hlevels ?_
    rw [hmem.1]
    cases h.phase with
    | idle _ hpop => exact absurd hpop hsome
    | live _ _ _ _ _ hzero => exact absurd hzero hne
    | committed hentries => omega
    | aborted _ hopen hpop _ _ hAbort heffects =>
      obtain ⟨-, hlane, hnest, heffects⟩ | ⟨hone, -⟩ := heffects
      · exact Phase.objTxAbort (t := { t with
            txEntries := t.txEntries - 1, stage := .work, log := l }) hpop hlane hnest ha
          (by rw [any_isAbort_append habort, hAbort]) heffects (by simp [hl, hlog])
          (effectsOf_append_singleton _ _)
      · omega

theorem Inv.txBegin (h : Inv pop levels es t) (hlog : t.log = [])
    (hparams : ∀ p ∈ params, p.Succeeds) (hfresh : t.stage = .none → t.txEntries = 0)
    (hb : txBegin pop true params t = some (ret, t')) :
    Inv pop (levels + 1)
      (if levels = 0 then [⟨.txBegin pop true params, t'.log, ret⟩]
        else es ++ [⟨.txBegin pop true params, t'.log, ret⟩]) t' := by
  have hpop : t.stage = .work → t.pop = some pop :=
    fun hwork => (h.phase.work_inv hwork).2.2.1
  obtain ⟨rfl, locks, cb, hcases⟩ := txBegin_cases hparams hpop hb
  rcases hcases with ⟨hwork, rfl⟩ | ⟨hnone, rfl⟩
  · -- one more level of the transaction that is running
    obtain ⟨hlevels, hopen, hpop, herr, hnoAbort, hlane, hnest, heffects⟩ :=
      h.phase.work_inv hwork
    rw [if_neg (by omega)]
    refine h.append_entry rfl (by simp) herr.symm (by omega) ?_
    refine Phase.live (congrArg (· + 1) hlevels) (by omega) hpop (by simp [hwork])
      (fun hone => by omega) rfl ?_ hlane hnest ?_
    · rw [any_isAbort_append rfl, hnoAbort]
    · rw [effectsOf_append_singleton, heffects, hlog]
      rfl
  · -- a new outermost transaction
    have hzero : t.txEntries = 0 := hfresh hnone
    have hidle : levels = 0 ∧ t.nestCount = 0 := by
      cases h.phase with
      | idle _ _ _ _ hnest => exact ⟨rfl, hnest⟩
      | live hlevels => omega
      | committed hentries => omega
      | aborted hlevels => omega
    obtain ⟨rfl, hnest⟩ := hidle
    rw [if_pos rfl]
    refine ⟨Phase.live rfl (by omega) rfl (by simp) (fun _ => rfl) rfl rfl rfl
      (congrArg (· + 1) hnest) ?_, fun _ => rfl, by simp [Entry.isAbort], ?_⟩
    · simp [effectsOf, hlog, effects, Event.isEffect]
    · intro before e after heq hend
      rcases append_eq_singleton_iff.mp heq.symm with ⟨-, he⟩ | ⟨-, he⟩
      · obtain ⟨rfl, -⟩ := List.cons.inj he
        cases hend
      · cases he

/-! ## Runs -/

/-- The call is made on the pool `pop`, and a begin cannot fail. -/
def Call.OnPool (pop : Nat) : Call → Prop
  | .txBegin pop' malloc params => pop' = pop ∧ malloc = true ∧ ∀ p ∈ params, p.Succeeds
  | _ => True

instance (pop : Nat) : DecidablePred (Call.OnPool pop)
  | .txBegin pop' malloc params =>
    inferInstanceAs (Decidable (pop' = pop ∧ malloc = true ∧ ∀ p ∈ params, p.Succeeds))
  | .txCommit => isTrue trivial
  | .txAbort _ => isTrue trivial
  | .txProcess => isTrue trivial
  | .txEnd => isTrue trivial

/-- A begin that finds the stage `TX_STAGE_NONE` finds no open level. -/
def BeginsFresh (c : Call) (w : World) : Prop :=
  match c with
  | .txBegin _ _ _ => w.thread.stage = .none → w.thread.txEntries = 0
  | _ => True

instance (c : Call) (w : World) : Decidable (BeginsFresh c w) :=
  match c with
  | .txBegin _ _ _ =>
    inferInstanceAs (Decidable (w.thread.stage = .none → w.thread.txEntries = 0))
  | .txCommit | .txAbort _ | .txProcess | .txEnd => isTrue trivial

theorem openLevels_append_singleton (trace : List Entry) (e : Entry) :
    openLevels (trace ++ [e]) = openLevel (openLevels trace) e := by
  simp [openLevels]

def World.Inv (pop : Nat) (w : World) : Prop :=
  Tx.Inv pop (openLevels w.trace).1 (openLevels w.trace).2 w.thread

theorem World.inv_init (pop : Nat) : World.Inv pop World.init where
  phase := Phase.idle rfl rfl rfl rfl rfl (fun h => absurd rfl h)
  errnum := fun h => absurd rfl h
  aborts := Nat.zero_le 1
  returned := fun before e after h => by
    have hlength := congrArg List.length h
    simp [World.init, openLevels] at hlength

theorem Inv.clearLog (h : Inv pop levels es t) : Inv pop levels es { t with log := [] } := by
  refine ⟨?_, h.errnum, h.aborts, h.returned⟩
  cases h.phase with
  | idle hstage hpop hentries hlane hnest heffects =>
    exact Phase.idle hstage hpop hentries hlane hnest heffects
  | live hlevels hopen hpop hstage houter herr hnoAbort hlane hnest heffects =>
    exact Phase.live hlevels hopen hpop hstage houter herr hnoAbort hlane hnest heffects
  | committed hentries hpop hstage herr hnoAbort hlane hnest heffects =>
    exact Phase.committed hentries hpop hstage herr hnoAbort hlane hnest heffects
  | aborted hlevels hopen hpop hstage herr hAbort heffects =>
    exact Phase.aborted hlevels hopen hpop hstage herr hAbort heffects

theorem World.inv_step {c : Call} {w w' : World} (h : World.Inv pop w)
    (hpool : c.OnPool pop) (hfresh : BeginsFresh c w) (hstep : step c w = some w') :
    World.Inv pop w' := by
  obtain ⟨⟨ret, t⟩, hexec, rfl⟩ := Option.map_eq_some_iff.mp hstep
  have hclear := Inv.clearLog h
  unfold World.Inv
  rw [openLevels_append_singleton]
  cases c with
  | txBegin pop' malloc params =>
    obtain ⟨rfl, rfl, hparams⟩ := hpool
    exact hclear.txBegin rfl hparams hfresh hexec
  | txCommit =>
    obtain ⟨u, hu, heq⟩ := Option.map_eq_some_iff.mp hexec
    obtain ⟨rfl, rfl⟩ := Prod.mk.inj heq
    exact hclear.txCommit rfl hu rfl (.inl rfl)
  | txAbort errnum =>
    obtain ⟨u, hu, heq⟩ := Option.map_eq_some_iff.mp hexec
    obtain ⟨rfl, rfl⟩ := Prod.mk.inj heq
    exact hclear.txAbort rfl hu
  | txProcess =>
    obtain ⟨u, hu, heq⟩ := Option.map_eq_some_iff.mp hexec
    obtain ⟨rfl, rfl⟩ := Prod.mk.inj heq
    exact hclear.txProcess rfl hu rfl rfl
  | txEnd => exact hclear.txEnd rfl hexec

/-- In every run on one pool whose begins find no open level at `TX_STAGE_NONE`, the
outermost transaction started last meets its specification, whether its levels are all
closed or some are still open. -/
theorem nestedSpec_of_beginsFresh (pop : Nat) (calls : List Call) (w : World)
    (hpool : ∀ c ∈ calls, c.OnPool pop)
    (hfresh : Transition.Guarded step BeginsFresh calls World.init)
    (hrun : Transition.run step calls World.init = some w) :
    NestedSpec (openLevels w.trace).1 (openLevels w.trace).2 w.thread := by
  have hstep : ∀ c ∈ calls, ∀ u v, World.Inv pop u → BeginsFresh c u → step c u = some v →
      World.Inv pop v :=
    fun c hc u v hu hb huv => World.inv_step hu (hpool c hc) hb huv
  have hinv : World.Inv pop w :=
    Transition.run_invariant hstep hfresh (World.inv_init pop) hrun
  exact hinv.nestedSpec

def abortInside : List Call :=
  [.txBegin 1 true [], .txBegin 1 true [], .txBegin 1 true [], .txAbort 5, .txEnd, .txProcess,
    .txEnd, .txEnd]

theorem nestedSpec_abortInside :
    ∃ w, Transition.run step abortInside World.init = some w ∧ w.trace.length = 8 ∧
      NestedSpec (openLevels w.trace).1 (openLevels w.trace).2 w.thread :=
  ⟨_, rfl, rfl, nestedSpec_of_beginsFresh 1 abortInside _ (by decide) (by decide) rfl⟩

/-- The inner level aborts and is brought to `TX_STAGE_NONE` by `pmemobj_tx_process`; the
begin that follows is taken for an outermost one. -/
def beginAfterProcess : List Call :=
  [.txBegin 1 true [], .txBegin 1 true [], .txAbort 5, .txProcess, .txProcess,
    .txBegin 1 true [], .txCommit, .txEnd]

/-- The run is not refused, but it publishes the actions although a level aborted, never
applies the undo log and keeps a second hold of the lane. -/
theorem not_nestedSpec_beginAfterProcess :
    (∀ c ∈ beginAfterProcess, c.OnPool 1) ∧
    ∃ w, Transition.run step beginAfterProcess World.init = some w ∧
      effectsOf w.trace = [.laneHold, .laneHold, .publish, .laneRelease] ∧
      w.thread.nestCount = 1 ∧
      ¬ NestedSpec (openLevels w.trace).1 (openLevels w.trace).2 w.thread := by
  refine ⟨by decide, _, rfl, by decide, by decide, fun h => ?_⟩
  exact absurd (h.inner (by decide)) (by decide)

end Pmdk.Tx
