import Mathlib.Data.List.Nodup
import Pmdk.Lib.Run

/-!
# The locks of a vector of actions

`palloc_exec_actions` sorts a vector of actions by the address of their locks and goes over it three
times: the first loop takes the locks and translates the actions to log entries, the second one lets
the actions finish and drops the locks, the third one runs what has to happen after that.

Both of the first loops compare the lock of an action with the one before it in the vector.
-/

namespace Pmdk.ActionLocks

open Function List

variable {α : Type*}

/-- What the loops read of a `struct pobj_action_internal`: the address of the lock, which is
`0` for no lock. The callbacks of the type of the action read the rest. -/
structure Action (α : Type*) where
  lock : Nat
  data : α
  deriving DecidableEq

def pallocActionCompare (lhs rhs : Action α) : Int :=
  if lhs.lock < rhs.lock then -1 else if lhs.lock > rhs.lock then 1 else 0

theorem pallocActionCompare_le_zero_iff (a b : Action α) :
    pallocActionCompare a b ≤ 0 ↔ a.lock ≤ b.lock := by
  unfold pallocActionCompare
  split <;> [skip; split] <;> omega

/-- What the standard library promises of `qsort`: nothing is said about the order of elements
that compare equal. -/
structure Qsort (β : Type*) (compare : β → β → Int) where
  sort : List β → List β
  perm : ∀ base, (sort base).Perm base
  sorted : ∀ base, (sort base).Pairwise fun a b => compare a b ≤ 0

/-- A stable sort is one that `qsort` may be. -/
def Qsort.stable : Qsort (Action α) pallocActionCompare where
  sort base := base.mergeSort fun a b => decide (a.lock ≤ b.lock)
  perm base := base.mergeSort_perm _
  sorted base := by
    refine (pairwise_mergeSort ?_ ?_ base).imp ?_
    · intro a b c hab hbc
      simp only [decide_eq_true_eq] at hab hbc ⊢
      exact hab.trans hbc
    · intro a b
      simpa using Nat.le_total a.lock b.lock
    · intro a b hab
      simpa [pallocActionCompare_le_zero_iff] using hab

/-- What `palloc_exec_actions` does, in the order it does it. -/
inductive Event (α : Type*)
  | lock (addr : Nat)
  | unlock (addr : Nat)
  | exec (act : Action α)
  | drain
  | finish
  | onProcess (act : Action α)
  | onUnlock (act : Action α)
  deriving DecidableEq

def newLock (prev : Option Nat) (act : Action α) : Bool :=
  prev != some act.lock && act.lock != 0

/-- The first loop; `prev` is the lock of the action before, if there is one. -/
def lockLoop : Option Nat → List (Action α) → List (Event α)
  | _, [] => []
  | prev, act :: actv =>
    (if newLock prev act then [.lock act.lock] else []) ++
      .exec act :: lockLoop (some act.lock) actv

def unlockLoop : Option Nat → List (Action α) → List (Event α)
  | _, [] => []
  | prev, act :: actv =>
    .onProcess act ::
      ((if newLock prev act then [.unlock act.lock] else []) ++
        unlockLoop (some act.lock) actv)

def pallocExecActions (qsort : Qsort (Action α) pallocActionCompare) (actv : List (Action α)) :
    List (Event α) :=
  let actv := qsort.sort actv
  lockLoop none actv ++ .drain :: .finish :: unlockLoop none actv ++ actv.map .onUnlock

/-! ## The discipline -/

/-- The effect on the locks that are held. A lock that is held cannot be taken again, only a
lock that is held can be dropped, and a callback is refused when the lock of its action is not
as its contract says. -/
def step : Event α → (Nat → Bool) → Option (Nat → Bool)
  | .lock addr, held => if held addr then none else some (update held addr true)
  | .unlock addr, held => if held addr then some (update held addr false) else none
  | .exec act, held => if act.lock = 0 ∨ held act.lock then some held else none
  | .drain, held => some held
  | .finish, held => some held
  | .onProcess act, held => if act.lock = 0 ∨ held act.lock then some held else none
  | .onUnlock act, held => if act.lock ≠ 0 ∧ held act.lock then none else some held

def taken (trace : List (Event α)) : List Nat :=
  trace.filterMap fun
    | .lock addr => some addr
    | _ => none

def released (trace : List (Event α)) : List Nat :=
  trace.filterMap fun
    | .unlock addr => some addr
    | _ => none

def execs (trace : List (Event α)) : List (Action α) :=
  trace.filterMap fun
    | .exec act => some act
    | _ => none

def processed (trace : List (Event α)) : List (Action α) :=
  trace.filterMap fun
    | .onProcess act => some act
    | _ => none

def finished (trace : List (Event α)) : List (Action α) :=
  trace.filterMap fun
    | .onUnlock act => some act
    | _ => none

def locks (actv : List (Action α)) : List Nat := actv.map Action.lock

/-- The lock discipline: from no lock to no lock without a refusal, every callback of every
action once, every lock of the actions taken once and dropped once, in ascending order. -/
structure Disciplined (actv : List (Action α)) (trace : List (Event α)) : Prop where
  run : Transition.run step trace (fun _ => false) = some fun _ => false
  execs : (execs trace).Perm actv
  processed : (processed trace).Perm actv
  finished : (finished trace).Perm actv
  taken : ∀ l, (taken trace).count l = if l ≠ 0 ∧ l ∈ locks actv then 1 else 0
  released : ∀ l, (released trace).count l = if l ≠ 0 ∧ l ∈ locks actv then 1 else 0
  ascending : (ActionLocks.taken trace).Pairwise (· < ·)

def Unshared (actv : List (Action α)) : Prop :=
  actv.Pairwise fun a b => a.lock = b.lock → a.lock = 0

instance (actv : List (Action α)) : Decidable (Unshared actv) :=
  inferInstanceAs (Decidable (actv.Pairwise _))

def heldOf (ls : List Nat) : Nat → Bool := fun l => decide (l ≠ 0 ∧ l ∈ ls)

variable {ls done : List Nat} {l : Nat}

theorem heldOf_eq_true_iff : heldOf ls l = true ↔ l ≠ 0 ∧ l ∈ ls := by
  simp [heldOf]

theorem heldOf_nil : heldOf [] = fun _ => false := by
  funext l
  simp [heldOf]

theorem heldOf_congr {ls' : List Nat} (h : ∀ l, l ≠ 0 → (l ∈ ls ↔ l ∈ ls')) :
    heldOf ls = heldOf ls' := by
  funext l
  unfold heldOf
  by_cases hl : l = 0
  · simp [hl]
  · simp [hl, h l hl]

theorem update_heldOf_true (hl : l ≠ 0) : update (heldOf ls) l true = heldOf (ls ++ [l]) := by
  funext x
  by_cases hx : x = l
  · subst hx
    simp [heldOf, hl]
  · simp [heldOf, hx]

theorem update_heldOf_false (hl : l ∉ ls) : update (heldOf (l :: ls)) l false = heldOf ls := by
  funext x
  by_cases hx : x = l
  · subst hx
    simp [heldOf, hl]
  · simp [heldOf, hx]

theorem newLock_eq_true_iff {prev : Option Nat} {act : Action α} :
    newLock prev act = true ↔ prev ≠ some act.lock ∧ act.lock ≠ 0 := by
  simp [newLock]

/-! ## The first loop -/

theorem execs_lockLoop (prev : Option Nat) (actv : List (Action α)) :
    execs (lockLoop prev actv) = actv := by
  induction actv generalizing prev with
  | nil => rfl
  | cons act actv ih =>
    have ih : List.filterMap _ (lockLoop (some act.lock) actv) = actv := ih _
    unfold lockLoop
    split <;> simp [execs, ih]

variable {β : Type*}

variable {f : Event α → Option β}

theorem filterMap_lockLoop (hlock : ∀ l, f (.lock l) = none) (hexec : ∀ act, f (.exec act) = none)
    (prev : Option Nat) (actv : List (Action α)) : (lockLoop prev actv).filterMap f = [] := by
  induction actv generalizing prev with
  | nil => rfl
  | cons act actv ih =>
    unfold lockLoop
    split <;> simp [hlock, hexec, ih]

/-- The locks before an action in a sorted vector are not above its own, so that one that is
not the lock of the action just before is not among them. -/
theorem notMem_of_getLast?_ne
    (hsorted : (done ++ [l]).Pairwise (· ≤ ·)) (hlast : done.getLast? ≠ some l) : l ∉ done := by
  intro hl
  obtain ⟨init, last, rfl⟩ : ∃ init last, done = init ++ [last] :=
    ⟨_, _, (dropLast_append_getLast (ne_nil_of_mem hl)).symm⟩
  rw [pairwise_append, pairwise_append] at hsorted
  have hle : last ≤ l := hsorted.2.2 last (by simp) l (by simp)
  have hne : l ≠ last := by
    rintro rfl
    simp at hlast
  have hinit : l ∈ init := by simpa [hne] using hl
  have hge : l ≤ last := hsorted.1.2.2 l hinit last (by simp)
  exact hne (Nat.le_antisymm hge hle)

/-- The first loop is never refused: in a sorted vector an action either has the lock of the
action before it or one that is not held yet. -/
theorem run_lockLoop {actv : List (Action α)} (hsorted : (done ++ locks actv).Pairwise (· ≤ ·)) :
    Transition.run step (lockLoop done.getLast? actv) (heldOf done) =
      some (heldOf (done ++ locks actv)) := by
  induction actv generalizing done with
  | nil => simp [lockLoop, locks]
  | cons act actv ih =>
    have happend : done ++ locks (act :: actv) = (done ++ [act.lock]) ++ locks actv := by
      simp [locks]
    rw [happend] at hsorted ⊢
    have hdone : (done ++ [act.lock]).Pairwise (· ≤ ·) := (pairwise_append.mp hsorted).1
    have hrest := ih hsorted
    rw [getLast?_concat] at hrest
    have hexec : act.lock = 0 ∨ heldOf (done ++ [act.lock]) act.lock = true := by
      simp [heldOf, Classical.em]
    unfold lockLoop
    split
    · rename_i hnew
      rw [newLock_eq_true_iff] at hnew
      have hfree : ¬ heldOf done act.lock = true := by
        rw [heldOf_eq_true_iff]
        exact fun h => notMem_of_getLast?_ne hdone hnew.1 h.2
      rw [singleton_append, Transition.run_cons, step, if_neg hfree, Option.bind_some,
        update_heldOf_true hnew.2, Transition.run_cons, step, if_pos hexec, Option.bind_some,
        hrest]
    · rename_i hold
      have hsame : heldOf done = heldOf (done ++ [act.lock]) := by
        refine heldOf_congr fun l hl => ?_
        have hlast : act.lock ≠ 0 → done.getLast? = some act.lock := by
          intro hne
          by_contra h
          exact hold (newLock_eq_true_iff.mpr ⟨h, hne⟩)
        simp only [mem_append, mem_singleton]
        constructor
        · exact Or.inl
        · rintro (hmem | rfl)
          · exact hmem
          · exact mem_of_getLast? (hlast hl)
      rw [nil_append, hsame, Transition.run_cons, step, if_pos hexec, Option.bind_some, hrest]

theorem taken_lockLoop {actv : List (Action α)} (hsorted : (done ++ locks actv).Pairwise (· ≤ ·)) :
    (taken (lockLoop done.getLast? actv)).Pairwise (· < ·) ∧
      ∀ l, l ∈ taken (lockLoop done.getLast? actv) ↔ l ≠ 0 ∧ l ∈ locks actv ∧ l ∉ done := by
  induction actv generalizing done with
  | nil => simp [lockLoop, locks, taken]
  | cons act actv ih =>
    have happend : done ++ locks (act :: actv) = (done ++ [act.lock]) ++ locks actv := by
      simp [locks]
    rw [happend] at hsorted
    have hdone : (done ++ [act.lock]).Pairwise (· ≤ ·) := (pairwise_append.mp hsorted).1
    obtain ⟨hasc, hmem⟩ := ih hsorted
    rw [getLast?_concat] at hasc hmem
    have hhead : locks (act :: actv) = act.lock :: locks actv := rfl
    unfold lockLoop
    split
    · rename_i hnew
      rw [newLock_eq_true_iff] at hnew
      have hfree := notMem_of_getLast?_ne hdone hnew.1
      have htaken : taken (.lock act.lock :: .exec act :: lockLoop (some act.lock) actv) =
          act.lock :: taken (lockLoop (some act.lock) actv) := rfl
      rw [singleton_append, htaken]
      constructor
      · refine pairwise_cons.mpr ⟨fun l hl => ?_, hasc⟩
        obtain ⟨-, hin, hnot⟩ := (hmem l).mp hl
        have hle : act.lock ≤ l :=
          (pairwise_append.mp hsorted).2.2 act.lock (by simp) l hin
        have hne : act.lock ≠ l := by
          rintro rfl
          simp at hnot
        exact Nat.lt_of_le_of_ne hle hne
      · intro l
        rw [mem_cons, hmem, hhead]
        by_cases hl : l = act.lock
        · subst hl
          simp [hnew.2, hfree]
        · simp [hl]
    · rename_i hold
      have htaken : taken (.exec act :: lockLoop (some act.lock) actv) =
          taken (lockLoop (some act.lock) actv) := rfl
      rw [nil_append, htaken]
      refine ⟨hasc, fun l => ?_⟩
      rw [hmem, hhead]
      by_cases hl : l = act.lock
      · subst hl
        have hlast : act.lock ≠ 0 → act.lock ∈ done := by
          intro hne
          by_contra h
          exact hold (newLock_eq_true_iff.mpr ⟨fun hlast => h (mem_of_getLast? hlast), hne⟩)
        simp only [mem_append, or_true, not_true, and_false,
          mem_cons_self, true_and, false_iff, not_and, not_not]
        exact hlast
      · simp [hl]

/-! ## The second loop -/

theorem processed_unlockLoop (prev : Option Nat) (actv : List (Action α)) :
    processed (unlockLoop prev actv) = actv := by
  induction actv generalizing prev with
  | nil => rfl
  | cons act actv ih =>
    have ih : List.filterMap _ (unlockLoop (some act.lock) actv) = actv := ih _
    unfold unlockLoop
    split <;> simp [processed, ih]

theorem filterMap_unlockLoop
    (hunlock : ∀ l, f (.unlock l) = none) (hprocess : ∀ act, f (.onProcess act) = none)
    (prev : Option Nat) (actv : List (Action α)) : (unlockLoop prev actv).filterMap f = [] := by
  induction actv generalizing prev with
  | nil => rfl
  | cons act actv ih =>
    unfold unlockLoop
    split <;> simp [hunlock, hprocess, ih]

/-- A run of the second loop in which the actions that share a lock have been told apart. -/
theorem run_unlockLoop {prev : Option Nat} {actv : List (Action α)} (hu : Unshared actv)
    (hprev : ∀ l ∈ prev, l ≠ 0 → l ∉ locks actv) :
    Transition.run step (unlockLoop prev actv) (heldOf (locks actv)) = some (heldOf []) ∧
      released (unlockLoop prev actv) = (locks actv).filter (· ≠ 0) := by
  induction actv generalizing prev with
  | nil => exact ⟨rfl, rfl⟩
  | cons act actv ih =>
    obtain ⟨hact, hu⟩ := pairwise_cons.mp hu
    have hnext : ∀ l ∈ some act.lock, l ≠ 0 → l ∉ locks actv := by
      rintro l ⟨⟩ hl hmem
      obtain ⟨b, hb, hlock⟩ := mem_map.mp hmem
      exact hl (hact b hb hlock.symm)
    obtain ⟨hrun, hreleased⟩ := ih hu hnext
    have hprocess : act.lock = 0 ∨ heldOf (locks (act :: actv)) act.lock = true := by
      simp [heldOf, locks, Classical.em]
    have hhead : locks (act :: actv) = act.lock :: locks actv := rfl
    unfold unlockLoop
    rw [Transition.run_cons, step, if_pos hprocess, Option.bind_some]
    by_cases hzero : act.lock = 0
    · have hold : newLock prev act = false := by simp [newLock, hzero]
      have hsame : heldOf (locks (act :: actv)) = heldOf (locks actv) := by
        refine heldOf_congr fun l hl => ?_
        rw [hhead, mem_cons, hzero]
        simp [hl]
      rw [hold, hsame]
      refine ⟨hrun, ?_⟩
      rw [hhead, filter_cons_of_neg (by simp [hzero]), ← hreleased]
      rfl
    · have hnew : newLock prev act = true := by
        refine newLock_eq_true_iff.mpr ⟨fun h => ?_, hzero⟩
        exact hprev act.lock h hzero (by simp [hhead])
      have hheld : heldOf (act.lock :: locks actv) act.lock = true := by
        simp [heldOf, hzero]
      rw [hnew, if_pos rfl, singleton_append, Transition.run_cons, hhead, step,
        if_pos hheld, Option.bind_some, update_heldOf_false (hnext act.lock rfl hzero)]
      refine ⟨hrun, ?_⟩
      rw [filter_cons_of_pos (by simp [hzero]), ← hreleased]
      rfl

/-- When no callback of the second loop is refused, no two of the actions share a lock: the
lock of an action has been dropped when the loop gets to a later one that has it too. -/
theorem unshared_of_run_unlockLoop {prev : Option Nat} {actv : List (Action α)}
    {held held' : Nat → Bool} (h : Transition.run step (unlockLoop prev actv) held = some held')
    (hprev : ∀ l ∈ prev, l ≠ 0 → held l = false) :
    (∀ act ∈ actv, act.lock = 0 ∨ held act.lock = true) ∧ Unshared actv := by
  induction actv generalizing prev held with
  | nil => exact ⟨by simp, List.Pairwise.nil⟩
  | cons act actv ih =>
    unfold unlockLoop at h
    obtain ⟨mid, hmid, hrest⟩ := Transition.run_cons_eq_some_iff.mp h
    rw [step, Option.ite_none_right_eq_some] at hmid
    obtain ⟨hheld, rfl⟩ : (act.lock = 0 ∨ held act.lock = true) ∧ held = mid := by
      simpa using hmid
    by_cases hzero : act.lock = 0
    · have hold : newLock prev act = false := by simp [newLock, hzero]
      rw [hold] at hrest
      obtain ⟨hall, hu⟩ := ih hrest (by simp [hzero])
      exact ⟨forall_mem_cons.mpr ⟨hheld, hall⟩, pairwise_cons.mpr ⟨fun _ _ _ => hzero, hu⟩⟩
    · have hlocked : held act.lock = true := hheld.resolve_left hzero
      have hnew : newLock prev act = true := by
        refine newLock_eq_true_iff.mpr ⟨fun hlast => ?_, hzero⟩
        rw [hprev act.lock hlast hzero] at hlocked
        cases hlocked
      rw [hnew, if_pos rfl, singleton_append, Transition.run_cons, step, if_pos hlocked,
        Option.bind_some] at hrest
      obtain ⟨hall, hu⟩ := ih hrest (by simp)
      have hne : ∀ b ∈ actv, b.lock = 0 ∨ b.lock ≠ act.lock ∧ held b.lock = true := by
        intro b hb
        refine (hall b hb).imp_right fun hb => ?_
        by_cases hsame : b.lock = act.lock
        · simp [hsame] at hb
        · simpa [hsame] using hb
      refine ⟨forall_mem_cons.mpr ⟨hheld, fun b hb => (hne b hb).imp_right And.right⟩,
        pairwise_cons.mpr ⟨fun b hb hsame => ?_, hu⟩⟩
      rcases hne b hb with hb | hb
      · exact hsame.trans hb
      · exact absurd hsame.symm hb.1

/-! ## The trace -/

theorem run_append (es es' : List (Event α)) (held : Nat → Bool) :
    Transition.run step (es ++ es') held =
      (Transition.run step es held).bind (Transition.run step es') := by
  induction es generalizing held with
  | nil => rfl
  | cons e es ih =>
    rw [cons_append, Transition.run_cons, Transition.run_cons, Option.bind_assoc]
    congr 1
    funext held
    exact ih held

theorem run_onUnlock (actv : List (Action α)) :
    Transition.run step (actv.map Event.onUnlock) (heldOf []) = some (heldOf []) := by
  induction actv with
  | nil => rfl
  | cons act actv ih =>
    rw [map_cons, Transition.run_cons, step, if_neg (by simp [heldOf]), Option.bind_some, ih]

variable (qsort : Qsort (Action α) pallocActionCompare) (actv : List (Action α))

theorem locks_sort_pairwise : (locks (qsort.sort actv)).Pairwise (· ≤ ·) := by
  rw [locks, pairwise_map]
  exact (qsort.sorted actv).imp fun h => (pallocActionCompare_le_zero_iff _ _).mp h

theorem mem_locks_sort_iff (l : Nat) : l ∈ locks (qsort.sort actv) ↔ l ∈ locks actv :=
  ((qsort.perm actv).map _).mem_iff

theorem unshared_sort_iff : Unshared (qsort.sort actv) ↔ Unshared actv := by
  refine (qsort.perm actv).pairwise_iff ?_
  intro a b h hab
  exact hab.trans (h hab.symm)

theorem run_pallocExecActions :
    Transition.run step (pallocExecActions qsort actv) (fun _ => false) =
      (Transition.run step (unlockLoop none (qsort.sort actv))
        (heldOf (locks (qsort.sort actv)))).bind
          (Transition.run step ((qsort.sort actv).map .onUnlock)) := by
  have hsorted : ([] ++ locks (qsort.sort actv)).Pairwise (· ≤ ·) := by
    simpa using locks_sort_pairwise qsort actv
  have hfirst := run_lockLoop hsorted
  rw [nil_append, getLast?_nil] at hfirst
  unfold pallocExecActions
  rw [← heldOf_nil, append_assoc, run_append, hfirst, Option.bind_some, cons_append,
    cons_append, Transition.run_cons, step, Option.bind_some, Transition.run_cons, step,
    Option.bind_some, run_append]

theorem filterMap_pallocExecActions (hdrain : f .drain = none) (hfinish : f .finish = none) :
    (pallocExecActions qsort actv).filterMap f = (lockLoop none (qsort.sort actv)).filterMap f ++
        (unlockLoop none (qsort.sort actv)).filterMap f ++
          ((qsort.sort actv).map Event.onUnlock).filterMap f := by
  simp [pallocExecActions, hdrain, hfinish]

theorem execs_pallocExecActions : execs (pallocExecActions qsort actv) = qsort.sort actv := by
  have hfirst := execs_lockLoop none (qsort.sort actv)
  unfold execs at hfirst ⊢
  rw [filterMap_pallocExecActions _ _ rfl rfl, hfirst,
    filterMap_unlockLoop (fun _ => rfl) fun _ => rfl]
  simp

theorem processed_pallocExecActions :
    processed (pallocExecActions qsort actv) = qsort.sort actv := by
  have hsecond := processed_unlockLoop none (qsort.sort actv)
  unfold processed at hsecond ⊢
  rw [filterMap_pallocExecActions _ _ rfl rfl, hsecond,
    filterMap_lockLoop (fun _ => rfl) fun _ => rfl]
  simp

theorem finished_pallocExecActions : finished (pallocExecActions qsort actv) = qsort.sort actv := by
  unfold finished
  rw [filterMap_pallocExecActions _ _ rfl rfl, filterMap_lockLoop (fun _ => rfl) fun _ => rfl,
    filterMap_unlockLoop (fun _ => rfl) fun _ => rfl]
  simp

theorem taken_pallocExecActions :
    taken (pallocExecActions qsort actv) = taken (lockLoop none (qsort.sort actv)) := by
  unfold taken
  rw [filterMap_pallocExecActions _ _ rfl rfl, filterMap_unlockLoop (fun _ => rfl) fun _ => rfl]
  simp

theorem released_pallocExecActions :
    released (pallocExecActions qsort actv) = released (unlockLoop none (qsort.sort actv)) := by
  unfold released
  rw [filterMap_pallocExecActions _ _ rfl rfl, filterMap_lockLoop (fun _ => rfl) fun _ => rfl]
  simp

/-- Every vector of actions takes each of its locks once, in ascending order. -/
theorem pallocExecActions_takes :
    (taken (pallocExecActions qsort actv)).Pairwise (· < ·) ∧
      ∀ l, (taken (pallocExecActions qsort actv)).count l =
        if l ≠ 0 ∧ l ∈ locks actv then 1 else 0 := by
  have hsorted : ([] ++ locks (qsort.sort actv)).Pairwise (· ≤ ·) := by
    simpa using locks_sort_pairwise qsort actv
  obtain ⟨hasc, hmem⟩ := taken_lockLoop hsorted
  rw [getLast?_nil] at hasc hmem
  rw [taken_pallocExecActions]
  refine ⟨hasc, fun l => ?_⟩
  have hnodup : (taken (lockLoop none (qsort.sort actv))).Nodup := hasc.imp Nat.ne_of_lt
  rw [hnodup.count]
  simp [hmem, mem_locks_sort_iff]

variable {qsort actv}

theorem Disciplined.unshared (h : Disciplined actv (pallocExecActions qsort actv)) :
    Unshared actv := by
  have hrun := h.run
  rw [run_pallocExecActions, Option.bind_eq_some_iff] at hrun
  obtain ⟨held, hsecond, -⟩ := hrun
  rw [← unshared_sort_iff qsort actv]
  exact (unshared_of_run_unlockLoop hsecond (by simp)).2

variable (qsort actv)

/-- `palloc_exec_actions` keeps the lock discipline for the vectors in which no two actions
share a lock, and for no others. -/
theorem pallocExecActions_disciplined_iff :
    Disciplined actv (pallocExecActions qsort actv) ↔ Unshared actv := by
  refine ⟨Disciplined.unshared, fun hu => ?_⟩
  have hunshared : Unshared (qsort.sort actv) := (unshared_sort_iff qsort actv).mpr hu
  have hprev : ∀ l ∈ (none : Option Nat), l ≠ 0 → l ∉ locks (qsort.sort actv) := by simp
  obtain ⟨hrun, hreleased⟩ := run_unlockLoop hunshared hprev
  obtain ⟨hasc, htaken⟩ := pallocExecActions_takes qsort actv
  refine ⟨?_, ?_, ?_, ?_, htaken, ?_, hasc⟩
  · rw [run_pallocExecActions, hrun, Option.bind_some, run_onUnlock, heldOf_nil]
  · rw [execs_pallocExecActions]
    exact qsort.perm actv
  · rw [processed_pallocExecActions]
    exact qsort.perm actv
  · rw [finished_pallocExecActions]
    exact qsort.perm actv
  · intro l
    have hnodup : ((locks (qsort.sort actv)).filter (· ≠ 0)).Nodup := by
      rw [locks, List.Nodup, List.pairwise_filter, List.pairwise_map]
      refine hunshared.imp fun h ha _ hsame => ?_
      simp [h hsame] at ha
    rw [released_pallocExecActions, hreleased, hnodup.count]
    simp [mem_locks_sort_iff, and_comm]

/-- Two blocks of one run are freed: the second one is processed after the lock of the run has
been dropped. -/
theorem pallocExecActions_shared_lock :
    ¬ ∀ (qsort : Qsort (Action Bool) pallocActionCompare) (actv : List (Action Bool)),
      Disciplined actv (pallocExecActions qsort actv) := by
  intro h
  have hshared : ¬ Unshared [Action.mk 8 false, Action.mk 8 true] := by decide
  exact hshared (h Qsort.stable _).unshared

end Pmdk.ActionLocks
