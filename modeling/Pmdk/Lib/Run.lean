import Mathlib.Algebra.Order.Ring.Nat
import Mathlib.Data.List.Basic

/-!
# Runs of partial transition systems

A partial transition function `step : α → σ → Option σ` answers an action with the next state, or
with `none` when the action is refused. `run step as s` plays a list of actions from `s` and is
refused as soon as one of them is.
-/

namespace Transition

open List

variable {σ α : Type*}

/-- Play a list of actions, stopping with `none` at the first one that is refused. -/
def run (step : α → σ → Option σ) : List α → σ → Option σ
  | [], s => some s
  | a :: as, s => (step a s).bind (run step as)

@[simp] theorem run_nil (step : α → σ → Option σ) (s : σ) : run step [] s = some s := rfl

theorem run_cons (step : α → σ → Option σ) (a : α) (as : List α) (s : σ) :
    run step (a :: as) s = (step a s).bind (run step as) := rfl

variable {as : List α} {s : σ}

variable {step : α → σ → Option σ} {t : σ} {G' : α → σ → Prop} {Inv : σ → Prop}

theorem run_cons_eq_some_iff {a : α} :
    run step (a :: as) s = some t ↔ ∃ u, step a s = some u ∧ run step as u = some t := by
  rw [run_cons, Option.bind_eq_some_iff]

theorem run_append (step : α → σ → Option σ) (as bs : List α) (s : σ) :
    run step (as ++ bs) s = (run step as s).bind (run step bs) := by
  induction as generalizing s with
  | nil => rfl
  | cons a as ih =>
    rw [cons_append, run_cons, run_cons, Option.bind_assoc]
    exact congrArg _ (funext ih)

/-- Every action of the run meets `G` in the state from which it is taken. -/
def Guarded (step : α → σ → Option σ) (G : α → σ → Prop) : List α → σ → Prop
  | [], _ => True
  | a :: as, s => G a s ∧
      match step a s with
      | none => True
      | some u => Guarded step G as u

variable {G : α → σ → Prop}

theorem Guarded.tail {a : α} {u : σ}
    (h : Guarded step G (a :: as) s) (hu : step a s = some u) : Guarded step G as u := by
  have htail := h.2
  rw [hu] at htail
  exact htail

theorem Guarded.of_forall (h : ∀ a s, G a s) (as : List α) (s : σ) : Guarded step G as s := by
  induction as generalizing s with
  | nil => trivial
  | cons a as ih =>
    refine ⟨h a s, ?_⟩
    cases step a s with
    | none => trivial
    | some u => exact ih u

theorem Guarded.of_forall_mem (h : ∀ a ∈ as, ∀ s, G a s) (s : σ) : Guarded step G as s := by
  induction as generalizing s with
  | nil => trivial
  | cons a as ih =>
    refine ⟨h a mem_cons_self s, ?_⟩
    cases step a s with
    | none => trivial
    | some u => exact ih (fun b hb => h b (mem_cons_of_mem a hb)) u

theorem Guarded.and (h : Guarded step G as s) (h' : Guarded step G' as s) :
    Guarded step (fun a s => G a s ∧ G' a s) as s := by
  induction as generalizing s with
  | nil => trivial
  | cons a as ih =>
    refine ⟨⟨h.1, h'.1⟩, ?_⟩
    cases hstep : step a s with
    | none => trivial
    | some u => exact ih (h.tail hstep) (h'.tail hstep)

theorem Guarded.append {bs : List α}
    (h : Guarded step G as s) (hrest : ∀ t, run step as s = some t → Guarded step G bs t) :
    Guarded step G (as ++ bs) s := by
  induction as generalizing s with
  | nil => exact hrest s rfl
  | cons a as ih =>
    refine ⟨h.1, ?_⟩
    cases hstep : step a s with
    | none => trivial
    | some u =>
      refine ih (h.tail hstep) fun t ht => hrest t ?_
      rw [run_cons, hstep]
      exact ht

instance Guarded.decidable (step : α → σ → Option σ) (G : α → σ → Prop)
    [∀ a s, Decidable (G a s)] : ∀ (as : List α) (s : σ), Decidable (Guarded step G as s)
  | [], _ => isTrue trivial
  | a :: as, s =>
    @instDecidableAnd _ _ inferInstance
      (match step a s with
        | none => isTrue trivial
        | some u => Guarded.decidable step G as u)

/-- Guards that agree wherever an invariant holds agree along the runs from there, if the guarded
steps keep the invariant. -/
theorem guarded_congr (hcongr : ∀ a s, Inv s → (G a s ↔ G' a s))
    (hstep : ∀ a s t, Inv s → G a s → step a s = some t → Inv t) (as : List α)
    (hs : Inv s) : Guarded step G as s ↔ Guarded step G' as s := by
  induction as generalizing s with
  | nil => exact Iff.rfl
  | cons a as ih =>
    refine Iff.trans (and_congr_right fun ha => ?_) (and_congr_left' (hcongr a s hs))
    cases hu : step a s with
    | none => exact Iff.rfl
    | some u => exact ih (hstep a s u hs ha hu)

theorem Guarded.imp (himp : ∀ a s, Inv s → G a s → G' a s)
    (hstep : ∀ a s t, Inv s → G a s → step a s = some t → Inv t) (hG : Guarded step G as s)
    (hs : Inv s) : Guarded step G' as s := by
  induction as generalizing s with
  | nil => trivial
  | cons a as ih =>
    refine ⟨himp a s hs hG.1, ?_⟩
    cases hu : step a s with
    | none => trivial
    | some u => exact ih (hG.tail hu) (hstep a s u hs hG.1 hu)

theorem run_invariant (hstep : ∀ a ∈ as, ∀ s t, Inv s → G a s → step a s = some t → Inv t)
    (hG : Guarded step G as s) (hs : Inv s) (h : run step as s = some t) : Inv t := by
  induction as generalizing s with
  | nil =>
    rw [run_nil, Option.some.injEq] at h
    exact h ▸ hs
  | cons a as ih =>
    obtain ⟨u, hu, hrest⟩ := run_cons_eq_some_iff.mp h
    have hinv : Inv u := hstep a mem_cons_self s u hs hG.1 hu
    exact ih (fun b hb => hstep b (mem_cons_of_mem a hb)) (hG.tail hu) hinv hrest

/-- A specification relates the observations before and after each action; `Traces` composes
it over a list of actions. -/
def Traces {τ : Type*} (spec : α → τ → τ → Prop) : List α → τ → τ → Prop
  | [], x, y => x = y
  | a :: as, x, z => ∃ y, spec a x y ∧ Traces spec as y z

/-- If every step is matched by one of the specification, then so is a run. -/
theorem run_traces {τ : Type*} {spec : α → τ → τ → Prop} {R : σ → τ → Prop}
    (hstep : ∀ a ∈ as, ∀ s t x, R s x → step a s = some t → ∃ y, spec a x y ∧ R t y)
    {x : τ} (hs : R s x) (h : run step as s = some t) : ∃ y, Traces spec as x y ∧ R t y := by
  induction as generalizing s x with
  | nil =>
    rw [run_nil, Option.some.injEq] at h
    exact ⟨x, rfl, h ▸ hs⟩
  | cons a as ih =>
    obtain ⟨u, hu, hrest⟩ := run_cons_eq_some_iff.mp h
    obtain ⟨y, hspec, hy⟩ := hstep a mem_cons_self s u x hs hu
    obtain ⟨z, htraces, hz⟩ := ih (fun b hb => hstep b (mem_cons_of_mem a hb)) hy hrest
    exact ⟨z, ⟨y, hspec, htraces⟩, hz⟩

/-! ## Loops -/

/-- What one turn of a loop establishes and the other turns keep holds after the loop. -/
theorem foldl_of_mem {β γ : Type*} {f : β → γ → β} {I Q : β → Prop} {l : List γ} {c : γ} {b : β}
    (hI : I b) (hstep : ∀ b, I b → ∀ c ∈ l, I (f b c)) (hset : ∀ b, I b → Q (f b c))
    (hkeep : ∀ b, I b → Q b → ∀ c ∈ l, Q (f b c)) (hc : c ∈ l) : Q (l.foldl f b) := by
  obtain ⟨l₁, l₂, rfl⟩ := append_of_mem hc
  have hbefore : I (l₁.foldl f b) :=
    List.foldlRecOn l₁ f hI fun b hb a ha => hstep b hb a (mem_append_left _ ha)
  have hat : I (f (l₁.foldl f b) c) := hstep _ hbefore c hc
  have hafter : I (l₂.foldl f (f (l₁.foldl f b) c)) ∧ Q (l₂.foldl f (f (l₁.foldl f b) c)) :=
    List.foldlRecOn (motive := fun b => I b ∧ Q b) l₂ f ⟨hat, hset _ hbefore⟩ fun b hb a ha =>
      have ha := mem_append_right l₁ (mem_cons_of_mem c ha)
      ⟨hstep b hb.1 a ha, hkeep b hb.1 hb.2 a ha⟩
  rw [foldl_append, foldl_cons]
  exact hafter.2

end Transition
