import Mathlib.Algebra.Order.Ring.Nat

/-!
# Sequences of assignments

`assign ws f` performs the assignments `ws` on the function `f` in order. `assign_comp` moves a
sequence of assignments along a map that is injective on the arguments in question.

`copyAll ms f` copies values from place to place. A place that is not overwritten before it is read
hands its initial value on (`copyAll_at`).
-/

namespace Assign

open Function List

variable {α β γ : Type*} [DecidableEq α] [DecidableEq γ]

def assign (ws : List (α × β)) (f : α → β) : α → β :=
  ws.foldl (fun f w => update f w.1 w.2) f

@[simp] theorem assign_nil (f : α → β) : assign [] f = f := rfl

@[simp] theorem assign_cons (w : α × β) (ws : List (α × β)) (f : α → β) :
    assign (w :: ws) f = assign ws (update f w.1 w.2) := rfl

theorem assign_append (ws ws' : List (α × β)) (f : α → β) :
    assign (ws ++ ws') f = assign ws' (assign ws f) := by
  simp [assign]

variable {ws : List (α × β)} {a : α}

theorem assign_of_forall_ne (f : α → β) (h : ∀ w ∈ ws, w.1 ≠ a) : assign ws f a = f a := by
  induction ws generalizing f with
  | nil => rfl
  | cons w ws ih =>
    rw [forall_mem_cons] at h
    rw [assign_cons, ih _ h.2, update_of_ne h.1.symm]

theorem assign_of_forall_eq {v : β} {f : α → β}
    (h : ∀ w ∈ ws, w.1 = a → w.2 = v) (hf : (∃ w ∈ ws, w.1 = a) ∨ f a = v) : assign ws f a = v := by
  induction ws generalizing f with
  | nil =>
    rcases hf with ⟨w, hw, -⟩ | hf
    · exact absurd hw not_mem_nil
    · exact hf
  | cons w ws ih =>
    rw [forall_mem_cons] at h
    rw [assign_cons]
    apply ih h.2
    by_cases hw : w.1 = a
    · refine .inr ?_
      rw [← hw, update_self, h.1 hw]
    · rw [update_of_ne (Ne.symm hw)]
      exact hf.imp_left fun ⟨w', hw', ha⟩ =>
        ⟨w', (mem_cons.mp hw').resolve_left fun heq => hw (heq ▸ ha), ha⟩

theorem assign_comm {ws' : List (α × β)} (f : α → β) (h : ∀ w ∈ ws, ∀ w' ∈ ws', w.1 ≠ w'.1) :
    assign ws (assign ws' f) = assign ws' (assign ws f) := by
  induction ws' generalizing f with
  | nil => rfl
  | cons w' ws' ih =>
    have hws' : ∀ w ∈ ws, ∀ x ∈ ws', w.1 ≠ x.1 := fun w hw x hx =>
      h w hw x (mem_cons_of_mem w' hx)
    have hw' : ∀ w ∈ ws, w.1 ≠ w'.1 := fun w hw => h w hw w' mem_cons_self
    have hupdate : ∀ g : α → β, assign ws (update g w'.1 w'.2) =
        update (assign ws g) w'.1 w'.2 := by
      intro g
      clear ih h hws'
      induction ws generalizing g with
      | nil => rfl
      | cons w ws ih =>
        rw [forall_mem_cons] at hw'
        rw [assign_cons, assign_cons, update_comm hw'.1.symm, ih hw'.2]
    rw [assign_cons, assign_cons, ih _ hws', hupdate]

theorem assign_comp {s : Set γ} {addr : γ → α} (hinj : Set.InjOn addr s) {f : α → β} {g : γ → β}
    (hfg : ∀ c ∈ s, f (addr c) = g c) (ws : List (γ × β)) (hws : ∀ w ∈ ws, w.1 ∈ s) :
    ∀ c ∈ s, assign (ws.map fun w => (addr w.1, w.2)) f (addr c) = assign ws g c := by
  induction ws generalizing f g with
  | nil => exact hfg
  | cons w ws ih =>
    rw [forall_mem_cons] at hws
    rw [map_cons, assign_cons, assign_cons]
    apply ih ?_ hws.2
    intro c hc
    by_cases hcw : c = w.1
    · rw [hcw, update_self, update_self]
    · have hne : addr c ≠ addr w.1 := fun h => hcw (hinj hc hws.1 h)
      rw [update_of_ne hne, update_of_ne hcw, hfg c hc]

/-! ## Copies -/

variable {ms : List (α × α)} {f g : α → β}

def copyAll (ms : List (α × α)) (f : α → β) : α → β :=
  ms.foldl (fun f m => update f m.1 (f m.2)) f

@[simp] theorem copyAll_cons (m : α × α) (ms : List (α × α)) (f : α → β) :
    copyAll (m :: ms) f = copyAll ms (update f m.1 (f m.2)) := rfl

theorem copyAll_append (ms ms' : List (α × α)) (f : α → β) :
    copyAll (ms ++ ms') f = copyAll ms' (copyAll ms f) := foldl_append

theorem copyAll_of_forall_ne (f : α → β) (h : ∀ m ∈ ms, m.1 ≠ a) : copyAll ms f a = f a := by
  induction ms generalizing f with
  | nil => rfl
  | cons m ms ih =>
    rw [forall_mem_cons] at h
    rw [copyAll_cons, ih _ h.2, update_of_ne h.1.symm]

theorem copyAll_at {pre post : List (α × α)} {m : α × α} (hpre : ∀ m' ∈ pre, m'.1 ≠ m.2)
    (hpost : ∀ m' ∈ post, m'.1 ≠ m.1) (f : α → β) : copyAll (pre ++ m :: post) f m.1 = f m.2 := by
  rw [copyAll_append, copyAll_cons, copyAll_of_forall_ne _ hpost, update_self,
    copyAll_of_forall_ne f hpre]

theorem copyAll_congr {s : Set α} (hread : ∀ m ∈ ms, m.2 ∉ s) (hfg : ∀ a ∉ s, f a = g a) :
    ∀ a ∉ s, copyAll ms f a = copyAll ms g a := by
  induction ms generalizing f g with
  | nil => exact hfg
  | cons m ms ih =>
    rw [forall_mem_cons] at hread
    refine ih hread.2 fun a ha => ?_
    dsimp only
    rw [hfg m.2 hread.1]
    by_cases ham : a = m.1
    · rw [ham, update_self, update_self]
    · rw [update_of_ne ham, update_of_ne ham, hfg a ha]

/-- A value that one copy reads, and that is not read again at its new place, gets no further. -/
theorem copyAll_read_once {pre post : List (α × α)} {m : α × α} (hpre : ∀ m' ∈ pre, m'.2 ≠ m.2)
    (hpost : ∀ m' ∈ post, m'.2 ≠ m.2 ∧ m'.2 ≠ m.1) (hfg : ∀ a, a ≠ m.2 → f a = g a)
    (hsrc : a ≠ m.2) (hdst : a ≠ m.1) :
    copyAll (pre ++ m :: post) f a = copyAll (pre ++ m :: post) g a := by
  rw [copyAll_append, copyAll_append, copyAll_cons, copyAll_cons]
  have hbefore : ∀ a ∉ ({m.2} : Set α), copyAll pre f a = copyAll pre g a :=
    copyAll_congr (fun m' hm' => hpre m' hm') hfg
  refine copyAll_congr (s := {m.2, m.1}) (fun m' hm' hmem => ?_) (fun b hb => ?_) a
    (fun hmem => hmem.elim hsrc hdst)
  · exact hmem.elim (hpost m' hm').1 (hpost m' hm').2
  · rw [Set.mem_insert_iff, not_or] at hb
    rw [update_of_ne hb.2, update_of_ne hb.2, hbefore b hb.1]

end Assign
