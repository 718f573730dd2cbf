import Mathlib.Data.Set.Card

/-!
# Orbits of a partial function

A loop whose state alone tells what comes next follows a partial function `next` from its first
state until there is no next one. `orbit` lists the states that it passes, within a fuel.
-/

namespace Orbit

variable {α : Type*} (next : α → Option α)

def orbit : Nat → α → Option (List α)
  | 0, _ => none
  | fuel + 1, a =>
    match next a with
    | none => some [a]
    | some b => (orbit fuel b).map (a :: ·)

abbrev Reaches : α → α → Prop := Relation.ReflTransGen fun a b => next a = some b

def Acyclic (a : α) : Prop :=
  ∀ b, Reaches next a b → ∀ c, next b = some c → ¬ Reaches next c b

variable {next} {a b c : α} {fuel : Nat} {l : List α}

theorem orbit_succ_of_none (h : next a = none) : orbit next (fuel + 1) a = some [a] := by
  simp [orbit, h]

theorem orbit_succ_of_some (h : next a = some b) :
    orbit next (fuel + 1) a = (orbit next fuel b).map (a :: ·) := by
  simp [orbit, h]

theorem reaches_iff_eq_of_none (h : next a = none) : Reaches next a b ↔ b = a := by
  constructor
  · intro hab
    rcases hab.cases_head with rfl | ⟨c, hac, -⟩
    · rfl
    · rw [h] at hac
      cases hac
  · rintro rfl
    exact .refl

theorem reaches_iff_of_some (h : next a = some c) :
    Reaches next a b ↔ b = a ∨ Reaches next c b := by
  constructor
  · intro hab
    rcases hab.cases_head with rfl | ⟨d, had, hdb⟩
    · exact .inl rfl
    · rw [h, Option.some.injEq] at had
      exact .inr (had ▸ hdb)
  · rintro (rfl | hcb)
    · exact .refl
    · exact .head h hcb

/-- A fuel that suffices for a state suffices for the states that it reaches. -/
theorem orbit_isSome_of_reaches (hab : Reaches next a b) (h : (orbit next fuel a).isSome) :
    (orbit next fuel b).isSome := by
  induction fuel generalizing a b with
  | zero => cases h
  | succ fuel ih =>
    rcases hab.cases_head with rfl | ⟨c, hac, hcb⟩
    · exact h
    · rw [orbit_succ_of_some hac, Option.isSome_map] at h
      cases hb : next b with
      | none =>
        rw [orbit_succ_of_none hb]
        rfl
      | some d =>
        rw [orbit_succ_of_some hb, Option.isSome_map]
        exact ih (hcb.tail hb) h

theorem orbit_isNone_of_cycle (hac : next a = some c) (hca : Reaches next c a) (fuel : Nat) :
    ¬ (orbit next fuel a).isSome := by
  induction fuel with
  | zero => simp [orbit]
  | succ fuel ih =>
    rw [orbit_succ_of_some hac, Option.isSome_map]
    exact fun h => ih (orbit_isSome_of_reaches hca h)

theorem acyclic_of_orbit (h : orbit next fuel a = some l) : Acyclic next a := by
  intro b hab c hbc hcb
  refine orbit_isNone_of_cycle hbc hcb fuel (orbit_isSome_of_reaches hab ?_)
  rw [h]
  rfl

theorem Acyclic.tail (h : Acyclic next a) (hac : next a = some c) : Acyclic next c :=
  fun b hcb d hbd => h b (.head hac hcb) d hbd

/-- An orbit ends when it never comes back to a state and finitely many states are reached. -/
theorem Acyclic.exists_orbit (h : Acyclic next a) (hfinite : {b | Reaches next a b}.Finite) :
    ∃ fuel l, orbit next fuel a = some l := by
  induction hcard : {b | Reaches next a b}.ncard using Nat.strong_induction_on generalizing a with
  | _ n ih =>
    cases hac : next a with
    | none => exact ⟨1, [a], orbit_succ_of_none hac⟩
    | some c =>
      have hsubset : {b | Reaches next c b} ⊂ {b | Reaches next a b} := by
        refine Set.ssubset_iff_subset_ne.mpr ⟨fun b hb => .head hac hb, fun heq => ?_⟩
        have ha : a ∈ {b | Reaches next c b} := heq ▸ .refl
        exact h a .refl c hac ha
      have hlt := Set.ncard_lt_ncard hsubset hfinite
      obtain ⟨fuel, l, hl⟩ :=
        ih _ (hcard ▸ hlt) (h.tail hac) (hfinite.subset hsubset.subset) rfl
      exact ⟨fuel + 1, a :: l, by rw [orbit_succ_of_some hac, hl]; rfl⟩

/-! ## First hits -/

section FirstHit

variable {f g : α → α} {A S : α → Prop} {x s : α} {i j n : Nat}

/-- The orbit of `x` is in `A` after `j` steps, and not before. -/
structure FirstHit (f : α → α) (A : α → Prop) (x : α) (j : Nat) : Prop where
  hit : A (f^[j] x)
  first : ∀ i < j, ¬ A (f^[i] x)

theorem exists_firstHit_iff : (∃ j < n, FirstHit f A x j) ↔ ∃ j < n, A (f^[j] x) := by
  classical
  constructor
  · rintro ⟨j, hj, h⟩
    exact ⟨j, hj, h.hit⟩
  · rintro ⟨j, hj, h⟩
    have hex : ∃ j, A (f^[j] x) := ⟨j, h⟩
    exact ⟨Nat.find hex, (Nat.find_min' hex h).trans_lt hj, Nat.find_spec hex,
      fun i hi => Nat.find_min hex hi⟩

theorem firstHit_succ : FirstHit f A x (j + 1) ↔ ¬ A x ∧ FirstHit f A (f x) j := by
  constructor
  · exact fun h => ⟨h.first 0 (Nat.succ_pos j), h.hit, fun i hi => h.first (i + 1) (by omega)⟩
  · rintro ⟨hx, h⟩
    refine ⟨h.hit, fun i hi => ?_⟩
    cases i with
    | zero => exact hx
    | succ i => exact h.first i (by omega)

theorem iterate_congr (h : ∀ i < j, f (f^[i] x) = g (f^[i] x)) (hi : i ≤ j) :
    g^[i] x = f^[i] x := by
  induction i with
  | zero => rfl
  | succ i ih =>
    rw [Function.iterate_succ_apply', Function.iterate_succ_apply', ih (by omega), h i hi]

theorem FirstHit.congr (h : FirstHit f A x j) (hfg : ∀ i < j, f (f^[i] x) = g (f^[i] x)) :
    FirstHit g A x j := by
  refine ⟨iterate_congr hfg (Nat.le_refl j) ▸ h.hit, fun i hi => ?_⟩
  rw [iterate_congr hfg (Nat.le_of_lt hi)]
  exact h.first i hi

theorem firstHit_congr (hfg : ∀ a, ¬ A a → f a = g a) : FirstHit f A x j ↔ FirstHit g A x j :=
  ⟨fun h => h.congr fun i hi => hfg _ (h.first i hi),
    fun h => h.congr fun i hi => (hfg _ (h.first i hi)).symm⟩

/-- It makes no difference to the first hits of an orbit whether it is sent back from `S` to its
first state, or held at a state of `S` that is not in `A`. -/
theorem firstHit_held (hs : S s) (hA : ¬ A s) (hf : ∀ a, S a → f a = x) (hg : ∀ a, S a → g a = s)
    (hfg : ∀ a, ¬ S a → f a = g a) : FirstHit f A x j ↔ FirstHit g A x j := by
  constructor
  · refine fun h => h.congr fun i hi => hfg _ fun hS => ?_
    -- the orbit repeats itself, so it has been in `A` before
    refine h.first (j - (i + 1)) (by omega) ?_
    have hit := h.hit
    rw [show j = j - (i + 1) + (i + 1) by omega, Function.iterate_add_apply,
      Function.iterate_succ_apply', hf _ hS] at hit
    exact hit
  · refine fun h => h.congr fun i hi => (hfg _ fun hS => hA ?_).symm
    have hit := h.hit
    rw [show j = j - (i + 1) + (i + 1) by omega, Function.iterate_add_apply,
      Function.iterate_succ_apply', hg _ hS, Function.iterate_fixed (hg s hs)] at hit
    exact hit

end FirstHit

end Orbit
