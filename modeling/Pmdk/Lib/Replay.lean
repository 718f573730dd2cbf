import Mathlib.Algebra.Order.Ring.Nat
import Mathlib.Data.List.Nodup

/-!
# Replaying a log of atomic operations

An operation on a state is atomic with respect to a family of observations if each of them either
does not see the operation or gets a value from it that does not depend on the state before.

A log of atomic operations may be replayed from any torn state, in which each observation is the one
after some prefix of the log (`obs_replay_of_torn`), and a replay may itself be interrupted any
number of times (`obs_replay_of_reflTransGen`).
-/

namespace Replay

variable {σ ι β : Type*} (obs : σ → ι → β)

def Skips (f : σ → σ) (i : ι) : Prop := ∀ s, obs (f s) i = obs s i

def Sets (f : σ → σ) (i : ι) : Prop := ∃ b, ∀ s, obs (f s) i = b

def Atomic (f : σ → σ) : Prop := ∀ i, Skips obs f i ∨ Sets obs f i

def replay (fs : List (σ → σ)) (s : σ) : σ := fs.foldl (fun s f => f s) s

@[simp] theorem replay_nil (s : σ) : replay [] s = s := rfl

/-- Each observation of `t` is the one after some prefix of the log, from the state `s`. -/
def Torn (fs : List (σ → σ)) (s t : σ) : Prop :=
  ∀ i, ∃ k, obs t i = obs (replay (fs.take k) s) i

variable {obs} {fs : List (σ → σ)} {i : ι}

theorem skips_replay (h : ∀ f ∈ fs, Skips obs f i) : Skips obs (replay fs) i := by
  induction fs with
  | nil => exact fun _ => rfl
  | cons f fs ih =>
    rw [List.forall_mem_cons] at h
    exact fun s => (ih h.2 (f s)).trans (h.1 s)

theorem sets_replay (hfs : ∀ f ∈ fs, Atomic obs f) (h : ∃ f ∈ fs, Sets obs f i) :
    Sets obs (replay fs) i := by
  induction fs with
  | nil => exact absurd h (by simp)
  | cons f fs ih =>
    rw [List.forall_mem_cons] at hfs
    by_cases hlater : ∃ g ∈ fs, Sets obs g i
    · obtain ⟨b, hb⟩ := ih hfs.2 hlater
      exact ⟨b, fun s => hb (f s)⟩
    · have hskips : Skips obs (replay fs) i :=
        skips_replay fun g hg => (hfs.2 g hg i).resolve_right fun hsets => hlater ⟨g, hg, hsets⟩
      obtain ⟨g, hg, b, hb⟩ := h
      rcases List.mem_cons.mp hg with rfl | hg
      · exact ⟨b, fun s => (hskips (g s)).trans (hb s)⟩
      · exact absurd ⟨g, hg, b, hb⟩ hlater

/-- A log that is replayed from a torn state has its whole effect. -/
theorem obs_replay_of_torn {s t : σ} (hfs : ∀ f ∈ fs, Atomic obs f) (h : Torn obs fs s t) :
    obs (replay fs t) = obs (replay fs s) := by
  funext i
  by_cases hsets : ∃ f ∈ fs, Sets obs f i
  · obtain ⟨b, hb⟩ := sets_replay hfs hsets
    rw [hb, hb]
  · have hskips : ∀ f ∈ fs, Skips obs f i :=
      fun f hf => (hfs f hf i).resolve_right fun hset => hsets ⟨f, hf, hset⟩
    obtain ⟨k, hk⟩ := h i
    rw [skips_replay hskips, skips_replay hskips, hk]
    exact skips_replay (fun f hf => hskips f (List.mem_of_mem_take hf)) s

theorem obs_replay_of_reflTransGen {s t : σ} (hfs : ∀ f ∈ fs, Atomic obs f)
    (h : Relation.ReflTransGen (Torn obs fs) s t) :
    obs (replay fs t) = obs (replay fs s) := by
  induction h with
  | refl => rfl
  | tail _ htorn ih => exact (obs_replay_of_torn hfs htorn).trans ih

end Replay

/-!
## Writes with one saved value each

An item writes its new value to a place and keeps the value that was there, in a slot of its own
that it overwrites whenever it is applied. Items with different slots are undone by writing the
saved values back in the reverse order, whatever places they share (`revertAll_applyAll`).
-/

namespace SavedValues

open List

variable {α ι σ β : Type*}

structure Access (α σ β : Type*) where
  get : α → σ → β
  set : α → β → σ → σ
  new : α → β
  set_get : ∀ a s, set a (get a s) (set a (new a) s) = s

def Access.put (p : Access α σ β) (s : σ) (a : α) : σ := p.set a (p.new a) s

variable [DecidableEq ι] (p : Access α σ β) (slot : α → ι)

def apply (s : σ × (ι → Option β)) (a : α) : σ × (ι → Option β) :=
  (p.put s.1 a, Function.update s.2 (slot a) (some (p.get a s.1)))

/-- Write the saved value; there is none before the first `apply`. -/
def revert (s : σ × (ι → Option β)) (a : α) : Option (σ × (ι → Option β)) :=
  (s.2 (slot a)).map fun x => (p.set a x s.1, s.2)

variable {p slot} {a : α} {as : List α} {s : σ × (ι → Option β)}

theorem foldl_apply_fst : (as.foldl (apply p slot) s).1 = as.foldl p.put s.1 := by
  induction as generalizing s with
  | nil => rfl
  | cons a as ih => exact ih

theorem foldl_apply_slot (h : slot a ∉ as.map slot) :
    (as.foldl (apply p slot) s).2 (slot a) = s.2 (slot a) := by
  induction as generalizing s with
  | nil => rfl
  | cons b as ih =>
    rw [map_cons, mem_cons, not_or] at h
    rw [foldl_cons, ih h.2]
    exact Function.update_of_ne h.1 _ _

theorem exists_foldl_apply_slot (h : (as.map slot).Nodup) (ha : a ∈ as) :
    ∃ x, (as.foldl (apply p slot) s).2 (slot a) = some (p.get a x) := by
  induction as generalizing s with
  | nil => exact absurd ha not_mem_nil
  | cons b as ih =>
    obtain ⟨hnot, hrest⟩ := nodup_cons.mp h
    rcases mem_cons.mp ha with rfl | ha
    · exact ⟨s.1, (foldl_apply_slot hnot).trans (Function.update_self _ _ _)⟩
    · exact ih hrest ha

theorem revertAll_applyAll (h : (as.map slot).Nodup) :
    as.reverse.foldlM (revert p slot) (as.foldl (apply p slot) s) =
      some (s.1, (as.foldl (apply p slot) s).2) := by
  induction as generalizing s with
  | nil => rfl
  | cons a as ih =>
    obtain ⟨hnot, hrest⟩ := nodup_cons.mp h
    rw [reverse_cons, foldlM_append, foldl_cons, ih hrest]
    have hslot := foldl_apply_slot (p := p) (s := apply p slot s a) hnot
    have hsaved : (apply p slot s a).2 (slot a) = some (p.get a s.1) :=
      Function.update_self _ _ _
    change (revert p slot _ a).bind some = _
    rw [revert, hslot, hsaved, Option.map_some, Option.bind_some]
    exact congrArg some (Prod.ext (p.set_get a s.1) rfl)

end SavedValues
