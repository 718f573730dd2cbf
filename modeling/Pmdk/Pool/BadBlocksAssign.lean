import Pmdk.Pool.BadBlocksMerge

/-!
# Cutting the bad blocks of a part into pieces

As no bad block begins or ends inside of a piece, the pieces of a bad block are found one after
another where it begins, and no assertion of `sync_badblocks_assign_healthy_replica` fails.
-/

namespace Pmdk.Sync

variable {blocks : Nat → List BadBlock} {n lo hi offset left : Nat} {all bbs : List BadBlock}

theorem skipBefore_row (h : Row (Right blocks n) lo all hi) (hcov : Covers all offset)
    (hcut : ∃ g, g < n ∧ Cut blocks g offset) :
    ∃ all', skipBefore offset all = some all' ∧ Row (Right blocks n) offset all' hi ∧
      ∀ b, offset ≤ b → Covers all b → Covers all' b := by
  obtain ⟨g, hg, hcut⟩ := hcut
  induction all generalizing lo with
  | nil => exact absurd hcov covers_nil
  | cons pbb all ih =>
    have hrow := h
    obtain ⟨hlo, hlen, hright, hrest⟩ := h
    have hwhole := hright.whole g offset hg hcut
    rw [skipBefore]
    split
    · rename_i hlt
      have hcov' : Covers all offset := by
        refine (covers_cons.mp hcov).resolve_left fun hin => ?_
        have := hin.2
        omega
      have hne : all ≠ [] := by
        rintro rfl
        exact covers_nil hcov'
      rw [if_neg hne]
      obtain ⟨all', hskip, hrow', hcovers⟩ := ih hrest hcov'
      refine ⟨all', hskip, hrow', fun b hb hin => hcovers b hb ?_⟩
      refine (covers_cons.mp hin).resolve_left fun hin => ?_
      have := hin.2
      omega
    · rename_i hge
      exact ⟨pbb :: all, rfl, ⟨by omega, hrow.2⟩, fun b _ hin => hin⟩

theorem assignPieces_row (h : Row (Right blocks n) offset all hi)
    (hcov : ∀ b, offset ≤ b → b < offset + left → Covers all b)
    (hcut : ∃ g, g < n ∧ Cut blocks g (offset + left)) :
    ∃ pieces all' lo', assignPieces all offset left = some (pieces, all') ∧
      Row (Right blocks n) offset pieces (offset + left) ∧
      (∀ b, Covers pieces b ↔ offset ≤ b ∧ b < offset + left) ∧
      Row (Right blocks n) lo' all' hi ∧
      ∀ b, offset + left ≤ b → Covers all b → Covers all' b := by
  induction all generalizing offset left with
  | nil =>
    cases left with
    | zero =>
      exact ⟨[], [], offset, rfl, Nat.le_refl _,
        fun b => iff_of_false covers_nil fun hb => Nat.not_lt.mpr hb.1 hb.2, h,
        fun b _ hin => hin⟩
    | succ left => exact absurd (hcov offset (Nat.le_refl _) (by omega)) covers_nil
  | cons pbb all ih =>
    cases left with
    | zero =>
      exact ⟨[], pbb :: all, offset, rfl, Nat.le_refl _,
        fun b => iff_of_false covers_nil fun hb => Nat.not_lt.mpr hb.1 hb.2, h,
        fun b _ hin => hin⟩
    | succ left =>
      have hrow := h
      obtain ⟨hlo, hlen, hright, hrest⟩ := h
      have hoffset : pbb.offset = offset := by
        rcases covers_cons.mp (hcov offset (Nat.le_refl _) (by omega)) with hin | hin
        · have := hin.1
          omega
        · have := (hrest.covers hin).1
          omega
      obtain ⟨g, hg, hcut'⟩ := hcut
      have hend := hright.whole g _ hg hcut'
      have hpiece : (⟨offset, pbb.length, pbb.nhealthy⟩ : BadBlock) = pbb := by
        rw [← hoffset]
      have hfits : ¬(pbb.offset ≠ offset ∨ left + 1 < pbb.length) := by omega
      rw [assignPieces, if_neg hfits, hpiece]
      dsimp only
      split
      · rename_i hdone
        have hstop : pbb.offset + pbb.length ≤ offset + (left + 1) := by omega
        refine ⟨[pbb], pbb :: all, offset, rfl, ⟨hlo, hlen, hright, hstop⟩, fun b => ?_,
          hrow, fun b _ hin => hin⟩
        simp only [covers_cons, covers_nil, or_false, BadBlock.Has]
        omega
      · have hsum : offset + pbb.length + (left + 1 - pbb.length) = offset + (left + 1) := by
          omega
        rw [hoffset] at hrest
        obtain ⟨pieces, all', lo', heq, hpieces, hcovers, hall', hkeep⟩ := ih hrest
          (fun b hb hb' => by
            refine (covers_cons.mp (hcov b (by omega) (by omega))).resolve_left fun hin => ?_
            have := hin.2
            omega) ⟨g, hg, hsum ▸ hcut'⟩
        rw [hsum] at hpieces hcovers hkeep
        rw [heq]
        refine ⟨pbb :: pieces, all', lo', rfl, ⟨hlo, hlen, hright, hoffset ▸ hpieces⟩,
          fun b => ?_, hall', fun b hb hin => hkeep b hb ?_⟩
        · rw [covers_cons, hcovers b, BadBlock.Has]
          omega
        · refine (covers_cons.mp hin).resolve_left fun hin => ?_
          have := hin.2
          omega

/-- The bad blocks of a replica, or of one of its parts, are cut into pieces that are right. -/
theorem assignHealthyReplica_row {g : Nat} (hg : g < n) (hrow : Row Unmerged lo bbs hi)
    (hmem : ∀ bb ∈ bbs, bb ∈ blocks g) {lo' : Nat} (h : Row (Right blocks n) lo' all hi)
    (hcov : ∀ b, lo ≤ b → Bad blocks g b → Covers all b) :
    ∃ new all' lo₁ lo₂, assignHealthyReplica all bbs = some (new, all') ∧
      Row (Right blocks n) lo new lo₁ ∧ (∀ b, Covers new b ↔ Covers bbs b) ∧
      Row (Right blocks n) lo₂ all' hi ∧ (∀ bb ∈ bbs, bb.offset + bb.length ≤ lo₁) ∧ lo ≤ lo₁ ∧
      (∀ hi', (∀ bb ∈ bbs, bb.offset + bb.length ≤ hi') → lo ≤ hi' → lo₁ ≤ hi') ∧
      ∀ b, lo₁ ≤ b → Bad blocks g b → Covers all' b := by
  induction bbs generalizing lo lo' all with
  | nil =>
    exact ⟨[], all, lo, lo', rfl, Nat.le_refl lo, fun b => Iff.rfl,
      h, fun bb hbb => absurd hbb List.not_mem_nil, Nat.le_refl lo, fun _ _ hle => hle, hcov⟩
  | cons old bbs ih =>
    obtain ⟨hlo, hlen, -, hrest⟩ := hrow
    have hold := hmem old List.mem_cons_self
    have hbad : ∀ b, old.Has b → Bad blocks g b := fun b hb => ⟨old, hold, hb⟩
    obtain ⟨all₁, hskip, hrow₁, hkeep₁⟩ := skipBefore_row h
      (hcov old.offset hlo (hbad _ ⟨Nat.le_refl _, by omega⟩)) ⟨g, hg, old, hold, .inl rfl⟩
    obtain ⟨pieces, all₂, lo₂, hassign, hpieces, hcovers, hrow₂, hkeep₂⟩ :=
      assignPieces_row hrow₁ (fun b hb hb' => hkeep₁ b hb (hcov b (by omega)
        (hbad b ⟨hb, hb'⟩))) ⟨g, hg, old, hold, .inr rfl⟩
    obtain ⟨new, all₃, lo₃, lo₄, hrec, hnew, hcov₃, hrow₃, hends, hle, hleast, hkeep₃⟩ :=
      ih hrest (fun bb hbb => hmem bb (List.mem_cons_of_mem old hbb)) hrow₂
        fun b hb hbad => hkeep₂ b hb (hkeep₁ b (by omega) (hcov b (by omega) hbad))
    refine ⟨pieces ++ new, all₃, lo₃, lo₄, ?_, (hpieces.append hnew).mono_lo hlo, fun b => ?_,
      hrow₃, ?_, by omega, ?_, hkeep₃⟩
    · rw [assignHealthyReplica, hskip, Option.bind_eq_bind, Option.bind_some, hassign,
        Option.bind_eq_bind, Option.bind_some]
      dsimp only
      rw [hrec]
      rfl
    · rw [covers_append, hcovers b, covers_cons, hcov₃ b]
      exact Iff.rfl
    · intro bb hbb
      rcases List.mem_cons.mp hbb with rfl | hbb
      · exact hle
      · exact hends bb hbb
    · intro hi' hall hle'
      exact hleast hi' (fun bb hbb => hall bb (List.mem_cons_of_mem old hbb))
        (hall old List.mem_cons_self)

end Pmdk.Sync
