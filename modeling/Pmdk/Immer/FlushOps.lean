import Mathlib.Data.List.Dedup
import Mathlib.Data.List.Perm.Subperm
import Mathlib.Data.List.Range
import Mathlib.Data.List.TakeWhile
import Pmdk.Lib.Run

/-!
# Deferred flushing

`persistRange` gathers the cache lines of a range in the set of the lines to flush, and a last call
with `finalize` flushes them. The flag `unique` belongs to the whole range and not to the line: once
a line of the range is found in the set, the lines of the range that come after it are not gathered.
-/

namespace Pmdk.FlushOps

open Transition List

/-! ## The code -/

def cacheLineSize : Nat := 64

def setSize : Nat := 100

structure Range where
  ptr : Nat
  len : Nat
deriving DecidableEq

def Range.starts (r : Range) : List Nat :=
  List.range' (r.ptr / cacheLineSize * cacheLineSize)
    ((r.ptr % cacheLineSize + r.len + (cacheLineSize - 1)) / cacheLineSize) cacheLineSize

/-- The loop over a range. It fails where the assertion on `cnt` does. -/
def persistLoop : List Nat → Bool → List Nat → Option (List Nat)
  | [], _, linesToFlush => some linesToFlush
  | start :: rest, unique, linesToFlush =>
    if unique && !linesToFlush.contains start then
      if linesToFlush.length < setSize then persistLoop rest true (linesToFlush ++ [start])
      else none
    else persistLoop rest false linesToFlush

def persistRange (r : Range) (finalize : Bool) (linesToFlush : List Nat) :
    Option (List Nat × List Nat) :=
  if finalize = false then (persistLoop r.starts true linesToFlush).map fun lines => ([], lines)
  else some (linesToFlush, [])

def persist (r : Range) (linesToFlush : List Nat) : Option (List Nat) :=
  (persistRange r false linesToFlush).map Prod.snd

/-! ## What is to be flushed -/

def Range.lines (r : Range) : List Nat :=
  (List.range r.len).map fun i => (r.ptr + i) / cacheLineSize * cacheLineSize

def lines (rs : List Range) : List Nat := rs.flatMap Range.lines

def Fits (rs : List Range) : Prop := (lines rs).dedup.length ≤ setSize

def Flushes (rs : List Range) : Prop :=
  ∃ linesToFlush flushed, run persist rs [] = some linesToFlush ∧
    persistRange ⟨0, 0⟩ true linesToFlush = some (flushed, []) ∧
    flushed.Nodup ∧ ∀ line, line ∈ flushed ↔ line ∈ lines rs

def Suits (earlier : List Range) (r : Range) : Prop :=
  (∀ line ∈ r.starts, line ∈ lines earlier →
    ∀ line' ∈ r.starts, line < line' → line' ∈ lines earlier) ∧
    (r.len = 0 → ∀ line ∈ r.starts, line ∈ lines earlier)

instance (rs : List Range) : Decidable (Fits rs) :=
  inferInstanceAs (Decidable ((lines rs).dedup.length ≤ setSize))

variable {r : Range} {rs : List Range} {pending : List Nat} {line : Nat}

/-! ## Lines of a range -/

theorem Range.mem_starts_iff : line ∈ r.starts ↔
    cacheLineSize ∣ line ∧ r.ptr / cacheLineSize * cacheLineSize ≤ line ∧ line < r.ptr + r.len := by
  rw [Range.starts, List.mem_range']
  have hdiv := Nat.div_add_mod' r.ptr cacheLineSize
  simp only [cacheLineSize] at hdiv ⊢
  constructor
  · rintro ⟨i, hi, rfl⟩
    exact ⟨by omega, by omega, by omega⟩
  · rintro ⟨⟨k, rfl⟩, hle, hlt⟩
    exact ⟨k - r.ptr / 64, by omega, by omega⟩

theorem Range.mem_lines_iff : line ∈ r.lines ↔
    ∃ i < r.len, (r.ptr + i) / cacheLineSize * cacheLineSize = line := by
  simp [Range.lines]

theorem Range.mem_starts_iff_mem_lines (h : 0 < r.len) : line ∈ r.starts ↔ line ∈ r.lines := by
  rw [Range.mem_starts_iff, Range.mem_lines_iff]
  simp only [cacheLineSize]
  constructor
  · rintro ⟨⟨k, rfl⟩, hle, hlt⟩
    by_cases hptr : r.ptr ≤ 64 * k
    · exact ⟨64 * k - r.ptr, by omega, by omega⟩
    · exact ⟨0, h, by omega⟩
  · rintro ⟨i, hi, rfl⟩
    exact ⟨by omega, by omega, by omega⟩

theorem Range.lines_subset_starts : r.lines ⊆ r.starts := by
  intro line hline
  obtain ⟨i, hi, -⟩ := Range.mem_lines_iff.mp hline
  exact (Range.mem_starts_iff_mem_lines (Nat.zero_lt_of_lt hi)).mpr hline

theorem Range.lines_eq_nil (h : r.len = 0) : r.lines = [] := by
  simp [Range.lines, h]

theorem Range.pairwise_starts (r : Range) : r.starts.Pairwise (· < ·) :=
  List.pairwise_lt_range' _ (by decide : 0 < cacheLineSize)

@[simp] theorem lines_append (rs rs' : List Range) : lines (rs ++ rs') = lines rs ++ lines rs' :=
  flatMap_append

@[simp] theorem lines_singleton (r : Range) : lines [r] = r.lines := by
  simp [lines]

theorem Fits.mono {rs rs' : List Range} (h : Fits rs) (hpre : rs' <+: rs) : Fits rs' := by
  obtain ⟨qs, rfl⟩ := hpre
  have hsub : (lines rs').dedup ⊆ (lines (rs' ++ qs)).dedup := by
    intro line hline
    rw [mem_dedup] at hline ⊢
    rw [lines_append]
    exact mem_append_left _ hline
  exact ((nodup_dedup (lines rs')).subperm hsub).length_le.trans h

/-! ## The loop -/

theorem persistLoop_false (starts pending : List Nat) :
    persistLoop starts false pending = some pending := by
  induction starts with
  | nil => rfl
  | cons start rest ih => simpa [persistLoop] using ih

def gathered (pending starts : List Nat) : List Nat :=
  starts.takeWhile fun start => !pending.contains start

theorem persistLoop_append_eq_some_iff {starts pending' : List Nat} (gained : List Nat)
    (hnodup : (gained ++ starts).Nodup) :
    persistLoop starts true (pending ++ gained) = some pending' ↔
      pending ++ gained ++ gathered pending starts = pending' ∧
        (gathered pending starts = [] ∨ pending'.length ≤ setSize) := by
  induction starts generalizing gained with
  | nil => simp [persistLoop, gathered]
  | cons start rest ih =>
    have hgained : start ∉ gained := fun h =>
      disjoint_of_nodup_append hnodup h mem_cons_self
    by_cases hmem : start ∈ pending
    · simp [persistLoop, gathered, hmem, persistLoop_false]
    · have hgathered : gathered pending (start :: rest) = start :: gathered pending rest := by
        simp [gathered, hmem]
      have hnew : (!(pending ++ gained).contains start) = true := by simp [hmem, hgained]
      rw [persistLoop, hnew, hgathered, Bool.and_self, if_pos rfl, append_assoc pending,
        Option.ite_none_right_eq_some, ih (gained ++ [start]) (by simpa using hnodup)]
      simp only [append_assoc, cons_append, nil_append, reduceCtorEq, false_or]
      constructor
      · rintro ⟨hlt, rfl, hlength⟩
        refine ⟨rfl, ?_⟩
        rcases hlength with hnil | hlength
        · simp only [hnil, length_append, length_cons, length_nil] at hlt ⊢
          omega
        · exact hlength
      · rintro ⟨rfl, hlength⟩
        refine ⟨?_, rfl, .inr hlength⟩
        simp only [length_append, length_cons] at hlength ⊢
        omega

theorem persist_eq_some_iff {pending' : List Nat} : persist r pending = some pending' ↔
    pending ++ gathered pending r.starts = pending' ∧
      (gathered pending r.starts = [] ∨ pending'.length ≤ setSize) := by
  have hnodup : ([] ++ r.starts).Nodup := r.pairwise_starts.imp ne_of_lt
  have h : persistLoop r.starts true (pending ++ []) = some pending' ↔ _ :=
    persistLoop_append_eq_some_iff [] hnodup
  simp only [append_nil] at h
  simp [persist, persistRange, h]

/-! ## One call after the others -/

def Gathers (rs : List Range) (linesToFlush : List Nat) : Prop :=
  linesToFlush.Nodup ∧ ∀ line, line ∈ linesToFlush ↔ line ∈ lines rs

theorem flushes_iff : Flushes rs ↔ ∃ linesToFlush, run persist rs [] = some linesToFlush ∧
    Gathers rs linesToFlush := by
  constructor
  · rintro ⟨linesToFlush, flushed, hrun, hflush, hgathers⟩
    cases hflush
    exact ⟨linesToFlush, hrun, hgathers⟩
  · rintro ⟨linesToFlush, hrun, hgathers⟩
    exact ⟨linesToFlush, linesToFlush, hrun, rfl, hgathers⟩

theorem Gathers.length_le (h : Gathers rs pending) (hfits : Fits rs) :
    pending.length ≤ setSize := by
  have hsub : pending ⊆ (lines rs).dedup := by
    intro line hline
    exact mem_dedup.mpr ((h.2 line).mp hline)
  exact (h.1.subperm hsub).length_le.trans hfits

/-- Before the first line that is found there are only lines that are not. -/
theorem mem_gathered_iff {starts : List Nat} (hsorted : starts.Pairwise (· < ·)) :
    line ∈ gathered pending starts ↔
      line ∈ starts ∧ ∀ line' ∈ starts, line' ≤ line → line' ∉ pending := by
  induction starts with
  | nil => simp [gathered]
  | cons start rest ih =>
    obtain ⟨hfirst, hrest⟩ := pairwise_cons.mp hsorted
    have hle : ∀ line ∈ start :: rest, start ≤ line := by
      intro line hline
      rcases mem_cons.mp hline with rfl | hline
      · exact le_rfl
      · exact (hfirst line hline).le
    have ih := ih hrest
    rw [gathered] at ih ⊢
    by_cases hmem : start ∈ pending
    · simp only [takeWhile_cons, contains_eq_mem, hmem, decide_true, Bool.not_true,
        Bool.false_eq_true, if_false, not_mem_nil, false_iff]
      rintro ⟨hline, hbefore⟩
      exact hbefore start mem_cons_self (hle line hline) hmem
    · simp only [takeWhile_cons, contains_eq_mem, hmem, decide_false, Bool.not_false,
        if_true, mem_cons, forall_eq_or_imp, not_false_eq_true, implies_true, true_and] at ih ⊢
      constructor
      · rintro (rfl | hline)
        · exact ⟨.inl rfl, fun line' hline' hle' => absurd (hfirst line' hline') hle'.not_gt⟩
        · obtain ⟨hline, hbefore⟩ := ih.mp hline
          exact ⟨.inr hline, hbefore⟩
      · rintro ⟨rfl | hline, hbefore⟩
        · exact .inl rfl
        · exact .inr (ih.mpr ⟨hline, hbefore⟩)

/-- The lines of the range come to the set, if and only if the new ones are before the others. -/
theorem Gathers.append_iff (h : Gathers rs pending) :
    Gathers (rs ++ [r]) (pending ++ gathered pending r.starts) ↔ Suits rs r := by
  obtain ⟨hnodup, hpending⟩ := h
  have hempty : ∀ line ∈ r.starts, r.len = 0 → line = r.ptr / cacheLineSize * cacheLineSize := by
    intro line hline hlen
    obtain ⟨hdvd, hle, hlt⟩ := Range.mem_starts_iff.mp hline
    simp only [cacheLineSize] at hdvd hle ⊢
    omega
  constructor
  · rintro ⟨-, hlines⟩
    simp only [mem_append, lines_append, lines_singleton, mem_gathered_iff r.pairwise_starts,
      hpending] at hlines
    refine ⟨?_, ?_⟩
    · intro line hline hearlier line' hline' hlt
      by_contra hnew
      have hlen : 0 < r.len := by
        by_contra hlen
        rw [hempty line hline (by omega), hempty line' hline' (by omega)] at hlt
        exact lt_irrefl _ hlt
      have hr := (Range.mem_starts_iff_mem_lines hlen).mp hline'
      obtain hpend | ⟨-, hbefore⟩ := (hlines line').mpr (.inr hr)
      · exact hnew hpend
      · exact hbefore line hline hlt.le hearlier
    · intro hlen line hline
      by_contra hnew
      have hgathered : ∀ line' ∈ r.starts, line' ≤ line → line' ∉ lines rs := by
        intro line' hline' _
        rwa [hempty line' hline' hlen, ← hempty line hline hlen]
      rcases (hlines line).mp (.inr ⟨hline, hgathered⟩) with hearlier | hr
      · exact hnew hearlier
      · simp [Range.lines_eq_nil hlen] at hr
  · rintro ⟨hbehind, hzero⟩
    refine ⟨?_, fun line => ?_⟩
    · refine nodup_append.mpr ⟨hnodup, ?_, ?_⟩
      · exact (r.pairwise_starts.sublist (takeWhile_sublist _)).imp ne_of_lt
      · rintro line hline line' hline' rfl
        exact ((mem_gathered_iff r.pairwise_starts).mp hline').2 line
          ((mem_gathered_iff r.pairwise_starts).mp hline').1 le_rfl hline
    · rw [mem_append, lines_append, lines_singleton, mem_append,
        mem_gathered_iff r.pairwise_starts, hpending]
      constructor
      · rintro (hearlier | ⟨hline, -⟩)
        · exact .inl hearlier
        · rcases Nat.eq_zero_or_pos r.len with hlen | hlen
          · exact .inl (hzero hlen line hline)
          · exact .inr ((Range.mem_starts_iff_mem_lines hlen).mp hline)
      · rintro (hearlier | hr)
        · exact .inl hearlier
        · have hline := Range.lines_subset_starts hr
          by_cases hearlier : line ∈ lines rs
          · exact .inl hearlier
          · refine .inr ⟨hline, fun line' hline' hle hpend => hearlier ?_⟩
            rcases hle.eq_or_lt with rfl | hlt
            · exact (hpending line').mp hpend
            · exact hbehind line' hline' ((hpending line').mp hpend) line hline hlt

/-! ## All the calls -/

/-- One more call flushes its lines with the others, if and only if the new ones are first. -/
theorem flushes_append_iff (hfits : Fits (rs ++ [r])) (h : Flushes rs) :
    Flushes (rs ++ [r]) ↔ Suits rs r := by
  obtain ⟨pending, hrun, hgathers⟩ := flushes_iff.mp h
  rw [flushes_iff, run_append, hrun, Option.bind_some]
  constructor
  · rintro ⟨pending', hrun', hgathers'⟩
    obtain ⟨u, hu, hlast⟩ := run_cons_eq_some_iff.mp hrun'
    cases hlast
    obtain ⟨rfl, -⟩ := persist_eq_some_iff.mp hu
    exact hgathers.append_iff.mp hgathers'
  · intro hsuits
    have hgathers' := hgathers.append_iff.mpr hsuits
    refine ⟨_, run_cons_eq_some_iff.mpr ⟨_, persist_eq_some_iff.mpr ⟨rfl, ?_⟩, rfl⟩, hgathers'⟩
    exact .inr (hgathers'.length_le hfits)

theorem flushes_nil : Flushes [] :=
  flushes_iff.mpr ⟨[], rfl, nodup_nil, fun _ => Iff.rfl⟩

/-- As long as the set has room, the lines of all the ranges are flushed after each of the calls,
if and only if every range has its new lines before the others. -/
theorem flushes_iff_suits (hfits : Fits rs) :
    (∀ qs, qs <+: rs → Flushes qs) ↔ ∀ qs r, qs ++ [r] <+: rs → Suits qs r := by
  constructor
  · intro h qs r hpre
    have hqs : Flushes qs := h qs ((List.prefix_append qs [r]).trans hpre)
    exact (flushes_append_iff (hfits.mono hpre) hqs).mp (h _ hpre)
  · intro h qs
    induction qs using List.reverseRecOn with
    | nil => exact fun _ => flushes_nil
    | append_singleton qs r ih =>
      intro hpre
      have hqs : Flushes qs := ih ((List.prefix_append qs [r]).trans hpre)
      exact (flushes_append_iff (hfits.mono hpre) hqs).mpr (h qs r hpre)

def overlapping : List Range := [⟨0, 64⟩, ⟨0, 128⟩]

theorem fits_overlapping : Fits overlapping := by decide +kernel

theorem not_suits_overlapping : ¬ Suits [⟨0, 64⟩] ⟨0, 128⟩ := by
  intro hsuits
  have hlost : 64 ∈ lines [⟨0, 64⟩] :=
    hsuits.1 0 (by decide +kernel) (by decide +kernel) 64 (by decide +kernel) (by decide)
  exact absurd hlost (by decide +kernel)

theorem not_all_flushes_overlapping : ¬ ∀ qs, qs <+: overlapping → Flushes qs := by
  rw [flushes_iff_suits fits_overlapping]
  intro h
  exact not_suits_overlapping (h _ _ List.prefix_rfl)

/-- The second line of the second range is lost. -/
theorem not_flushes_overlapping : ¬ ∀ rs, Fits rs → Flushes rs := by
  intro h
  have hpre : [⟨0, 64⟩] <+: overlapping := ⟨[⟨0, 128⟩], rfl⟩
  have hfront : Flushes [⟨0, 64⟩] := h _ (fits_overlapping.mono hpre)
  have hboth : Flushes ([⟨0, 64⟩] ++ [⟨0, 128⟩]) := h overlapping fits_overlapping
  have hiff : Flushes ([⟨0, 64⟩] ++ [⟨0, 128⟩]) ↔ Suits [⟨0, 64⟩] ⟨0, 128⟩ :=
    flushes_append_iff fits_overlapping hfront
  exact not_suits_overlapping (hiff.mp hboth)

end Pmdk.FlushOps
