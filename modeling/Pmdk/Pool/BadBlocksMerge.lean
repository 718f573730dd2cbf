import Pmdk.Pool.BadBlocks

/-!
# Which replica fixes a bad block

After the merge every piece has the first replica in which it is not bad, if there is one, and no
bad block begins or ends inside of a piece.
-/

namespace Pmdk.Sync

open List

def BadBlock.Has (bb : BadBlock) (b : Nat) : Prop :=
  bb.offset ≤ b ∧ b < bb.offset + bb.length

def Covers (bbs : List BadBlock) (b : Nat) : Prop :=
  ∃ bb ∈ bbs, bb.Has b

/-- The first one of `n` replicas in which the byte is not bad. -/
def First (bad : Nat → Nat → Prop) (n b : Nat) : Option Nat → Prop
  | none => ∀ g, g < n → bad g b
  | some h => h < n ∧ ¬bad h b ∧ ∀ g, g < h → bad g b

/-- Pieces with the property `P` one after another, from `lo` to `hi`. -/
def Row (P : BadBlock → Prop) : Nat → List BadBlock → Nat → Prop
  | lo, [], hi => lo ≤ hi
  | lo, bb :: bbs, hi =>
    lo ≤ bb.offset ∧ 0 < bb.length ∧ P bb ∧ Row P (bb.offset + bb.length) bbs hi

variable {P Q : BadBlock → Prop} {lo mid hi b : Nat} {bb : BadBlock} {bbs bbs' : List BadBlock}

@[simp] theorem covers_nil : ¬Covers [] b := by
  rintro ⟨bb, hbb, -⟩
  exact not_mem_nil hbb

@[simp] theorem covers_cons : Covers (bb :: bbs) b ↔ bb.Has b ∨ Covers bbs b := by
  simp [Covers]

@[simp] theorem covers_append : Covers (bbs ++ bbs') b ↔ Covers bbs b ∨ Covers bbs' b := by
  simp [Covers, or_and_right, exists_or]

theorem Row.le (h : Row P lo bbs hi) : lo ≤ hi := by
  induction bbs generalizing lo with
  | nil => exact h
  | cons bb bbs ih =>
    obtain ⟨hlo, -, -, hrest⟩ := h
    have := ih hrest
    omega

theorem Row.append (h : Row P lo bbs mid) (h' : Row P mid bbs' hi) : Row P lo (bbs ++ bbs') hi := by
  induction bbs generalizing lo with
  | nil =>
    cases bbs' with
    | nil => exact Nat.le_trans h h'
    | cons bb bbs' => exact ⟨Nat.le_trans h h'.1, h'.2⟩
  | cons bb bbs ih => exact ⟨h.1, h.2.1, h.2.2.1, ih h.2.2.2⟩

theorem Row.split (h : Row P lo (bbs ++ bbs') hi) :
    ∃ mid, Row P lo bbs mid ∧ Row P mid bbs' hi := by
  induction bbs generalizing lo with
  | nil => exact ⟨lo, Nat.le_refl lo, h⟩
  | cons bb bbs ih =>
    obtain ⟨mid, hfirst, hrest⟩ := ih h.2.2.2
    exact ⟨mid, ⟨h.1, h.2.1, h.2.2.1, hfirst⟩, hrest⟩

variable {f : BadBlock → BadBlock}

section

variable (h : Row P lo bbs hi)

include h

theorem Row.mono_lo {lo' : Nat} (hle : lo' ≤ lo) : Row P lo' bbs hi := by
  cases bbs with
  | nil => exact Nat.le_trans hle h
  | cons bb bbs => exact ⟨Nat.le_trans hle h.1, h.2⟩

theorem Row.mono_hi {hi' : Nat} (hle : hi ≤ hi') : Row P lo bbs hi' := by
  induction bbs generalizing lo with
  | nil => exact Nat.le_trans h hle
  | cons bb bbs ih => exact ⟨h.1, h.2.1, h.2.2.1, ih h.2.2.2⟩

theorem Row.mem (hbb : bb ∈ bbs) :
    lo ≤ bb.offset ∧ 0 < bb.length ∧ P bb ∧ bb.offset + bb.length ≤ hi := by
  induction bbs generalizing lo with
  | nil => exact absurd hbb not_mem_nil
  | cons bb' bbs ih =>
    obtain ⟨hlo, hpos, hp, hrest⟩ := h
    rcases mem_cons.mp hbb with rfl | hbb
    · exact ⟨hlo, hpos, hp, hrest.le⟩
    · have := ih hrest hbb
      exact ⟨by omega, this.2⟩

theorem Row.imp (hpq : ∀ bb ∈ bbs, lo ≤ bb.offset → P bb → Q bb) :
    Row Q lo bbs hi := by
  induction bbs generalizing lo with
  | nil => exact h
  | cons bb bbs ih =>
    obtain ⟨hlo, hpos, hp, hrest⟩ := h
    refine ⟨hlo, hpos, hpq bb mem_cons_self hlo hp, ih hrest fun bb' hbb' hlo' => ?_⟩
    exact hpq bb' (mem_cons_of_mem bb hbb') (by omega)

theorem Row.covers (hb : Covers bbs b) : lo ≤ b ∧ b < hi := by
  obtain ⟨bb, hbb, hlo, hhi⟩ := hb
  have := h.mem hbb
  exact ⟨by omega, by omega⟩

theorem Row.map
    (hoffset : ∀ bb, (f bb).offset = bb.offset) (hlength : ∀ bb, (f bb).length = bb.length)
    (hpq : ∀ bb, lo ≤ bb.offset → P bb → Q (f bb)) : Row Q lo (bbs.map f) hi := by
  induction bbs generalizing lo with
  | nil => exact h
  | cons bb bbs ih =>
    obtain ⟨hlo, hpos, hp, hrest⟩ := h
    rw [map_cons, Row, hoffset, hlength]
    exact ⟨hlo, hpos, hpq bb hlo hp, ih hrest fun x hx => hpq x (by omega)⟩

end

theorem covers_map (hoffset : ∀ bb, (f bb).offset = bb.offset)
    (hlength : ∀ bb, (f bb).length = bb.length) : Covers (bbs.map f) b ↔ Covers bbs b := by
  simp [Covers, BadBlock.Has, hoffset, hlength]

/-! ## Right pieces -/

variable {s : List BadBlock × List BadBlock}

section Merge

variable (blocks : Nat → List BadBlock)

def Bad (g b : Nat) : Prop := Covers (blocks g) b

def Cut (g c : Nat) : Prop :=
  ∃ bb ∈ blocks g, c = bb.offset ∨ c = bb.offset + bb.length

/-- A piece that is right for the first `k` replicas. -/
structure Right (k : Nat) (bb : BadBlock) : Prop where
  first : ∀ b, bb.Has b → First (Bad blocks) k b bb.nhealthy
  whole : ∀ g c, g < k → Cut blocks g c → c ≤ bb.offset ∨ bb.offset + bb.length ≤ c

variable {blocks} {k c : Nat}

theorem First.succ_of_bad {h : Option Nat} (hfirst : First (Bad blocks) k b h)
    (hbad : Bad blocks k b) : First (Bad blocks) (k + 1) b h := by
  cases h with
  | none =>
    intro g hg
    rcases Nat.lt_or_eq_of_le (Nat.lt_succ_iff.mp hg) with hlt | rfl
    · exact hfirst g hlt
    · exact hbad
  | some h => exact ⟨Nat.lt_succ_of_lt hfirst.1, hfirst.2⟩

theorem Right.succ_of_bad (h : Right blocks k bb) (hbad : ∀ b, bb.Has b → Bad blocks k b)
    (hcut : ∀ c, Cut blocks k c → c ≤ bb.offset ∨ bb.offset + bb.length ≤ c) :
    Right blocks (k + 1) bb := by
  refine ⟨fun b hb => (h.first b hb).succ_of_bad (hbad b hb), fun g c hg hc => ?_⟩
  rcases Nat.lt_or_eq_of_le (Nat.lt_succ_iff.mp hg) with hlt | rfl
  · exact h.whole g c hlt hc
  · exact hcut c hc

theorem Right.fixedBy (h : Right blocks k bb) (hgood : ∀ b, bb.Has b → ¬Bad blocks k b)
    (hcut : ∀ c, Cut blocks k c → c ≤ bb.offset ∨ bb.offset + bb.length ≤ c) :
    Right blocks (k + 1) (bb.fixedBy k) := by
  refine ⟨fun b hb => ?_, fun g c hg hc => ?_⟩
  · have hfirst := h.first b hb
    unfold BadBlock.fixedBy
    dsimp only
    cases hn : bb.nhealthy with
    | none =>
      rw [hn] at hfirst
      exact ⟨Nat.lt_succ_self k, hgood b hb, hfirst⟩
    | some h =>
      rw [hn] at hfirst
      exact ⟨Nat.lt_succ_of_lt hfirst.1, hfirst.2⟩
  · rcases Nat.lt_or_eq_of_le (Nat.lt_succ_iff.mp hg) with hlt | rfl
    · exact h.whole g c hlt hc
    · exact hcut c hc

theorem right_new {o l : Nat} (hbad : ∀ b, o ≤ b → b < o + l → Bad blocks k b)
    (hgood : ∀ b, o ≤ b → b < o + l → ∀ g, g < k → ¬Bad blocks g b)
    (hcut : ∀ g c, g ≤ k → Cut blocks g c → c ≤ o ∨ o + l ≤ c) :
    Right blocks (k + 1) ⟨o, l, newHealthy k⟩ := by
  refine ⟨fun b hb => ?_, fun g c hg hc => hcut g c (Nat.lt_succ_iff.mp hg) hc⟩
  obtain ⟨hlo, hhi⟩ := hb
  unfold newHealthy
  dsimp only at hlo hhi
  split
  · rename_i hpos
    exact ⟨Nat.succ_pos k, hgood b hlo hhi 0 hpos, fun g hg => absurd hg (Nat.not_lt_zero g)⟩
  · intro g hg
    obtain rfl : g = k := by omega
    exact hbad b hlo hhi

theorem Right.sub (h : Right blocks k bb) {o l : Nat} (hlo : bb.offset ≤ o)
    (hhi : o + l ≤ bb.offset + bb.length) : Right blocks k ⟨o, l, bb.nhealthy⟩ := by
  refine ⟨fun b hb => h.first b ?_, fun g c hg hc => ?_⟩
  · obtain ⟨hb₁, hb₂⟩ := hb
    dsimp only at hb₁ hb₂
    exact ⟨by omega, by omega⟩
  · have := h.whole g c hg hc
    dsimp only
    omega

theorem Cut.of_good (hc : Cut blocks k c) (hpos : ∀ g, ∀ bb ∈ blocks g, 0 < bb.length)
    (hgood : ∀ b, lo ≤ b → b < hi → ¬Bad blocks k b) : c ≤ lo ∨ hi ≤ c := by
  obtain ⟨bb, hbb, hend⟩ := hc
  have hlen := hpos k bb hbb
  by_contra hin
  rw [not_or] at hin
  rcases hend with rfl | rfl
  · exact hgood bb.offset (by omega) (by omega) ⟨bb, hbb, Nat.le_refl _, by omega⟩
  · exact hgood (bb.offset + bb.length - 1) (by omega) (by omega) ⟨bb, hbb, by omega, by omega⟩

/-! ## One bad block -/

variable {beg len : Nat} {all : List BadBlock}

theorem allBefore_row (hpos : ∀ g, ∀ bb ∈ blocks g, 0 < bb.length)
    (h : Row (Right blocks k) lo all hi) (hle : lo ≤ beg)
    (hgood : ∀ b, lo ≤ b → b < beg → ¬Bad blocks k b) :
    ∃ mid, lo ≤ mid ∧ mid ≤ beg ∧ Row (Right blocks (k + 1)) lo (allBefore k beg all).1 mid ∧
      Row (Right blocks k) mid (allBefore k beg all).2 hi ∧
      (∀ b, Covers (allBefore k beg all).1 b ∨ Covers (allBefore k beg all).2 b ↔ Covers all b) ∧
      ∀ x rest, (allBefore k beg all).2 = x :: rest → beg < x.offset + x.length := by
  induction all generalizing lo with
  | nil =>
    refine ⟨lo, Nat.le_refl lo, hle, Nat.le_refl lo, h, fun b => ?_, fun x rest heq => ?_⟩
    · simp [allBefore]
    · cases heq
  | cons prev all ih =>
    obtain ⟨hlo, hlen, hright, hrest⟩ := h
    rw [allBefore]
    split
    · have hend : prev.offset + prev.length ≤ beg := by omega
      obtain ⟨mid, hmid, hmid', hadd, hleft, hcovers, hhead⟩ := ih hrest hend
        fun b hb hb' => hgood b (by omega) hb'
      refine ⟨mid, by omega, hmid', ⟨hlo, hlen, ?_, hadd⟩, hleft, fun b => ?_, hhead⟩
      · refine hright.fixedBy (fun b hb => hgood b (by have := hb.1; omega)
          (by have := hb.2; omega)) fun c hc => ?_
        exact hc.of_good hpos fun b hb hb' => hgood b (by omega) (by omega)
      · dsimp only
        rw [covers_cons, covers_cons, or_assoc, hcovers]
        exact Iff.rfl
    · rename_i hend
      refine ⟨lo, Nat.le_refl lo, hle, Nat.le_refl lo, ⟨hlo, hlen, hright, hrest⟩, fun b => ?_,
        fun x rest heq => ?_⟩
      · simp
      · cases heq
        omega

def Overlap.rest (o : Overlap) (rep : Nat) : List BadBlock :=
  if 0 < o.len then [⟨o.beg, o.len, newHealthy rep⟩] else []

theorem right_uncovered (hpos : ∀ g, ∀ bb ∈ blocks g, 0 < bb.length) {o l : Nat}
    (hbad : ∀ b, o ≤ b → b < o + l → Bad blocks k b)
    (hcut : ∀ c, Cut blocks k c → c ≤ o ∨ o + l ≤ c)
    (hold : ∀ b, o ≤ b → b < o + l → ¬∃ g, g < k ∧ Bad blocks g b) :
    Right blocks (k + 1) ⟨o, l, newHealthy k⟩ := by
  have hgood : ∀ b, o ≤ b → b < o + l → ∀ g, g < k → ¬Bad blocks g b :=
    fun b hlo hhi g hg hb => hold b hlo hhi ⟨g, hg, hb⟩
  refine right_new hbad hgood fun g c hg hc => ?_
  rcases Nat.lt_or_eq_of_le hg with hlt | rfl
  · exact hc.of_good hpos fun b hlo hhi => hgood b hlo hhi g hlt
  · exact hcut c hc

def onlyIn (rep : Nat) (prev : BadBlock) (beg : Nat) : List BadBlock :=
  if prev.offset < beg then
    [({ prev with length := beg - prev.offset } : BadBlock).fixedBy rep]
  else if beg < prev.offset then [⟨beg, prev.offset - beg, newHealthy rep⟩] else []

theorem onlyIn_row (hpos : ∀ g, ∀ bb ∈ blocks g, 0 < bb.length) (hright : Right blocks k bb)
    (hlo : lo ≤ bb.offset) (hle : lo ≤ beg) (hover : beg < bb.offset + bb.length)
    (hover' : bb.offset < beg + len) (hgood : ∀ b, lo ≤ b → b < beg → ¬Bad blocks k b)
    (hbad : ∀ b, beg ≤ b → b < beg + len → Bad blocks k b)
    (hcut : ∀ c, Cut blocks k c → c ≤ beg ∨ beg + len ≤ c)
    (hold : ∀ b, lo ≤ b → b < bb.offset → ¬∃ g, g < k ∧ Bad blocks g b) :
    Row (Right blocks (k + 1)) lo (onlyIn k bb beg) (max bb.offset beg) ∧
      ∀ b, Covers (onlyIn k bb beg) b ↔
        b < max bb.offset beg ∧ (bb.Has b ∨ (beg ≤ b ∧ b < beg + len)) := by
  unfold onlyIn
  rcases Nat.lt_trichotomy bb.offset beg with hlt | heq | hgt
  · rw [if_pos hlt, Nat.max_eq_right (Nat.le_of_lt hlt)]
    refine ⟨⟨hlo, Nat.sub_pos_of_lt hlt, ?_, ?_⟩, fun b => ?_⟩
    · refine (hright.sub (Nat.le_refl _) (by omega)).fixedBy (fun b hb => ?_) fun c hc => ?_
      · have := hb.1
        have := hb.2
        dsimp only at *
        exact hgood b (by omega) (by omega)
      · exact hc.of_good hpos fun b hb hb' => hgood b (by dsimp only at hb; omega)
          (by dsimp only at hb'; omega)
    · show bb.offset + (beg - bb.offset) ≤ beg
      omega
    · simp only [covers_cons, covers_nil, or_false, BadBlock.Has, BadBlock.fixedBy]
      omega
  · rw [if_neg (by omega), if_neg (by omega), heq, Nat.max_self]
    refine ⟨hle, fun b => ⟨fun h => absurd h covers_nil, fun ⟨hlt, hin⟩ => ?_⟩⟩
    have hlo' : beg ≤ b := by
      rcases hin with hin | hin
      · exact heq ▸ hin.1
      · exact hin.1
    omega
  · rw [if_neg (by omega), if_pos hgt, Nat.max_eq_left (Nat.le_of_lt hgt)]
    refine ⟨⟨hle, Nat.sub_pos_of_lt hgt, ?_, ?_⟩, fun b => ?_⟩
    · refine right_uncovered hpos (fun b hb hb' => hbad b hb (by omega))
        (fun c hc => ?_) fun b hb hb' => hold b (by omega) (by omega)
      have := hcut c hc
      omega
    · show beg + (bb.offset - beg) ≤ bb.offset
      omega
    · simp only [covers_cons, covers_nil, or_false, BadBlock.Has]
      omega

theorem allOverlapping_cons (rep : Nat) (prev : BadBlock) (all : List BadBlock) (hlen : 0 < len)
    (hover : beg < prev.offset + prev.length) (hover' : prev.offset < beg + len) :
    (beg + len < prev.offset + prev.length →
      allOverlapping rep (prev :: all) beg len =
        ⟨onlyIn rep prev beg ++ [⟨max prev.offset beg, beg + len - max prev.offset beg,
            prev.nhealthy⟩],
          ⟨beg + len, prev.offset + prev.length - (beg + len), prev.nhealthy⟩ :: all,
          beg + len, 0⟩) ∧
    (prev.offset + prev.length ≤ beg + len →
      allOverlapping rep (prev :: all) beg len =
        { allOverlapping rep all (prev.offset + prev.length)
            (beg + len - (prev.offset + prev.length)) with
          add := onlyIn rep prev beg ++ ⟨max prev.offset beg,
            prev.offset + prev.length - max prev.offset beg, prev.nhealthy⟩ ::
              (allOverlapping rep all (prev.offset + prev.length)
                (beg + len - (prev.offset + prev.length))).add }) := by
  have hbegPrev : (if prev.offset < beg then beg else prev.offset) = max prev.offset beg := by
    split <;> omega
  have hbegCommon : (if beg < prev.offset then prev.offset else beg) = max prev.offset beg := by
    split <;> omega
  have hlenPrev : (if prev.offset < beg then prev.length - (beg - prev.offset) else prev.length) =
      prev.offset + prev.length - max prev.offset beg := by
    split <;> omega
  have hlenCommon : (if beg < prev.offset then len - (prev.offset - beg) else len) =
      beg + len - max prev.offset beg := by
    split <;> omega
  rw [allOverlapping, if_neg (by omega), if_neg (by omega)]
  simp only [hbegPrev, hbegCommon, hlenPrev, hlenCommon]
  constructor
  · intro hlt
    rw [if_neg (by omega), Nat.add_sub_of_le (by omega)]
    have hleft : prev.offset + prev.length - max prev.offset beg -
        (beg + len - max prev.offset beg) = prev.offset + prev.length - (beg + len) := by omega
    rw [hleft]
    rfl
  · intro hle
    have hbeg : max prev.offset beg + (prev.offset + prev.length - max prev.offset beg) =
        prev.offset + prev.length := by omega
    have hlen : beg + len - max prev.offset beg -
        (prev.offset + prev.length - max prev.offset beg) =
          beg + len - (prev.offset + prev.length) := by omega
    rw [if_pos (by omega), hbeg, hlen]
    rfl

theorem Right.common {prev : BadBlock} {l : Nat} (hright : Right blocks k prev)
    (hbad : ∀ b, beg ≤ b → b < beg + len → Bad blocks k b)
    (hcut : ∀ c, Cut blocks k c → c ≤ beg ∨ beg + len ≤ c)
    (hl : max prev.offset beg + l ≤ prev.offset + prev.length)
    (hl' : max prev.offset beg + l ≤ beg + len) :
    Right blocks (k + 1) ⟨max prev.offset beg, l, prev.nhealthy⟩ := by
  refine (hright.sub (by omega) hl).succ_of_bad (fun b hb => hbad b ?_ ?_) fun c hc => ?_
  · have := hb.1
    dsimp only at this
    omega
  · have := hb.2
    dsimp only at this
    omega
  · have := hcut c hc
    dsimp only
    omega

theorem allOverlapping_row (hpos : ∀ g, ∀ bb ∈ blocks g, 0 < bb.length)
    (h : Row (Right blocks k) lo all hi) (hle : lo ≤ beg) (hhi : beg + len ≤ hi)
    (hlen : len = 0 → lo = beg) (hhead : ∀ x rest, all = x :: rest → beg < x.offset + x.length)
    (hgood : ∀ b, lo ≤ b → b < beg → ¬Bad blocks k b)
    (hbad : ∀ b, beg ≤ b → b < beg + len → Bad blocks k b)
    (hcut : ∀ c, Cut blocks k c → c ≤ beg ∨ beg + len ≤ c)
    (hold : ∀ b, lo ≤ b → ((∃ g, g < k ∧ Bad blocks g b) ↔ Covers all b)) :
    Row (Right blocks (k + 1)) lo
        ((allOverlapping k all beg len).add ++ (allOverlapping k all beg len).rest k) (beg + len) ∧
      Row (Right blocks k) (beg + len) (allOverlapping k all beg len).left hi ∧
      ∀ b, Covers ((allOverlapping k all beg len).add ++ (allOverlapping k all beg len).rest k) b ∨
        Covers (allOverlapping k all beg len).left b ↔
          Covers all b ∨ (beg ≤ b ∧ b < beg + len) := by
  induction all generalizing lo beg len with
  | nil =>
    have hnone : ∀ b, beg ≤ b → b < beg + len → ¬∃ g, g < k ∧ Bad blocks g b := by
      intro b hb _ hex
      exact covers_nil ((hold b (by omega)).mp hex)
    rw [allOverlapping]
    unfold Overlap.rest
    dsimp only
    split
    · rename_i hpos'
      refine ⟨⟨hle, hpos', right_uncovered hpos hbad hcut hnone, Nat.le_refl _⟩, hhi, fun b => ?_⟩
      simp [BadBlock.Has]
    · refine ⟨Nat.le_trans hle (Nat.le_add_right beg len), hhi, fun b => ?_⟩
      rw [append_nil]
      refine ⟨fun h => absurd h (by simp), fun h => ?_⟩
      rcases h with h | h
      · exact absurd h covers_nil
      · omega
  | cons prev all ih =>
    have hrow := h
    obtain ⟨hlo, hplen, hright, hrest⟩ := h
    have hover := hhead prev all rfl
    by_cases hzero : len = 0
    · obtain rfl := hlen hzero
      subst hzero
      rw [allOverlapping, if_pos rfl]
      refine ⟨Nat.le_refl _, hrow, fun b => ?_⟩
      have hrest : Overlap.rest ⟨[], prev :: all, lo, 0⟩ k = [] := if_neg (Nat.lt_irrefl 0)
      rw [hrest]
      simp only [append_nil, covers_nil, false_or]
      exact ⟨.inl, fun h => h.resolve_right (by omega)⟩
    by_cases hover' : prev.offset < beg + len
    · have hpos' : 0 < len := Nat.pos_of_ne_zero hzero
      obtain ⟨honly, hcov⟩ := onlyIn_row hpos hright hlo hle hover hover' hgood hbad hcut
        fun b hb hb' hex => by
          rcases covers_cons.mp ((hold b hb).mp hex) with hin | hin
          · have := hin.1
            omega
          · have := (hrest.covers hin).1
            omega
      have hcommon {l : Nat} (hl : max prev.offset beg + l ≤ prev.offset + prev.length)
          (hl' : max prev.offset beg + l ≤ beg + len) := hright.common hbad hcut hl hl'
      rcases Nat.lt_or_ge (beg + len) (prev.offset + prev.length) with hlt | hge
      · rw [(allOverlapping_cons k prev all hpos' hover hover').1 hlt]
        have hnil : ∀ add left, Overlap.rest ⟨add, left, beg + len, 0⟩ k = [] :=
          fun _ _ => if_neg (Nat.lt_irrefl 0)
        rw [hnil, append_nil]
        have hend : beg + len + (prev.offset + prev.length - (beg + len)) =
            prev.offset + prev.length := by omega
        refine ⟨honly.append ⟨Nat.le_refl _, (by dsimp only; omega),
            hcommon (by omega) (by omega),
            (by omega : max prev.offset beg + (beg + len - max prev.offset beg) ≤ beg + len)⟩,
          ⟨Nat.le_refl _, Nat.sub_pos_of_lt hlt, hright.sub (by omega) (by omega), ?_⟩,
          fun b => ?_⟩
        · dsimp only
          rw [hend]
          exact hrest
        · simp only [covers_append, covers_cons, covers_nil, or_false, hcov, BadBlock.Has]
          by_cases hall : Covers all b
          · simp [hall]
          · simp only [hall, or_false]
            omega
      · rw [(allOverlapping_cons k prev all hpos' hover hover').2 hge]
        obtain ⟨hadd, hleft, hcov'⟩ := @ih (prev.offset + prev.length)
          (prev.offset + prev.length) (beg + len - (prev.offset + prev.length)) hrest
          (Nat.le_refl _) (by omega)
          (fun _ => rfl) (fun x rest heq => by
            subst heq
            have := hrest.1
            have := hrest.2.1
            omega) (fun b hb hb' => by omega) (fun b hb hb' => hbad b (by omega) (by omega))
          (fun c hc => by have := hcut c hc; omega) (fun b hb => by
            rw [hold b (by omega), covers_cons]
            refine ⟨fun h => h.resolve_left fun hin => ?_, .inr⟩
            have := hin.2
            omega)
        have hend : prev.offset + prev.length + (beg + len - (prev.offset + prev.length)) =
            beg + len := by omega
        rw [hend] at hadd hleft hcov'
        generalize allOverlapping k all (prev.offset + prev.length)
          (beg + len - (prev.offset + prev.length)) = o at hadd hleft hcov' ⊢
        have hcommonEnd : max prev.offset beg +
            (prev.offset + prev.length - max prev.offset beg) = prev.offset + prev.length := by
          omega
        have hrest' : ∀ add, Overlap.rest { o with add } k = o.rest k := fun _ => rfl
        rw [hrest', append_assoc, cons_append]
        refine ⟨honly.append ⟨Nat.le_refl _, (by dsimp only; omega),
          hcommon (by omega) (by omega), ?_⟩, hleft, fun b => ?_⟩
        · dsimp only
          rw [hcommonEnd]
          exact hadd
        · have hb := hcov' b
          rw [covers_append] at hb
          rw [covers_append, covers_cons, covers_append, hcov, or_assoc, or_assoc, hb]
          simp only [covers_cons, BadBlock.Has]
          by_cases hall : Covers all b
          · simp [hall]
          · simp only [hall, or_false, false_or]
            omega
    · -- nothing overlaps
      have hnone : ∀ b, beg ≤ b → b < beg + len → ¬∃ g, g < k ∧ Bad blocks g b := by
        intro b hb hb' hex
        have hmem := (hold b (by omega)).mp hex
        rcases covers_cons.mp hmem with hin | hin
        · have := hin.1
          omega
        · have := (hrest.covers hin).1
          omega
      rw [allOverlapping, if_neg hzero, if_pos (by omega)]
      have hpos' : 0 < len := Nat.pos_of_ne_zero hzero
      have hrest' : Overlap.rest ⟨[], prev :: all, beg, len⟩ k =
          [⟨beg, len, newHealthy k⟩] := if_pos hpos'
      rw [hrest']
      refine ⟨⟨hle, hpos', right_uncovered hpos hbad hcut hnone, Nat.le_refl _⟩,
        ⟨by omega, hrow.2⟩, fun b => ?_⟩
      simp only [nil_append, covers_cons, covers_nil, or_false, BadBlock.Has]
      rw [or_comm]

theorem insertNew_row (hpos : ∀ g, ∀ bb ∈ blocks g, 0 < bb.length) {new : BadBlock}
    (h : Row (Right blocks k) lo all hi) (hlo : lo ≤ new.offset)
    (hhi : new.offset + new.length ≤ hi) (hlen : 0 < new.length)
    (hgood : ∀ b, lo ≤ b → b < new.offset → ¬Bad blocks k b)
    (hbad : ∀ b, new.Has b → Bad blocks k b)
    (hcut : ∀ c, Cut blocks k c → c ≤ new.offset ∨ new.offset + new.length ≤ c)
    (hold : ∀ b, lo ≤ b → ((∃ g, g < k ∧ Bad blocks g b) ↔ Covers all b)) :
    Row (Right blocks (k + 1)) lo (insertNew k all new).1 (new.offset + new.length) ∧
      Row (Right blocks k) (new.offset + new.length) (insertNew k all new).2 hi ∧
      ∀ b, Covers (insertNew k all new).1 b ∨ Covers (insertNew k all new).2 b ↔
        Covers all b ∨ new.Has b := by
  obtain ⟨mid, hmid, hmid', hadd, hleft, hcov, hhead⟩ := allBefore_row hpos h hlo hgood
  have hbefore : ∀ b, mid ≤ b → ¬Covers (allBefore k new.offset all).1 b := by
    intro b hb hin
    have := (hadd.covers hin).2
    omega
  obtain ⟨hadd', hleft', hcov'⟩ := allOverlapping_row hpos hleft hmid' hhi (fun hz => by omega)
    hhead (fun b hb hb' => hgood b (by omega) hb') (fun b hb hb' => hbad b ⟨hb, hb'⟩) hcut
    fun b hb => by
      rw [hold b (by omega), ← hcov b]
      exact or_iff_right (hbefore b hb)
  have hinsert : insertNew k all new = ((allBefore k new.offset all).1 ++
      (allOverlapping k (allBefore k new.offset all).2 new.offset new.length).add ++
      (allOverlapping k (allBefore k new.offset all).2 new.offset new.length).rest k,
      (allOverlapping k (allBefore k new.offset all).2 new.offset new.length).left) := rfl
  rw [hinsert, append_assoc]
  refine ⟨hadd.append hadd', hleft', fun b => ?_⟩
  dsimp only
  rw [covers_append, or_assoc, hcov' b, ← or_assoc, hcov b]
  exact Iff.rfl

/-! ## One replica -/

theorem Row.apart (h : Row P lo bbs hi) {x y : BadBlock} (hx : x ∈ bbs) (hy : y ∈ bbs) :
    x = y ∨ x.offset + x.length ≤ y.offset ∨ y.offset + y.length ≤ x.offset := by
  induction bbs generalizing lo with
  | nil => exact absurd hx not_mem_nil
  | cons bb bbs ih =>
    have hrest := h.2.2.2
    rcases mem_cons.mp hx with hx | hx <;> rcases mem_cons.mp hy with hy | hy
    · exact .inl (hx.trans hy.symm)
    · exact .inr (.inl (hx ▸ (hrest.mem hy).1))
    · exact .inr (.inr (hy ▸ (hrest.mem hx).1))
    · exact ih hrest hx hy

def Unmerged (bb : BadBlock) : Prop := bb.nhealthy = none

/-- What the merge has done when the bad blocks `bbs` of replica `k` are left. -/
structure Merging (blocks : Nat → List BadBlock) (k lo hi : Nat) (bbs : List BadBlock)
    (s : List BadBlock × List BadBlock) : Prop where
  aux : Row (Right blocks (k + 1)) 0 s.2 lo
  left : Row (Right blocks k) lo s.1 hi
  old : ∀ b, lo ≤ b → ((∃ g, g < k ∧ Bad blocks g b) ↔ Covers s.1 b)
  covers : ∀ b, Covers s.2 b ∨ Covers s.1 b ↔
    (∃ g, g < k ∧ Bad blocks g b) ∨ (Bad blocks k b ∧ b < lo)
  todo : Row Unmerged lo bbs hi
  bad : ∀ b, lo ≤ b → (Bad blocks k b ↔ Covers bbs b)
  mem : ∀ bb ∈ bbs, bb ∈ blocks k

theorem Merging.cut {new : BadBlock}
    (h : Merging blocks k lo hi (new :: bbs) s) (hrow : Row Unmerged 0 (blocks k) hi) (c : Nat)
    (hc : Cut blocks k c) : c ≤ new.offset ∨ new.offset + new.length ≤ c := by
  obtain ⟨bb, hbb, hend⟩ := hc
  have hnew := h.mem new mem_cons_self
  have := (hrow.mem hnew).2.1
  rcases hrow.apart hbb hnew with rfl | happart | happart <;> omega

section

variable (hpos : ∀ g, ∀ bb ∈ blocks g, 0 < bb.length)

include hpos

theorem Merging.step {new : BadBlock}
    (h : Merging blocks k lo hi (new :: bbs) s) (hrow : Row Unmerged 0 (blocks k) hi) :
    Merging blocks k (new.offset + new.length) hi bbs
      ((insertNew k s.1 new).2, s.2 ++ (insertNew k s.1 new).1) := by
  obtain ⟨hlo, hlen, -, hrest⟩ := h.todo
  have hcut := h.cut hrow
  have hmem := h.mem new mem_cons_self
  obtain ⟨hadd, hleft, hcov⟩ := insertNew_row hpos h.left hlo (h.todo.mem mem_cons_self).2.2.2
    hlen (fun b hb hb' hbad => by
      rcases covers_cons.mp ((h.bad b hb).mp hbad) with hin | hin
      · have := hin.1
        omega
      · have := (hrest.covers hin).1
        omega) (fun b hb => ⟨new, hmem, hb⟩) hcut h.old
  have hpast : ∀ b, new.offset + new.length ≤ b → ¬new.Has b := by
    intro b hb hin
    have := hin.2
    omega
  refine ⟨h.aux.append hadd, hleft, fun b hb => ?_, fun b => ?_, hrest, fun b hb => ?_,
    fun bb hbb => h.mem bb (mem_cons_of_mem new hbb)⟩
  · rw [h.old b (by omega)]
    have hb' := hcov b
    constructor
    · intro hold
      refine (hb'.mpr (.inl hold)).resolve_left fun hin => ?_
      have := (hadd.covers hin).2
      omega
    · intro hin
      exact (hb'.mp (.inr hin)).resolve_right (hpast b hb)
  · dsimp only
    rw [covers_append, or_assoc, hcov b, ← or_assoc, h.covers b, or_assoc]
    refine or_congr_right ⟨?_, fun ⟨hbad, hb⟩ => ?_⟩
    · rintro (⟨hbad, hb⟩ | hin)
      · exact ⟨hbad, by omega⟩
      · exact ⟨⟨new, hmem, hin⟩, hin.2⟩
    · rcases Nat.lt_or_ge b lo with hlt | hge
      · exact .inl ⟨hbad, hlt⟩
      · right
        refine (covers_cons.mp ((h.bad b hge).mp hbad)).resolve_right fun hin => ?_
        have := (hrest.covers hin).1
        omega
  · rw [h.bad b (by omega), covers_cons]
    exact or_iff_right (hpast b hb)

theorem Merging.foldl (h : Merging blocks k lo hi bbs s) (hrow : Row Unmerged 0 (blocks k) hi) :
    ∃ lo', Merging blocks k lo' hi [] (bbs.foldl (fun s bb =>
      let (add, left) := insertNew k s.1 bb
      (left, s.2 ++ add)) s) := by
  induction bbs generalizing lo s with
  | nil => exact ⟨lo, h⟩
  | cons new bbs ih => exact ih (h.step hpos hrow)

theorem Merging.none
    (hrow : Row Unmerged 0 (blocks k) hi) (hold : ∀ b, ¬∃ g, g < k ∧ Bad blocks g b) :
    Merging blocks k hi hi [] ([], (blocks k).map fun bb =>
      if 0 < k then { bb with nhealthy := some 0 } else bb) := by
  have hmap : ∀ (bbs : List BadBlock) (lo : Nat), (∀ bb ∈ bbs, bb ∈ blocks k) →
      Row Unmerged lo bbs hi → Row (Right blocks (k + 1)) lo (bbs.map fun bb =>
        if 0 < k then { bb with nhealthy := some 0 } else bb) hi ∧
      ∀ b, Covers (bbs.map fun bb =>
        if 0 < k then { bb with nhealthy := some 0 } else bb) b ↔ Covers bbs b := by
    intro bbs
    induction bbs with
    | nil =>
      intro lo _ h
      exact ⟨h, fun b => Iff.rfl⟩
    | cons bb bbs ih =>
      intro lo hmem h
      obtain ⟨hlo, hlen, hnone, hrest⟩ := h
      obtain ⟨hrow', hcov⟩ := ih _ (fun x hx => hmem x (mem_cons_of_mem bb hx)) hrest
      have hbb := hmem bb mem_cons_self
      have hpiece : (if 0 < k then { bb with nhealthy := some 0 } else bb) =
          ⟨bb.offset, bb.length, newHealthy k⟩ := by
        unfold newHealthy
        split
        · rfl
        · exact congrArg (BadBlock.mk bb.offset bb.length) hnone
      rw [map_cons, hpiece]
      refine ⟨⟨hlo, hlen, ?_, hrow'⟩, fun b => ?_⟩
      · refine right_uncovered hpos (fun b hb hb' => ⟨bb, hbb, hb, hb'⟩) (fun c hc => ?_)
          fun b _ _ => hold b
        obtain ⟨bb', hbb', hend⟩ := hc
        rcases hrow.apart hbb' hbb with rfl | happart | happart <;> omega
      · rw [covers_cons, covers_cons, hcov b]
        exact Iff.rfl
  obtain ⟨haux, hcov⟩ := hmap (blocks k) 0 (fun _ h => h) hrow
  refine ⟨haux, Nat.le_refl hi, fun b _ => ?_, fun b => ?_, Nat.le_refl hi, fun b hb => ?_,
    fun bb hbb => absurd hbb not_mem_nil⟩
  · exact iff_of_false (hold b) covers_nil
  · dsimp only
    rw [hcov b]
    constructor
    · intro h
      have hbad := h.resolve_right covers_nil
      exact .inr ⟨hbad, (hrow.covers hbad).2⟩
    · intro h
      exact .inl (h.resolve_left (hold b)).1
  · refine iff_of_false (fun hbad => ?_) covers_nil
    have := (hrow.covers hbad).2
    omega

theorem Merging.move (h : Merging blocks k lo hi [] s) :
    Row (Right blocks (k + 1)) 0 (moveVec k s) hi ∧
      ∀ b, Covers (moveVec k s) b ↔ ∃ g, g < k + 1 ∧ Bad blocks g b := by
  have hgood : ∀ b, lo ≤ b → ¬Bad blocks k b := fun b hb hbad => covers_nil ((h.bad b hb).mp hbad)
  have hfilter : s.1.filter (fun bb => decide (bb.length ≠ 0)) = s.1 := by
    refine filter_eq_self.mpr fun bb hbb => ?_
    have := (h.left.mem hbb).2.1
    exact decide_eq_true (by omega)
  have hmap : s.1.map (fun bb => if 0 < k then bb.fixedBy k else bb) =
      s.1.map (BadBlock.fixedBy k) := by
    refine map_congr_left fun bb hbb => ?_
    obtain ⟨hlo, hlen, -, -⟩ := h.left.mem hbb
    obtain ⟨g, hg, -⟩ := (h.old bb.offset hlo).mpr ⟨bb, hbb, Nat.le_refl _, by omega⟩
    exact if_pos (Nat.zero_lt_of_lt hg)
  have hleft : Row (Right blocks (k + 1)) lo (s.1.map (BadBlock.fixedBy k)) hi := by
    refine h.left.map (fun _ => rfl) (fun _ => rfl) fun bb hlo hright => ?_
    refine hright.fixedBy (fun b hb => hgood b (by have := hb.1; omega)) fun c hc => ?_
    exact hc.of_good hpos fun b hb _ => hgood b (by omega)
  have hcov : ∀ b, Covers (s.1.map (BadBlock.fixedBy k)) b ↔ Covers s.1 b :=
    fun b => covers_map (fun _ => rfl) fun _ => rfl
  unfold moveVec
  rw [hfilter, hmap]
  refine ⟨h.aux.append hleft, fun b => ?_⟩
  rw [covers_append, hcov b, h.covers b]
  constructor
  · rintro (⟨g, hg, hbad⟩ | ⟨hbad, -⟩)
    · exact ⟨g, Nat.lt_succ_of_lt hg, hbad⟩
    · exact ⟨k, Nat.lt_succ_self k, hbad⟩
  · rintro ⟨g, hg, hbad⟩
    rcases Nat.lt_or_eq_of_le (Nat.lt_succ_iff.mp hg) with hlt | rfl
    · exact .inl ⟨g, hlt, hbad⟩
    · exact .inr ⟨hbad, Nat.lt_of_not_le fun hle => hgood b hle hbad⟩

theorem mergeReplica_row {parts : List (List BadBlock)}
    (hparts : parts.flatten = blocks k) (hrow : Row Unmerged 0 (blocks k) hi)
    (h : Row (Right blocks k) 0 all hi) (hcov : ∀ b, Covers all b ↔ ∃ g, g < k ∧ Bad blocks g b) :
    Row (Right blocks (k + 1)) 0 (mergeReplica k parts all) hi ∧
      ∀ b, Covers (mergeReplica k parts all) b ↔ ∃ g, g < k + 1 ∧ Bad blocks g b := by
  unfold mergeReplica
  cases all with
  | nil =>
    have hfold : ∀ (parts : List (List BadBlock)) (s : List BadBlock × List BadBlock),
        parts.foldl (findHealthyReplica k true) s = (s.1, s.2 ++ parts.flatten.map fun bb =>
          if 0 < k then { bb with nhealthy := some 0 } else bb) := by
      intro parts
      induction parts with
      | nil => intro s; simp
      | cons part parts ih =>
        intro s
        rw [foldl_cons, ih]
        simp [findHealthyReplica]
    rw [isEmpty_nil, hfold, hparts, nil_append]
    exact (Merging.none hpos hrow fun b hb => covers_nil ((hcov b).mpr hb)).move hpos
  | cons prev all =>
    have hfold : ∀ (parts : List (List BadBlock)) (s : List BadBlock × List BadBlock),
        parts.foldl (findHealthyReplica k false) s = parts.flatten.foldl (fun s bb =>
          let (add, left) := insertNew k s.1 bb
          (left, s.2 ++ add)) s := by
      intro parts
      induction parts with
      | nil => intro s; rfl
      | cons part parts ih =>
        intro s
        rw [foldl_cons, ih, flatten_cons, foldl_append]
        rfl
    have hstart : Merging blocks k 0 hi (blocks k) (prev :: all, []) :=
      ⟨Nat.le_refl 0, h, fun b _ => (hcov b).symm, fun b => by
        rw [← hcov b]
        simp, hrow, fun b _ => Iff.rfl, fun bb hbb => hbb⟩
    obtain ⟨lo', hdone⟩ := hstart.foldl hpos hrow
    rw [isEmpty_cons, hfold, hparts]
    exact hdone.move hpos

/-- The pieces after all replicas: each has the first replica in which it is not bad, and no bad
block begins or ends inside of one. -/
theorem mergeReplicas_row
    {parts : Nat → List (List BadBlock)} (hparts : ∀ g, (parts g).flatten = blocks g)
    (hrow : ∀ g, Row Unmerged 0 (blocks g) hi) (n : Nat) :
    Row (Right blocks n) 0 (mergeReplicas parts n) hi ∧
      ∀ b, Covers (mergeReplicas parts n) b ↔ ∃ g, g < n ∧ Bad blocks g b := by
  induction n with
  | zero =>
    refine ⟨Nat.zero_le hi, fun b => iff_of_false covers_nil ?_⟩
    rintro ⟨g, hg, -⟩
    exact Nat.not_lt_zero g hg
  | succ n ih => exact mergeReplica_row hpos (hparts n) (hrow n) ih.1 ih.2

end

end Merge

end Pmdk.Sync
