import Pmdk.Obj.ChunkWalk

/-!
# Merging free chunks

`heap_free_chunk_reuse` and `heap_zone_init` keep a zone tidy, whatever the neighbours were when
the power failed last. The header of the merged chunk is persistent before its footer is written,
so between the two every image is that of a tidy zone, with the old header or with the new one.
-/

namespace Pmdk.Chunk

open Persist Tiling List

variable {ok : Nat → Prop} {z : Zone} {b c k n p : Nat}

/-! ## Stores -/

variable {v : Header}

theorem Quiet.store (h : Quiet ok z) (h' : Quiet ok (z.set c (Cell.clean v))) :
    Quiet ok (z.exec (.store c v)) := by
  intro image sizeIdx hold
  by_cases hnew : image c = v
  · refine h' image sizeIdx ⟨fun i => ?_, hold.2⟩
    have hi := hold.1 i
    rw [Zone.exec, Zone.set_headers] at hi
    rw [Zone.set_headers]
    split at hi
    · rename_i heq
      rw [if_pos heq, heq, hnew]
      exact .inl rfl
    · rename_i hne
      rw [if_neg hne]
      exact hi
  · refine h image sizeIdx ⟨fun i => ?_, hold.2⟩
    have hi := hold.1 i
    rw [Zone.exec, Zone.set_headers] at hi
    split at hi
    · rename_i heq
      subst heq
      exact (Cell.holds_store.mp hi).resolve_left hnew
    · exact hi

section

variable (h : Tidy ok z)

include h

theorem Tidy.calm_header {ms : List Micro}
    (hms : Calm ok (z.set c (Cell.clean v)) ms) : Calm ok z ([.store c v, .persist c] ++ ms) := by
  refine ⟨h.quiet, h.quiet.store hms.quiet, ?_⟩
  rw [Zone.exec_store_persist]
  exact hms

theorem Tidy.set_free (hc : IsBlock z c) {flags : Nat} (hpos : 0 < n)
    (hend : Boundary z (c + n)) (hle : c + n ≤ z.sizeIdx.cur) (hok : ok (c + n)) :
    Tidy ok (z.set c (Cell.clean ⟨.free, flags, n⟩)) := by
  have hb : ∀ b, Boundary (z.set c (Cell.clean ⟨.free, flags, n⟩)) b ↔
      Boundary z b ∧ (b ≤ c ∨ c + n ≤ b) :=
    fun b => boundary_set hc.2 rfl hpos hend
  refine ⟨?_, h.size, fun k v hv => ?_⟩
  · refine inv_of_boundary h.inv.1 ((hb _).mpr ⟨h.inv.boundary_size, .inr hle⟩) fun k hk => ?_
    rw [Zone.set_headers]
    split
    · rfl
    · exact h.inv.stale ⟨hk.1, ((hb k).mp hk.2).1⟩
  · rw [Zone.set_headers] at hv
    split at hv
    · rename_i hkc
      subst hkc
      obtain rfl := Cell.holds_clean.mp hv
      exact .inr ⟨.inl rfl, hok, fun b hwalk _ => ((hb b).mp hwalk).2⟩
    · exact (h.clear k v hv).imp_right fun hclear =>
        ⟨hclear.type, hclear.stop, fun b hwalk hb' =>
          hclear.between b ((hb b).mp hwalk).1 hb'⟩

theorem Tidy.store_of_not (hk : ¬ Boundary z k)
    (hv : Clear ok z k v) : Tidy ok (z.exec (.store k v)) := by
  have hb : ∀ b, Boundary (z.exec (.store k v)) b ↔ Boundary z b := fun b => boundary_set_of_not hk
  refine ⟨?_, h.size, fun j w hw => ?_⟩
  · refine inv_of_boundary h.inv.1 ((hb _).mpr h.inv.boundary_size) fun j hj => ?_
    have hne : j ≠ k := fun hjk => hk (hjk ▸ (hb j).mp hj.2)
    rw [Zone.exec, Zone.set_headers, if_neg hne]
    exact h.inv.stale ⟨hj.1, (hb j).mp hj.2⟩
  · have hclear : w.sizeIdx = 0 ∨ Clear ok z j w := by
      rw [Zone.exec, Zone.set_headers] at hw
      split at hw
      · rename_i hjk
        subst hjk
        rcases Cell.holds_store.mp hw with rfl | hw
        · exact .inr hv
        · exact h.clear j w hw
      · exact h.clear j w hw
    exact hclear.imp_right fun hc =>
      ⟨hc.type, hc.stop, fun b hwalk hle => hc.between b ((hb b).mp hwalk) hle⟩

theorem Tidy.calm_footer (hc : IsBlock z c) (hn : (z.hdr c).sizeIdx = n) :
    Calm ok z (hugeWriteFooter c 0 n) := by
  subst hn
  obtain ⟨-, hpos, hend, hle⟩ := hc.chunk h.inv
  unfold hugeWriteFooter
  split
  · exact h
  · refine ⟨h.quiet, h.store_of_not (Boundary.not_inside hc.2 (by omega) (by omega)) ?_⟩
    have hspan : Header.span ⟨.footer, 0, (z.hdr c).sizeIdx⟩ (c + (z.hdr c).sizeIdx - 1) =
        (c, c + (z.hdr c).sizeIdx) := by
      unfold Header.span
      rw [if_pos rfl]
      ext <;> dsimp only <;> omega
    refine ⟨.inr ⟨rfl, by dsimp only; omega⟩, hspan ▸ h.ok_end hc, fun b hb _ => ?_⟩
    rw [hspan]
    rcases Nat.lt_or_ge c b with hlt | hge
    · exact .inr (Boundary.chunk hc.2 hb hlt).2.2.2
    · exact .inl hge

theorem Tidy.calm_free (hc : IsBlock z c) {flags : Nat} (hpos : 0 < n)
    (hend : Boundary z (c + n)) (hle : c + n ≤ z.sizeIdx.cur) (hok : ok (c + n)) :
    Calm ok z ([.store c ⟨.free, flags, n⟩, .persist c] ++ hugeWriteFooter c 0 n) := by
  have htidy : Tidy ok (z.set c (Cell.clean ⟨.free, flags, n⟩)) := h.set_free hc hpos hend hle hok
  refine h.calm_header (htidy.calm_footer ⟨hc.1, ?_⟩ ?_)
  · exact (boundary_set_of_le (Nat.le_refl c)).mpr hc.2
  · rw [Zone.set_hdr, if_pos rfl]
    rfl

/-! ## Neighbours -/

/-- The block before is found: a header or footer that contradicts the walk would have a boundary
inside. Where there is nothing to read, the block itself is found. -/
theorem Tidy.prevFree_eq (hc : Boundary z c) (hle : c ≤ z.sizeIdx.cur)
    (hlt : c < 2 ^ 32) (hp : prevFree z c = some p) (hblock : IsBlock z p) :
    p = c ∨ p + (z.hdr p).sizeIdx = c := by
  unfold prevFree at hp
  split at hp
  · cases hp
  split at hp
  · rw [Option.some.injEq, prevChunkId] at hp
    by_cases hnone : (z.hdr (c - 1)).sizeIdx = 0
    · rw [hnone] at hp
      exact .inl (by omega)
    right
    have hclear := (h.clear (c - 1) (z.hdr (c - 1)) (.inl rfl)).resolve_left hnone
    have hbetween := hclear.between
    rcases hclear.type with htype | ⟨htype, hsize⟩
    · -- a chunk in the slot before ends at `c`, so there is one of it
      rw [Header.span, if_neg (by rw [htype]; decide)] at hbetween
      have hc' := hbetween c hc hle
      have hone : (z.hdr (c - 1)).sizeIdx = 1 := by
        dsimp only at hc'
        omega
      obtain rfl : p = c - 1 := by omega
      omega
    · -- the footer of a chunk that ends at `c`; the real one cannot end inside
      rw [Header.span, if_pos htype] at hbetween
      obtain rfl : p = c - (z.hdr (c - 1)).sizeIdx := by omega
      obtain ⟨-, hpos, hend, hend'⟩ := hblock.chunk h.inv
      have hin := hbetween _ hend hend'
      have hout := (Boundary.chunk hblock.2 hc (by omega)).2.2.2
      dsimp only at hin
      omega
  · cases hp

theorem Tidy.prevRight (hc : IsBlock z c) (hlt : c < 2 ^ 32) {prevIn : Bool}
    (hin : prevIn = true → ∀ p, prevFree z c = some p → IsBlock z p ∧ p ≠ c) :
    PrevRight z c prevIn := by
  intro htrue p hp
  obtain ⟨hblock, hne⟩ := hin htrue p hp
  exact ⟨hblock, (h.prevFree_eq hc.2 (Nat.le_of_lt hc.1) hlt hp hblock).resolve_left hne⟩

end

/-- What `heap_coalesce_huge` makes of a chunk: chunks from one boundary to another, of which the
first and the last are those given, or neighbours that the bucket has. -/
structure Merged (z : Zone) (c : Nat) (prevIn nextIn : Bool) (p n : Nat) : Prop where
  block : IsBlock z p
  stop : Boundary z (p + n)
  first : p = c ∨ prevIn = true ∧ prevFree z c = some p ∧ p + (z.hdr p).sizeIdx = c
  last : p + n = c + (z.hdr c).sizeIdx ∨ nextIn = true ∧
    IsBlock z (c + (z.hdr c).sizeIdx) ∧ nextFree z c = some (c + (z.hdr c).sizeIdx) ∧
    p + n = c + (z.hdr c).sizeIdx + (z.hdr (c + (z.hdr c).sizeIdx)).sizeIdx
  first_of : prevIn = true → ∀ q, prevFree z c = some q → p = q
  last_of : nextIn = true → ∀ q, nextFree z c = some q → p + n = q + (z.hdr q).sizeIdx

theorem nextFree_eq (h : Inv z) (hc : IsBlock z c) (hp : nextFree z c = some p) :
    p = c + (z.hdr c).sizeIdx ∧ IsBlock z p := by
  obtain ⟨-, -, hend, hle⟩ := hc.chunk h
  unfold nextFree at hp
  dsimp only at hp
  split at hp
  · cases hp
  · split at hp
    · cases hp
      exact ⟨rfl, by omega, hend⟩
    · cases hp

theorem Inv.merged (h : Inv z) (hc : IsBlock z c) {prevIn : Bool} (nextIn : Bool)
    (hprev : PrevRight z c prevIn) :
    Merged z c prevIn nextIn (heapCoalesceHuge z c (z.hdr c).sizeIdx prevIn nextIn).1
      (heapCoalesceHuge z c (z.hdr c).sizeIdx prevIn nextIn).2 := by
  obtain ⟨-, -, hend, -⟩ := hc.chunk h
  have hfirst : ∃ p m, (if prevIn then prevFree z c else none).getD c = p ∧
      ((if prevIn then prevFree z c else none).elim 0 fun i => (z.hdr i).sizeIdx) = m ∧
      p + m = c ∧ IsBlock z p ∧
      (p = c ∨ prevIn = true ∧ prevFree z c = some p ∧ p + (z.hdr p).sizeIdx = c) ∧
      (prevIn = true → ∀ q, prevFree z c = some q → p = q) := by
    cases hin : prevIn with
    | false => exact ⟨c, 0, rfl, rfl, rfl, hc, .inl rfl, fun h => absurd h Bool.false_ne_true⟩
    | true =>
      rw [if_pos rfl]
      cases hp : prevFree z c with
      | none => exact ⟨c, 0, rfl, rfl, rfl, hc, .inl rfl, fun _ q hq => by cases hq⟩
      | some p =>
        obtain ⟨hblock, hadj⟩ := hprev hin p hp
        exact ⟨p, _, rfl, rfl, hadj, hblock, .inr ⟨rfl, rfl, hadj⟩,
          fun _ q hq => Option.some.inj hq⟩
  have hlast : ∃ m, ((if nextIn then nextFree z c else none).elim 0 fun i => (z.hdr i).sizeIdx) =
      m ∧ Boundary z (c + (z.hdr c).sizeIdx + m) ∧ (m = 0 ∨ nextIn = true ∧
        IsBlock z (c + (z.hdr c).sizeIdx) ∧ nextFree z c = some (c + (z.hdr c).sizeIdx) ∧
        m = (z.hdr (c + (z.hdr c).sizeIdx)).sizeIdx) ∧
      (nextIn = true → ∀ q, nextFree z c = some q →
        c + (z.hdr c).sizeIdx + m = q + (z.hdr q).sizeIdx) := by
    cases hin : nextIn with
    | false => exact ⟨0, rfl, hend, .inl rfl, fun h => absurd h Bool.false_ne_true⟩
    | true =>
      rw [if_pos rfl]
      cases hp : nextFree z c with
      | none => exact ⟨0, rfl, hend, .inl rfl, fun _ q hq => by cases hq⟩
      | some p =>
        obtain ⟨rfl, hblock⟩ := nextFree_eq h hc hp
        exact ⟨_, rfl, (hblock.chunk h).2.2.1, .inr ⟨rfl, hblock, rfl, rfl⟩,
          fun _ q hq => by cases hq; rfl⟩
  obtain ⟨p, m, hp, hm, hadj, hblock, hfound, hfirst⟩ := hfirst
  obtain ⟨m', hm', hstop, hnext, hlast⟩ := hlast
  unfold heapCoalesceHuge
  dsimp only
  rw [hp, hm, hm']
  have hsum : p + (m + (z.hdr c).sizeIdx + m') = c + (z.hdr c).sizeIdx + m' := by omega
  refine ⟨hblock, hsum ▸ hstop, hfound, ?_, hfirst, hsum ▸ hlast⟩
  rw [hsum]
  rcases hnext with rfl | ⟨hin, hblock', hfree, rfl⟩
  · exact .inl rfl
  · exact .inr ⟨hin, hblock', hfree, rfl⟩

/-! ## Reuse of a free chunk -/

theorem hugeWriteFooter_foldl (z : Zone) (i flags n : Nat) :
    ((hugeWriteFooter i flags n).foldl Zone.exec z).sizeIdx = z.sizeIdx ∧
      (n ≠ 1 → ((hugeWriteFooter i flags n).foldl Zone.exec z).hdr (i + n - 1) =
        ⟨.footer, flags, n⟩) ∧
      ∀ k, n = 1 ∨ k ≠ i + n - 1 →
        ((hugeWriteFooter i flags n).foldl Zone.exec z).hdr k = z.hdr k := by
  unfold hugeWriteFooter
  split
  · rename_i hone
    exact ⟨rfl, fun hne => absurd hone hne, fun _ _ => rfl⟩
  · rename_i hne
    rw [foldl_cons, foldl_nil, Zone.exec]
    refine ⟨rfl, fun _ => ?_, fun k hk => ?_⟩
    · rw [Zone.set_hdr, if_pos rfl]
      rfl
    · rw [Zone.set_hdr, if_neg (hk.resolve_left hne)]

/-- A zone after the chunks from `p` on, `n` of them, became one. -/
structure Joined (z z' : Zone) (p n : Nat) : Prop where
  sizeIdx : z'.sizeIdx = z.sizeIdx
  size : (z'.hdr p).sizeIdx = n
  frame : ∀ k, k < p ∨ p + n ≤ k → z'.hdr k = z.hdr k
  boundary : ∀ b, Boundary z' b ↔ Boundary z b ∧ (b ≤ p ∨ p + n ≤ b)

variable {prevIn nextIn : Bool}

theorem Merged.bounds (h : Merged z c prevIn nextIn p n) (hinv : Inv z) (hc : IsBlock z c) :
    0 < n ∧ p ≤ c ∧ c + (z.hdr c).sizeIdx ≤ p + n ∧ p + n ≤ z.sizeIdx.cur := by
  obtain ⟨-, hpos, -, hle⟩ := hc.chunk hinv
  have hp : p ≤ c := by
    rcases h.first with rfl | ⟨-, -, hadj⟩
    · exact Nat.le_refl p
    · omega
  rcases h.last with hlast | ⟨-, hblock, -, hlast⟩
  · omega
  · have hnext := hblock.chunk hinv
    omega

theorem Joined.isBlock {z' : Zone} (h : Joined z z' p n) (hb : IsBlock z b)
    (hout : b < p ∨ p + n ≤ b) : IsBlock z' b ∧ z'.hdr b = z.hdr b :=
  ⟨⟨h.sizeIdx ▸ hb.1, (h.boundary b).mpr ⟨hb.2, hout.imp_left Nat.le_of_lt⟩⟩, h.frame b hout⟩

theorem Joined.isBlock_first {z' : Zone} (h : Joined z z' p n) (hp : IsBlock z p) : IsBlock z' p :=
  ⟨h.sizeIdx ▸ hp.1, (h.boundary p).mpr ⟨hp.2, .inl (Nat.le_refl p)⟩⟩

theorem Tidy.joined (h : Tidy ok z) (hc : IsBlock z c) (hm : Merged z c prevIn nextIn p n) :
    Calm ok z (hugePrepOperationHdr z false p n) ∧
      Joined z ((hugePrepOperationHdr z false p n).foldl Zone.exec z) p n ∧
      (((hugePrepOperationHdr z false p n).foldl Zone.exec z).hdr (p + n - 1)).sizeIdx = n := by
  obtain ⟨hpos, hp, hend, hle⟩ := hm.bounds h.inv hc
  have hok : ok (p + n) := by
    rcases hm.last with hlast | ⟨-, hblock, -, hlast⟩
    · exact hlast ▸ h.ok_end hc
    · exact hlast ▸ h.ok_end hblock
  refine ⟨h.calm_free hm.block hpos hm.stop hle hok, ?_⟩
  unfold hugePrepOperationHdr
  simp only [Bool.false_eq_true, if_false]
  rw [foldl_append, foldl_cons, foldl_cons, foldl_nil, Zone.exec_store_persist]
  obtain ⟨hsize, hfooter, hframe⟩ := hugeWriteFooter_foldl
    (z.set p (Cell.clean ⟨.free, (z.hdr p).flags, n⟩)) p 0 n
  have hhdr : (z.set p (Cell.clean ⟨.free, (z.hdr p).flags, n⟩)).hdr p =
      ⟨.free, (z.hdr p).flags, n⟩ := by
    rw [Zone.set_hdr, if_pos rfl, Cell.cur_clean]
  have hb : ∀ b, Boundary (z.set p (Cell.clean ⟨.free, (z.hdr p).flags, n⟩)) b ↔
      Boundary z b ∧ (b ≤ p ∨ p + n ≤ b) := fun b =>
    boundary_set hm.block.2 rfl hpos hm.stop
  refine ⟨⟨hsize, ?_, fun k hk => ?_, fun b => ?_⟩, ?_⟩
  · rw [hframe p (by omega), hhdr]
  · rw [hframe k (by omega), Zone.set_hdr, if_neg (by omega)]
  · rw [← hb b]
    unfold hugeWriteFooter
    split
    · rfl
    · refine boundary_set_of_not fun hwalk => ?_
      have hout := ((hb _).mp hwalk).2
      omega
  · by_cases hone : n = 1
    · have hslot : p + n - 1 = p := by omega
      rw [hslot, hframe p (by omega), hhdr]
    · rw [hfooter hone]

/-- `heap_free_chunk_reuse` keeps the zone calm, and what it inserts is a chunk afterwards. -/
theorem Tidy.reuse (h : Tidy ok z) (hc : IsBlock z c) (nextIn : Bool)
    (hprev : PrevRight z c prevIn) :
    ∃ p n, heapCoalesceHuge z c (z.hdr c).sizeIdx prevIn nextIn = (p, n) ∧
      Merged z c prevIn nextIn p n ∧
      Calm ok z (heapFreeChunkReuse z c (z.hdr c).sizeIdx prevIn nextIn) ∧
      Joined z ((heapFreeChunkReuse z c (z.hdr c).sizeIdx prevIn nextIn).foldl Zone.exec z) p n ∧
      (n ≠ (z.hdr c).sizeIdx → (((heapFreeChunkReuse z c (z.hdr c).sizeIdx prevIn
        nextIn).foldl Zone.exec z).hdr (p + n - 1)).sizeIdx = n) ∧
      (n = (z.hdr c).sizeIdx → p = c ∧
        (heapFreeChunkReuse z c (z.hdr c).sizeIdx prevIn nextIn).foldl Zone.exec z = z) := by
  have hm := h.inv.merged hc nextIn hprev
  have hbounds := hm.bounds h.inv hc
  have hreuse : heapFreeChunkReuse z c (z.hdr c).sizeIdx prevIn nextIn =
      if (heapCoalesceHuge z c (z.hdr c).sizeIdx prevIn nextIn).2 ≠ (z.hdr c).sizeIdx then
        hugePrepOperationHdr z false (heapCoalesceHuge z c (z.hdr c).sizeIdx prevIn nextIn).1
          (heapCoalesceHuge z c (z.hdr c).sizeIdx prevIn nextIn).2
      else [] := rfl
  rw [hreuse]
  generalize heapCoalesceHuge z c (z.hdr c).sizeIdx prevIn nextIn = nm at hm hbounds ⊢
  obtain ⟨p, n⟩ := nm
  refine ⟨p, n, rfl, hm, ?_⟩
  dsimp only at hbounds ⊢
  by_cases hne : n = (z.hdr c).sizeIdx
  · obtain rfl : p = c := by omega
    rw [if_neg (not_not.mpr hne)]
    refine ⟨h, ⟨rfl, hne.symm, fun _ _ => rfl, fun b => ⟨fun hb => ⟨hb, ?_⟩, And.left⟩⟩,
      fun hne' => absurd hne hne', fun _ => ⟨rfl, rfl⟩⟩
    rcases Nat.lt_or_ge p b with hlt | hge
    · exact .inr (hne ▸ (Boundary.chunk hc.2 hb hlt).2.2.2)
    · exact .inl hge
  · rw [if_pos hne]
    obtain ⟨hcalm, hjoined, hfooter⟩ := h.joined hc hm
    exact ⟨hcalm, hjoined, fun _ => hfooter, fun heq => absurd heq hne⟩

/-! ## Growth of a zone -/

/-- A zone of `n` chunks after it became one of `n'`. -/
structure Grown (z z' : Zone) (n n' : Nat) : Prop where
  sizeIdx : z'.sizeIdx = Cell.clean n'
  size : (z'.hdr n).sizeIdx = n' - n
  footer : (z'.hdr (n' - 1)).sizeIdx = n' - n
  frame : ∀ k, k < n → z'.hdr k = z.hdr k
  block : IsBlock z' n

theorem Tidy.store_beyond (h : Tidy ok z) (hk : z.sizeIdx.cur ≤ k) {cell : Cell Header}
    (hcell : ∀ w, cell.Holds w → w = v ∨ (z.headers k).Holds w)
    (htype : v.type = .free ∨ v.type = .footer ∧ v.sizeIdx ≤ k + 1) (hstop : ok (v.span k).2)
    (hstart : z.sizeIdx.cur ≤ (v.span k).1) : Tidy ok (z.set k cell) := by
  have hb : ∀ b, b ≤ z.sizeIdx.cur → (Boundary (z.set k cell) b ↔ Boundary z b) :=
    fun b hb => boundary_set_of_le (by omega)
  refine ⟨?_, h.size, fun j w hw => ?_⟩
  · refine inv_of_boundary h.inv.1 ((hb _ (Nat.le_refl _)).mpr h.inv.boundary_size) fun j hj => ?_
    have hj' : j < z.sizeIdx.cur := hj.1
    rw [Zone.set_headers, if_neg (by omega)]
    exact h.inv.stale ⟨hj', (hb j (by omega)).mp hj.2⟩
  · have hold : w = v ∧ j = k ∨ (z.headers j).Holds w := by
      rw [Zone.set_headers] at hw
      split at hw
      · rename_i hjk
        subst hjk
        exact (hcell w hw).imp_left fun heq => ⟨heq, rfl⟩
      · exact .inr hw
    rcases hold with ⟨rfl, rfl⟩ | hold
    · exact .inr ⟨htype, hstop, fun b _ hle => .inl (Nat.le_trans hle hstart)⟩
    · exact (h.clear j w hold).imp_right fun hc =>
        ⟨hc.type, hc.stop, fun b hwalk hle => hc.between b ((hb b hle).mp hwalk) hle⟩

theorem Tidy.calm_size (h : Tidy ok z) (hlt : z.sizeIdx.cur < n) (hok : ok n)
    (hmax : ∀ e, ok e → e ≤ n) (hstale : (z.headers z.sizeIdx.cur).stale = [])
    (hlast : z.hdr z.sizeIdx.cur = ⟨.free, 0, n - z.sizeIdx.cur⟩) :
    Calm ok z [.storeSize n, .persistSize] ∧
      Tidy ok { z with sizeIdx := Cell.clean n } ∧
      IsBlock { z with sizeIdx := Cell.clean n } z.sizeIdx.cur := by
  have hgrown : Tidy ok { z with sizeIdx := Cell.clean n } := by
    have hb : ∀ b, Boundary { z with sizeIdx := Cell.clean n } b ↔ Boundary z b := fun b => Iff.rfl
    have hstop : Boundary z n := by
      refine @Boundary.append _ _ _ h.inv.boundary_size [n - z.sizeIdx.cur] ⟨?_, ?_, by omega, ?_⟩
      · rw [hlast]
        rfl
      · rw [hlast]
      · exact Nat.add_sub_of_le (Nat.le_of_lt hlt)
    have hinside : ∀ b, Boundary z b → b ≤ n → b ≤ z.sizeIdx.cur ∨ b = n := by
      intro b hwalk hle
      rcases Nat.lt_or_ge z.sizeIdx.cur b with hlt' | hge
      · have hnext := (h.inv.boundary_size.chunk hwalk hlt').2.2.2
        rw [hlast] at hnext
        dsimp only at hnext
        exact .inr (by omega)
      · exact .inl hge
    refine ⟨inv_of_boundary rfl hstop fun c hc => ?_, .inr hok, fun k v hv => ?_⟩
    · have hc' : c < n := hc.1
      rcases hinside c hc.2 (Nat.le_of_lt hc') with hle | heq
      · rcases Nat.lt_or_eq_of_le hle with hlt' | heq
        · exact h.inv.stale ⟨hlt', hc.2⟩
        · exact heq ▸ hstale
      · omega
    · refine (h.clear k v hv).imp_right fun hc =>
        ⟨hc.type, hc.stop, fun b hwalk hle => ?_⟩
      rcases hinside b hwalk hle with hle | rfl
      · exact hc.between b hwalk hle
      · exact .inr (hmax _ hc.stop)
  refine ⟨⟨h.quiet, fun image sizeIdx hold => ?_, hgrown⟩, hgrown, hlt, h.inv.boundary_size⟩
  rcases Cell.holds_store.mp hold.2 with rfl | hold'
  · exact hgrown.quiet image sizeIdx ⟨hold.1, .inl rfl⟩
  · exact h.quiet image sizeIdx ⟨hold.1, hold'⟩

theorem Tidy.zoneInit (h : Tidy ok z) (hlt : z.sizeIdx.cur < n) (hok : ok n)
    (hmax : ∀ e, ok e → e ≤ n) :
    Calm ok z (heapZoneInit z.sizeIdx.cur n) ∧
      Grown z ((heapZoneInit z.sizeIdx.cur n).foldl Zone.exec z) z.sizeIdx.cur n := by
  have hspan : (Header.span ⟨.free, 0, n - z.sizeIdx.cur⟩ z.sizeIdx.cur) = (z.sizeIdx.cur, n) := by
    rw [Header.span, if_neg (fun h => by cases h)]
    dsimp only
    rw [Nat.add_sub_of_le (Nat.le_of_lt hlt)]
  have hhead : Tidy ok (z.set z.sizeIdx.cur (Cell.clean ⟨.free, 0, n - z.sizeIdx.cur⟩)) := by
    refine h.store_beyond (Nat.le_refl _) (fun w hw => .inl (Cell.holds_clean.mp hw))
      (.inl rfl) ?_ ?_
    · rw [hspan]
      exact hok
    · exact Nat.le_of_eq (congrArg Prod.fst hspan).symm
  have hhdr : ∀ k, (z.set z.sizeIdx.cur (Cell.clean ⟨.free, 0, n - z.sizeIdx.cur⟩)).hdr k =
      if k = z.sizeIdx.cur then ⟨.free, 0, n - z.sizeIdx.cur⟩ else z.hdr k :=
    fun k => Zone.set_hdr z _ k _
  unfold heapZoneInit memblockHugeInit
  rw [append_assoc, foldl_append]
  suffices hrest : ∀ z', z' = z.set z.sizeIdx.cur (Cell.clean ⟨.free, 0, n - z.sizeIdx.cur⟩) →
      Calm ok z' (hugeWriteFooter z.sizeIdx.cur 0 (n - z.sizeIdx.cur) ++
        [.storeSize n, .persistSize]) ∧
      Grown z ((hugeWriteFooter z.sizeIdx.cur 0 (n - z.sizeIdx.cur) ++
        [Micro.storeSize n, Micro.persistSize]).foldl Zone.exec z') z.sizeIdx.cur n by
    obtain ⟨hcalm, hgrown⟩ := hrest _ rfl
    refine ⟨h.calm_header hcalm, ?_⟩
    rw [foldl_cons, foldl_cons, foldl_nil, Zone.exec_store_persist]
    exact hgrown
  rintro z' rfl
  unfold hugeWriteFooter
  split
  · rename_i hone
    obtain ⟨hcalm, -, hblock⟩ := hhead.calm_size (n := n) hlt hok hmax
      (by rw [Zone.set_sizeIdx, Zone.set_headers, if_pos rfl]; rfl)
      (by rw [Zone.set_sizeIdx, hhdr, if_pos rfl])
    refine ⟨hcalm, rfl, ?_, ?_, fun k hk => ?_, hblock⟩
    · exact congrArg Header.sizeIdx ((hhdr _).trans (if_pos rfl))
    · exact congrArg Header.sizeIdx ((hhdr _).trans (if_pos (by omega)))
    · exact (hhdr k).trans (if_neg (by omega))
  · rename_i hne
    have hfooter : Tidy ok ((z.set z.sizeIdx.cur (Cell.clean ⟨.free, 0, n - z.sizeIdx.cur⟩)).exec
          (.store (z.sizeIdx.cur + (n - z.sizeIdx.cur) - 1) ⟨.footer, 0, n - z.sizeIdx.cur⟩)) := by
      refine hhead.store_beyond (v := ⟨.footer, 0, n - z.sizeIdx.cur⟩) ?_
        (fun w hw => Cell.holds_store.mp hw) (.inr ⟨rfl, by dsimp only; omega⟩) ?_ ?_
      · rw [Zone.set_sizeIdx]
        omega
      · rw [Header.span, if_pos rfl]
        exact (by omega : n = z.sizeIdx.cur + (n - z.sizeIdx.cur) - 1 + 1) ▸ hok
      · rw [Header.span, if_pos rfl, Zone.set_sizeIdx]
        dsimp only
        omega
    obtain ⟨hcalm, -, hblock⟩ := hfooter.calm_size (n := n) hlt hok hmax
      (by rw [Zone.exec, Zone.set_sizeIdx, Zone.set_sizeIdx, Zone.set_headers,
            if_neg (by omega), Zone.set_headers, if_pos rfl]; rfl)
      (by rw [Zone.exec, Zone.set_sizeIdx, Zone.set_sizeIdx, Zone.set_hdr,
            if_neg (by omega), hhdr, if_pos rfl])
    have hhdr' : ∀ k, (([Micro.store (z.sizeIdx.cur + (n - z.sizeIdx.cur) - 1)
        ⟨.footer, 0, n - z.sizeIdx.cur⟩] ++ [Micro.storeSize n, Micro.persistSize]).foldl Zone.exec
          (z.set z.sizeIdx.cur (Cell.clean ⟨.free, 0, n - z.sizeIdx.cur⟩))).hdr k =
        if k = z.sizeIdx.cur + (n - z.sizeIdx.cur) - 1 then ⟨.footer, 0, n - z.sizeIdx.cur⟩
        else if k = z.sizeIdx.cur then ⟨.free, 0, n - z.sizeIdx.cur⟩ else z.hdr k := by
      intro k
      rw [← hhdr k]
      exact Zone.set_hdr (z.set _ _) _ k _
    refine ⟨⟨hhead.quiet, hcalm⟩, rfl, ?_, ?_, fun k hk => ?_, hblock⟩
    · rw [hhdr', if_neg (by omega), if_pos rfl]
    · rw [hhdr', if_pos (by omega)]
    · rw [hhdr', if_neg (by omega), if_neg (by omega)]

end Pmdk.Chunk
