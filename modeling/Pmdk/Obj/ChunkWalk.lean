import Pmdk.Obj.ChunkCrash

/-!
# Zones in which nothing is allocated

Every chunk of such a zone is free, and blocks are only merged. A header slot that the walk does not
visit may still have the header or the footer of a block that was merged since. `Tidy` says of every
value that the medium may have that no boundary of the walk lies strictly inside of what it
describes.
-/

namespace Pmdk.Chunk

open Persist Tiling

/-- The walk of the current headers comes to `b`. -/
def Boundary (z : Zone) (b : Nat) : Prop :=
  ∃ ns, ChunkTiles z.hdr 0 ns b

/-- The first chunk of which a header in slot `k` tells, and the first chunk after those. -/
def Header.span (h : Header) (k : Nat) : Nat × Nat :=
  if h.type = .footer then (k + 1 - h.sizeIdx, k + 1) else (k, k + h.sizeIdx)

/-- A header in slot `k` that does not tell of anything but free chunks between two boundaries. -/
structure Clear (ok : Nat → Prop) (z : Zone) (k : Nat) (h : Header) : Prop where
  type : h.type = .free ∨ h.type = .footer ∧ h.sizeIdx ≤ k + 1
  stop : ok (h.span k).2
  between : ∀ b, Boundary z b → b ≤ z.sizeIdx.cur → b ≤ (h.span k).1 ∨ (h.span k).2 ≤ b

structure Tidy (ok : Nat → Prop) (z : Zone) : Prop where
  inv : Inv z
  size : z.sizeIdx.cur = 0 ∨ ok z.sizeIdx.cur
  clear : ∀ k h, (z.headers k).Holds h → h.sizeIdx = 0 ∨ Clear ok z k h

def Quiet (ok : Nat → Prop) (z : Zone) : Prop :=
  ∀ image sizeIdx, z.MayHold image sizeIdx → Tidy ok (Zone.ofImage image sizeIdx)

def Calm (ok : Nat → Prop) : Zone → List Micro → Prop
  | z, [] => Tidy ok z
  | z, m :: ms => Quiet ok z ∧ Calm ok (z.exec m) ms

/-! ## Boundaries -/

variable {ok ok' : Nat → Prop} {z z' : Zone} {b c k n : Nat} {cell : Cell Header}

theorem boundary_zero (z : Zone) : Boundary z 0 :=
  ⟨[], rfl⟩

theorem Boundary.congr (h : Boundary z b) (heq : ∀ k, k < b → z'.hdr k = z.hdr k) :
    Boundary z' b := by
  obtain ⟨ns, hns⟩ := h
  exact ⟨ns, hns.congr fun k _ hk => heq k hk⟩

theorem boundary_set_of_le (h : b ≤ k) : Boundary (z.set k cell) b ↔ Boundary z b := by
  have heq : ∀ i, i < b → (z.set k cell).hdr i = z.hdr i := by
    intro i hi
    rw [Zone.set_hdr, if_neg (by omega)]
  exact ⟨fun hb => hb.congr fun i hi => (heq i hi).symm, fun hb => hb.congr heq⟩

theorem Boundary.between (hc : Boundary z c) (hb : Boundary z b) (hle : c ≤ b) :
    ∃ ns, ChunkTiles z.hdr c ns b := by
  obtain ⟨ms, hms⟩ := hc
  obtain ⟨ns, hns⟩ := hb
  obtain ⟨rest, -, hrest⟩ := hms.split hns hle
  exact ⟨rest, hrest⟩

theorem Boundary.append (hc : Boundary z c) {ns : List Nat} (h : ChunkTiles z.hdr c ns b) :
    Boundary z b := by
  obtain ⟨ms, hms⟩ := hc
  exact ⟨ms ++ ns, tiles_append.mpr ⟨c, hms, h⟩⟩

theorem Boundary.chunk (hc : Boundary z c) (hb : Boundary z b) (hlt : c < b) :
    (z.hdr c).isChunk = true ∧ 0 < (z.hdr c).sizeIdx ∧ Boundary z (c + (z.hdr c).sizeIdx) ∧
      c + (z.hdr c).sizeIdx ≤ b := by
  obtain ⟨ns, hns⟩ := hc.between hb (Nat.le_of_lt hlt)
  cases ns with
  | nil =>
    obtain rfl : c = b := hns
    exact absurd hlt (Nat.lt_irrefl c)
  | cons n ns =>
    obtain ⟨hchunk, rfl, hpos, hrest⟩ := hns
    exact ⟨hchunk, hpos, @Boundary.append _ _ _ hc [(z.hdr c).sizeIdx] ⟨hchunk, rfl, hpos, rfl⟩,
      hrest.le⟩

theorem Boundary.not_inside (hc : Boundary z c) (hlt : c < k)
    (hk : k < c + (z.hdr c).sizeIdx) : ¬ Boundary z k := by
  intro hb
  have hle := (hc.chunk hb hlt).2.2.2
  omega

theorem boundary_set_of_not (h : ¬ Boundary z k) : Boundary (z.set k cell) b ↔ Boundary z b := by
  have hwalk : ∀ {image image' : Nat → Header} (ns : List Nat) (i : Nat),
      (¬ ∃ ms, ChunkTiles image i ms k) → (∀ j, j ≠ k → image' j = image j) →
      ChunkTiles image i ns b → ChunkTiles image' i ns b := by
    intro image image' ns
    induction ns with
    | nil =>
      intro i _ _ hns
      exact hns
    | cons n ns ih =>
      intro i hnot heq hns
      obtain ⟨hchunk, hlen, hpos, hrest⟩ := hns
      have hne : i ≠ k := fun hik => hnot ⟨[], hik⟩
      refine ⟨(heq i hne).symm ▸ hchunk, (heq i hne).symm ▸ hlen, hpos, ih _ ?_ heq hrest⟩
      rintro ⟨ms, hms⟩
      exact hnot ⟨n :: ms, hchunk, hlen, hpos, hms⟩
  have heq : ∀ j, j ≠ k → (z.set k cell).hdr j = z.hdr j := by
    intro j hj
    rw [Zone.set_hdr, if_neg hj]
  constructor
  · rintro ⟨ns, hns⟩
    refine ⟨ns, hwalk ns 0 (fun hk => h ?_) (fun j hj => (heq j hj).symm) hns⟩
    exact (boundary_set_of_le (Nat.le_refl k)).mp hk
  · rintro ⟨ns, hns⟩
    exact ⟨ns, hwalk ns 0 h heq hns⟩

theorem boundary_set (hc : Boundary z c) (hchunk : cell.cur.isChunk = true)
    (hpos : 0 < cell.cur.sizeIdx) (hend : Boundary z (c + cell.cur.sizeIdx)) :
    Boundary (z.set c cell) b ↔ Boundary z b ∧ (b ≤ c ∨ c + cell.cur.sizeIdx ≤ b) := by
  have hc' : Boundary (z.set c cell) c := (boundary_set_of_le (Nat.le_refl c)).mpr hc
  have hhdr : (z.set c cell).hdr c = cell.cur := by
    rw [Zone.set_hdr, if_pos rfl]
  have hafter : ∀ k, c + cell.cur.sizeIdx ≤ k → (z.set c cell).hdr k = z.hdr k := by
    intro k hk
    rw [Zone.set_hdr, if_neg (by omega)]
  have hend' : Boundary (z.set c cell) (c + cell.cur.sizeIdx) :=
    @Boundary.append _ _ _ hc' [cell.cur.sizeIdx]
      ⟨hhdr.symm ▸ hchunk, congrArg Header.sizeIdx hhdr, hpos, rfl⟩
  constructor
  · intro hb
    rcases Nat.lt_or_ge c b with hlt | hle
    · have hle := (hc'.chunk hb hlt).2.2.2
      rw [hhdr] at hle
      obtain ⟨ns, hns⟩ := hend'.between hb hle
      exact ⟨hend.append (hns.congr fun k hk _ => (hafter k hk).symm), .inr hle⟩
    · exact ⟨(boundary_set_of_le hle).mp hb, .inl hle⟩
  · rintro ⟨hb, hle | hle⟩
    · exact (boundary_set_of_le hle).mpr hb
    · obtain ⟨ns, hns⟩ := hend.between hb hle
      exact hend'.append (hns.congr fun k hk _ => hafter k hk)

/-! ## Tidy zones -/

theorem Inv.boundary_size (h : Inv z) : Boundary z z.sizeIdx.cur := by
  obtain ⟨-, ns, hns⟩ := h
  exact ⟨ns, hns.chunkTiles fun k => .inl rfl⟩

theorem Inv.stale (h : Inv z) (hc : IsBlock z c) : (z.headers c).stale = [] := by
  obtain ⟨before, after, hblock⟩ := h.block hc
  exact hblock.stale

theorem IsBlock.chunk (hc : IsBlock z c) (h : Inv z) :
    (z.hdr c).isChunk = true ∧ 0 < (z.hdr c).sizeIdx ∧ Boundary z (c + (z.hdr c).sizeIdx) ∧
      c + (z.hdr c).sizeIdx ≤ z.sizeIdx.cur :=
  Boundary.chunk hc.2 h.boundary_size hc.1

theorem inv_of_boundary (hsize : z.sizeIdx.stale = []) (hstop : Boundary z z.sizeIdx.cur)
    (hstale : ∀ c, IsBlock z c → (z.headers c).stale = []) : Inv z := by
  have hwalk : ∀ (ns : List Nat) (i : Nat), Boundary z i →
      ChunkTiles z.hdr i ns z.sizeIdx.cur → Settled z i ns z.sizeIdx.cur := by
    intro ns
    induction ns with
    | nil =>
      intro i _ h
      exact h
    | cons n ns ih =>
      intro i hi h
      obtain ⟨hchunk, hlen, hpos, hrest⟩ := h
      have hlt := hrest.le
      refine ⟨⟨hstale i ⟨by omega, hi⟩, hchunk⟩, hlen, hpos, ih _ ?_ hrest⟩
      exact @Boundary.append _ _ _ hi [n] ⟨hchunk, hlen, hpos, rfl⟩
  obtain ⟨ns, hns⟩ := hstop
  exact ⟨hsize, ns, hwalk ns 0 (boundary_zero z) hns⟩

theorem Clear.mono {h : Header} (hclear : Clear ok z k h) (hok : ∀ n, ok n → ok' n) :
    Clear ok' z k h :=
  ⟨hclear.type, hok _ hclear.stop, hclear.between⟩

theorem Tidy.mono (h : Tidy ok z) (hok : ∀ n, ok n → ok' n) : Tidy ok' z :=
  ⟨h.inv, h.size.imp_right (hok _), fun k v hv => (h.clear k v hv).imp_right fun hc => hc.mono hok⟩

theorem Calm.mono {ms : List Micro} (h : Calm ok z ms) (hok : ∀ n, ok n → ok' n) :
    Calm ok' z ms := by
  induction ms generalizing z with
  | nil => exact Tidy.mono h hok
  | cons m ms ih => exact ⟨fun image sizeIdx hold => (h.1 image sizeIdx hold).mono hok, ih h.2⟩

theorem Inv.boundary_image (h : Inv z) {image : Nat → Header} {sizeIdx : Nat}
    (hold : z.MayHold image sizeIdx) (hb : b ≤ z.sizeIdx.cur) :
    Boundary (Zone.ofImage image sizeIdx) b ↔ Boundary z b := by
  have hsettled := h
  obtain ⟨-, ns, hns⟩ := hsettled
  have himage : ChunkTiles image 0 ns z.sizeIdx.cur := hns.chunkTiles hold.1
  have hcur : ChunkTiles z.hdr 0 ns z.sizeIdx.cur := hns.chunkTiles fun k => .inl rfl
  have hpart : ∀ {g g' : Nat → Header}, ChunkTiles g 0 ns z.sizeIdx.cur →
      ChunkTiles g' 0 ns z.sizeIdx.cur → (∃ ms, ChunkTiles g 0 ms b) →
      ∃ ms, ChunkTiles g' 0 ms b := by
    rintro g g' hg hg' ⟨ms, hms⟩
    obtain ⟨rest, rfl, -⟩ := hms.split hg hb
    obtain ⟨j, hj, -⟩ := tiles_append.mp hg'
    have hjb : j = b := by rw [hj.stop_eq, hms.stop_eq]
    exact ⟨ms, hjb ▸ hj⟩
  exact ⟨hpart himage hcur, hpart hcur himage⟩

theorem Tidy.quiet (h : Tidy ok z) : Quiet ok z := by
  intro image sizeIdx hold
  have hsize : sizeIdx = z.sizeIdx.cur := by
    simpa [Cell.Holds, h.inv.1] using hold.2
  refine ⟨(h.inv.safe image sizeIdx hold).inv, hsize ▸ h.size, fun k v hv => ?_⟩
  have hv : v = image k := Cell.holds_clean.mp hv
  subst hv
  refine (h.clear k _ (hold.1 k)).imp_right fun hclear =>
    ⟨hclear.type, hclear.stop, fun b hb hle => ?_⟩
  have hle : b ≤ z.sizeIdx.cur := hsize ▸ hle
  exact hclear.between b ((h.inv.boundary_image hold hle).mp hb) hle

theorem Quiet.safe (h : Quiet ok z) : Safe z := by
  intro image sizeIdx hold
  exact (h image sizeIdx hold).inv.safe image sizeIdx ⟨fun _ => .inl rfl, .inl rfl⟩

theorem Quiet.size (h : Quiet ok z) (hn : z.sizeIdx.Holds n) : n = 0 ∨ ok n :=
  (h z.hdr n ⟨fun _ => .inl rfl, hn⟩).size

theorem Calm.quiet {ms : List Micro} (h : Calm ok z ms) : Quiet ok z := by
  cases ms with
  | nil => exact Tidy.quiet h
  | cons m ms => exact h.1

theorem Tidy.free (h : Tidy ok z) (hc : IsBlock z c) : (z.hdr c).type = .free := by
  obtain ⟨hchunk, hpos, -, -⟩ := hc.chunk h.inv
  rcases h.clear c (z.hdr c) (.inl rfl) with hzero | hclear
  · omega
  · rcases hclear.type with htype | ⟨htype, -⟩
    · exact htype
    · rw [Header.isChunk, htype] at hchunk
      exact absurd hchunk (by decide)

theorem Tidy.ok_end (h : Tidy ok z) (hc : IsBlock z c) : ok (c + (z.hdr c).sizeIdx) := by
  have hfree := h.free hc
  rcases h.clear c (z.hdr c) (.inl rfl) with hzero | hclear
  · have hpos := (hc.chunk h.inv).2.1
    omega
  · have hstop := hclear.stop
    rw [Header.span, hfree] at hstop
    exact hstop

end Pmdk.Chunk
