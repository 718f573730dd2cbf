import Pmdk.NvMalloc.SessionRuns

/-!
# Memory is not handed out twice

The bytes of the objects that the client holds, of the headers of runs and of the free ranges do
not overlap, and the counters and lists of the bins agree with the bitmaps, in every state of a
session in which no size wraps around.
-/

namespace Pmdk.NvMalloc

open Extent Transition List

/-! ## Bytes -/

/-- Two ranges of bytes `[lo, hi)` that share none. -/
def Apart (r r' : Nat × Nat) : Prop := ∀ a, ¬(r.1 ≤ a ∧ a < r.2 ∧ r'.1 ≤ a ∧ a < r'.2)

theorem Apart.symm {r r' : Nat × Nat} (h : Apart r r') : Apart r' r :=
  fun a hand => h a ⟨hand.2.2.1, hand.2.2.2, hand.1, hand.2.1⟩

def pageBytes (e : Extent) : Nat × Nat := (addr e.start 0, addr (e.start + e.len) 0)

def chunkBytes (e : Extent) : Nat × Nat :=
  (addr (chunkPage e.start) 0, addr (chunkPage (e.start + e.len)) 0)

def runHdrBytes (page : Nat) : Nat × Nat := (addr page 0, addr page headerSize)

namespace Heap

def extent (h : Heap) (ptr : Nat) : Nat × Nat :=
  let page := pageOf ptr
  let size := h.nvm.mem (addr page offSize)
  if isHuge ptr then chunkBytes ⟨ptr / chunkSize, size⟩
  else if getUsage (h.nvm.mem (addr page 0)) = usageRun then
    (ptr, ptr + h.nvm.mem (addr page offNBytes))
  else pageBytes ⟨page, size⟩

def extents (h : Heap) : List (Nat × Nat) :=
  (h.reserved ++ h.active).map h.extent ++ h.runs.map runHdrBytes ++
    h.freePageruns.toList.map pageBytes ++ h.freeChunks.toList.map chunkBytes

structure Sound (h : Heap) : Prop where
  apart : h.extents.Pairwise Apart
  nonempty : ∀ ptr ∈ h.reserved ++ h.active, (h.extent ptr).1 < (h.extent ptr).2
  nFree : ∀ k < numArenaBins, (h.bins k).nFree = ((h.runsOf k).map fun p => (h.run p).clear).sum
  listed : ∀ k < numArenaBins, ∀ p ∈ h.runsOf k, (h.bins k).currentRun ≠ some p →
    0 < (h.run p).clear → (h.bins k).runs.count p = 1
  allocates : ∀ nBytes, 1 ≤ nBytes → nBytes ≤ sclassLargeMax →
    h.arenaAllocate nBytes = .error .exit ∨
      ∃ ptr h', h.arenaAllocate nBytes = .ok (some ptr, h')

end Heap

def Within (P : Nat → Prop) (r : Nat × Nat) : Prop := ∀ a, r.1 ≤ a → a < r.2 → P (pageOf a)

theorem apart_of_within {P Q : Nat → Prop} {r r' : Nat × Nat} (h : Within P r) (h' : Within Q r')
    (hPQ : ∀ p, P p → ¬Q p) : Apart r r' :=
  fun a hand => hPQ _ (h a hand.1 hand.2.1) (h' a hand.2.2.1 hand.2.2.2)

theorem within_pageBytes (e : Extent) : Within (· ∈ e.cells) (pageBytes e) := by
  intro a hle hlt
  have hle' : addr e.start 0 ≤ a := hle
  have hlt' : a < addr (e.start + e.len) 0 := hlt
  rw [addr_eq] at hle' hlt'
  rw [mem_cells, pageOf, blockSize]
  omega

theorem within_chunkBytes (e : Extent) :
    Within (fun p => p / chunkPages ∈ e.cells) (chunkBytes e) := by
  intro a hle hlt
  have hle' : addr (chunkPage e.start) 0 ≤ a := hle
  have hlt' : a < addr (chunkPage (e.start + e.len)) 0 := hlt
  rw [addr_eq, chunkPage_eq] at hle' hlt'
  rw [mem_cells, pageOf, blockSize, chunkPages_eq]
  omega

theorem within_page {page lo hi : Nat} (hhi : hi ≤ blockSize) :
    Within (· = page) (addr page lo, addr page hi) := by
  intro a hle hlt
  have hle' : addr page lo ≤ a := hle
  have hlt' : a < addr page hi := hlt
  rw [addr_eq] at hle' hlt'
  rw [blockSize] at hhi
  rw [pageOf, blockSize]
  omega

theorem within_runHdrBytes (page : Nat) : Within (· = page) (runHdrBytes page) :=
  within_page (by decide)

/-! ## The bytes of a layout -/

namespace Obj

def bytes (size : Nat → Nat) : Obj → Nat × Nat
  | small page i => (Heap.slotAddr page (size page) i, Heap.slotAddr page (size page) i + size page)
  | large e => pageBytes e
  | huge e _ => chunkBytes e

def isSmall : Obj → Bool
  | small _ _ => true
  | _ => false

end Obj

namespace Layout

def runPieces (L : Layout) (size : Nat → Nat) : List (Nat × Nat) :=
  (L.objs.filter Obj.isSmall).map (Obj.bytes size) ++ L.runs.map runHdrBytes

def pieces (L : Layout) (size : Nat → Nat) : List (Nat × Nat) :=
  L.objs.map (Obj.bytes size) ++ L.runs.map runHdrBytes ++ L.frees.map pageBytes ++
    L.freeChunks.map chunkBytes

theorem map_bytes_perm (size : Nat → Nat) (objs : List Obj) :
    (objs.map (Obj.bytes size)).Perm ((objs.filter Obj.isSmall).map (Obj.bytes size) ++
      ((objs.flatMap Obj.pages).map pageBytes ++ (objs.flatMap Obj.chunks).map chunkBytes)) := by
  induction objs with
  | nil => exact .refl _
  | cons o objs ih =>
    cases o with
    | small page i => exact ih.cons _
    | large e => exact (ih.cons _).trans perm_middle.symm
    | huge e fresh =>
      have hmid := (ih.cons (chunkBytes e)).trans perm_middle.symm
      exact hmid.trans (perm_middle.symm.append_left _)

theorem pieces_perm (L : Layout) (size : Nat → Nat) :
    (L.pieces size).Perm (L.runPieces size ++ (L.pageExtents.map pageBytes ++
      L.chunkExtents.map chunkBytes)) := by
  have hobjs := map_bytes_perm size L.objs
  unfold pieces runPieces pageExtents chunkExtents
  rw [perm_iff_count] at hobjs ⊢
  intro r
  have hobjs' := hobjs r
  simp only [List.count_append, map_append] at hobjs' ⊢
  omega

end Layout

section Core

variable {h : Heap} {L : Layout}

theorem pairwise_pageBytes {es : List Extent} {cs : List Nat} (hsep : Separate es cs) :
    (es.map pageBytes).Pairwise Apart := by
  rw [pairwise_map]
  have hcells := (nodup_flatMap.mp (nodup_append.mp hsep.nodup).1).2
  refine hcells.imp fun {e e'} hdisj => ?_
  exact apart_of_within (within_pageBytes e) (within_pageBytes e') fun p hp hp' => hdisj hp hp'

theorem pairwise_chunkBytes {es : List Extent} {cs : List Nat} (hsep : Separate es cs) :
    (es.map chunkBytes).Pairwise Apart := by
  rw [pairwise_map]
  have hcells := (nodup_flatMap.mp (nodup_append.mp hsep.nodup).1).2
  refine hcells.imp fun {e e'} hdisj => ?_
  exact apart_of_within (within_chunkBytes e) (within_chunkBytes e') fun p hp hp' => hdisj hp hp'

theorem slots_apart (page n : Nat) {i j : Nat} (hij : i ≠ j) :
    Apart (Heap.slotAddr page n i, Heap.slotAddr page n i + n)
      (Heap.slotAddr page n j, Heap.slotAddr page n j + n) := by
  have hle : ∀ {i j}, i < j → Heap.slotAddr page n i + n ≤ Heap.slotAddr page n j := by
    intro i j hlt
    have hmul : n * (i + 1) ≤ n * j := Nat.mul_le_mul_left n hlt
    rw [Heap.slotAddr, Heap.slotAddr, ← addr_add, ← addr_add, Nat.add_assoc]
    exact Nat.add_le_add_left (Nat.mul_succ n i ▸ hmul) _
  rintro a ⟨hi, hi', hj, hj'⟩
  rcases Nat.lt_or_gt_of_ne hij with hlt | hlt
  · exact absurd (Nat.lt_of_lt_of_le hi' (hle hlt)) (Nat.not_lt.mpr hj)
  · exact absurd (Nat.lt_of_lt_of_le hj' (hle hlt)) (Nat.not_lt.mpr hi)

section

variable (hcore : Core h L)

include hcore

theorem Core.within_small {page i : Nat} (ho : .small page i ∈ L.objs) :
    Within (· = page) (Obj.bytes h.size (.small page i)) := by
  obtain ⟨-, -, -, hend⟩ := hcore.slot_lt ho
  have hbytes : Obj.bytes h.size (.small page i) = (addr page (headerSize + h.size page * i),
      addr page (headerSize + h.size page * i + h.size page)) :=
    congrArg (Prod.mk _) (addr_add page _ _)
  rw [hbytes]
  exact within_page hend

theorem Core.pairwise_runPieces : (L.runPieces h.size).Pairwise Apart := by
  have hsmall : ∀ o ∈ L.objs.filter Obj.isSmall, ∃ page i, o = .small page i ∧ o ∈ L.objs := by
    intro o ho
    obtain ⟨hobj, hkind⟩ := mem_filter.mp ho
    cases o with
    | small page i => exact ⟨page, i, rfl, hobj⟩
    | large e => cases hkind
    | huge e fresh => cases hkind
  refine pairwise_append.mpr ⟨?_, ?_, ?_⟩
  · rw [pairwise_map]
    refine (hcore.nodup.filter _).imp_of_mem fun {o o'} ho ho' hne => ?_
    obtain ⟨page, i, rfl, ho⟩ := hsmall o ho
    obtain ⟨page', i', rfl, ho'⟩ := hsmall o' ho'
    by_cases hpage : page = page'
    · subst hpage
      exact slots_apart page (h.size page) fun heq => hne (heq ▸ rfl)
    · refine apart_of_within (hcore.within_small ho) (hcore.within_small ho') ?_
      rintro p rfl heq
      exact hpage heq
  · rw [pairwise_map]
    have hnodup := (nodup_append.mp hcore.geometry.nodup_hdrPages).2.1
    refine List.Pairwise.imp (fun {p q} hne => ?_) hnodup
    refine apart_of_within (within_runHdrBytes p) (within_runHdrBytes q) ?_
    rintro x rfl heq
    exact hne heq
  · intro r hr r' hr'
    obtain ⟨o, ho, rfl⟩ := mem_map.mp hr
    obtain ⟨q, hq, rfl⟩ := mem_map.mp hr'
    obtain ⟨page, i, rfl, ho⟩ := hsmall o ho
    by_cases hpage : page = q
    · subst hpage
      rintro a ⟨hle, -, -, hlt⟩
      have hle' : addr page (headerSize + h.size page * i) ≤ a := hle
      have hlt' : a < addr page headerSize := hlt
      rw [← addr_add] at hle'
      omega
    · refine apart_of_within (hcore.within_small ho) (within_runHdrBytes q) ?_
      rintro x rfl heq
      exact hpage heq

theorem Core.within_runPieces {r : Nat × Nat} (hr : r ∈ L.runPieces h.size) :
    Within (· ∈ L.runs) r := by
  rcases mem_append.mp hr with hr | hr
  · obtain ⟨o, ho, rfl⟩ := mem_map.mp hr
    obtain ⟨hobj, hkind⟩ := mem_filter.mp ho
    cases o with
    | small page i =>
      intro a hle hlt
      have hpage : pageOf a = page := hcore.within_small hobj a hle hlt
      rw [hpage, hcore.runs]
      exact (hcore.small page i hobj).1
    | large e => cases hkind
    | huge e fresh => cases hkind
  · obtain ⟨page, hpage, rfl⟩ := mem_map.mp hr
    intro a hle hlt
    have hof : pageOf a = page := within_runHdrBytes page a hle hlt
    exact hof ▸ hpage

theorem Core.pairwise_pieces : (L.pieces h.size).Pairwise Apart := by
  have hgeo := hcore.geometry
  rw [(L.pieces_perm h.size).pairwise_iff Apart.symm]
  refine pairwise_append.mpr ⟨hcore.pairwise_runPieces, pairwise_append.mpr
    ⟨pairwise_pageBytes hgeo.pages, pairwise_chunkBytes hgeo.chunks, ?_⟩, ?_⟩
  · intro r hr r' hr'
    obtain ⟨e, he, rfl⟩ := mem_map.mp hr
    obtain ⟨e', he', rfl⟩ := mem_map.mp hr'
    refine apart_of_within (within_pageBytes e) (within_chunkBytes e') fun p hp hp' => ?_
    exact hgeo.chunks.not_mem_single he' hp' (hgeo.inArena p (mem_owned.mpr (.inl ⟨e, he, hp⟩))).1
  · intro r hr r' hr'
    rcases mem_append.mp hr' with hr' | hr'
    · obtain ⟨e, he, rfl⟩ := mem_map.mp hr'
      exact apart_of_within (hcore.within_runPieces hr) (within_pageBytes e)
        fun p hp hp' => hgeo.pages.not_mem_single he hp' hp
    · obtain ⟨e, he, rfl⟩ := mem_map.mp hr'
      exact apart_of_within (hcore.within_runPieces hr) (within_chunkBytes e)
        fun p hp hp' => hgeo.chunks.not_mem_single he hp'
          (hgeo.inArena p (mem_owned.mpr (.inr hp))).1

theorem Core.extent_ptr {o : Obj} (ho : o ∈ L.objs) :
    h.extent (o.ptr h.size) = o.bytes h.size := by
  cases o with
  | small page i =>
    obtain ⟨hpage, hi, h64, hend⟩ := hcore.slot_lt ho
    have hlt : headerSize + h.size page * i < blockSize := by omega
    have hhdr := hcore.runHdr page hpage
    show h.extent (addr page (headerSize + h.size page * i)) = _
    unfold Heap.extent
    dsimp only
    rw [pageOf_addr hlt, isHuge_page (hcore.run_mod hpage) hlt, hhdr.state, hhdr.nBytes]
    rfl
  | large e =>
    obtain ⟨husage, hsize⟩ := hcore.large_hdr ho
    show h.extent (addr e.start headerSize) = _
    unfold Heap.extent
    dsimp only
    rw [pageOf_addr (by decide), isHuge_page (hcore.large_mod ho) (by decide), hsize, if_neg husage]
    rfl
  | huge e fresh =>
    have hchunk : addr (chunkPage e.start) headerSize / chunkSize = e.start := by
      rw [addr_eq, chunkPage_eq, chunkSize_eq, headerSize]
      omega
    show h.extent (addr (chunkPage e.start) headerSize) = _
    unfold Heap.extent
    dsimp only
    rw [pageOf_addr (by decide), isHuge_chunk, hcore.huge_size ho, hchunk]
    rfl

theorem Core.bytes_nonempty {o : Obj} (ho : o ∈ L.objs) :
    (o.bytes h.size).1 < (o.bytes h.size).2 := by
  cases o with
  | small page i =>
    have h64 := (hcore.slot_lt ho).2.2.1
    exact Nat.lt_add_of_pos_right (Nat.lt_of_lt_of_le (by decide) h64)
  | large e =>
    have hpos := hcore.geometry.pages.pos e (Layout.mem_pageExtents ho)
    show addr e.start 0 < addr (e.start + e.len) 0
    rw [addr_eq, addr_eq]
    omega
  | huge e fresh =>
    have hpos := hcore.geometry.chunks.pos e (Layout.mem_chunkExtents ho)
    show addr (chunkPage e.start) 0 < addr (chunkPage (e.start + e.len)) 0
    rw [addr_eq, addr_eq, chunkPage_eq, chunkPage_eq]
    omega

end

theorem Inv.allocates (hinv : Inv h L) {nBytes : Nat} (hn : 1 ≤ nBytes)
    (hle : nBytes ≤ sclassLargeMax) : h.arenaAllocate nBytes = .error .exit ∨
      ∃ ptr h', h.arenaAllocate nBytes = .ok (some ptr, h') := by
  have hres := hinv.nvmReserve hn fun hlarge => absurd hle (Nat.not_le.mpr hlarge)
  unfold Heap.nvmReserve at hres
  rw [if_pos hle] at hres
  rcases hres with herr | ⟨h', L', o, heq, -⟩
  · exact .inl herr
  · exact .inr ⟨_, h', heq⟩

theorem Session.sound (hs : Session h L) : h.Sound := by
  have hobjs : (h.reserved ++ h.active).Perm (L.objs.map (Obj.ptr h.size)) := by
    rw [Layout.objs, map_append]
    exact hs.reserved.append hs.active
  have hextents : ((h.reserved ++ h.active).map h.extent).Perm (L.objs.map (Obj.bytes h.size)) := by
    refine (hobjs.map h.extent).trans (.of_eq ?_)
    rw [map_map]
    exact map_congr_left fun o ho => hs.toCore.extent_ptr ho
  have hruns : ∀ k, ((h.runsOf k).map fun p => (h.run p).nFree) =
      (h.runsOf k).map fun p => (h.run p).clear := fun k =>
    map_congr_left fun p hp => (hs.run p (Heap.mem_runsOf.mp hp).1).nFree
  refine ⟨?_, fun ptr hptr => ?_, fun k hk => ?_, fun k hk p hp hcur hclear => ?_,
    fun nBytes hn hle => hs.toInv.allocates hn hle⟩
  · have hperm : (L.pieces h.size).Perm h.extents := by
      refine ((hextents.symm.append ?_).append ?_).append ?_
      · rw [hs.runs]
      · exact hs.frees.map pageBytes
      · exact hs.freeChunks.map chunkBytes
    exact (hperm.pairwise_iff Apart.symm).mp hs.toCore.pairwise_pieces
  · obtain ⟨o, ho, rfl⟩ := hs.obj_of_mem hptr
    rw [hs.toCore.extent_ptr ho]
    exact hs.toCore.bytes_nonempty ho
  · rw [(hs.bins k hk).nFree, hruns]
  · rw [← (hs.run p (Heap.mem_runsOf.mp hp).1).nFree] at hclear
    exact count_eq_one_of_mem (hs.bins k hk).nodup (((hs.bins k hk).mem p).mpr ⟨hp, hcur, hclear⟩)

end Core

/-- No memory is handed out twice in a session in which no size wraps around. -/
theorem sound_run {events : List Event} {h : Heap}
    (hfits : ∀ nBytes, .reserve nBytes ∈ events → sclassLargeMax < nBytes → Fits nBytes)
    (hrun : run step events init = some h) : h.Sound := by
  obtain ⟨L, hs⟩ := session_run hfits hrun
  exact hs.sound

/-- A small and a large object, the first of which is activated and freed, with a link in the
second. -/
theorem sound_run_two : ∃ h, run step [.reserve 100, .reserve 3000, .activate (addr 524287 64) none,
      .free (addr 524287 64) (some (⟨addr 524286 64, 0⟩, none))] init = some h ∧ h.Sound := by
  obtain ⟨h, hrun⟩ := Option.isSome_iff_exists.mp
    (by decide +kernel : (run step [.reserve 100, .reserve 3000, .activate (addr 524287 64) none,
      .free (addr 524287 64) (some (⟨addr 524286 64, 0⟩, none))] init).isSome)
  refine ⟨h, hrun, sound_run (fun nBytes hmem hlarge => ?_) hrun⟩
  have hsmall : nBytes = 100 ∨ nBytes = 3000 := by simpa using hmem
  have hmax : sclassLargeMax = 1073741760 := by decide
  omega

def wrapping : List Event :=
  [.reserve (2 ^ 31), .reserve (2 ^ 31), .activate (addr (chunkPage 3) 64) none,
    .activate (addr (chunkPage 5) 64) none, .free (addr (chunkPage 3) 64) none,
    .reserve (2 ^ 64 - 100)]

/-- The object that was not freed is handed out again. -/
theorem not_sound_wrapping : ∃ h, run step wrapping init = some h ∧ ¬h.Sound := by
  obtain ⟨h, hrun⟩ := Option.isSome_iff_exists.mp
    (by decide +kernel : (run step wrapping init).isSome)
  have hsame : (run step wrapping init).map (fun h => (h.reserved, h.active)) =
      some ([addr (chunkPage 5) 64], [addr (chunkPage 5) 64]) := by decide +kernel
  rw [hrun, Option.map_some, Option.some.injEq, Prod.mk.injEq] at hsame
  refine ⟨h, hrun, fun hsound => ?_⟩
  have hne := hsound.nonempty (addr (chunkPage 5) 64) (by rw [hsame.1]; exact List.mem_cons_self)
  have hapart := hsound.apart
  rw [Heap.extents, hsame.1, hsame.2] at hapart
  exact (List.pairwise_cons.mp hapart).1 _ List.mem_cons_self _
    ⟨Nat.le_refl _, hne, Nat.le_refl _, hne⟩

end Pmdk.NvMalloc
