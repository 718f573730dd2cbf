import Pmdk.NvMalloc.Stores

/-!
# Words of the client

The pointers that the client holds are the objects of the layout. An object holds the bytes behind
its header (or those of its slot), and none of these is in a header.
-/

namespace Pmdk.NvMalloc

open Extent List

structure Session (h : Heap) (L : Layout) : Prop extends Inv h L where
  reserved : h.reserved.Perm (L.res.map (Obj.ptr h.size))
  active : h.active.Perm (L.act.map (Obj.ptr h.size))

def Obj.Holds (size : Nat → Nat) (a : Nat) : Obj → Prop
  | small page i => Heap.slotAddr page (size page) i ≤ a ∧
      a < Heap.slotAddr page (size page) i + size page
  | large e => addr e.start headerSize ≤ a ∧ a < addr (e.start + e.len) 0
  | huge e _ => addr (chunkPage e.start) headerSize ≤ a ∧ a < addr (chunkPage (e.start + e.len)) 0

theorem addr_end {page n : Nat} (hn : 0 < n) :
    addr page headerSize + (n * blockSize - headerSize) = addr (page + n) 0 := by
  have hle : headerSize ≤ n * blockSize :=
    Nat.le_trans (by decide) (Nat.le_mul_of_pos_left blockSize hn)
  rw [addr, Nat.add_assoc, Nat.add_sub_cancel' hle, ← Nat.add_mul, addr, Nat.add_zero]

theorem chunk_end {chunk n : Nat} (hn : 0 < n) :
    addr (chunkPage chunk) headerSize + (n * chunkSize - headerSize) =
      addr (chunkPage (chunk + n)) 0 := by
  have hsize : chunkSize = chunkPages * blockSize := by decide
  have hpages : chunkPage chunk + n * chunkPages = chunkPage (chunk + n) := (Nat.add_mul ..).symm
  rw [hsize, ← Nat.mul_assoc, addr_end (Nat.mul_pos hn (by decide)), hpages]

variable {e : Extent} {p : Nat}

section Core

variable {h : Heap} {L : Layout}

theorem Layout.Geometry.page_mod (hgeo : L.Geometry h.nextChunk)
    (hp : p ∈ L.pageExtents.map start ++ L.runs) : p % chunkPages ≠ 0 :=
  (hgeo.inArena p (hgeo.pages.start_subset hp)).2

theorem Layout.mem_pageExtents (he : .large e ∈ L.objs) : e ∈ L.pageExtents :=
  mem_append_right _ (mem_flatMap.mpr ⟨_, he, mem_singleton_self e⟩)

theorem Layout.mem_chunkExtents {fresh : Bool} (he : .huge e fresh ∈ L.objs) : e ∈ L.chunkExtents :=
  mem_append_right _ (mem_flatMap.mpr ⟨_, he, mem_singleton_self e⟩)

section

variable (hcore : Core h L)

include hcore

theorem Core.large_mod (he : .large e ∈ L.objs) : e.start % chunkPages ≠ 0 :=
  hcore.geometry.page_mod (mem_append_left _ (mem_map_of_mem (Layout.mem_pageExtents he)))

theorem Core.run_mod (hp : p ∈ h.runs) : p % chunkPages ≠ 0 :=
  hcore.geometry.page_mod (mem_append_right _ (hcore.runs ▸ hp))

theorem Core.slot_lt {page i : Nat} (ho : .small page i ∈ L.objs) :
    page ∈ h.runs ∧ i < slots (h.size page) ∧ 64 ≤ h.size page ∧
      headerSize + h.size page * i + h.size page ≤ blockSize := by
  obtain ⟨hpage, hi⟩ := hcore.small page i ho
  have h64 := (hcore.run page hpage).le_elemSize
  refine ⟨hpage, hi, h64, ?_⟩
  have hmul : h.size page * (i + 1) ≤ blockSize - 64 :=
    Nat.le_trans (Nat.mul_le_mul_left _ hi) (Nat.mul_div_le _ _)
  rw [Nat.mul_add, Nat.mul_one] at hmul
  have hsub : blockSize = headerSize + (blockSize - 64) := by decide
  omega

theorem Core.large_hdr (he : .large e ∈ L.objs) :
    getUsage (h.nvm.mem (addr e.start 0)) ≠ usageRun ∧
      h.nvm.mem (addr e.start offSize) = e.len := by
  rcases mem_append.mp he with he | he
  · have hok : (Hdr.free e.len).Ok h.nvm.mem e.start := hcore.headers _
      (Layout.mem_hdrs.mpr (.inr (.inr (.inl ⟨_, he, mem_singleton_self _⟩))))
    exact ⟨by rw [hok.1]; decide, hok.2⟩
  · have hok : (Hdr.used usageBlock e.len).Ok h.nvm.mem e.start := hcore.headers _
      (Layout.mem_hdrs.mpr (.inr (.inr (.inr ⟨_, he, mem_singleton_self _⟩))))
    exact ⟨by rw [hok.1]; decide, hok.2.1⟩

theorem Core.huge_size {fresh : Bool}
    (he : .huge e fresh ∈ L.objs) : h.nvm.mem (addr (chunkPage e.start) offSize) = e.len := by
  rcases mem_append.mp he with he | he
  · have hok := hcore.headers _
      (Layout.mem_hdrs.mpr (.inr (.inr (.inl ⟨_, he, mem_singleton_self _⟩))))
    cases fresh with
    | false => exact hok.2
    | true => exact hok.2.1
  · have hok := hcore.headers _
      (Layout.mem_hdrs.mpr (.inr (.inr (.inr ⟨_, he, mem_singleton_self _⟩))))
    exact hok.2.1

theorem Core.holds_payload {o : Obj} (ho : o ∈ L.objs) {a : Nat}
    (hle : (h.payload (o.ptr h.size)).1 ≤ a)
    (hlt : a < (h.payload (o.ptr h.size)).1 + (h.payload (o.ptr h.size)).2) : o.Holds h.size a := by
  cases o with
  | small page i =>
    obtain ⟨hpage, hi, h64, hend⟩ := hcore.slot_lt ho
    have hoff : headerSize + h.size page * i < 4096 := by
      rw [blockSize] at hend
      omega
    have hhdr := hcore.runHdr page hpage
    have hpayload : h.payload (addr page (headerSize + h.size page * i)) =
        (addr page (headerSize + h.size page * i), h.size page) := by
      unfold Heap.payload
      dsimp only
      rw [pageOf_addr hoff, isHuge_page (hcore.run_mod hpage) hoff, hhdr.state, hhdr.nBytes]
      rfl
    have hptr : Obj.ptr h.size (.small page i) = addr page (headerSize + h.size page * i) := rfl
    rw [hptr, hpayload] at hle hlt
    exact ⟨hle, hlt⟩
  | large e =>
    obtain ⟨husage, hsize⟩ := hcore.large_hdr ho
    have hpos := hcore.geometry.pages.pos e (Layout.mem_pageExtents ho)
    have hpayload : h.payload (addr e.start headerSize) =
        (addr e.start headerSize, e.len * blockSize - headerSize) := by
      unfold Heap.payload
      dsimp only
      rw [pageOf_addr (by decide), isHuge_page (hcore.large_mod ho) (by decide), hsize,
        if_neg husage]
      rfl
    have hptr : Obj.ptr h.size (.large e) = addr e.start headerSize := rfl
    rw [hptr, hpayload] at hle hlt
    exact ⟨hle, Nat.lt_of_lt_of_eq hlt (addr_end hpos)⟩
  | huge e fresh =>
    have hpos := hcore.geometry.chunks.pos e (Layout.mem_chunkExtents ho)
    have hpayload : h.payload (addr (chunkPage e.start) headerSize) =
        (addr (chunkPage e.start) headerSize, e.len * chunkSize - headerSize) := by
      unfold Heap.payload
      dsimp only
      rw [pageOf_addr (by decide), isHuge_chunk, hcore.huge_size ho]
      rfl
    have hptr : Obj.ptr h.size (.huge e fresh) = addr (chunkPage e.start) headerSize := rfl
    rw [hptr, hpayload] at hle hlt
    exact ⟨hle, Nat.lt_of_lt_of_eq hlt (chunk_end hpos)⟩

theorem Core.not_header {o : Obj} (ho : o ∈ L.objs) {a : Nat}
    (ha : o.Holds h.size a) {off : Nat} (hp : p ∈ L.hdrPages) (hoff : off < headerSize) :
    a ≠ addr p off := by
  have hgeo := hcore.geometry
  rw [L.hdrPages_perm.mem_iff, mem_append] at hp
  rintro rfl
  rw [headerSize] at hoff
  cases o with
  | small page i =>
    obtain ⟨-, -, -, hend⟩ := hcore.slot_lt ho
    obtain ⟨hle, hlt⟩ := ha
    rw [Heap.slotAddr, addr_eq, addr_eq, headerSize] at hle hlt
    rw [headerSize, blockSize] at hend
    omega
  | large e =>
    obtain ⟨hle, hlt⟩ := ha
    rw [addr_eq, addr_eq, headerSize] at hle
    rw [addr_eq, addr_eq] at hlt
    have hcell : p ∈ e.cells := mem_cells.mpr ⟨by omega, by omega⟩
    have hmem := Layout.mem_pageExtents ho
    rcases hp with hp | hp
    · rcases mem_append.mp hp with hp | hp
      · obtain ⟨e', he', rfl⟩ := mem_map.mp hp
        have heq := hgeo.pages.eq_of_mem hmem he' hcell (start_mem_cells (hgeo.pages.pos e' he'))
        subst heq
        omega
      · exact hgeo.pages.not_mem_single hmem hcell hp
    · obtain ⟨e', -, rfl⟩ := mem_map.mp hp
      exact (hgeo.inArena _ (mem_owned.mpr (.inl ⟨e, hmem, hcell⟩))).2 (chunkPage_mod e'.start)
  | huge e fresh =>
    obtain ⟨hle, hlt⟩ := ha
    rw [addr_eq, addr_eq, headerSize, chunkPage_eq] at hle
    rw [addr_eq, addr_eq, chunkPage_eq] at hlt
    have hcell : p / chunkPages ∈ e.cells := by
      rw [mem_cells, chunkPages_eq]
      omega
    have hmem := Layout.mem_chunkExtents ho
    rcases hp with hp | hp
    · exact hgeo.chunks.not_mem_single hmem hcell (hgeo.inArena p (hgeo.pages.start_subset hp)).1
    · obtain ⟨e', he', rfl⟩ := mem_map.mp hp
      rw [chunkPage_div] at hcell
      have heq := hgeo.chunks.eq_of_mem hmem he' hcell (start_mem_cells (hgeo.chunks.pos e' he'))
      subst heq
      rw [chunkPage_eq] at hle
      omega

end

end Core

section Session

variable {h : Heap} {L : Layout}

theorem Session.obj_of_mem (hs : Session h L) {ptr : Nat} (hptr : ptr ∈ h.reserved ++ h.active) :
    ∃ o ∈ L.objs, o.ptr h.size = ptr := by
  have hperm := hs.reserved.append hs.active
  rw [← map_append] at hperm
  exact mem_map.mp (hperm.mem_iff.mp hptr)

theorem Session.not_header (hs : Session h L) {a : Nat} (ha : h.isWord a = true) {off : Nat}
    (hp : p ∈ L.hdrPages) (hoff : off < headerSize) : a ≠ addr p off := by
  unfold Heap.isWord at ha
  rw [decide_eq_true_eq] at ha
  obtain ⟨-, ptr, hptr, hle, hlt⟩ := ha
  obtain ⟨o, ho, rfl⟩ := hs.obj_of_mem hptr
  exact hs.toCore.not_header ho (hs.toCore.holds_payload ho hle hlt) hp hoff

theorem Session.avoid (hs : Session h L) {links : Links} (hlinks : h.linksOk links = true)
    (hp : p ∈ L.hdrPages) : links.Avoid p := by
  intro l hl off hoff
  unfold Heap.linksOk at hlinks
  rw [decide_eq_true_eq] at hlinks
  exact hs.not_header (hlinks l hl) hp hoff

end Session

end Pmdk.NvMalloc
