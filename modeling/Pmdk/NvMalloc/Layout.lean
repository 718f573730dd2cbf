import Pmdk.NvMalloc.Calls

/-!
# Who owns which pages

The pages of the arenas belong to free ranges, to large objects and to runs; the chunks belong to
the arenas, to free ranges and to huge objects. A header stands at the beginning of each of
these. `Geometry` says that nothing is owned twice, so that a store to one header does not change
another one.
-/

namespace Pmdk.NvMalloc

open Extent List

/-! ## Addresses -/

theorem addr_eq (page off : Nat) : addr page off = page * 4096 + off := rfl

theorem chunkPage_eq (chunk : Nat) : chunkPage chunk = chunk * 524288 := rfl

theorem chunkPages_eq : chunkPages = 524288 := rfl

theorem chunkSize_eq : chunkSize = 2147483648 := rfl

variable {p off : Nat}

variable {q k : Nat} {m m' : Mem} {s : Nat × Hdr}

theorem addr_inj {off' : Nat} (h : off < 4096) (h' : off' < 4096) :
    addr p off = addr q off' ↔ p = q ∧ off = off' := by
  rw [addr_eq, addr_eq]
  omega

theorem addr_ne_of_ne {off' : Nat} (hpq : p ≠ q) (h : off < 4096) (h' : off' < 4096) :
    addr p off ≠ addr q off' :=
  fun heq => hpq ((addr_inj h h').mp heq).1

theorem pageOf_addr (h : off < 4096) : pageOf (addr p off) = p := by
  rw [pageOf, addr_eq, blockSize]
  omega

theorem isHuge_chunk (c : Nat) : isHuge (addr (chunkPage c) headerSize) = true := by
  rw [isHuge, decide_eq_true_eq, addr_eq, chunkPage_eq, chunkSize_eq, headerSize]
  omega

theorem isHuge_page (hp : p % chunkPages ≠ 0) (h : off < 4096) :
    isHuge (addr p off) = false := by
  rw [isHuge, decide_eq_false_iff_not, addr_eq, chunkSize_eq, headerSize]
  rw [chunkPages_eq] at hp
  omega

theorem chunkPage_div (c : Nat) : chunkPage c / chunkPages = c := by
  rw [chunkPage_eq, chunkPages_eq]
  omega

theorem chunkPage_mod (c : Nat) : chunkPage c % chunkPages = 0 := by
  rw [chunkPage_eq, chunkPages_eq]
  omega

theorem chunkPage_inj {c c' : Nat} (h : chunkPage c = chunkPage c') : c = c' := by
  rw [chunkPage_eq, chunkPage_eq] at h
  omega

/-! ## Headers -/

def SameHdr (m m' : Mem) (p : Nat) : Prop := ∀ off < headerSize, m' (addr p off) = m (addr p off)

theorem SameHdr.refl (m : Mem) (p : Nat) : SameHdr m m p := fun _ _ => rfl

theorem SameHdr.trans {m'' : Mem} (h : SameHdr m m' p) (h' : SameHdr m' m'' p) :
    SameHdr m m'' p := fun off hoff => (h' off hoff).trans (h off hoff)

theorem sameHdr_update {a : Nat} (h : ∀ off < headerSize, a ≠ addr p off) (v : Nat) :
    SameHdr m (Function.update m a v) p :=
  fun off hoff => Function.update_of_ne (Ne.symm (h off hoff)) ..

theorem SameHdr.update (h : SameHdr m m' p) (hpq : p ≠ q)
    (hoff : off < 4096) (v : Nat) : SameHdr m (Function.update m' (addr q off) v) p :=
  h.trans (sameHdr_update (fun _ hoff' =>
    addr_ne_of_ne hpq.symm hoff (Nat.lt_trans hoff' (by decide))) v)

inductive Hdr
  | free (n : Nat)
  | used (usage n : Nat)
  | fresh (n : Nat)

def Hdr.Ok (m : Mem) (page : Nat) : Hdr → Prop
  | .free n =>
    m (addr page 0) = usageFree ||| stateInitialized ∧ m (addr page offSize) = n
  | .used usage n => m (addr page 0) = usage ||| stateInitialized ∧ m (addr page offSize) = n ∧
      ∀ j < 4, m (addr page (offOn + 8 * j)) = 0
  | .fresh n => m (addr page 0) = usageHuge ||| stateInitializing ∧ m (addr page offSize) = n ∧
      ∀ j < 4, m (addr page (offOn + 8 * j)) = 0

theorem Hdr.Ok.frame {hdr : Hdr} (h : hdr.Ok m p) (hsame : SameHdr m m' p) :
    hdr.Ok m' p := by
  have hstate := hsame 0 (by decide)
  have hsize := hsame offSize (by decide)
  have hon : ∀ j < 4, m' (addr p (offOn + 8 * j)) = m (addr p (offOn + 8 * j)) := by
    intro j hj
    refine hsame _ ?_
    rw [offOn, headerSize]
    omega
  cases hdr with
  | free n => exact ⟨hstate.trans h.1, hsize.trans h.2⟩
  | used usage n =>
    exact ⟨hstate.trans h.1, hsize.trans h.2.1, fun j hj => (hon j hj).trans (h.2.2 j hj)⟩
  | fresh n =>
    exact ⟨hstate.trans h.1, hsize.trans h.2.1, fun j hj => (hon j hj).trans (h.2.2 j hj)⟩

def slots (nBytes : Nat) : Nat := (blockSize - 64) / nBytes

structure RunHdr (m : Mem) (page n v : Nat) (bit : Nat → Prop) : Prop where
  state : m (addr page 0) = usageRun ||| stateInitialized
  nBytes : m (addr page offNBytes) = n
  version : m (addr page offVersion) = v
  on : ∀ j < 4, m (addr page (offRunOn + 8 * j)) = 0
  bits : ∀ i < slots n, (bitmapOf m page).test i = true ↔ bit i

theorem slots_le {n i : Nat} (h64 : 64 ≤ n) (hi : i < slots n) : i < 63 := by
  have hle : slots n ≤ (blockSize - 64) / 64 := Nat.div_le_div_left h64 (by decide)
  have h63 : (blockSize - 64) / 64 = 63 := by decide
  omega

theorem RunHdr.frame {n v : Nat} {bit : Nat → Prop} (h : RunHdr m p n v bit)
    (h64 : 64 ≤ n) (hsame : SameHdr m m' p) : RunHdr m' p n v bit := by
  refine ⟨(hsame 0 (by decide)).trans h.state, (hsame offNBytes (by decide)).trans h.nBytes,
    (hsame offVersion (by decide)).trans h.version, fun j hj => ?_, fun i hi => ?_⟩
  · refine (hsame _ ?_).trans (h.on j hj)
    rw [offRunOn, headerSize]
    omega
  · rw [← h.bits i hi]
    have hbyte : bitmapOf m' p (i / 8) = bitmapOf m p (i / 8) := by
      refine hsame _ ?_
      have hlt := slots_le h64 hi
      rw [offBitmap, headerSize]
      omega
    rw [Bitmap.test, Bitmap.test, hbyte]

/-! ## Objects and the layout -/

inductive Obj
  | small (page i : Nat)
  | large (e : Extent)
  | huge (e : Extent) (fresh : Bool)
  deriving DecidableEq

namespace Obj

def pages : Obj → List Extent
  | large e => [e]
  | _ => []

def chunks : Obj → List Extent
  | huge e _ => [e]
  | _ => []

/-- The address of an object, where `size` are the sizes of the runs' slots. -/
def ptr (size : Nat → Nat) : Obj → Nat
  | small page i => Heap.slotAddr page (size page) i
  | large e => addr e.start headerSize
  | huge e _ => addr (chunkPage e.start) headerSize

def hdrs (active : Bool) : Obj → List (Nat × Hdr)
  | small _ _ => []
  | large e => [(e.start, if active then .used usageBlock e.len else .free e.len)]
  | huge e fresh => [(chunkPage e.start,
      if active then .used usageHuge e.len else if fresh then .fresh e.len else .free e.len)]

end Obj

structure Layout where
  frees : List Extent
  freeChunks : List Extent
  arenas : List Nat
  runs : List Nat
  res : List Obj
  act : List Obj

namespace Layout

def objs (L : Layout) : List Obj := L.res ++ L.act

def pageExtents (L : Layout) : List Extent := L.frees ++ L.objs.flatMap Obj.pages

def chunkExtents (L : Layout) : List Extent := L.freeChunks ++ L.objs.flatMap Obj.chunks

def hdrs (L : Layout) : List (Nat × Hdr) :=
  L.frees.map (fun e => (e.start, Hdr.free e.len)) ++
    L.freeChunks.map (fun e => (chunkPage e.start, Hdr.free e.len)) ++
    L.res.flatMap (Obj.hdrs false) ++ L.act.flatMap (Obj.hdrs true)

structure Geometry (L : Layout) (nextChunk : Nat) : Prop where
  pages : Separate L.pageExtents L.runs
  inArena : ∀ p ∈ owned L.pageExtents L.runs, p / chunkPages ∈ L.arenas ∧ p % chunkPages ≠ 0
  chunks : Separate L.chunkExtents L.arenas
  lt : ∀ c ∈ owned L.chunkExtents L.arenas, c < nextChunk

def hdrPages (L : Layout) : List Nat := L.hdrs.map Prod.fst ++ L.runs

theorem map_fst_hdrs (active : Bool) (objs : List Obj) :
    ((objs.flatMap (Obj.hdrs active)).map Prod.fst).Perm
      ((objs.flatMap Obj.pages).map start ++
        (objs.flatMap Obj.chunks).map fun e => chunkPage e.start) := by
  induction objs with
  | nil => exact .refl _
  | cons o objs ih =>
    cases o with
    | small page i => exact ih
    | large e => exact ih.cons e.start
    | huge e fresh => exact (ih.cons (chunkPage e.start)).trans perm_middle.symm

theorem hdrPages_perm (L : Layout) :
    L.hdrPages.Perm ((L.pageExtents.map start ++ L.runs) ++
      L.chunkExtents.map fun e => chunkPage e.start) := by
  have hres := map_fst_hdrs false L.res
  have hact := map_fst_hdrs true L.act
  unfold hdrPages hdrs pageExtents chunkExtents objs
  rw [perm_iff_count] at hres hact ⊢
  intro p
  have hres' := hres p
  have hact' := hact p
  simp only [List.count_append, map_append, flatMap_append, map_map,
    Function.comp_def] at hres' hact' ⊢
  have heta : L.frees.map (fun e => e.start) = L.frees.map start := rfl
  rw [heta]
  omega

theorem Geometry.nodup_hdrPages {L : Layout} {n : Nat} (h : L.Geometry n) : L.hdrPages.Nodup := by
  refine L.hdrPages_perm.nodup_iff.mpr (List.Nodup.append h.pages.nodup_start ?_ ?_)
  · have hstarts : (L.chunkExtents.map start).Nodup :=
      (nodup_append.mp h.chunks.nodup_start).1
    have hmap := hstarts.map fun _ _ => chunkPage_inj
    rwa [map_map] at hmap
  · intro p hp hp'
    obtain ⟨e, -, rfl⟩ := mem_map.mp hp'
    refine (h.inArena _ (h.pages.start_subset hp)).2 (chunkPage_mod e.start)

theorem Geometry.hdr_unique {L : Layout} {n : Nat} (h : L.Geometry n) {t : Nat × Hdr}
    (hs : s ∈ L.hdrs) (ht : t ∈ L.hdrs) (heq : s.1 = t.1) : s = t :=
  inj_on_of_nodup_map (nodup_append.mp h.nodup_hdrPages).1 hs ht heq

theorem Geometry.not_run {L : Layout} {n : Nat} (h : L.Geometry n)
    (hs : s ∈ L.hdrs) : s.1 ∉ L.runs :=
  fun hmem => disjoint_of_nodup_append h.nodup_hdrPages (mem_map_of_mem hs) hmem

theorem mem_hdrs {L : Layout} :
    s ∈ L.hdrs ↔ (∃ e ∈ L.frees, (e.start, Hdr.free e.len) = s) ∨
      (∃ e ∈ L.freeChunks, (chunkPage e.start, Hdr.free e.len) = s) ∨
      (∃ o ∈ L.res, s ∈ o.hdrs false) ∨ ∃ o ∈ L.act, s ∈ o.hdrs true := by
  simp only [hdrs, mem_append, mem_map, mem_flatMap, or_assoc]

/-! ## Changes of the layout -/

section Geometry

variable {L L' : Layout} {n : Nat} {e : Extent} {F : List Extent}

section

variable (h : L.Geometry n)

include h

theorem Geometry.congr (hpages : L.pageExtents.Perm L'.pageExtents)
    (hchunks : L.chunkExtents.Perm L'.chunkExtents) (hruns : L'.runs = L.runs)
    (harenas : L'.arenas = L.arenas) : L'.Geometry n := by
  refine ⟨hruns ▸ h.pages.perm hpages, fun p hp => ?_, harenas ▸ h.chunks.perm hchunks,
    fun c hc => ?_⟩
  · rw [hruns] at hp
    rw [harenas]
    exact h.inArena p ((owned_perm hpages L.runs).mem_iff.mpr hp)
  · rw [harenas] at hc
    exact h.lt c ((owned_perm hchunks L.arenas).mem_iff.mpr hc)

theorem Geometry.ofPages (hpages : Separate L'.pageExtents L'.runs)
    (howned : (owned L'.pageExtents L'.runs).Perm (owned L.pageExtents L.runs))
    (hchunks : L'.chunkExtents = L.chunkExtents) (harenas : L'.arenas = L.arenas) :
    L'.Geometry n := by
  refine ⟨hpages, fun p hp => ?_, ?_, ?_⟩
  · rw [harenas]
    exact h.inArena p (howned.mem_iff.mp hp)
  · rw [hchunks, harenas]
    exact h.chunks
  · rw [hchunks, harenas]
    exact h.lt

theorem Geometry.ofChunks (hchunks : Separate L'.chunkExtents L'.arenas)
    (howned : (owned L'.chunkExtents L'.arenas).Perm (owned L.chunkExtents L.arenas))
    (hpages : L'.pageExtents = L.pageExtents) (hruns : L'.runs = L.runs)
    (harenas : L'.arenas = L.arenas) : L'.Geometry n := by
  refine ⟨?_, ?_, hchunks, fun c hc => h.lt c (howned.mem_iff.mp hc)⟩
  · rw [hpages, hruns]
    exact h.pages
  · rw [hpages, hruns, harenas]
    exact h.inArena

/-- A free range of pages is cut in two, and the second part is reserved. -/
theorem Geometry.splitFree (hfrees : L.frees = e :: F) (hk : 0 < k) (hlt : k < e.len) :
    ({ L with
      frees := ⟨e.start, e.len - k⟩ :: F
      res := .large ⟨e.start + (e.len - k), k⟩ :: L.res } : Layout).Geometry n := by
  have hold : L.pageExtents = e :: (F ++ L.objs.flatMap Obj.pages) := by
    rw [pageExtents, hfrees]
    rfl
  have hperm : (⟨e.start, e.len - k⟩ :: ⟨e.start + (e.len - k), k⟩ ::
      (F ++ L.objs.flatMap Obj.pages)).Perm (⟨e.start, e.len - k⟩ ::
        (F ++ ⟨e.start + (e.len - k), k⟩ :: L.objs.flatMap Obj.pages)) :=
    perm_middle.symm.cons _
  have hpages := h.pages
  rw [hold] at hpages
  refine h.ofPages ((hpages.split hk hlt).perm hperm) ?_ rfl rfl
  rw [hold, owned_split (Nat.le_of_lt hlt)]
  exact owned_perm hperm.symm L.runs

theorem Geometry.takeFree (hfrees : L.frees = e :: F) :
    ({ L with
      frees := F
      res := .large e :: L.res } : Layout).Geometry n := by
  refine h.congr ?_ (.refl _) rfl rfl
  rw [pageExtents, hfrees]
  exact perm_middle.symm

theorem Geometry.toRun {R : List Obj} (hres : L.res = .large ⟨p, 1⟩ :: R) :
    ({ L with
      res := R
      runs := p :: L.runs } : Layout).Geometry n := by
  have hold : L.pageExtents = L.frees ++ ⟨p, 1⟩ :: (R ++ L.act).flatMap Obj.pages := by
    rw [pageExtents, objs, hres]
    rfl
  have hpages := h.pages
  rw [hold] at hpages
  refine h.ofPages (hpages.perm perm_middle).single ?_ ?_ rfl
  · rw [hold]
    exact ((owned_perm perm_middle L.runs).trans (owned_single p _ L.runs)).symm
  · rw [chunkExtents, chunkExtents, objs, objs, hres]
    rfl

theorem Geometry.addArena :
    ({ L with
      frees := ⟨chunkPage n + 1, chunkPages - 1⟩ :: L.frees
      arenas := n :: L.arenas } : Layout).Geometry (n + 1) := by
  have hcell : ∀ p ∈ (⟨chunkPage n + 1, chunkPages - 1⟩ : Extent).cells,
      p / chunkPages = n ∧ p % chunkPages ≠ 0 := by
    intro p hp
    rw [mem_cells] at hp
    dsimp only at hp
    rw [chunkPage_eq, chunkPages_eq] at hp
    rw [chunkPages_eq]
    omega
  refine ⟨h.pages.cons (show 0 < chunkPages - 1 by decide) fun p hp hmem => ?_, fun p hp => ?_, ?_,
      fun c hc => ?_⟩
  · have hlt := h.lt _ (mem_owned.mpr (.inr (h.inArena p hmem).1))
    rw [(hcell p hp).1] at hlt
    exact Nat.lt_irrefl n hlt
  · have hmem : p ∈ (⟨chunkPage n + 1, chunkPages - 1⟩ : Extent).cells ∨
        p ∈ owned L.pageExtents L.runs := mem_append.mp (owned_cons _ _ _ ▸ hp)
    rcases hmem with hnew | hold
    · exact ⟨(hcell p hnew).1 ▸ mem_cons_self, (hcell p hnew).2⟩
    · exact ⟨mem_cons_of_mem n (h.inArena p hold).1, (h.inArena p hold).2⟩
  · refine (h.chunks.cons (e := ⟨n, 1⟩) Nat.one_pos fun c hc hmem => ?_).single
    rw [mem_cells] at hc
    have hlt := h.lt c hmem
    dsimp only at hc
    omega
  · have hmem : c ∈ L.chunkExtents.flatMap cells ++ n :: L.arenas := hc
    rw [perm_middle.mem_iff, mem_cons] at hmem
    rcases hmem with rfl | hold
    · exact Nat.lt_succ_self c
    · exact Nat.lt_succ_of_lt (h.lt c hold)

theorem Geometry.addHuge (hk : 0 < k) (fresh : Bool) :
    ({ L with res := .huge ⟨n, k⟩ fresh :: L.res } : Layout).Geometry (n + k) := by
  have hperm : (⟨n, k⟩ :: L.chunkExtents).Perm
      (L.freeChunks ++ ⟨n, k⟩ :: L.objs.flatMap Obj.chunks) := perm_middle.symm
  refine ⟨h.pages, h.inArena, (h.chunks.cons hk fun c hc hmem => ?_).perm hperm, fun c hc => ?_⟩
  · rw [mem_cells] at hc
    have hlt := h.lt c hmem
    dsimp only at hc
    omega
  · have hmem := (owned_perm hperm L.arenas).mem_iff.mpr hc
    rw [owned_cons, mem_append, mem_cells] at hmem
    rcases hmem with hnew | hold
    · exact hnew.2
    · exact Nat.lt_of_lt_of_le (h.lt c hold) (Nat.le_add_right n k)

theorem Geometry.splitFreeChunks (hfrees : L.freeChunks = e :: F)
    (hk : 0 < k) (hlt : k < e.len) (fresh : Bool) :
    ({ L with
      freeChunks := ⟨e.start, e.len - k⟩ :: F
      res := .huge ⟨e.start + (e.len - k), k⟩ fresh :: L.res } : Layout).Geometry n := by
  have hold : L.chunkExtents = e :: (F ++ L.objs.flatMap Obj.chunks) := by
    rw [chunkExtents, hfrees]
    rfl
  have hperm : (⟨e.start, e.len - k⟩ :: ⟨e.start + (e.len - k), k⟩ ::
      (F ++ L.objs.flatMap Obj.chunks)).Perm (⟨e.start, e.len - k⟩ ::
        (F ++ ⟨e.start + (e.len - k), k⟩ :: L.objs.flatMap Obj.chunks)) :=
    perm_middle.symm.cons _
  have hchunks := h.chunks
  rw [hold] at hchunks
  refine h.ofChunks ((hchunks.split hk hlt).perm hperm) ?_ rfl rfl rfl
  rw [hold, owned_split (Nat.le_of_lt hlt)]
  exact owned_perm hperm.symm L.arenas

theorem Geometry.takeFreeChunks (hfrees : L.freeChunks = e :: F) (fresh : Bool) :
    ({ L with
      freeChunks := F
      res := .huge e fresh :: L.res } : Layout).Geometry n := by
  refine h.congr (.refl _) ?_ rfl rfl
  rw [chunkExtents, hfrees]
  exact perm_middle.symm

theorem Geometry.activate {o : Obj} (ho : o ∈ L.res) :
    ({ L with
      res := L.res.erase o
      act := o :: L.act } : Layout).Geometry n := by
  have hperm : L.objs.Perm (L.res.erase o ++ o :: L.act) :=
    ((perm_cons_erase ho).append_right _).trans perm_middle.symm
  exact h.congr ((hperm.flatMap_right _).append_left _) ((hperm.flatMap_right _).append_left _)
    rfl rfl

/-- An object is freed: its pages or chunks become free ranges. -/
theorem Geometry.free {o : Obj} (ho : o ∈ L.act) :
    ({ L with
      frees := o.pages ++ L.frees
      freeChunks := o.chunks ++ L.freeChunks
      act := L.act.erase o } : Layout).Geometry n := by
  have hperm : L.objs.Perm (o :: (L.res ++ L.act.erase o)) :=
    ((perm_cons_erase ho).append_left _).trans perm_middle
  have hmove : ∀ (f : Obj → List Extent) (es : List Extent),
      (es ++ L.objs.flatMap f).Perm ((f o ++ es) ++ (L.res ++ L.act.erase o).flatMap f) := by
    intro f es
    refine ((hperm.flatMap_right f).append_left es).trans ?_
    rw [flatMap_cons, ← append_assoc]
    exact perm_append_comm.append_right _
  exact h.congr (hmove _ _) (hmove _ _) rfl rfl

end

end Geometry

end Layout

end Pmdk.NvMalloc
