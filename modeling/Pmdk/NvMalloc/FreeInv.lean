import Pmdk.NvMalloc.ActivateInv

/-!
# Freeing

The pages or chunks of an object become a free range again. The slot of a small object becomes
clear in both bitmaps, and its run comes to the list of the bin when it was full.
-/

namespace Pmdk.NvMalloc

open Extent List

def Layout.free (L : Layout) (o : Obj) : Layout :=
  { L with
    frees := o.pages ++ L.frees
    freeChunks := o.chunks ++ L.freeChunks
    act := L.act.erase o }

namespace Layout

variable {L : Layout} {o : Obj}

theorem objs_free (ho : o ∈ L.act) : L.objs.Perm (o :: (L.free o).objs) :=
  ((perm_cons_erase ho).append_left _).trans perm_middle

def freed (o : Obj) : List (Nat × Hdr) :=
  o.pages.map (fun e => (e.start, .free e.len)) ++
    o.chunks.map fun e => (chunkPage e.start, .free e.len)

theorem mem_hdrs_free {s : Nat × Hdr} (hs : s ∈ (L.free o).hdrs) : s ∈ freed o ∨ s ∈ L.hdrs := by
  rw [mem_hdrs] at hs
  rw [mem_hdrs]
  rcases hs with ⟨e, he, hs⟩ | ⟨e, he, hs⟩ | hres | ⟨o', ho', hs⟩
  · rcases mem_append.mp he with he | he
    · exact .inl (mem_append_left _ (mem_map.mpr ⟨e, he, hs⟩))
    · exact .inr (.inl ⟨e, he, hs⟩)
  · rcases mem_append.mp he with he | he
    · exact .inl (mem_append_right _ (mem_map.mpr ⟨e, he, hs⟩))
    · exact .inr (.inr (.inl ⟨e, he, hs⟩))
  · exact .inr (.inr (.inr (.inl hres)))
  · exact .inr (.inr (.inr (.inr ⟨o', mem_of_mem_erase ho', hs⟩)))

theorem freed_subset {s : Nat × Hdr} (hs : s ∈ freed o) : s ∈ (L.free o).hdrs := by
  rw [mem_hdrs]
  rcases mem_append.mp hs with hs | hs
  · obtain ⟨e, he, rfl⟩ := mem_map.mp hs
    exact .inl ⟨e, mem_append_left _ he, rfl⟩
  · obtain ⟨e, he, rfl⟩ := mem_map.mp hs
    exact .inr (.inl ⟨e, mem_append_left _ he, rfl⟩)

theorem mem_hdrPages_free (ho : o ∈ L.act) {p : Nat} (hp : p ∈ (L.free o).hdrPages) :
    p ∈ L.hdrPages := by
  rcases mem_append.mp hp with hp | hp
  · refine mem_append_left _ ?_
    obtain ⟨s, hs, rfl⟩ := mem_map.mp hp
    rcases mem_hdrs_free hs with hs | hs
    · have hact : ∀ t ∈ o.hdrs true, t.1 ∈ L.hdrs.map Prod.fst := fun t ht =>
        mem_map_of_mem (mem_hdrs.mpr (.inr (.inr (.inr ⟨o, ho, ht⟩))))
      cases o with
      | small page i => cases hs
      | large e =>
        rw [mem_singleton.mp hs]
        exact hact (e.start, .used usageBlock e.len) (mem_singleton_self _)
      | huge e fresh =>
        rw [mem_singleton.mp hs]
        exact hact (chunkPage e.start, .used usageHuge e.len) (mem_singleton_self _)
    · exact mem_map_of_mem hs
  · exact mem_append_right _ hp

end Layout

section Free

variable {h : Heap} {L : Layout} {links : Links}

theorem Core.freeRange (hcore : Core h L) {o : Obj} (ho : o ∈ L.act) {page n : Nat} (commit : Nat)
    (hfreed : Layout.freed o = [(page, .free n)]) (hsize : h.nvm.mem (addr page offSize) = n)
    (hsmall : ∀ p i, o ≠ .small p i) (hlinks : ∀ p ∈ L.hdrPages, links.Avoid p) :
    Core (h.execAll (headerStores page commit (usageFree ||| stateInitialized) links))
      (L.free o) := by
  have hperm := Layout.objs_free ho
  have hmem : (page, Hdr.free n) ∈ (L.free o).hdrs :=
    Layout.freed_subset (hfreed ▸ mem_singleton_self _)
  have hpage : page ∈ L.hdrPages :=
    Layout.mem_hdrPages_free ho (mem_append_left _ (mem_map_of_mem hmem))
  refine hcore.ranges rfl rfl rfl rfl (fun p i => ?_) (fun p i => ?_)
    (hcore.geometry.free ho) [(page, .free n)] (fun s hs => ?_) (fun s hs => ?_)
    (fun p hp hnot => ?_) (nodup_cons.mp (hperm.nodup_iff.mp hcore.nodup)).2
  · rw [hperm.mem_iff, mem_cons, or_iff_right (hsmall p i).symm]
  · exact mem_erase_of_ne (hsmall p i).symm
  · rw [← hfreed]
    exact Layout.mem_hdrs_free hs
  · rw [mem_singleton.mp hs]
    exact ⟨hmem, headerStores_state, (headerStores_size (hlinks page hpage)).trans hsize⟩
  · refine (headerStores_avoids (fun heq => hnot ?_)
      (hlinks p (Layout.mem_hdrPages_free ho hp))).sameHdr
    rw [heq]
    exact mem_singleton_self _

theorem BinOk.freeSlot {page k : Nat} {r : Run} (hbin : BinOk h k) (hruns : h.runs.Nodup)
    (hpage : page ∈ h.runs) (hk : (h.run page).bin = k)
    (hsize : r.elemSize = (h.run page).elemSize) (hnFree : r.nFree = (h.run page).nFree + 1)
    {bin : Bin} (hcurrent : bin.currentRun = (h.bins k).currentRun)
    (hfree : bin.nFree = (h.bins k).nFree + 1)
    (hlist : bin.runs = if (h.bins k).currentRun ≠ some page ∧ r.nFree = 1 then
      page :: (h.bins k).runs else (h.bins k).runs) :
    BinOk ((h.setRun page r).setBin k bin) k := by
  have hself : ((h.setRun page r).setBin k bin).bins k = bin := Function.update_self ..
  have hmem : page ∈ h.runsOf k := Heap.mem_runsOf.mpr ⟨hpage, hk⟩
  have hrun := fun p => run_setSlot h page k p r bin
  have hnew : (h.bins k).currentRun ≠ some page ∧ r.nFree = 1 → page ∉ (h.bins k).runs := by
    rintro ⟨-, hone⟩ hold
    have hpos := ((hbin.mem page).mp hold).2.2
    omega
  refine ⟨?_, ?_, ?_, fun p => ?_⟩
  · have hsum : ((h.runsOf k).map fun p => (((h.setRun page r).setBin k bin).run p).nFree).sum =
        ((h.runsOf k).map fun p => (h.run p).nFree).sum + 1 := by
      refine sum_map_of_succ (hruns.filter _) hmem ?_ fun p _ hp => ?_
      · rw [hrun, if_pos rfl, hnFree]
      · rw [hrun, if_neg hp]
    rw [hself, runsOf_setSlot hsize, hfree, hbin.nFree]
    exact hsum.symm
  · rw [hself, runsOf_setSlot hsize, hcurrent]
    exact hbin.current
  · rw [hself, hlist]
    split
    · rename_i hcase
      exact nodup_cons.mpr ⟨hnew hcase, hbin.nodup⟩
    · exact hbin.nodup
  · rw [hself, runsOf_setSlot hsize, hcurrent, hlist, hrun]
    by_cases hp : p = page
    · subst hp
      rw [if_pos rfl, hnFree]
      split
      · rename_i hcase
        exact ⟨fun _ => ⟨hmem, hcase.1, Nat.succ_pos _⟩, fun _ => mem_cons_self⟩
      · rename_i hcase
        rw [hbin.mem p]
        refine and_congr_right fun _ => and_congr_right fun hne => ?_
        have hone : (h.run p).nFree + 1 ≠ 1 := fun h1 => hcase ⟨hne, h1⟩
        omega
    · rw [if_neg hp, ← hbin.mem p]
      split
      · exact mem_cons.trans (or_iff_right hp)
      · exact Iff.rfl

theorem Inv.freeSmall (hinv : Inv h L) {page i : Nat} (ho : .small page i ∈ L.act)
    (prepare commit : Nat) (hlinks : ∀ p ∈ L.hdrPages, links.Avoid p) :
    Inv { h.freeSlot page i with
      nvm := (runStores page i prepare commit (.clearBit page i) links).foldl Nvm.exec h.nvm }
      (L.free (.small page i)) := by
  have hperm := Layout.objs_free ho
  have hobj : Obj.small page i ∈ L.objs := mem_append_right _ ho
  obtain ⟨hpage, hi, h64, -⟩ := hinv.slot_lt hobj
  have hrunOf : h.runOf page = h.run page := by
    rw [Heap.runOf, (hinv.runHdr page hpage).version, if_neg (Nat.lt_irrefl _)]
  obtain ⟨r, hr⟩ : ∃ r, ({ h.run page with
    bitmap := (h.run page).bitmap.clear i
    nFree := (h.run page).nFree + 1 } : Run) = r := ⟨_, rfl⟩
  have hsize : r.elemSize = (h.run page).elemSize := hr ▸ rfl
  have hnFree : r.nFree = (h.run page).nFree + 1 := hr ▸ rfl
  have htest : ∀ j, r.bitmap.test j = true ↔ j ≠ i ∧ (h.run page).bitmap.test j = true := by
    rw [← hr]
    exact Bitmap.test_clear _ i
  obtain ⟨k, hk⟩ : ∃ k, (h.run page).bin = k := ⟨_, rfl⟩
  obtain ⟨bin, hslot, hcurrent, hfree, hlist⟩ : ∃ bin : Bin,
      h.freeSlot page i = (h.setRun page r).setBin k bin ∧
      bin.currentRun = (h.bins k).currentRun ∧ bin.nFree = (h.bins k).nFree + 1 ∧
      bin.runs = if (h.bins k).currentRun ≠ some page ∧ r.nFree = 1 then
        page :: (h.bins k).runs else (h.bins k).runs := by
    rw [← hk, ← hr]
    refine ⟨_, by unfold Heap.freeSlot; rw [hrunOf]; rfl, ?_, ?_, ?_⟩
    · dsimp only
      split <;> rfl
    · dsimp only
      split <;> rfl
    · rw [← apply_ite]
      rfl
  rw [hslot]
  have hrun := fun p => run_setSlot h page k p r bin
  have hsizes : ∀ p, (((h.setRun page r).setBin k bin).run p).elemSize = (h.run p).elemSize :=
    elemSize_setSlot hsize
  have hset : (h.run page).bitmap.test i = true := (hinv.bits page hpage i hi).mpr hobj
  have hclears : r.clear = (h.run page).clear + 1 := by
    refine Run.clear_succ hsize hi hset ?_ fun y hy => ?_
    · rw [← Bool.not_eq_true, htest]
      exact fun hand => hand.1 rfl
    · rw [Bool.eq_iff_iff, htest, and_iff_right hy]
  have hnodupAct : L.act.Nodup := (nodup_append.mp hinv.nodup).2.1
  have hact : ∀ p j, Obj.small p j ∈ L.act.erase (.small page i) ↔
      ¬(p = page ∧ j = i) ∧ .small p j ∈ L.act := by
    intro p j
    rw [hnodupAct.mem_erase_iff]
    simp
  have hobjs : ∀ p j, Obj.small p j ∈ (L.free (.small page i)).objs ↔
      ¬(p = page ∧ j = i) ∧ .small p j ∈ L.objs := by
    intro p j
    have hnew := (nodup_cons.mp (hperm.nodup_iff.mp hinv.nodup)).1
    rw [hperm.mem_iff, mem_cons]
    constructor
    · intro hmem
      refine ⟨?_, .inr hmem⟩
      rintro ⟨rfl, rfl⟩
      exact hnew hmem
    · rintro ⟨hne, heq | hmem⟩
      · cases heq
        exact absurd ⟨rfl, rfl⟩ hne
      · exact hmem
  have hother : ∀ p ∈ L.hdrPages, p ≠ page → SameHdr h.nvm.mem
      ((runStores page i prepare commit (.clearBit page i) links).foldl Nvm.exec h.nvm).mem p :=
    fun p hp hne =>
      (runStores_avoids (flips_clearBit page i) h64 hi hne (hlinks p hp)).sameHdr
  have hrunPage : ∀ {p}, p ∈ h.runs → p ∈ L.hdrPages := fun hp =>
    mem_append_right _ (hinv.runs ▸ hp)
  refine ⟨⟨hinv.geometry.free ho, fun s hs => ?_, hinv.runs, fun p hp => ?_, fun p hp => ?_,
    fun p hp j hj => ?_, fun p j hmem => ?_,
    (nodup_cons.mp (hperm.nodup_iff.mp hinv.nodup)).2⟩, hinv.frees, hinv.freeChunks,
    fun j hj => ?_⟩
  · have hs' : s ∈ L.hdrs := (Layout.mem_hdrs_free hs).resolve_left not_mem_nil
    refine (hinv.headers s hs').frame (hother s.1 ?_ ?_)
    · exact mem_append_left _ (mem_map_of_mem hs')
    · rintro rfl
      exact hinv.geometry.not_run hs' (hinv.runs ▸ hpage)
  · show RunOk (((h.setRun page r).setBin k bin).run p)
    rw [hrun]
    split
    · refine ⟨hsize ▸ (hinv.run page hpage).size, ?_⟩
      rw [hnFree, hclears, (hinv.run page hpage).nFree]
    · exact hinv.run p hp
  · show RunHdr _ p (((h.setRun page r).setBin k bin).run p).elemSize _ _
    rw [hsizes]
    by_cases heq : p = page
    · subst heq
      refine (hinv.runHdr p hp).call h64 (flips_clearBit p i) hi (hlinks p (hrunPage hp))
        fun j hj => ?_
      rw [Bitmap.test_clear, (hinv.runHdr p hp).bits j hj]
      exact Iff.trans (by simp) (hact p j).symm
    · refine ((hinv.runHdr p hp).frame (hinv.run p hp).le_elemSize
        (hother p (hrunPage hp) heq)).congr fun j _ => ?_
      exact Iff.trans (by simp [heq]) (hact p j).symm
  · have hj' : j < slots (h.run p).elemSize := hsizes p ▸ hj
    show (((h.setRun page r).setBin k bin).run p).bitmap.test j = true ↔ _
    rw [hobjs, ← hinv.bits p hp j hj', hrun]
    split
    · rename_i heq
      subst heq
      rw [htest]
      simp
    · rename_i hne
      simp [hne]
  · show p ∈ h.runs ∧ j < slots (((h.setRun page r).setBin k bin).run p).elemSize
    rw [hsizes]
    exact hinv.small p j ((hobjs p j).mp hmem).2
  · have hbinok := hinv.bins j hj
    refine BinOk.congr (h := (h.setRun page r).setBin k bin) ?_ rfl rfl rfl
    by_cases hjk : j = k
    · subst hjk
      exact hbinok.freeSlot hinv.nodup_runs hpage hk hsize hnFree hcurrent hfree hlist
    · exact hbinok.setSlot hjk hk hsize

/-! ## The call -/

/-- The address of an object of whole chunks is used only for its page and its chunk. -/
theorem nvmFree_of_isHuge {ptr page n : Nat} (hhuge : isHuge ptr = true) (hpage : pageOf ptr = page)
    (hsize : h.nvm.mem (addr page offSize) = n) (links : Links) :
    h.nvmFree ptr links = .ok { h with
      freeChunks := h.freeChunks.add Extent.len ⟨ptr / chunkSize, n⟩
      nvm := (headerStores page (usageHuge ||| stateFreeing)
        (usageFree ||| stateInitialized) links).foldl Nvm.exec h.nvm } := by
  unfold Heap.nvmFree Heap.freeStores Heap.freeVolatile
  dsimp only
  rw [hhuge, hpage, hsize]
  rfl

theorem nvmFree_huge (h : Heap) {chunk n : Nat}
    (hsize : h.nvm.mem (addr (chunkPage chunk) offSize) = n) (links : Links) :
    h.nvmFree (addr (chunkPage chunk) headerSize) links = .ok { h with
      freeChunks := h.freeChunks.add Extent.len ⟨chunk, n⟩
      nvm := (headerStores (chunkPage chunk) (usageHuge ||| stateFreeing)
        (usageFree ||| stateInitialized) links).foldl Nvm.exec h.nvm } := by
  have hchunk : addr (chunkPage chunk) headerSize / chunkSize = chunk := by
    rw [addr_eq, chunkPage_eq, chunkSize_eq, headerSize]
    omega
  rw [nvmFree_of_isHuge (isHuge_chunk chunk) (pageOf_addr (by decide)) hsize, hchunk]

theorem nvmFree_large {page n : Nat} (hpage : page % chunkPages ≠ 0)
    (hstate : h.nvm.mem (addr page 0) = usageBlock ||| stateInitialized)
    (hsize : h.nvm.mem (addr page offSize) = n) (links : Links) :
    h.nvmFree (addr page headerSize) links = .ok { h with
      freePageruns := h.freePageruns.add Extent.len ⟨page, n⟩
      nvm := (headerStores page (usageBlock ||| stateFreeing) (usageFree ||| stateInitialized)
        links).foldl Nvm.exec h.nvm } := by
  unfold Heap.nvmFree Heap.freeStores Heap.freeVolatile
  dsimp only
  rw [isHuge_page hpage (by decide), pageOf_addr (by decide), hstate, hsize]
  rfl

theorem nvmFree_small {page i : Nat} {bit : Nat → Prop} (hpage : page % chunkPages ≠ 0)
    (hn : 0 < h.size page) (hend : headerSize + h.size page * i < blockSize)
    (hrun : RunHdr h.nvm.mem page (h.size page) h.currentVersion bit) (links : Links) :
    h.nvmFree (Heap.slotAddr page (h.size page) i) links = .ok { h.freeSlot page i with
      nvm := (runStores page i (usageRun ||| statePrefree) (usageRun ||| stateFreeing)
        (.clearBit page i) links).foldl Nvm.exec h.nvm } := by
  obtain ⟨hof, hslot⟩ := slotOf_slotAddr page hn hend
  have hhuge : isHuge (Heap.slotAddr page (h.size page) i) = false := isHuge_page hpage hend
  have hrunOf : h.runOf page = h.run page := by
    rw [Heap.runOf, hrun.version, if_neg (Nat.lt_irrefl _)]
  have hslot' : slotOf (Heap.slotAddr page (h.size page) i) (h.run page).elemSize = i := hslot
  unfold Heap.nvmFree Heap.freeStores Heap.freeVolatile
  dsimp only
  rw [hhuge, hof, hrun.state, hrunOf, hslot', hrun.version, if_neg (Nat.lt_irrefl _)]
  rfl

theorem size_freeSlot {page i : Nat}
    (hversion : h.nvm.mem (addr page offVersion) = h.currentVersion) :
    (h.freeSlot page i).size = h.size := by
  have hrunOf : h.runOf page = h.run page := by
    rw [Heap.runOf, hversion, if_neg (Nat.lt_irrefl _)]
  unfold Heap.freeSlot
  rw [hrunOf]
  funext p
  show (Function.update h.run page _ p).elemSize = (h.run p).elemSize
  rw [Function.update_apply]
  split
  · rename_i heq
    rw [heq]
  · rfl

theorem Session.nvmFree (hs : Session h L) {ptr : Nat} (hptr : ptr ∈ h.active)
    (hlinks : h.linksOk links = true) :
    ∃ h' o, h.nvmFree ptr links = .ok h' ∧ o ∈ L.act ∧
      Session { h' with active := h'.active.erase ptr } (L.free o) := by
  obtain ⟨o, ho, rfl⟩ := mem_map.mp (hs.active.mem_iff.mp hptr)
  have hobj : o ∈ L.objs := mem_append_right _ ho
  have havoid : ∀ p ∈ L.hdrPages, links.Avoid p := fun p hp => hs.avoid hlinks hp
  have herase := perm_erase_ptr hs.active ho
  cases o with
  | small page i =>
    obtain ⟨hpage, hi, h64, hend⟩ := hs.slot_lt hobj
    have hpos : 0 < h.size page := Nat.lt_of_lt_of_le (by decide) h64
    refine ⟨_, _, nvmFree_small (hs.run_mod hpage) hpos (by omega) (hs.runHdr page hpage) links,
      ho, ?_⟩
    have hinv := hs.toInv.freeSmall ho (usageRun ||| statePrefree) (usageRun ||| stateFreeing)
      havoid
    have hsize : (h.freeSlot page i).size = h.size := size_freeSlot (hs.runHdr page hpage).version
    refine ⟨⟨hinv.toCore.congr rfl rfl rfl rfl rfl, hinv.frees, hinv.freeChunks,
      fun k hk => (hinv.bins k hk).congr rfl rfl rfl⟩, ?_, ?_⟩
    · show h.reserved.Perm (L.res.map (Obj.ptr (h.freeSlot page i).size))
      rw [hsize]
      exact hs.reserved
    · show (h.active.erase _).Perm ((L.act.erase _).map (Obj.ptr (h.freeSlot page i).size))
      rw [hsize]
      exact herase
  | large e =>
    obtain ⟨hstate, hsize, -⟩ : (Hdr.used usageBlock e.len).Ok h.nvm.mem e.start :=
      hs.headers _ (Layout.mem_hdrs.mpr (.inr (.inr (.inr ⟨_, ho, mem_singleton_self _⟩))))
    have hcore := hs.toCore.freeRange ho (usageBlock ||| stateFreeing) rfl hsize
      (fun _ _ => Obj.noConfusion) havoid
    refine ⟨_, _, nvmFree_large (hs.large_mod hobj) hstate hsize links, ho, ⟨⟨hcore.congr rfl
      rfl rfl rfl rfl, ?_, hs.freeChunks, fun k hk => (hs.bins k hk).congr rfl rfl rfl⟩,
      hs.reserved, herase⟩⟩
    exact (hs.frees.cons e).trans (SizeTree.toList_add Extent.len e h.freePageruns).symm
  | huge e fresh =>
    have hsize := hs.huge_size hobj
    have hcore := hs.toCore.freeRange ho (usageHuge ||| stateFreeing) rfl hsize
      (fun _ _ => Obj.noConfusion) havoid
    refine ⟨_, _, nvmFree_huge h hsize links, ho, ⟨⟨hcore.congr rfl rfl rfl rfl rfl, hs.frees,
      ?_, fun k hk => (hs.bins k hk).congr rfl rfl rfl⟩, hs.reserved, herase⟩⟩
    exact (hs.freeChunks.cons e).trans (SizeTree.toList_add Extent.len e h.freeChunks).symm

end Free

end Pmdk.NvMalloc
