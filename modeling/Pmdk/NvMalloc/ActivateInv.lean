import Pmdk.NvMalloc.Session

/-!
# Activation

A reserved object becomes an active one. Its header changes from free to used, or the bit of its
slot is set; nothing else in the layout does.
-/

namespace Pmdk.NvMalloc

open Extent List

def Layout.activate (L : Layout) (o : Obj) : Layout :=
  { L with
    res := L.res.erase o
    act := o :: L.act }

namespace Layout

variable {L : Layout} {o o' : Obj}

theorem objs_activate (ho : o ∈ L.res) : L.objs.Perm (L.activate o).objs :=
  ((perm_cons_erase ho).append_right _).trans perm_middle.symm

theorem mem_hdrs_activate {s : Nat × Hdr} (hs : s ∈ (L.activate o).hdrs) :
    s ∈ o.hdrs true ∨ s ∈ L.hdrs := by
  rw [mem_hdrs] at hs
  rw [mem_hdrs]
  rcases hs with hfree | hchunk | ⟨o', ho', hs⟩ | ⟨o', ho', hs⟩
  · exact .inr (.inl hfree)
  · exact .inr (.inr (.inl hchunk))
  · exact .inr (.inr (.inr (.inl ⟨o', mem_of_mem_erase ho', hs⟩)))
  · rcases mem_cons.mp ho' with rfl | ho'
    · exact .inl hs
    · exact .inr (.inr (.inr (.inr ⟨o', ho', hs⟩)))

theorem mem_hdrPages_activate (ho : o ∈ L.res) {p : Nat} (hp : p ∈ (L.activate o).hdrPages) :
    p ∈ L.hdrPages := by
  rcases mem_append.mp hp with hp | hp
  · refine mem_append_left _ ?_
    obtain ⟨s, hs, rfl⟩ := mem_map.mp hp
    rcases mem_hdrs_activate hs with hs | hs
    · have hres : ∀ t ∈ o.hdrs false, t.1 ∈ L.hdrs.map Prod.fst := fun t ht =>
        mem_map_of_mem (mem_hdrs.mpr (.inr (.inr (.inl ⟨o, ho, ht⟩))))
      cases o with
      | small page i => cases hs
      | large e =>
        rw [mem_singleton.mp hs]
        exact hres (e.start, .free e.len) (mem_singleton_self _)
      | huge e fresh =>
        rw [mem_singleton.mp hs]
        exact hres (chunkPage e.start, if fresh then .fresh e.len else .free e.len)
          (mem_singleton_self _)
    · exact mem_map_of_mem hs
  · exact mem_append_right _ hp

end Layout

section Activate

variable {h : Heap} {L : Layout} {links : Links}

def Heap.execAll (h : Heap) (stores : List Store) : Heap :=
  { h with nvm := stores.foldl Nvm.exec h.nvm }

theorem headerStores_used {m : Nvm} {page n usage commit : Nat}
    (hsize : m.mem (addr page offSize) = n) (hlinks : links.Avoid page) :
    (Hdr.used usage n).Ok ((headerStores page commit (usage ||| stateInitialized) links).foldl
      Nvm.exec m).mem page :=
  ⟨headerStores_state, (headerStores_size hlinks).trans hsize, fun _ hj => headerStores_on hj⟩

theorem Core.activateRange (hcore : Core h L) {o : Obj} (ho : o ∈ L.res) {page n usage commit : Nat}
    (hhdrs : o.hdrs true = [(page, .used usage n)]) (hsize : h.nvm.mem (addr page offSize) = n)
    (hsmall : ∀ p i, o ≠ .small p i) (hlinks : ∀ p ∈ L.hdrPages, links.Avoid p) :
    Core (h.execAll (headerStores page commit (usage ||| stateInitialized) links))
      (L.activate o) := by
  have hperm := Layout.objs_activate ho
  have hmem : (page, Hdr.used usage n) ∈ (L.activate o).hdrs :=
    Layout.mem_hdrs.mpr (.inr (.inr (.inr ⟨o, mem_cons_self, by
      rw [hhdrs]
      exact mem_singleton_self _⟩)))
  have hpage : page ∈ L.hdrPages :=
    Layout.mem_hdrPages_activate ho (mem_append_left _ (mem_map_of_mem hmem))
  refine hcore.ranges rfl rfl rfl rfl (fun p i => hperm.mem_iff.symm) (fun p i => ?_)
    (hcore.geometry.activate ho) [(page, .used usage n)] (fun s hs => ?_) (fun s hs => ?_)
    (fun p hp hnot => ?_) (hperm.nodup_iff.mp hcore.nodup)
  · refine mem_cons.trans (or_iff_right fun heq => ?_)
    exact hsmall p i heq.symm
  · rw [← hhdrs]
    exact Layout.mem_hdrs_activate hs
  · rw [mem_singleton.mp hs]
    exact ⟨hmem, headerStores_used hsize (hlinks page hpage)⟩
  · refine (headerStores_avoids (fun heq => hnot ?_)
      (hlinks p (Layout.mem_hdrPages_activate ho hp))).sameHdr
    rw [heq]
    exact mem_singleton_self _

theorem Core.activateSmall (hcore : Core h L) {page i : Nat} (ho : .small page i ∈ L.res)
    {prepare commit : Nat} (hlinks : ∀ p ∈ L.hdrPages, links.Avoid p) :
    Core (h.execAll (runStores page i prepare commit (.setBit page i) links))
      (L.activate (.small page i)) := by
  have hperm := Layout.objs_activate ho
  obtain ⟨hpage, hi, h64, -⟩ := hcore.slot_lt (mem_append_left _ ho)
  have hother : ∀ p ∈ L.hdrPages, p ≠ page → SameHdr h.nvm.mem
      (h.execAll (runStores page i prepare commit (.setBit page i) links)).nvm.mem p := by
    intro p hp hne
    exact (runStores_avoids (flips_setBit page i) h64 hi hne (hlinks p hp)).sameHdr
  have hrunPage : ∀ {p}, p ∈ h.runs → p ∈ L.hdrPages := fun hp =>
    mem_append_right _ (hcore.runs ▸ hp)
  refine ⟨hcore.geometry.activate ho, fun s hs => ?_, hcore.runs, hcore.run, fun p hp => ?_,
    fun p hp j hj => ?_, fun p j hmem => hcore.small p j (hperm.mem_iff.mpr hmem),
    hperm.nodup_iff.mp hcore.nodup⟩
  · have hs' : s ∈ L.hdrs := (Layout.mem_hdrs_activate hs).resolve_left not_mem_nil
    refine (hcore.headers s hs').frame (hother s.1 ?_ ?_)
    · exact mem_append_left _ (mem_map_of_mem hs')
    · rintro rfl
      exact hcore.geometry.not_run hs' (hcore.runs ▸ hpage)
  · by_cases heq : p = page
    · subst heq
      refine (hcore.runHdr p hp).call h64 (flips_setBit p i) hi (hlinks p (hrunPage hp))
        fun j hj => ?_
      rw [Bitmap.test_set, (hcore.runHdr p hp).bits j hj]
      simp [Layout.activate]
    · refine ((hcore.runHdr p hp).frame (hcore.run p hp).le_elemSize
        (hother p (hrunPage hp) heq)).congr fun j _ => ?_
      simp [Layout.activate, heq]
  · rw [← hperm.mem_iff]
    exact hcore.bits p hp j hj

theorem slotOf_slotAddr (page : Nat) {n i : Nat} (hn : 0 < n)
    (hend : headerSize + n * i < blockSize) :
    pageOf (Heap.slotAddr page n i) = page ∧ slotOf (Heap.slotAddr page n i) n = i := by
  have hpage : pageOf (Heap.slotAddr page n i) = page := pageOf_addr hend
  refine ⟨hpage, ?_⟩
  rw [slotOf, hpage, Heap.slotAddr, ← addr_add, Nat.add_sub_cancel_left]
  exact Nat.mul_div_cancel_left i hn

theorem objectActivate_huge (h : Heap) (chunk : Nat) (links : Links) :
    h.objectActivate (addr (chunkPage chunk) headerSize) links =
      .ok (headerStores (chunkPage chunk) (usageHuge ||| stateActivating)
        (usageHuge ||| stateInitialized) links) := by
  unfold Heap.objectActivate
  dsimp only
  rw [isHuge_chunk, pageOf_addr (by decide)]
  rfl

theorem objectActivate_large {page : Nat} (hpage : page % chunkPages ≠ 0)
    (hstate : h.nvm.mem (addr page 0) = usageFree ||| stateInitialized) (links : Links) :
    h.objectActivate (addr page headerSize) links =
      .ok (headerStores page (usageBlock ||| stateActivating) (usageBlock ||| stateInitialized)
        links) := by
  unfold Heap.objectActivate
  dsimp only
  rw [isHuge_page hpage (by decide), pageOf_addr (by decide), hstate]
  rfl

theorem objectActivate_small {page n i : Nat} (hpage : page % chunkPages ≠ 0) (hn : 0 < n)
    (hend : headerSize + n * i < blockSize)
    (hstate : h.nvm.mem (addr page 0) = usageRun ||| stateInitialized)
    (hbytes : h.nvm.mem (addr page offNBytes) = n) (links : Links) :
    h.objectActivate (Heap.slotAddr page n i) links =
      .ok (runStores page i (usageRun ||| statePreactivate) (usageRun ||| stateActivating)
        (.setBit page i) links) := by
  obtain ⟨hof, hslot⟩ := slotOf_slotAddr page hn hend
  have hhuge : isHuge (Heap.slotAddr page n i) = false := isHuge_page hpage hend
  unfold Heap.objectActivate
  dsimp only
  rw [hhuge, hof, hstate, hbytes, hslot]
  rfl

theorem Core.objectActivate (hcore : Core h L) {o : Obj} (ho : o ∈ L.res)
    (hlinks : ∀ p ∈ L.hdrPages, links.Avoid p) :
    ∃ stores, h.objectActivate (o.ptr h.size) links = .ok stores ∧
      Core (h.execAll stores) (L.activate o) := by
  have hobj : o ∈ L.objs := mem_append_left _ ho
  cases o with
  | small page i =>
    obtain ⟨hpage, hi, h64, hend⟩ := hcore.slot_lt hobj
    have hrun := hcore.runHdr page hpage
    have hpos : 0 < h.size page := Nat.lt_of_lt_of_le (by decide) h64
    exact ⟨_, objectActivate_small (hcore.run_mod hpage) hpos (by omega) hrun.state hrun.nBytes
      links, hcore.activateSmall ho hlinks⟩
  | large e =>
    obtain ⟨hstate, hsize⟩ : (Hdr.free e.len).Ok h.nvm.mem e.start := hcore.headers _
      (Layout.mem_hdrs.mpr (.inr (.inr (.inl ⟨_, ho, mem_singleton_self _⟩))))
    exact ⟨_, objectActivate_large (hcore.large_mod hobj) hstate links,
      hcore.activateRange ho rfl hsize (fun _ _ => Obj.noConfusion) hlinks⟩
  | huge e fresh =>
    exact ⟨_, objectActivate_huge h e.start links,
      hcore.activateRange ho rfl (hcore.huge_size hobj) (fun _ _ => Obj.noConfusion) hlinks⟩

theorem perm_erase_ptr {size : Nat → Nat} {ptrs : List Nat} {objs : List Obj} {o : Obj}
    (hperm : ptrs.Perm (objs.map (Obj.ptr size))) (ho : o ∈ objs) :
    (ptrs.erase (o.ptr size)).Perm ((objs.erase o).map (Obj.ptr size)) := by
  have hcons := hperm.trans ((perm_cons_erase ho).map (Obj.ptr size))
  have herase := hcons.erase (o.ptr size)
  rwa [map_cons, erase_cons_head] at herase

theorem Session.nvmActivate (hs : Session h L) {ptr : Nat} (hptr : ptr ∈ h.reserved)
    (hlinks : h.linksOk links = true) :
    ∃ h' o, h.nvmActivate ptr links = .ok h' ∧ o ∈ L.res ∧
      Session { h' with reserved := h'.reserved.erase ptr, active := ptr :: h'.active }
        (L.activate o) := by
  obtain ⟨o, ho, rfl⟩ := mem_map.mp (hs.reserved.mem_iff.mp hptr)
  obtain ⟨stores, heq, hcore⟩ := hs.toCore.objectActivate ho fun p hp => hs.avoid hlinks hp
  have hlog : (h.nvm.exec (h.logActivate (o.ptr h.size))).mem = h.nvm.mem := rfl
  have hmem : ((h.logActivate (o.ptr h.size) :: stores).foldl Nvm.exec h.nvm).mem =
      (stores.foldl Nvm.exec h.nvm).mem := foldl_exec_mem_congr hlog stores
  refine ⟨{ h with
    nvm := (h.logActivate (o.ptr h.size) :: stores).foldl Nvm.exec h.nvm
    nextLogEntry := h.nextLogEntry + 1 }, o, ?_, ho, ⟨⟨hcore.congr hmem rfl rfl rfl rfl, hs.frees,
    hs.freeChunks, fun k hk => (hs.bins k hk).congr rfl rfl rfl⟩, perm_erase_ptr hs.reserved ho,
    hs.active.cons (o.ptr h.size)⟩⟩
  unfold Heap.nvmActivate Heap.activateStores
  rw [heq]
  rfl

end Activate

end Pmdk.NvMalloc
