import Pmdk.NvMalloc.ReserveCall

/-!
# Huge objects

A huge object is cut off the end of a free range of chunks, or it is in new chunks. The number of
chunks is computed with 64 bits, and for a request near `2 ^ 64` it is zero.
-/

namespace Pmdk.NvMalloc

open Extent Function List

variable {F : List Extent}

section Huge

variable {h h' : Heap} {L : Layout} {n : Nat}

theorem mem_hdrs_reserveHuge {o : Obj} {s : Nat × Hdr} :
    s ∈ ({ L with
      freeChunks := F
      res := o :: L.res } : Layout).hdrs ↔
      (∃ e ∈ L.frees, (e.start, Hdr.free e.len) = s) ∨
      (∃ e ∈ F, (chunkPage e.start, Hdr.free e.len) = s) ∨ s ∈ o.hdrs false ∨
      (∃ o ∈ L.res, s ∈ o.hdrs false) ∨ ∃ o ∈ L.act, s ∈ o.hdrs true := by
  rw [Layout.mem_hdrs]
  simp only [mem_cons, exists_eq_or_imp, or_assoc]

theorem Layout.Geometry.huge_not_mem {L : Layout} {m : Nat} {e : Extent}
    {fresh : Bool} (hgeo : ({ L with
      freeChunks := F
      res := .huge e fresh :: L.res } : Layout).Geometry m) : Obj.huge e fresh ∉ L.objs := by
  intro hmem
  have hperm : (F ++ e :: L.objs.flatMap Obj.chunks).Perm
      (e :: (F ++ L.objs.flatMap Obj.chunks)) := perm_middle
  have hchunks := hgeo.chunks.perm hperm
  have hstart := start_mem_cells (hchunks.pos e mem_cons_self)
  refine hchunks.not_mem_tail hstart (mem_owned.mpr (.inl ⟨e, mem_append_right _ ?_, hstart⟩))
  exact mem_flatMap.mpr ⟨_, hmem, mem_cons_self⟩

theorem Core.cutChunks (hcore : Core h L) {b : Extent}
    (hfrees : L.freeChunks = b :: F) {k : Nat} (hk : 0 < k) (hlt : k < b.len) {m : Mem}
    (hstate : m (addr (chunkPage b.start) 0) = h.nvm.mem (addr (chunkPage b.start) 0))
    (hsize : m (addr (chunkPage b.start) offSize) = b.len - k)
    (hnew : (Hdr.free k).Ok m (chunkPage (b.start + (b.len - k))))
    (hsame : ∀ p, p ≠ chunkPage b.start → p ≠ chunkPage (b.start + (b.len - k)) →
      SameHdr h.nvm.mem m p)
    (hmem : h'.nvm.mem = m) (hnext : h'.nextChunk = h.nextChunk) (hruns : h'.runs = h.runs)
    (hrun : h'.run = h.run) (hversion : h'.currentVersion = h.currentVersion) :
    Core h' { L with
        freeChunks := ⟨b.start, b.len - k⟩ :: F
        res := .huge ⟨b.start + (b.len - k), k⟩ false :: L.res } ∧
      L.Le { L with
        freeChunks := ⟨b.start, b.len - k⟩ :: F
        res := .huge ⟨b.start + (b.len - k), k⟩ false :: L.res } := by
  have hgeo := hcore.geometry.splitFreeChunks hfrees hk hlt false
  rw [← hnext] at hgeo
  have hold : (chunkPage b.start, Hdr.free b.len) ∈ L.hdrs :=
    Layout.mem_hdrs.mpr (.inr (.inl ⟨b, hfrees ▸ mem_cons_self, rfl⟩))
  obtain ⟨new, hnewdef⟩ : ∃ new, [(chunkPage b.start, Hdr.free (b.len - k)),
    (chunkPage (b.start + (b.len - k)), Hdr.free k)] = new := ⟨_, rfl⟩
  have hnewmem : ∀ s, s ∈ new ↔ s = (chunkPage b.start, Hdr.free (b.len - k)) ∨
      s = (chunkPage (b.start + (b.len - k)), Hdr.free k) := by
    intro s
    rw [← hnewdef, mem_cons, mem_singleton]
  refine ⟨hcore.ranges hruns hrun hversion rfl (fun p i => ?_) (fun p i => Iff.rfl) hgeo
    new (fun s hs => ?_) (fun s hs => ?_) (fun p hp hnot => ?_)
    (nodup_cons.mpr ⟨hgeo.huge_not_mem, hcore.nodup⟩), fun s hs hfresh => .inl ?_,
    List.Subset.refl _⟩
  · simp [Layout.objs]
  · rw [hnewmem]
    rcases mem_hdrs_reserveHuge.mp hs with hs | ⟨e, he, rfl⟩ | hs | hs
    · exact .inr (Layout.mem_hdrs.mpr (.inl hs))
    · rcases mem_cons.mp he with rfl | he
      · exact .inl (.inl rfl)
      · exact .inr (Layout.mem_hdrs.mpr (.inr (.inl ⟨e, hfrees ▸ mem_cons_of_mem b he, rfl⟩)))
    · exact .inl (.inr (mem_singleton.mp hs))
    · exact .inr (Layout.mem_hdrs.mpr (.inr (.inr hs)))
  · rw [hmem]
    rcases (hnewmem s).mp hs with rfl | rfl
    · exact ⟨mem_hdrs_reserveHuge.mpr (.inr (.inl ⟨_, mem_cons_self, rfl⟩)),
        hstate.trans (hcore.headers _ hold).1, hsize⟩
    · exact ⟨mem_hdrs_reserveHuge.mpr (.inr (.inr (.inl mem_cons_self))), hnew⟩
  · rw [hmem]
    refine hsame p (fun heq => hnot ?_) fun heq => hnot ?_
    · exact heq ▸ mem_map_of_mem ((hnewmem _).mpr (.inl rfl))
    · exact heq ▸ mem_map_of_mem ((hnewmem _).mpr (.inr rfl))
  · rcases Layout.mem_hdrs.mp hs with hs | ⟨e, he, rfl⟩ | hs
    · exact ⟨s, mem_hdrs_reserveHuge.mpr (.inl hs), rfl, hfresh⟩
    · rcases mem_cons.mp (hfrees ▸ he) with rfl | he
      · exact ⟨_, mem_hdrs_reserveHuge.mpr (.inr (.inl ⟨_, mem_cons_self, rfl⟩)), rfl, rfl⟩
      · exact ⟨_, mem_hdrs_reserveHuge.mpr (.inr (.inl ⟨e, mem_cons_of_mem _ he, rfl⟩)), rfl, rfl⟩
    · exact ⟨s, mem_hdrs_reserveHuge.mpr (.inr (.inr (.inr hs))), rfl, hfresh⟩

theorem Core.wholeChunks (hcore : Core h L) {b : Extent} (hfrees : L.freeChunks = b :: F) :
    Core h { L with
        freeChunks := F
        res := .huge b false :: L.res } ∧
      L.Le { L with
        freeChunks := F
        res := .huge b false :: L.res } := by
  have hgeo := hcore.geometry.takeFreeChunks hfrees false
  have hhdrs : ∀ s, s ∈ ({ L with
      freeChunks := F
      res := .huge b false :: L.res } : Layout).hdrs ↔ s ∈ L.hdrs := by
    intro s
    have hb : s ∈ (Obj.huge b false).hdrs false ↔ (chunkPage b.start, Hdr.free b.len) = s := by
      simp [Obj.hdrs, eq_comm]
    rw [mem_hdrs_reserveHuge, Layout.mem_hdrs, hfrees, hb]
    simp only [mem_cons, exists_eq_or_imp]
    grind
  refine ⟨hcore.ranges rfl rfl rfl rfl (fun p i => ?_) (fun _ _ => Iff.rfl) hgeo
    [] (fun s hs => .inr ((hhdrs s).mp hs)) (fun _ hs => absurd hs not_mem_nil)
    (fun p _ _ => .refl _ p) (nodup_cons.mpr ⟨hgeo.huge_not_mem, hcore.nodup⟩),
    .of_subset (fun s hs => (hhdrs s).mpr hs) (List.Subset.refl _)⟩
  simp [Layout.objs]

structure Heap.Wrote (h h' : Heap) : Prop extends Heap.Same h h' where
  nextChunk : h'.nextChunk = h.nextChunk
  freePageruns : h'.freePageruns = h.freePageruns

theorem Heap.Wrote.put {h h' : Heap} (hw : h.Wrote h') (a v : Nat) : h.Wrote (h'.put a v) :=
  ⟨⟨hw.freeChunks, hw.bins, hw.runs, hw.run, hw.currentVersion, hw.nextLogEntry, hw.log,
    hw.reserved, hw.active⟩, hw.nextChunk, hw.freePageruns⟩

theorem Heap.Wrote.clearOn {h h' : Heap} (hw : h.Wrote h') (page : Nat) :
    h.Wrote (h'.clearOn page) :=
  (((hw.put _ _).put _ _).put _ _).put _ _

theorem Heap.same_newChunks (h : Heap) (m : Mem) (n : Nat) :
    h.Same { h with
      nvm := { h.nvm with mem := m }
      nextChunk := n } ∧
      ({ h with
        nvm := { h.nvm with mem := m }
        nextChunk := n } : Heap).freePageruns = h.freePageruns :=
  ⟨⟨rfl, rfl, rfl, rfl, rfl, rfl, rfl, rfl, rfl⟩, rfl⟩

theorem Inv.reserveNew (hinv : Inv h L) {k chunk : Nat}
    (hok : h.nvmReserveHuge k = .ok (chunk, h')) :
    ∃ L', Reserved h h' L L' (.huge ⟨chunk, k⟩ true) := by
  unfold Heap.nvmReserveHuge Heap.activateMoreChunks at hok
  split at hok
  · cases hok
  · rename_i hmax
    split at hok
    · cases hok
    · rename_i hk
      obtain ⟨n, hn⟩ : ∃ n, h.nextChunk = n := ⟨_, rfl⟩
      obtain ⟨q, hq⟩ : ∃ q, chunkPage n = q := ⟨_, rfl⟩
      have hmod : k % 2 ^ 32 = k := by
        have hchunks : maxNvmChunks = 50 := by decide
        exact Nat.mod_eq_of_lt (by omega)
      simp only [bind, Except.bind, pure, Except.pure, hn, hq, hmod, Except.ok.injEq,
        Prod.mk.injEq] at hok
      obtain ⟨rfl, hok⟩ := hok
      obtain ⟨h₁, hh₁⟩ : ∃ h₁, ({ h with
        nvm := { h.nvm with mem := prefault h.nvm.mem n k }
        nextChunk := n + k } : Heap) = h₁ := ⟨_, rfl⟩
      rw [hh₁] at hok
      have hmem₁ : h₁.nvm.mem = prefault h.nvm.mem n k := hh₁ ▸ rfl
      have hmem : h'.nvm.mem = ((((((h₁.put (addr q 0) (usageHuge ||| stateInitializing)).put
        (addr q offSize) k)).clearOn q)).nvm.mem) := hok ▸ rfl
      have hw : h₁.Wrote h' := by
        rw [← hok]
        refine Heap.Wrote.clearOn ?_ q
        refine Heap.Wrote.put ?_ _ _
        refine Heap.Wrote.put ?_ _ _
        exact ⟨⟨rfl, rfl, rfl, rfl, rfl, rfl, rfl, rfl, rfl⟩, rfl, rfl⟩
      obtain ⟨hnew, hfrees₁⟩ := h.same_newChunks (prefault h.nvm.mem n k) (n + k)
      rw [hh₁] at hnew hfrees₁
      have hsame := hnew.trans hw.toSame
      have hnext : h'.nextChunk = n + k := hw.nextChunk.trans (hh₁ ▸ rfl)
      have hfrees : h'.freePageruns = h.freePageruns := hw.freePageruns.trans hfrees₁
      have hgeo := hinv.geometry.addHuge (Nat.pos_of_ne_zero hk) true
      rw [hn, ← hnext] at hgeo
      refine ⟨{ L with res := .huge ⟨n, k⟩ true :: L.res }, hsame.quiet,
        ⟨?_, hfrees ▸ hinv.frees, hsame.freeChunks ▸ hinv.freeChunks,
          fun j hj => (hinv.bins j hj).congr (congrFun hsame.bins j) hsame.runs hsame.run⟩, rfl,
              rfl,
        .of_subset (fun s hs => ?_) (List.Subset.refl _), fun p _ => ?_⟩
      · have hfresh : (Hdr.fresh k).Ok h'.nvm.mem q := by
          rw [hmem]
          refine ⟨?_, ?_, fun j hj => ?_⟩
          · simp [Heap.clearOn, offSize, offOn]
          · simp [Heap.clearOn, offSize, offOn]
          · have hcases : j = 0 ∨ j = 1 ∨ j = 2 ∨ j = 3 := by omega
            rcases hcases with rfl | rfl | rfl | rfl <;> simp [Heap.clearOn, offOn]
        have hobj : (Obj.huge ⟨n, k⟩ true).hdrs false = [(q, .fresh k)] := by
          rw [← hq]
          rfl
        refine hinv.toCore.ranges hsame.runs hsame.run hsame.currentVersion rfl (fun p i => ?_)
          (fun _ _ => Iff.rfl) hgeo [(q, .fresh k)] (fun s hs => ?_) (fun s hs => ?_)
              (fun p hp hnot => ?_)
          (nodup_cons.mpr ⟨hgeo.huge_not_mem, hinv.nodup⟩)
        · simp [Layout.objs]
        · rcases mem_hdrs_reserveHuge.mp hs with hs | hs | hs | hs
          · exact .inr (Layout.mem_hdrs.mpr (.inl hs))
          · exact .inr (Layout.mem_hdrs.mpr (.inr (.inl hs)))
          · exact .inl (hobj ▸ hs)
          · exact .inr (Layout.mem_hdrs.mpr (.inr (.inr hs)))
        · refine ⟨mem_hdrs_reserveHuge.mpr (.inr (.inr (.inl (hobj ▸ hs)))), ?_⟩
          rw [mem_singleton] at hs
          rw [hs]
          exact hfresh
        · have hp' : p ∈ L.hdrPages := by
            rcases mem_append.mp hp with hp | hp
            · obtain ⟨s, hs, rfl⟩ := mem_map.mp hp
              refine mem_append_left _ (mem_map_of_mem ?_)
              rcases mem_hdrs_reserveHuge.mp hs with hs | hs | hs | hs
              · exact Layout.mem_hdrs.mpr (.inl hs)
              · exact Layout.mem_hdrs.mpr (.inr (.inl hs))
              · exact absurd (mem_map_of_mem (hobj ▸ hs)) hnot
              · exact Layout.mem_hdrs.mpr (.inr (.inr hs))
            · exact mem_append_right _ hp
          have hlt := hinv.geometry.hdrPage_lt hp'
          rw [hn] at hlt
          have hpq : p ≠ q := fun heq => hnot (heq ▸ mem_cons_self)
          have hsame := sameHdr_prefault (m := h.nvm.mem) (n := k) hlt
          rw [hmem]
          refine SameHdr.clearOn ?_ hpq
          refine SameHdr.update ?_ hpq (by decide) _
          refine SameHdr.update ?_ hpq (by decide) _
          rw [hmem₁]
          exact hsame
      · rcases Layout.mem_hdrs.mp hs with hs | hs | hs
        · exact mem_hdrs_reserveHuge.mpr (.inl hs)
        · exact mem_hdrs_reserveHuge.mpr (.inr (.inl hs))
        · exact mem_hdrs_reserveHuge.mpr (.inr (.inr (.inr hs)))
      · rw [Heap.size, Heap.size, hsame.run]

def chunksFor (nBytes : Nat) : Nat := (nBytes + headerSize + chunkSize) % 2 ^ 64 / chunkSize

theorem Inv.reserveFree (hinv : Inv h L) {k : Nat} (hk : 0 < k) {huge : Extent}
    (hmem : huge ∈ h.freeChunks.toList) (hlt : k < huge.len) {m : Mem}
    (hm : m = update (update (update h.nvm.mem
      (addr (chunkPage (huge.start + (huge.len - k))) 0) (usageFree ||| stateInitialized))
      (addr (chunkPage (huge.start + (huge.len - k))) offSize) k)
      (addr (chunkPage huge.start) offSize) (huge.len - k)) :
    ∃ L', Reserved h { h with
      nvm := { h.nvm with mem := m }
      freeChunks := (h.freeChunks.del huge).add Extent.len ⟨huge.start, huge.len - k⟩ } L L'
      (.huge ⟨huge.start + (huge.len - k), k⟩ false) := by
  have hperm := hinv.freeChunks.trans (SizeTree.toList_del hmem)
  have hcore := hinv.toCore.perm (.refl _) hperm
  obtain ⟨q, hq⟩ : ∃ q, chunkPage (huge.start + (huge.len - k)) = q := ⟨_, rfl⟩
  obtain ⟨p, hp⟩ : ∃ p, chunkPage huge.start = p := ⟨_, rfl⟩
  rw [hq, hp] at hm
  have hne : p ≠ q := by
    rw [← hq, ← hp, chunkPage_eq, chunkPage_eq]
    omega
  have hle : L.Le { L with freeChunks := huge :: (h.freeChunks.del huge).toList } := by
    refine .of_subset (fun s hs => ?_) (List.Subset.refl _)
    rw [Layout.mem_hdrs] at hs ⊢
    refine hs.imp_right (Or.imp_left ?_)
    rintro ⟨e, he, heq⟩
    exact ⟨e, hperm.mem_iff.mp he, heq⟩
  obtain ⟨h', hh'⟩ : ∃ h', ({ h with
    nvm := { h.nvm with mem := m }
    freeChunks := (h.freeChunks.del huge).add Extent.len ⟨huge.start, huge.len - k⟩ } : Heap) =
      h' := ⟨_, rfl⟩
  have hmem' : h'.nvm.mem = m := hh' ▸ rfl
  have hcut := hcore.cutChunks rfl hk hlt ?_ ?_ ?_ ?_ hmem' (hh' ▸ rfl) (hh' ▸ rfl) (hh' ▸ rfl)
    (hh' ▸ rfl)
  · subst hh'
    exact ⟨_, ⟨rfl, rfl, rfl, rfl, rfl⟩, ⟨hcut.1, hinv.frees, (SizeTree.toList_add _ _ _).symm,
      fun j hj => (hinv.bins j hj).congr rfl rfl rfl⟩, rfl, rfl, hle.trans hcut.2, fun _ _ => rfl⟩
  · rw [hm, hp]
    simp [addr_ne_of_ne hne, offSize]
  · rw [hm, hp, update_self]
  · rw [hm, hq]
    constructor
    · simp [addr_ne_of_ne hne.symm, offSize]
    · simp [addr_ne_of_ne hne.symm, offSize]
  · intro r hr hr'
    rw [hp] at hr
    rw [hq] at hr'
    rw [hm]
    refine SameHdr.update ?_ hr (by decide) _
    refine SameHdr.update ?_ hr' (by decide) _
    exact (SameHdr.refl _ r).update hr' (by decide) _

/-- The chunks for a huge object are nobody else's, unless their number is zero. -/
theorem Inv.reserveChunks (hinv : Inv h L) (hfits : 0 < chunksFor n) :
    h.reserveChunks n = .error .exit ∨ ∃ h' L' e fresh, h.reserveChunks n = .ok (e.start, h') ∧
      Reserved h h' L L' (.huge e fresh) := by
  unfold Heap.reserveChunks
  dsimp only
  rw [← chunksFor]
  obtain ⟨k, hk⟩ : ∃ k, chunksFor n = k := ⟨_, rfl⟩
  rw [hk] at hfits ⊢
  split
  · cases hnew : h.nvmReserveHuge k with
    | error e =>
      unfold Heap.nvmReserveHuge at hnew
      cases hmore : h.activateMoreChunks k with
      | error e' =>
        rw [hmore] at hnew
        cases hnew
        rw [activateMoreChunks_error hmore]
        exact .inl rfl
      | ok r =>
        rw [hmore] at hnew
        cases hnew
    | ok r =>
      obtain ⟨chunk, h'⟩ := r
      obtain ⟨L', hres⟩ := hinv.reserveNew hnew
      exact .inr ⟨h', L', ⟨chunk, k⟩, true, rfl, hres⟩
  · rename_i huge hbound
    obtain ⟨hmem, -⟩ := SizeTree.mem_of_upperBound hbound
    right
    split
    · rename_i hlt
      have hhdr := hinv.headers (chunkPage huge.start, .free huge.len)
        (Layout.mem_hdrs.mpr (.inr (.inl ⟨huge, hinv.freeChunks.mem_iff.mpr hmem, rfl⟩)))
      have hne : chunkPage huge.start ≠ chunkPage (huge.start + (huge.len - k)) := by
        rw [chunkPage_eq, chunkPage_eq]
        omega
      obtain ⟨L', hres⟩ := hinv.reserveFree hfits hmem hlt rfl
      refine ⟨_, L', _, false, ?_, hres⟩
      rw [put_mem, put_mem, update_of_ne (addr_ne_of_ne hne (by decide) (by decide)),
        update_of_ne (addr_ne_of_ne hne (by decide) (by decide)), hhdr.2]
      rfl
    · have hperm := hinv.freeChunks.trans (SizeTree.toList_del hmem)
      obtain ⟨hcore, hle⟩ := (hinv.toCore.perm (.refl _) hperm).wholeChunks rfl
      refine ⟨_, _, huge, false, rfl, ⟨rfl, rfl, rfl, rfl, rfl⟩,
        ⟨hcore.congr rfl rfl rfl rfl rfl, hinv.frees, .refl _,
          fun j hj => (hinv.bins j hj).congr rfl rfl rfl⟩, rfl, rfl, .trans ?_ hle, fun _ _ => rfl⟩
      refine .of_subset (fun s hs => ?_) (List.Subset.refl _)
      rw [Layout.mem_hdrs] at hs ⊢
      refine hs.imp_right (Or.imp_left ?_)
      rintro ⟨e, he, heq⟩
      exact ⟨e, hperm.mem_iff.mp he, heq⟩

/-- `nvm_reserve` exits, or returns an object that nobody else has. -/
theorem Inv.nvmReserve (hinv : Inv h L) (hn : 1 ≤ n)
    (hfits : sclassLargeMax < n → 0 < chunksFor n) : Reserves h L (h.nvmReserve n) := by
  unfold Heap.nvmReserve
  split
  · rename_i hlarge
    by_cases hsmall : n ≤ sclassSmallMax
    · exact hinv.allocateSmall hn hsmall
    · exact hinv.allocateLarge hsmall hlarge
  · rename_i hlarge
    rcases hinv.reserveChunks (hfits (Nat.lt_of_not_le hlarge)) with
      herr | ⟨h', L', e, fresh, heq, hres⟩
    · rw [herr]
      exact .inl rfl
    · rw [heq]
      exact .inr ⟨h', L', _, rfl, hres⟩

end Huge

end Pmdk.NvMalloc
