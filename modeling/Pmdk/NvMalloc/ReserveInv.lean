import Pmdk.NvMalloc.Inv

/-!
# Reservations keep the invariant
-/

namespace Pmdk.NvMalloc

open Extent Function List

@[simp] theorem addr_right_inj (p off off' : Nat) : addr p off = addr p off' ↔ off = off' := by
  rw [addr_eq, addr_eq]
  omega

@[simp] theorem put_mem (h : Heap) (a v : Nat) : (h.put a v).nvm.mem = update h.nvm.mem a v := rfl

@[simp] theorem put_log (h : Heap) (a v : Nat) : (h.put a v).nvm.log = h.nvm.log := rfl

@[simp] theorem clearOn_log (h : Heap) (page : Nat) : (h.clearOn page).nvm.log = h.nvm.log := by
  unfold Heap.clearOn
  rw [put_log, put_log, put_log, put_log]

structure Heap.Same (h h' : Heap) : Prop where
  freeChunks : h'.freeChunks = h.freeChunks
  bins : h'.bins = h.bins
  runs : h'.runs = h.runs
  run : h'.run = h.run
  currentVersion : h'.currentVersion = h.currentVersion
  nextLogEntry : h'.nextLogEntry = h.nextLogEntry
  log : h'.nvm.log = h.nvm.log
  reserved : h'.reserved = h.reserved
  active : h'.active = h.active

theorem Heap.Same.trans {h h' h'' : Heap} (hsame : h.Same h') (hsame' : h'.Same h'') : h.Same h'' :=
  ⟨hsame'.freeChunks.trans hsame.freeChunks, hsame'.bins.trans hsame.bins,
    hsame'.runs.trans hsame.runs, hsame'.run.trans hsame.run,
    hsame'.currentVersion.trans hsame.currentVersion,
    hsame'.nextLogEntry.trans hsame.nextLogEntry, hsame'.log.trans hsame.log,
    hsame'.reserved.trans hsame.reserved, hsame'.active.trans hsame.active⟩

structure Heap.Quiet (h h' : Heap) : Prop where
  currentVersion : h'.currentVersion = h.currentVersion
  nextLogEntry : h'.nextLogEntry = h.nextLogEntry
  log : h'.nvm.log = h.nvm.log
  reserved : h'.reserved = h.reserved
  active : h'.active = h.active

theorem Heap.Same.quiet {h h' : Heap} (hsame : h.Same h') : h.Quiet h' :=
  ⟨hsame.currentVersion, hsame.nextLogEntry, hsame.log, hsame.reserved, hsame.active⟩

theorem SameHdr.clearOn {m : Mem} {h : Heap} {p q : Nat} (hsame : SameHdr m h.nvm.mem p)
    (hpq : p ≠ q) : SameHdr m (h.clearOn q).nvm.mem p := by
  refine SameHdr.update ?_ hpq (by decide) _
  refine SameHdr.update ?_ hpq (by decide) _
  refine SameHdr.update ?_ hpq (by decide) _
  exact hsame.update hpq (by decide) _

variable {b : Extent} {F : List Extent}

section Steps

variable {h h' : Heap} {L : Layout}

theorem sameHdr_prefault {m : Mem} {p chunk n : Nat} (hp : p / chunkPages < chunk) :
    SameHdr m (prefault m chunk n) p := by
  intro off hoff
  unfold prefault
  rw [if_neg]
  rintro ⟨hle, -⟩
  rw [chunkPages_eq] at hp
  rw [headerSize] at hoff
  rw [chunkSize_eq, addr_eq] at hle
  omega

theorem Core.addChunk (hcore : Core h L) (hok : h.arenaAddChunk = .ok (b, h')) :
    b = ⟨chunkPage h.nextChunk + 1, chunkPages - 1⟩ ∧
      h.Same h' ∧ h'.freePageruns = h.freePageruns ∧
      Core h' { L with
        frees := b :: L.frees
        arenas := h.nextChunk :: L.arenas } := by
  unfold Heap.arenaAddChunk Heap.activateMoreChunks at hok
  split at hok
  · cases hok
  · obtain ⟨n, hn⟩ : ∃ n, h.nextChunk = n := ⟨_, rfl⟩
    obtain ⟨q, hq⟩ : ∃ q, chunkPage n = q := ⟨_, rfl⟩
    rw [if_neg Nat.one_ne_zero] at hok
    simp only [bind, Except.bind, pure, Except.pure, hn, hq, Except.ok.injEq, Prod.mk.injEq] at hok
    obtain ⟨rfl, rfl⟩ := hok
    have hgeo := hcore.geometry.addArena
    rw [hn, hq] at hgeo
    rw [hn, hq]
    have hne : ∀ off off', off < 4096 → off' < 4096 → addr (q + 1) off ≠ addr q off' :=
      fun _ _ => addr_ne_of_ne (Nat.succ_ne_self q)
    refine ⟨rfl, ⟨rfl, rfl, rfl, rfl, rfl, rfl, by simp, rfl, rfl⟩, rfl,
        hcore.ranges rfl rfl rfl rfl (fun _ _ => Iff.rfl) (fun _ _ => Iff.rfl)
      hgeo [(q + 1, .free (chunkPages - 1))] ?_ ?_ ?_ hcore.nodup⟩
    · intro s hs
      rcases mem_cons.mp hs with rfl | hs
      · exact .inl mem_cons_self
      · exact .inr hs
    · intro s hs
      rw [mem_singleton] at hs
      subst hs
      refine ⟨mem_cons_self, ?_, ?_⟩
      · simp [Heap.clearOn, hne, offSize, offOn]
      · simp [Heap.clearOn, hne, offSize, offOn]
    · intro p hp hnot
      have hp' : p ∈ L.hdrPages := by
        rcases mem_cons.mp hp with heq | hp
        · exact absurd (heq ▸ mem_cons_self) hnot
        · exact hp
      have hlt := hcore.geometry.hdrPage_lt hp'
      rw [hn] at hlt
      have hpq : p ≠ q := by
        rintro rfl
        rw [← hq, chunkPage_div] at hlt
        exact Nat.lt_irrefl n hlt
      have hpq' : p ≠ q + 1 := by
        rintro rfl
        rw [← hq, chunkPage_eq, chunkPages_eq] at hlt
        omega
      have hsame := sameHdr_prefault (m := h.nvm.mem) (n := 1) hlt
      have hq0 := hsame.update hpq (show 0 < 4096 by decide) (usageArena ||| stateInitializing)
      refine SameHdr.update ?_ hpq (by decide) _
      refine SameHdr.update ?_ hpq' (by decide) _
      refine SameHdr.update ?_ hpq' (by decide) _
      exact hq0.clearOn hpq'

theorem Inv.take (hinv : Inv h L) {k : Nat} (hk : k ≤ chunkPages - 1)
    (hok : h.takeFreeBlock k = .ok (b, h')) :
    k ≤ b.len ∧ h.Same h' ∧ ∃ A, Core h' { L with
        frees := b :: h'.freePageruns.toList
        arenas := A } ∧
      L.Le { L with
        frees := b :: h'.freePageruns.toList
        arenas := A } := by
  unfold Heap.takeFreeBlock at hok
  split at hok
  · obtain ⟨rfl, hsame, htree, hcore⟩ := hinv.toCore.addChunk hok
    refine ⟨hk, hsame, h.nextChunk :: L.arenas, ?_,
      .of_subset (fun s hs => ?_) (List.Subset.refl _)⟩
    · rw [htree]
      exact hcore.perm (hinv.frees.cons _) (.refl _)
    · rw [Layout.mem_hdrs] at hs ⊢
      refine hs.imp_left ?_
      rintro ⟨e, he, heq⟩
      rw [htree]
      exact ⟨e, mem_cons_of_mem _ (hinv.frees.mem_iff.mp he), heq⟩
  · rename_i b' hbound
    obtain ⟨hmem, hle⟩ := SizeTree.mem_of_upperBound hbound
    rw [Except.ok.injEq, Prod.mk.injEq] at hok
    obtain ⟨rfl, rfl⟩ := hok
    have hperm := hinv.frees.trans (SizeTree.toList_del hmem)
    refine ⟨hle, ⟨rfl, rfl, rfl, rfl, rfl, rfl, rfl, rfl, rfl⟩, L.arenas, ?_,
      .of_subset (fun s hs => ?_) (List.Subset.refl _)⟩
    · exact (hinv.toCore.perm hperm (.refl _)).congr rfl rfl rfl rfl rfl
    · rw [Layout.mem_hdrs] at hs ⊢
      refine hs.imp_left ?_
      rintro ⟨e, he, heq⟩
      exact ⟨e, hperm.mem_iff.mp he, heq⟩

theorem Core.cut (hcore : Core h L) (hfrees : L.frees = b :: F) {k : Nat} (hk : 0 < k)
    (hlt : k < b.len) {m : Mem} (hstate : m (addr b.start 0) = h.nvm.mem (addr b.start 0))
    (hsize : m (addr b.start offSize) = b.len - k)
    (hnew : (Hdr.free k).Ok m (b.start + (b.len - k)))
    (hsame : ∀ p, p ≠ b.start → p ≠ b.start + (b.len - k) → SameHdr h.nvm.mem m p)
    (hmem : h'.nvm.mem = m) (hnext : h'.nextChunk = h.nextChunk) (hruns : h'.runs = h.runs)
    (hrun : h'.run = h.run) (hversion : h'.currentVersion = h.currentVersion) :
    Core h' { L with
      frees := ⟨b.start, b.len - k⟩ :: F
      res := .large ⟨b.start + (b.len - k), k⟩ :: L.res } := by
  have hgeo := hcore.geometry.splitFree hfrees hk hlt
  rw [← hnext] at hgeo
  have hold : (b.start, Hdr.free b.len) ∈ L.hdrs :=
    Layout.mem_hdrs.mpr (.inl ⟨b, hfrees ▸ mem_cons_self, rfl⟩)
  refine hcore.ranges hruns hrun hversion rfl (fun p i => ?_) (fun p i => Iff.rfl) hgeo
    [(b.start, .free (b.len - k)), (b.start + (b.len - k), .free k)]
    (fun s hs => ?_) (fun s hs => ?_) (fun p hp hnot => ?_) ?_
  · simp [Layout.objs]
  · rw [Layout.mem_hdrs] at hs
    rcases hs with ⟨e, he, rfl⟩ | hs | ⟨o, ho, hs⟩ | hs
    · rcases mem_cons.mp he with rfl | he
      · exact .inl mem_cons_self
      · exact .inr (Layout.mem_hdrs.mpr (.inl ⟨e, hfrees ▸ mem_cons_of_mem b he, rfl⟩))
    · exact .inr (Layout.mem_hdrs.mpr (.inr (.inl hs)))
    · rcases mem_cons.mp ho with rfl | ho
      · rw [Obj.hdrs, mem_singleton] at hs
        subst hs
        exact .inl (mem_cons_of_mem _ mem_cons_self)
      · exact .inr (Layout.mem_hdrs.mpr (.inr (.inr (.inl ⟨o, ho, hs⟩))))
    · exact .inr (Layout.mem_hdrs.mpr (.inr (.inr (.inr hs))))
  · rcases mem_cons.mp hs with rfl | hs
    · refine ⟨Layout.mem_hdrs.mpr (.inl ⟨_, mem_cons_self, rfl⟩), ?_⟩
      rw [hmem]
      exact ⟨hstate.trans (hcore.headers _ hold).1, hsize⟩
    · rw [mem_singleton] at hs
      subst hs
      refine ⟨Layout.mem_hdrs.mpr (.inr (.inr (.inl ⟨_, mem_cons_self, ?_⟩))), hmem ▸ hnew⟩
      exact mem_cons_self
  · rw [hmem]
    refine hsame p (fun heq => hnot ?_) fun heq => hnot ?_
    · rw [heq]
      exact mem_cons_self
    · rw [heq]
      exact mem_cons_of_mem _ mem_cons_self
  · refine nodup_cons.mpr ⟨fun hmem' => ?_, hcore.nodup⟩
    -- the new range would be owned twice
    have hpages := hgeo.pages
    have hperm : (⟨b.start, b.len - k⟩ :: F ++ ⟨b.start + (b.len - k), k⟩ ::
        L.objs.flatMap Obj.pages).Perm (⟨b.start + (b.len - k), k⟩ ::
          (⟨b.start, b.len - k⟩ :: F ++ L.objs.flatMap Obj.pages)) := perm_middle
    refine (hpages.perm hperm).not_mem_tail (start_mem_cells hk) (mem_owned.mpr (.inl
      ⟨⟨b.start + (b.len - k), k⟩, mem_append_right _ ?_, start_mem_cells hk⟩))
    exact mem_flatMap.mpr ⟨_, hmem', mem_cons_self⟩

theorem Layout.Le.cut (hfrees : L.frees = b :: F) (k : Nat) (o : Obj) :
    L.Le { L with
      frees := ⟨b.start, b.len - k⟩ :: F
      res := o :: L.res } := by
  refine ⟨fun s hs hfresh => .inl ?_, List.Subset.refl _⟩
  rw [Layout.mem_hdrs, hfrees] at hs
  rcases hs with ⟨e, he, rfl⟩ | hs | ⟨o', ho', hs⟩ | hs
  · rcases mem_cons.mp he with rfl | he
    · exact ⟨_, Layout.mem_hdrs.mpr (.inl ⟨_, mem_cons_self, rfl⟩), rfl, rfl⟩
    · exact ⟨_, Layout.mem_hdrs.mpr (.inl ⟨e, mem_cons_of_mem _ he, rfl⟩), rfl, rfl⟩
  · exact ⟨s, Layout.mem_hdrs.mpr (.inr (.inl hs)), rfl, hfresh⟩
  · exact ⟨s, Layout.mem_hdrs.mpr (.inr (.inr (.inl ⟨o', mem_cons_of_mem _ ho', hs⟩))), rfl, hfresh⟩
  · exact ⟨s, Layout.mem_hdrs.mpr (.inr (.inr (.inr hs))), rfl, hfresh⟩

theorem Core.whole (hcore : Core h L) (hfrees : L.frees = b :: F) :
    Core h { L with
        frees := F
        res := .large b :: L.res } ∧
      L.Le { L with
        frees := F
        res := .large b :: L.res } := by
  have hgeo := hcore.geometry.takeFree hfrees
  have hhdrs : ∀ s, s ∈ ({ L with
      frees := F
      res := .large b :: L.res } : Layout).hdrs ↔ s ∈ L.hdrs := by
    intro s
    have hb : (∃ o ∈ Obj.large b :: L.res, s ∈ o.hdrs false) ↔
        (b.start, Hdr.free b.len) = s ∨ ∃ o ∈ L.res, s ∈ o.hdrs false := by
      simp [Obj.hdrs, eq_comm]
    rw [Layout.mem_hdrs, Layout.mem_hdrs, hfrees, hb]
    simp only [mem_cons, exists_eq_or_imp]
    grind
  refine ⟨hcore.ranges rfl rfl rfl rfl (fun p i => ?_) (fun _ _ => Iff.rfl) hgeo []
    (fun s hs => .inr ((hhdrs s).mp hs)) (fun _ hs => absurd hs not_mem_nil)
    (fun p _ _ => .refl _ p) ?_, .of_subset (fun s hs => (hhdrs s).mpr hs) (List.Subset.refl _)⟩
  · simp [Layout.objs]
  · refine nodup_cons.mpr ⟨fun hmem => ?_, hcore.nodup⟩
    have hpages := hcore.geometry.pages
    rw [Layout.pageExtents, hfrees, cons_append] at hpages
    have hpos := start_mem_cells (hpages.pos b mem_cons_self)
    refine hpages.not_mem_tail hpos (mem_owned.mpr (.inl ⟨b, mem_append_right _ ?_, hpos⟩))
    exact mem_flatMap.mpr ⟨_, hmem, mem_cons_self⟩

theorem Inv.createBlock (hinv : Inv h L) {k page : Nat} (hk : 0 < k) (hle : k ≤ chunkPages - 1)
    (hok : h.arenaCreateBlock k = .ok (page, h')) :
    h.Same h' ∧ ∃ F A, Inv h' { L with
        frees := F
        arenas := A
        res := .large ⟨page, k⟩ :: L.res } ∧
      L.Le { L with
        frees := F
        arenas := A
        res := .large ⟨page, k⟩ :: L.res } := by
  unfold Heap.arenaCreateBlock at hok
  cases htake : h.takeFreeBlock k with
  | error e =>
    rw [htake] at hok
    cases hok
  | ok r =>
    obtain ⟨b, h₁⟩ := r
    obtain ⟨hble, hsame, A, hcore, hlt⟩ := hinv.take hle htake
    rw [htake] at hok
    simp only [bind, Except.bind, pure, Except.pure] at hok
    have hbins : ∀ j < numArenaBins, BinOk h₁ j := fun j hj =>
      (hinv.bins j hj).congr (congrFun hsame.bins j) hsame.runs hsame.run
    split at hok
    · rename_i hgt
      obtain ⟨q, hq⟩ : ∃ q, b.start + (b.len - k) = q := ⟨_, rfl⟩
      rw [hq] at hok
      have hqb : b.start ≠ q := by omega
      have hhdr := hcore.headers (b.start, .free b.len)
        (Layout.mem_hdrs.mpr (.inl ⟨b, mem_cons_self, rfl⟩))
      have hsize : ((((h₁.put (addr q 0) (usageFree ||| stateInitialized)).put
          (addr q offSize) k).put (addr q offArenaId) 0).nvm.mem (addr b.start offSize)) =
          b.len := by
        rw [put_mem, put_mem, put_mem, update_of_ne (addr_ne_of_ne hqb (by decide) (by decide)),
          update_of_ne (addr_ne_of_ne hqb (by decide) (by decide)),
          update_of_ne (addr_ne_of_ne hqb (by decide) (by decide))]
        exact hhdr.2
      rw [hsize, if_neg (by omega), Except.ok.injEq, Prod.mk.injEq] at hok
      obtain ⟨rfl, rfl⟩ := hok
      have hcut := hcore.cut (F := h₁.freePageruns.toList) rfl hk hgt (m := update
        (update (update (update h₁.nvm.mem (addr q 0)
          (usageFree ||| stateInitialized)) (addr q offSize) k) (addr q offArenaId) 0)
            (addr b.start offSize) (b.len - k))
        ?_ ?_ ?_ ?_ (show ((((h₁.put (addr q 0) (usageFree ||| stateInitialized)).put
          (addr q offSize) k).put (addr q offArenaId) 0).shrinkFreeBlock b k
            (b.len - k)).nvm.mem = _ from rfl) rfl rfl rfl rfl
      · rw [hq] at hcut
        refine ⟨⟨hsame.freeChunks, hsame.bins, hsame.runs, hsame.run, hsame.currentVersion,
          hsame.nextLogEntry, hsame.log, hsame.reserved, hsame.active⟩, _, A,
          ⟨hcut, (SizeTree.toList_add _ _ _).symm, ?_, fun j hj => ?_⟩, hlt.trans (.cut rfl k _)⟩
        · exact hsame.freeChunks ▸ hinv.freeChunks
        · exact (hbins j hj).congr rfl rfl rfl
      · simp [addr_ne_of_ne hqb, offSize, offArenaId]
      · simp
      · rw [hq]
        constructor
        · simp [addr_ne_of_ne hqb.symm, offSize, offArenaId]
        · simp [addr_ne_of_ne hqb.symm, offSize, offArenaId]
      · intro p hp hp'
        rw [hq] at hp'
        refine SameHdr.update ?_ hp (by decide) _
        refine SameHdr.update ?_ hp' (by decide) _
        refine SameHdr.update ?_ hp' (by decide) _
        exact (SameHdr.refl _ p).update hp' (by decide) _
    · rename_i hgt
      cases hok
      have hlen : b = ⟨b.start, k⟩ := by
        have hk' : b.len = k := by omega
        rw [← hk']
      obtain ⟨hwhole, hwlt⟩ := hcore.whole rfl
      rw [hlen] at hwhole hwlt
      refine ⟨hsame, _, A, ⟨hwhole, .refl _, hsame.freeChunks ▸ hinv.freeChunks, hbins⟩,
        hlt.trans ?_⟩
      rw [hlen]
      exact hwlt

theorem runHdr_createRunHeader (h : Heap) (q n : Nat) (h64 : 64 ≤ n) :
    RunHdr (h.createRunHeader q n).nvm.mem q n h.currentVersion fun _ => False := by
  have hzero : ∀ off < 64, (h.clearHeader q).nvm.mem (addr q off) = 0 := by
    intro off hoff
    refine if_pos ⟨?_, ?_⟩
    · rw [addr_eq, addr_eq]
      omega
    · rw [addr_eq, addr_eq, headerSize]
      omega
  have hcell : ∀ off < 64, off ≠ 0 → off ≠ offNBytes → off ≠ offBitIdx → off ≠ offVersion →
      (h.createRunHeader q n).nvm.mem (addr q off) = 0 := by
    intro off hoff h0 hn hb hv
    unfold Heap.createRunHeader
    dsimp only
    simp only [put_mem]
    rw [update_of_ne (by simpa using hv), update_of_ne (by simpa using hb),
      update_of_ne (by simpa using hn), update_of_ne (by simpa using h0)]
    exact hzero off hoff
  refine ⟨?_, ?_, ?_, fun j hj => ?_, fun i hi => ?_⟩
  · simp [Heap.createRunHeader, offVersion, offBitIdx, offNBytes]
  · simp [Heap.createRunHeader, offVersion, offBitIdx, offNBytes]
  · simp only [Heap.createRunHeader, put_mem, update_self]
    rfl
  · refine hcell _ ?_ ?_ ?_ ?_ ?_ <;>
      simp only [offRunOn, offNBytes, offBitIdx, offVersion] <;> omega
  · have hlt := slots_le h64 hi
    have hbyte : bitmapOf (h.createRunHeader q n).nvm.mem q (i / 8) = 0 := by
      refine hcell _ ?_ ?_ ?_ ?_ ?_ <;>
        simp only [offBitmap, offNBytes, offBitIdx, offVersion] <;> omega
    rw [Bitmap.test, hbyte, Nat.zero_testBit]
    simp

theorem sameHdr_createRunHeader (h : Heap) {p q : Nat} (hpq : p ≠ q) (n : Nat) :
    SameHdr h.nvm.mem (h.createRunHeader q n).nvm.mem p := by
  have hclear : SameHdr h.nvm.mem (h.clearHeader q).nvm.mem p := by
    intro off hoff
    refine if_neg ?_
    rw [addr_eq, addr_eq, addr_eq]
    rw [headerSize] at *
    omega
  unfold Heap.createRunHeader
  refine SameHdr.update ?_ hpq (by decide) _
  refine SameHdr.update ?_ hpq (by decide) _
  refine SameHdr.update ?_ hpq (by decide) _
  exact hclear.update hpq (by decide) _

theorem Core.newRun (hcore : Core h L) {F' : List Extent} {n q : Nat} (hfrees : L.frees = b :: F)
    (hgeo : ({ L with
      frees := F'
      runs := q :: L.runs } : Layout).Geometry h.nextChunk)
    (hnew : (∃ len, F' = ⟨b.start, len⟩ :: F ∧ h'.nvm.mem (addr b.start offSize) = len ∧
      h'.nvm.mem (addr b.start 0) = h.nvm.mem (addr b.start 0)) ∨ F' = F)
    (hn : ∃ k < numArenaBins, n = 64 * (k + 1))
    (hhdr : RunHdr h'.nvm.mem q n h.currentVersion fun _ => False)
    (hsame : ∀ p, p ≠ b.start → p ≠ q → SameHdr h.nvm.mem h'.nvm.mem p)
    (hnext : h'.nextChunk = h.nextChunk) (hruns : h'.runs = q :: h.runs)
    (hrun : h'.run = update h.run q ⟨n, slots n, slots n, fun _ => 0⟩)
    (hversion : h'.currentVersion = h.currentVersion) :
    Core h' { L with
      frees := F'
      runs := q :: L.runs } := by
  have hq : q ∉ h.runs := by
    have hnodup := (nodup_append.mp hgeo.nodup_hdrPages).2.1
    rw [← hcore.runs]
    exact (nodup_cons.mp hnodup).1
  have hold : (b.start, Hdr.free b.len) ∈ L.hdrs :=
    Layout.mem_hdrs.mpr (.inl ⟨b, hfrees ▸ mem_cons_self, rfl⟩)
  have hother : ∀ p ∈ h.runs, h'.run p = h.run p := by
    intro p hp
    rw [hrun, update_of_ne]
    rintro rfl
    exact hq hp
  have hself : h'.run q = ⟨n, slots n, slots n, fun _ => 0⟩ := by
    rw [hrun, update_self]
  have hsmall : ∀ i, Obj.small q i ∉ L.objs := fun i hmem => hq (hcore.small q i hmem).1
  have hsub : ∀ s ∈ ({ L with
      frees := F'
      runs := q :: L.runs } : Layout).hdrs, s.1 ≠ b.start → s ∈ L.hdrs := by
    intro s hs hne
    rw [Layout.mem_hdrs] at hs ⊢
    refine hs.imp_left ?_
    rintro ⟨e, he, rfl⟩
    refine ⟨e, ?_, rfl⟩
    rw [hfrees]
    rcases hnew with ⟨len, rfl, -⟩ | rfl
    · rcases mem_cons.mp he with rfl | he
      · exact absurd rfl hne
      · exact mem_cons_of_mem b he
    · exact mem_cons_of_mem b he
  refine ⟨hnext ▸ hgeo, fun s hs => ?_, ?_, fun p hp => ?_, fun p hp => ?_, fun p hp i hi => ?_,
    fun p i hmem => ?_, hcore.nodup⟩
  · by_cases hb : s.1 = b.start
    · rcases hnew with ⟨len, rfl, hsize, hstate⟩ | rfl
      · have hmem : ((b.start, Hdr.free len) : Nat × Hdr) ∈ ({ L with
            frees := ⟨b.start, len⟩ :: F
            runs := q :: L.runs } : Layout).hdrs :=
          Layout.mem_hdrs.mpr (.inl ⟨_, mem_cons_self, rfl⟩)
        rw [hgeo.hdr_unique hs hmem hb]
        exact ⟨hstate.trans (hcore.headers _ hold).1, hsize⟩
      · -- the range has become a run
        exfalso
        have hs' : s ∈ L.hdrs := by
          rw [Layout.mem_hdrs] at hs ⊢
          refine hs.imp_left ?_
          rintro ⟨e, he, rfl⟩
          exact ⟨e, hfrees ▸ mem_cons_of_mem b he, rfl⟩
        have hnodup : L.hdrs.Nodup :=
          List.Nodup.of_map _ (nodup_append.mp hcore.geometry.nodup_hdrPages).1
        have heq := hcore.geometry.hdr_unique hs' hold hb
        have hcons : L.hdrs = (b.start, Hdr.free b.len) :: ({ L with
            frees := F'
            runs := q :: L.runs } : Layout).hdrs := by
          unfold Layout.hdrs
          rw [hfrees]
          rfl
        rw [hcons, nodup_cons] at hnodup
        exact hnodup.1 (heq ▸ hs)
    · have hq' : s.1 ≠ q := by
        rintro heq
        exact hgeo.not_run hs (heq ▸ mem_cons_self)
      exact (hcore.headers s (hsub s hs hb)).frame (hsame s.1 hb hq')
  · rw [hruns, ← hcore.runs]
  · rw [hruns] at hp
    rcases mem_cons.mp hp with rfl | hp
    · rw [hself]
      refine ⟨hn, ?_⟩
      show slots n = (List.range (slots n)).countP fun i => !Bitmap.test (fun _ => 0) i
      have htest : (fun i => !Bitmap.test (fun _ => 0) i) = fun _ => true := by
        funext i
        rw [Bitmap.test, Nat.zero_testBit]
        rfl
      rw [htest, countP_true, length_range]
    · rw [hother p hp]
      exact hcore.run p hp
  · rw [hruns] at hp
    rcases mem_cons.mp hp with rfl | hp
    · rw [hself, hversion]
      have hbit : (fun i => Obj.small p i ∈ L.act) = fun _ => False :=
        funext fun i => eq_false fun hmem => hsmall i (mem_append_right _ hmem)
      rw [hbit]
      exact hhdr
    · rw [hother p hp, hversion]
      refine (hcore.runHdr p hp).frame (hcore.run p hp).le_elemSize (hsame p ?_ fun heq => ?_)
      · rintro rfl
        exact hcore.geometry.not_run hold (hcore.runs ▸ hp)
      · exact hq (heq ▸ hp)
  · rw [hruns] at hp
    rcases mem_cons.mp hp with rfl | hp
    · rw [hself, Bitmap.test, Nat.zero_testBit]
      exact iff_of_false Bool.false_ne_true (hsmall i)
    · rw [hother p hp] at hi ⊢
      exact hcore.bits p hp i hi
  · obtain ⟨hp, hi⟩ := hcore.small p i hmem
    rw [hruns, hother p hp]
    exact ⟨mem_cons_of_mem q hp, hi⟩

theorem Layout.Le.newRun {F' : List Extent} {q : Nat} (hfrees : L.frees = b :: F)
    (hF : (∃ len, F' = ⟨b.start, len⟩ :: F) ∨ F' = F ∧ q = b.start) :
    L.Le { L with
      frees := F'
      runs := q :: L.runs } := by
  refine ⟨fun s hs hfresh => ?_, fun p hp => mem_cons_of_mem q hp⟩
  rw [Layout.mem_hdrs, hfrees] at hs
  rcases hs with ⟨e, he, rfl⟩ | hs
  · rcases mem_cons.mp he with rfl | he
    · rcases hF with ⟨len, rfl⟩ | ⟨-, rfl⟩
      · exact .inl ⟨_, Layout.mem_hdrs.mpr (.inl ⟨_, mem_cons_self, rfl⟩), rfl, rfl⟩
      · exact .inr mem_cons_self
    · refine .inl ⟨_, Layout.mem_hdrs.mpr (.inl ⟨e, ?_, rfl⟩), rfl, rfl⟩
      rcases hF with ⟨len, rfl⟩ | ⟨rfl, -⟩
      · exact mem_cons_of_mem _ he
      · exact he
  · exact .inl ⟨s, Layout.mem_hdrs.mpr (.inr hs), rfl, hfresh⟩

/-- What `arena_create_run` has done when it returns. -/
structure RunCreated (h h' : Heap) (L : Layout) (n page : Nat) : Prop where
  quiet : h.Quiet h'
  freeChunks : h'.freeChunks = h.freeChunks
  bins : h'.bins = h.bins
  runs : h'.runs = page :: h.runs
  run : h'.run = update h.run page ⟨n, slots n, slots n, fun _ => 0⟩
  layout : ∃ F A, F.Perm h'.freePageruns.toList ∧
    Core h' { L with
      frees := F
      arenas := A
      runs := page :: L.runs } ∧
    L.Le { L with
      frees := F
      arenas := A
      runs := page :: L.runs }

theorem Inv.createRun (hinv : Inv h L) {n page : Nat} (hn : ∃ k < numArenaBins, n = 64 * (k + 1))
    (hok : h.arenaCreateRun n = .ok (page, h')) : RunCreated h h' L n page := by
  have h64 : 64 ≤ n := by
    obtain ⟨k, -, rfl⟩ := hn
    omega
  unfold Heap.arenaCreateRun at hok
  cases htake : h.takeFreeBlock 1 with
  | error e =>
    rw [htake] at hok
    cases hok
  | ok r =>
    obtain ⟨b, h₁⟩ := r
    obtain ⟨hble, hsame, A, hcore, hlt⟩ := hinv.take (show 1 ≤ chunkPages - 1 by decide) htake
    rw [htake] at hok
    simp only [bind, Except.bind, pure, Except.pure, Except.ok.injEq, Prod.mk.injEq] at hok
    obtain ⟨hq, hok⟩ := hok
    rw [hq] at hok
    obtain ⟨h₂, hh₂⟩ : ∃ h₂, ({ h₁ with
        runs := page :: h₁.runs
        run := update h₁.run page ⟨n, (blockSize - 64) / n, (blockSize - 64) / n,
          fun _ => 0⟩ } : Heap) = h₂ := ⟨_, rfl⟩
    rw [hh₂] at hok
    have hmem : h₂.nvm.mem = h₁.nvm.mem := hh₂ ▸ rfl
    have hversion : h₂.currentVersion = h₁.currentVersion := hh₂ ▸ rfl
    have hhdr := runHdr_createRunHeader h₂ page n h64
    have hframe : ∀ p, p ≠ page →
        SameHdr h₁.nvm.mem (h₂.createRunHeader page n).nvm.mem p := by
      intro p hp
      rw [← hmem]
      exact sameHdr_createRunHeader h₂ hp n
    split at hok
    · rename_i hgt
      have hpage : b.start ≠ page := by omega
      have hgeo := (hcore.geometry.splitFree rfl Nat.one_pos hgt).toRun rfl
      rw [hq] at hgeo
      subst hok hh₂
      refine ⟨⟨hsame.currentVersion, hsame.nextLogEntry, hsame.log, hsame.reserved,
        hsame.active⟩, hsame.freeChunks, hsame.bins, congrArg (page :: ·) hsame.runs, ?_,
        ⟨b.start, b.len - 1⟩ :: h₁.freePageruns.toList, A, (SizeTree.toList_add _ _ _).symm,
        hcore.newRun rfl hgeo (.inl ⟨b.len - 1, rfl, ?_, ?_⟩) hn ?_ (fun p hp hp' => ?_) rfl rfl
          rfl rfl, hlt.trans (.newRun rfl (.inl ⟨_, rfl⟩))⟩
      · rw [← hsame.run]
        rfl
      · exact update_self ..
      · refine (update_of_ne ?_ ..).trans (hframe b.start hpage 0 (by decide))
        simp [offSize]
      · exact hhdr.frame h64 ((SameHdr.refl _ _).update hpage.symm (by decide) _)
      · exact (hframe p hp').update hp (by decide) _
    · rename_i hgt
      have hb : b = ⟨b.start, 1⟩ := by
        have hlen : b.len = 1 := by omega
        rw [← hlen]
      have hpage : page = b.start := by omega
      have hgeo := (hcore.geometry.takeFree rfl).toRun (p := b.start) (by rw [← hb])
      rw [← hpage] at hgeo
      subst hok hh₂
      refine ⟨⟨hsame.currentVersion, hsame.nextLogEntry, hsame.log, hsame.reserved,
        hsame.active⟩, hsame.freeChunks, hsame.bins, congrArg (page :: ·) hsame.runs, ?_,
        h₁.freePageruns.toList, A, .refl _,
        hcore.newRun rfl hgeo (.inr rfl) hn hhdr (fun p _ hp => hframe p hp) rfl rfl rfl rfl,
        hlt.trans (.newRun rfl (.inr ⟨rfl, hpage⟩))⟩
      rw [← hsame.run]
      rfl

end Steps

end Pmdk.NvMalloc
