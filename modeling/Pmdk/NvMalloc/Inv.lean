import Pmdk.NvMalloc.Layout

/-!
# The invariant of the heap

`Core` ties the headers on NVM and the volatile runs to a layout. Together with the trees of free
ranges and the bins it is the invariant of a session.
-/

namespace Pmdk.NvMalloc

open Extent Function List

/-! ## Bitmaps -/

namespace Bitmap

theorem test_set (b : Bitmap) (i j : Nat) : (b.set i).test j = true ↔ j = i ∨ b.test j = true := by
  unfold test set
  by_cases hbyte : j / 8 = i / 8
  · rw [hbyte, update_self, Nat.testBit_or, Nat.one_shiftLeft, Nat.testBit_two_pow,
      Bool.or_eq_true, decide_eq_true_eq]
    have hiff : i % 8 = j % 8 ↔ j = i := by omega
    rw [hiff, or_comm]
  · rw [update_of_ne hbyte]
    have hne : j ≠ i := fun heq => hbyte (heq ▸ rfl)
    rw [or_iff_right hne]

theorem test_clear (b : Bitmap) (i j : Nat) :
    (b.clear i).test j = true ↔ j ≠ i ∧ b.test j = true := by
  unfold test clear
  by_cases hbyte : j / 8 = i / 8
  · have h255 : Nat.testBit 255 (j % 8) = true := by
      have hlt : j % 8 < 8 := Nat.mod_lt j (by decide)
      have hpow : (255 : Nat) = 2 ^ 8 - 1 := rfl
      rw [hpow, Nat.testBit_two_pow_sub_one, decide_eq_true_eq]
      exact hlt
    rw [hbyte, update_self, Nat.testBit_and, Nat.testBit_xor, Nat.one_shiftLeft,
      Nat.testBit_two_pow, h255]
    have hiff : i % 8 = j % 8 ↔ j = i := by omega
    simp [hiff, and_comm]
  · rw [update_of_ne hbyte]
    have hne : j ≠ i := fun heq => hbyte (heq ▸ rfl)
    rw [and_iff_right hne]

end Bitmap

/-! ## Runs and bins -/

def Run.bin (r : Run) : Nat := r.elemSize / 64 - 1

def Run.clear (r : Run) : Nat :=
  (List.range (slots r.elemSize)).countP fun i => !r.bitmap.test i

structure RunOk (r : Run) : Prop where
  size : ∃ k < numArenaBins, r.elemSize = 64 * (k + 1)
  nFree : r.nFree = r.clear

theorem RunOk.le_elemSize {r : Run} (h : RunOk r) : 64 ≤ r.elemSize := by
  obtain ⟨k, -, hk⟩ := h.size
  omega

def Heap.runsOf (h : Heap) (k : Nat) : List Nat := h.runs.filter fun p => (h.run p).bin = k

structure BinOk (h : Heap) (k : Nat) : Prop where
  nFree : (h.bins k).nFree = ((h.runsOf k).map fun p => (h.run p).nFree).sum
  current : ∀ p, (h.bins k).currentRun = some p → p ∈ h.runsOf k
  nodup : (h.bins k).runs.Nodup
  mem : ∀ p, p ∈ (h.bins k).runs ↔
    p ∈ h.runsOf k ∧ (h.bins k).currentRun ≠ some p ∧ 0 < (h.run p).nFree

theorem Heap.mem_runsOf {h : Heap} {k p : Nat} :
    p ∈ h.runsOf k ↔ p ∈ h.runs ∧ (h.run p).bin = k := by
  rw [runsOf, mem_filter, decide_eq_true_eq]

/-! ## Core -/

structure Core (h : Heap) (L : Layout) : Prop where
  geometry : L.Geometry h.nextChunk
  headers : ∀ s ∈ L.hdrs, s.2.Ok h.nvm.mem s.1
  runs : L.runs = h.runs
  run : ∀ p ∈ h.runs, RunOk (h.run p)
  runHdr : ∀ p ∈ h.runs, RunHdr h.nvm.mem p (h.run p).elemSize h.currentVersion
    fun i => .small p i ∈ L.act
  bits : ∀ p ∈ h.runs, ∀ i < slots (h.run p).elemSize,
    (h.run p).bitmap.test i = true ↔ .small p i ∈ L.objs
  small : ∀ p i, .small p i ∈ L.objs → p ∈ h.runs ∧ i < slots (h.run p).elemSize
  nodup : L.objs.Nodup

section Core

variable {h h' : Heap} {L L' : Layout}

theorem headers_of_new {n : Nat} {m m' : Mem} {new : List (Nat × Hdr)} (hgeo : L'.Geometry n)
    (hsub : ∀ s ∈ L'.hdrs, s ∈ new ∨ s ∈ L.hdrs) (hnew : ∀ s ∈ new, s ∈ L'.hdrs ∧ s.2.Ok m' s.1)
    (hold : ∀ s ∈ L.hdrs, s.2.Ok m s.1)
    (hsame : ∀ s ∈ L'.hdrs, s.1 ∉ new.map Prod.fst → SameHdr m m' s.1) :
    ∀ s ∈ L'.hdrs, s.2.Ok m' s.1 := by
  intro s hs
  by_cases hmem : s.1 ∈ new.map Prod.fst
  · obtain ⟨t, ht, heq⟩ := mem_map.mp hmem
    rw [hgeo.hdr_unique hs (hnew t ht).1 heq.symm]
    exact (hnew t ht).2
  · have hs' : s ∈ L.hdrs := by
      rcases hsub s hs with hn | hl
      · exact absurd (mem_map_of_mem hn) hmem
      · exact hl
    exact (hold s hs').frame (hsame s hs hmem)

theorem Core.ranges (hcore : Core h L) (hruns : h'.runs = h.runs) (hrun : h'.run = h.run)
    (hversion : h'.currentVersion = h.currentVersion) (hL : L'.runs = L.runs)
    (hsmall : ∀ p i, Obj.small p i ∈ L'.objs ↔ Obj.small p i ∈ L.objs)
    (hact : ∀ p i, Obj.small p i ∈ L'.act ↔ Obj.small p i ∈ L.act) (hgeo : L'.Geometry h'.nextChunk)
    (new : List (Nat × Hdr)) (hsub : ∀ s ∈ L'.hdrs, s ∈ new ∨ s ∈ L.hdrs)
    (hnew : ∀ s ∈ new, s ∈ L'.hdrs ∧ s.2.Ok h'.nvm.mem s.1)
    (hsame : ∀ p ∈ L'.hdrPages, p ∉ new.map Prod.fst → SameHdr h.nvm.mem h'.nvm.mem p)
    (hnodup : L'.objs.Nodup) : Core h' L' := by
  have hcong : ∀ p, (fun i => Obj.small p i ∈ L'.act) = fun i => Obj.small p i ∈ L.act :=
    fun p => funext fun i => propext (hact p i)
  have hheaders := headers_of_new hgeo hsub hnew hcore.headers fun s hs hnot =>
    hsame s.1 (mem_append_left _ (mem_map_of_mem hs)) hnot
  refine ⟨hgeo, hheaders, ?_, ?_, fun p hp => ?_, ?_, ?_, hnodup⟩
  · rw [hL, hruns]
    exact hcore.runs
  · rw [hruns, hrun]
    exact hcore.run
  · rw [hruns] at hp
    rw [hrun, hversion, hcong]
    refine (hcore.runHdr p hp).frame (hcore.run p hp).le_elemSize (hsame p ?_ fun hmem => ?_)
    · refine mem_append_right _ ?_
      rw [hL, hcore.runs]
      exact hp
    · obtain ⟨t, ht, rfl⟩ := mem_map.mp hmem
      refine hgeo.not_run (hnew t ht).1 ?_
      rw [hL, hcore.runs]
      exact hp
  · rw [hruns, hrun]
    intro p hp i hi
    rw [hsmall]
    exact hcore.bits p hp i hi
  · rw [hruns, hrun]
    intro p i hmem
    exact hcore.small p i ((hsmall p i).mp hmem)

theorem Core.perm (hcore : Core h L) {F G : List Extent} (hF : L.frees.Perm F)
    (hG : L.freeChunks.Perm G) : Core h { L with frees := F, freeChunks := G } := by
  refine hcore.ranges rfl rfl rfl rfl (fun _ _ => Iff.rfl) (fun _ _ => Iff.rfl)
    (hcore.geometry.congr (hF.append_right _) (hG.append_right _) rfl rfl) [] (fun s hs => .inr ?_)
    (fun _ hs => absurd hs not_mem_nil) (fun p _ _ => .refl _ p) hcore.nodup
  rw [Layout.mem_hdrs] at hs ⊢
  rcases hs with ⟨e, he, heq⟩ | ⟨e, he, heq⟩ | hs
  · exact .inl ⟨e, hF.mem_iff.mpr he, heq⟩
  · exact .inr (.inl ⟨e, hG.mem_iff.mpr he, heq⟩)
  · exact .inr (.inr hs)

/-- `Core` is not about the trees, the bins, the log and the lists of the client. -/
theorem Core.congr (hcore : Core h L) (hmem : h'.nvm.mem = h.nvm.mem)
    (hnext : h'.nextChunk = h.nextChunk) (hruns : h'.runs = h.runs) (hrun : h'.run = h.run)
    (hversion : h'.currentVersion = h.currentVersion) : Core h' L := by
  refine ⟨hnext ▸ hcore.geometry, hmem ▸ hcore.headers, hcore.runs.trans hruns.symm, ?_, ?_, ?_, ?_,
    hcore.nodup⟩
  · rw [hruns, hrun]
    exact hcore.run
  · rw [hruns, hrun, hversion, hmem]
    exact hcore.runHdr
  · rw [hruns, hrun]
    exact hcore.bits
  · rw [hruns, hrun]
    exact hcore.small

end Core

structure Inv (h : Heap) (L : Layout) : Prop extends Core h L where
  frees : L.frees.Perm h.freePageruns.toList
  freeChunks : L.freeChunks.Perm h.freeChunks.toList
  bins : ∀ k < numArenaBins, BinOk h k

theorem BinOk.congr {h h' : Heap} {k : Nat} (hbin : BinOk h k) (hbins : h'.bins k = h.bins k)
    (hruns : h'.runs = h.runs) (hrun : h'.run = h.run) : BinOk h' k := by
  have hof : h'.runsOf k = h.runsOf k := by
    rw [Heap.runsOf, Heap.runsOf, hruns, hrun]
  refine ⟨?_, ?_, ?_, ?_⟩
  · rw [hbins, hof, hrun]
    exact hbin.nFree
  · rw [hbins, hof]
    exact hbin.current
  · rw [hbins]
    exact hbin.nodup
  · rw [hbins, hof, hrun]
    exact hbin.mem

/-! ## Pages that keep their headers -/

def Hdr.isFresh : Hdr → Bool
  | .fresh _ => true
  | _ => false

structure Layout.Le (L L' : Layout) : Prop where
  hdrs : ∀ s ∈ L.hdrs, s.2.isFresh = false →
    (∃ t ∈ L'.hdrs, t.1 = s.1 ∧ t.2.isFresh = false) ∨ s.1 ∈ L'.runs
  runs : L.runs ⊆ L'.runs

theorem Layout.Le.trans {L L' L'' : Layout} (h : L.Le L') (h' : L'.Le L'') : L.Le L'' := by
  refine ⟨fun s hs hfresh => ?_, fun p hp => h'.runs (h.runs hp)⟩
  rcases h.hdrs s hs hfresh with ⟨t, ht, heq, htfresh⟩ | hrun
  · rw [← heq]
    exact h'.hdrs t ht htfresh
  · exact .inr (h'.runs hrun)

theorem Layout.Le.of_subset {L L' : Layout} (hhdrs : ∀ s ∈ L.hdrs, s ∈ L'.hdrs)
    (hruns : L.runs ⊆ L'.runs) : L.Le L' :=
  ⟨fun s hs hfresh => .inl ⟨s, hhdrs s hs, rfl, hfresh⟩, hruns⟩

theorem Layout.Geometry.hdrPage_lt {L : Layout} {n p : Nat} (h : L.Geometry n)
    (hp : p ∈ L.hdrPages) : p / chunkPages < n := by
  rw [L.hdrPages_perm.mem_iff, mem_append] at hp
  rcases hp with hp | hp
  · exact h.lt _ (mem_owned.mpr (.inr (h.inArena p (h.pages.start_subset hp)).1))
  · obtain ⟨e, he, rfl⟩ := mem_map.mp hp
    rw [chunkPage_div]
    exact h.lt _ (h.chunks.start_subset (mem_append_left _ (mem_map_of_mem he)))

end Pmdk.NvMalloc
