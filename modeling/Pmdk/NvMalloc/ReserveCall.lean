import Pmdk.NvMalloc.Slots

/-!
# Every reservation finds memory of its own

A small object gets a clear slot of the run that was selected, a large or huge one the end of a
free range, or new chunks.
-/

namespace Pmdk.NvMalloc

open Extent Function List

def Heap.size (h : Heap) (page : Nat) : Nat := (h.run page).elemSize

structure Reserved (h h' : Heap) (L L' : Layout) (o : Obj) : Prop where
  quiet : h.Quiet h'
  inv : Inv h' L'
  res : L'.res = o :: L.res
  act : L'.act = L.act
  le : L.Le L'
  sizes : ∀ p ∈ h.runs, h'.size p = h.size p

section Reserve

variable {h h' : Heap} {L : Layout} {n : Nat}

theorem RunOk.exists_clear {r : Run} (hr : RunOk r) (hpos : 0 < r.nFree) :
    ∃ i < slots r.elemSize, r.bitmap.test i = false ∧
      (List.range (slots r.elemSize)).find? (fun i => !r.bitmap.test i) = some i := by
  rw [hr.nFree, Run.clear, countP_pos_iff] at hpos
  obtain ⟨j, hj, htest⟩ := hpos
  cases hfind : (List.range (slots r.elemSize)).find? fun i => !r.bitmap.test i with
  | none =>
    rw [find?_eq_none] at hfind
    exact absurd htest (hfind j hj)
  | some i =>
    have hclear := find?_some hfind
    rw [Bool.not_eq_true'] at hclear
    exact ⟨i, mem_range.mp (mem_of_find?_eq_some hfind), hclear, rfl⟩

theorem Run.clear_succ {r r' : Run} {i : Nat} (hsize : r'.elemSize = r.elemSize)
    (hi : i < slots r.elemSize) (hset : r.bitmap.test i = true) (hclear : r'.bitmap.test i = false)
    (hother : ∀ j ≠ i, r'.bitmap.test j = r.bitmap.test j) : r'.clear = r.clear + 1 := by
  unfold Run.clear
  rw [hsize]
  refine countP_of_succ nodup_range (mem_range.mpr hi) ?_ ?_ fun y _ hy => ?_
  · rw [hclear]
    rfl
  · rw [hset]
    rfl
  · rw [hother y hy]

section Slot

variable {page k : Nat} {r : Run} {bin : Bin}

theorem run_setSlot (h : Heap) (page k p : Nat) (r : Run) (bin : Bin) :
    ((h.setRun page r).setBin k bin).run p = if p = page then r else h.run p :=
  update_apply ..

theorem elemSize_setSlot (hsize : r.elemSize = (h.run page).elemSize) (p : Nat) :
    (((h.setRun page r).setBin k bin).run p).elemSize = (h.run p).elemSize := by
  rw [run_setSlot]
  split
  · rename_i heq
    rw [hsize, heq]
  · rfl

theorem runsOf_setSlot (hsize : r.elemSize = (h.run page).elemSize) (j : Nat) :
    ((h.setRun page r).setBin k bin).runsOf j = h.runsOf j := by
  refine filter_congr fun p _ => ?_
  rw [Run.bin, Run.bin, elemSize_setSlot hsize]

theorem BinOk.setSlot {j : Nat} (hbin : BinOk h j) (hjk : j ≠ k) (hk : (h.run page).bin = k)
    (hsize : r.elemSize = (h.run page).elemSize) : BinOk ((h.setRun page r).setBin k bin) j := by
  have hbinj : ((h.setRun page r).setBin k bin).bins j = h.bins j := update_of_ne hjk ..
  have hrunj : ∀ p ∈ h.runsOf j, ((h.setRun page r).setBin k bin).run p = h.run p := by
    intro p hp
    rw [run_setSlot, if_neg]
    rintro rfl
    exact hjk ((Heap.mem_runsOf.mp hp).2.symm.trans hk)
  refine ⟨?_, ?_, ?_, fun p => ?_⟩
  · rw [hbinj, runsOf_setSlot hsize, hbin.nFree]
    exact congrArg List.sum (map_congr_left fun p hp => by rw [hrunj p hp])
  · rw [hbinj, runsOf_setSlot hsize]
    exact hbin.current
  · rw [hbinj]
    exact hbin.nodup
  · rw [hbinj, runsOf_setSlot hsize, hbin.mem p]
    exact and_congr_right fun hp => by rw [hrunj p hp]

end Slot

theorem Inv.takeSlot (hinv : Inv h L) {page i k : Nat} (hpage : page ∈ h.runs)
    (hk : (h.run page).bin = k) (hcur : (h.bins k).currentRun = some page)
    (hpos : 0 < (h.run page).nFree) (hi : i < slots (h.run page).elemSize)
    (hclear : (h.run page).bitmap.test i = false) :
    Inv ((h.setRun page { h.run page with
      bitmap := (h.run page).bitmap.set i
      nFree := (h.run page).nFree - 1 }).setBin k { h.bins k with nFree := (h.bins k).nFree - 1 })
      { L with res := .small page i :: L.res } := by
  obtain ⟨r, hr⟩ : ∃ r, ({ h.run page with
    bitmap := (h.run page).bitmap.set i
    nFree := (h.run page).nFree - 1 } : Run) = r := ⟨_, rfl⟩
  obtain ⟨bin, hbin⟩ : ∃ bin, ({ h.bins k with nFree := (h.bins k).nFree - 1 } : Bin) = bin :=
    ⟨_, rfl⟩
  rw [hr, hbin]
  have hsize : r.elemSize = (h.run page).elemSize := hr ▸ rfl
  have hnFree : r.nFree = (h.run page).nFree - 1 := hr ▸ rfl
  have htest : ∀ j, r.bitmap.test j = true ↔ j = i ∨ (h.run page).bitmap.test j = true := by
    rw [← hr]
    exact Bitmap.test_set _ i
  have hrun := fun p => run_setSlot h page k p r bin
  have hsizes : ∀ p, (((h.setRun page r).setBin k bin).run p).elemSize = (h.run p).elemSize :=
    elemSize_setSlot hsize
  have hnew : Obj.small page i ∉ L.objs := by
    intro hmem
    rw [(hinv.bits page hpage i hi).mpr hmem] at hclear
    cases hclear
  have hof : ∀ j, ((h.setRun page r).setBin k bin).runsOf j = h.runsOf j := runsOf_setSlot hsize
  have hclears : (h.run page).clear = r.clear + 1 := by
    refine Run.clear_succ hsize.symm (hsize ▸ hi) ((htest i).mpr (.inl rfl)) hclear fun y hy => ?_
    rw [Bool.eq_iff_iff, htest, or_iff_right hy]
  refine ⟨⟨hinv.geometry.congr (.refl _) (.refl _) rfl rfl, hinv.headers, hinv.runs, fun p hp => ?_,
    fun p hp => ?_, fun p hp j hj => ?_, fun p j hmem => ?_, nodup_cons.mpr ⟨hnew, hinv.nodup⟩⟩,
    hinv.frees, hinv.freeChunks, fun j hj => ?_⟩
  · rw [hrun]
    split
    · refine ⟨hsize ▸ (hinv.run page hpage).size, ?_⟩
      rw [hnFree, (hinv.run page hpage).nFree]
      omega
    · exact hinv.run p hp
  · rw [hsizes]
    exact hinv.runHdr p hp
  · have hj' : j < slots (h.run p).elemSize := hsizes p ▸ hj
    have hbits := hinv.bits p hp j hj'
    have hmem : Obj.small p j ∈ ({ L with res := .small page i :: L.res } : Layout).objs ↔
        (p = page ∧ j = i) ∨ Obj.small p j ∈ L.objs := by
      simp [Layout.objs]
    rw [hmem, ← hbits, hrun]
    split
    · rename_i heq
      subst heq
      rw [htest]
      simp
    · rename_i hne
      simp [hne]
  · rw [hsizes]
    rcases mem_cons.mp hmem with heq | hmem
    · cases heq
      exact ⟨hpage, hi⟩
    · exact hinv.small p j hmem
  · have hbinok := hinv.bins j hj
    by_cases hjk : j = k
    · subst hjk
      have hbinj : ((h.setRun page r).setBin j bin).bins j = bin := update_self ..
      have hmem : page ∈ h.runsOf j := Heap.mem_runsOf.mpr ⟨hpage, hk⟩
      have hsum : ((h.runsOf j).map fun p => (h.run p).nFree).sum = ((h.runsOf j).map fun p =>
          (((h.setRun page r).setBin j bin).run p).nFree).sum + 1 := by
        refine sum_map_of_succ (hinv.nodup_runs.filter _) hmem ?_ fun p _ hp => ?_
        · rw [hrun, if_pos rfl, hnFree]
          omega
        · rw [hrun, if_neg hp]
      refine ⟨?_, ?_, ?_, fun p => ?_⟩
      · rw [hbinj, hof, ← hbin]
        show (h.bins j).nFree - 1 = _
        rw [hbinok.nFree, hsum]
        rfl
      · rw [hbinj, hof, ← hbin]
        exact hbinok.current
      · rw [hbinj, ← hbin]
        exact hbinok.nodup
      · have hruns : bin.runs = (h.bins j).runs := hbin ▸ rfl
        have hcurrent : bin.currentRun = (h.bins j).currentRun := hbin ▸ rfl
        rw [hbinj, hof, hruns, hcurrent, hbinok.mem p]
        refine and_congr_right fun _ => and_congr_right fun hne => ?_
        rw [hrun, if_neg]
        rintro rfl
        exact hne hcur
    · exact hbinok.setSlot hjk hk hsize

def Reserves (h : Heap) (L : Layout) (r : Except Failure (Option Nat × Heap)) : Prop :=
  r = .error .exit ∨ ∃ h' L' o, r = .ok (some (o.ptr h'.size), h') ∧ Reserved h h' L L' o

theorem isSlotSize_round (hn : 1 ≤ n) (hle : n ≤ sclassSmallMax) :
    IsSlotSize (n / 64 * 64 + if n % 64 ≠ 0 then 64 else 0) := by
  have hmax : sclassSmallMax = 1984 := rfl
  have hbins : numArenaBins = 31 := rfl
  by_cases hrem : n % 64 ≠ 0
  · rw [if_pos hrem]
    exact ⟨n / 64, by omega, by omega⟩
  · rw [if_neg hrem]
    exact ⟨n / 64 - 1, by omega, by omega⟩

theorem Inv.allocateSlot (hinv : Inv h L) (hn : 1 ≤ n) (hle : n ≤ sclassSmallMax) :
    h.arenaAllocate n = .error .exit ∨ ∃ h' L' page i,
      h.arenaAllocate n = .ok (some (Heap.slotAddr page (h'.size page) i), h') ∧
      Reserved h h' L L' (.small page i) ∧
      h'.size page = n / 64 * 64 + if n % 64 ≠ 0 then 64 else 0 := by
  unfold Heap.arenaAllocate
  rw [if_pos hle]
  have hround := isSlotSize_round hn hle
  obtain ⟨m, hm⟩ : ∃ m, (n / 64 * 64 + if n % 64 ≠ 0 then 64 else 0) = m := ⟨_, rfl⟩
  rw [hm] at hround
  dsimp only
  rw [hm]
  rcases hinv.selectRun hround with herr | ⟨page, h₁, L₁, heq, hsel⟩
  · rw [herr]
    exact .inl rfl
  · right
    obtain ⟨i, hi, hclear, hfind⟩ := (hsel.inv.run page hsel.mem).exists_clear hsel.clear
    have hbink : (h₁.run page).bin = m / 64 - 1 := by
      rw [Run.bin, hsel.size]
    have hslot := hsel.inv.takeSlot hsel.mem hbink hsel.current hsel.clear hi hclear
    rw [hsel.size, slots] at hfind
    rw [heq]
    simp only [bind, Except.bind, pure, Except.pure, hfind, Option.map_some]
    have hsizes : ∀ p, (update h₁.run page { h₁.run page with
        bitmap := (h₁.run page).bitmap.set i
        nFree := (h₁.run page).nFree - 1 } p).elemSize = (h₁.run p).elemSize := by
      intro p
      by_cases hp : p = page
      · rw [hp, update_self]
      · rw [update_of_ne hp]
    have hsize := (hsizes page).trans hsel.size
    refine ⟨_, _, page, i, ?_, ⟨?_, hslot, congrArg (Obj.small page i :: ·) hsel.res,
      hsel.act, hsel.le.trans ?_, fun p hp => ?_⟩, hsize⟩
    · rw [Heap.size]
      exact congrArg (fun s => Except.ok (some (Heap.slotAddr page s i), _)) hsize.symm
    · exact ⟨hsel.quiet.currentVersion, hsel.quiet.nextLogEntry, hsel.quiet.log,
        hsel.quiet.reserved, hsel.quiet.active⟩
    · refine .of_subset (fun s hs => ?_) (List.Subset.refl _)
      rw [Layout.mem_hdrs] at hs ⊢
      refine hs.imp_right (Or.imp_right (Or.imp_left ?_))
      rintro ⟨o, ho, hs⟩
      exact ⟨o, mem_cons_of_mem _ ho, hs⟩
    · exact (hsizes p).trans (hsel.sizes p hp).2

theorem Inv.allocateSmall (hinv : Inv h L) (hn : 1 ≤ n) (hle : n ≤ sclassSmallMax) :
    Reserves h L (h.arenaAllocate n) := by
  rcases hinv.allocateSlot hn hle with herr | ⟨h', L', page, i, heq, hres, -⟩
  · exact .inl herr
  · exact .inr ⟨h', L', .small page i, heq, hres⟩

theorem arenaCreateBlock_error (hinv : Inv h L) {k : Nat} (hk : k ≤ chunkPages - 1)
    {e : Failure} (herr : h.arenaCreateBlock k = .error e) : e = .exit := by
  unfold Heap.arenaCreateBlock at herr
  cases htake : h.takeFreeBlock k with
  | error e' =>
    rw [htake] at herr
    cases herr
    exact takeFreeBlock_error htake
  | ok r =>
    obtain ⟨b, h₁⟩ := r
    obtain ⟨hble, -, A, hcore, -⟩ := hinv.take hk htake
    have hhdr := hcore.headers (b.start, .free b.len)
      (Layout.mem_hdrs.mpr (.inl ⟨b, mem_cons_self, rfl⟩))
    rw [htake] at herr
    simp only [bind, Except.bind, pure, Except.pure] at herr
    split at herr
    · rename_i hgt
      have hne : b.start ≠ b.start + (b.len - k) := by omega
      rw [put_mem, put_mem, put_mem, update_of_ne (addr_ne_of_ne hne (by decide) (by decide)),
        update_of_ne (addr_ne_of_ne hne (by decide) (by decide)),
        update_of_ne (addr_ne_of_ne hne (by decide) (by decide)), hhdr.2,
        if_neg (by omega)] at herr
      cases herr
    · cases herr

def pagesFor (n : Nat) : Nat :=
  (n / blockSize * blockSize + if n % blockSize ≠ 0 then blockSize else 0) / blockSize

theorem Inv.allocatePages (hinv : Inv h L) (hgt : ¬n ≤ sclassSmallMax) (hle : n ≤ sclassLargeMax) :
    h.arenaAllocate n = .error .exit ∨ ∃ h' L' page,
      h.arenaAllocate n = .ok (some (addr page headerSize), h') ∧
      Reserved h h' L L' (.large ⟨page, pagesFor n⟩) := by
  unfold Heap.arenaAllocate
  rw [if_neg hgt]
  dsimp only
  rw [← pagesFor]
  obtain ⟨k, hk⟩ : ∃ k, pagesFor n = k := ⟨_, rfl⟩
  rw [hk]
  rw [pagesFor] at hk
  have hsmall : sclassSmallMax = 1984 := rfl
  have hlarge : sclassLargeMax = 1073741760 := rfl
  have hpages : chunkPages = 524288 := rfl
  have hblock : blockSize = 4096 := rfl
  have hpos : 0 < k := by
    rw [← hk, hblock]
    split <;> omega
  have hlek : k ≤ chunkPages - 1 := by
    rw [← hk, hblock]
    split <;> omega
  cases hcreate : h.arenaCreateBlock k with
  | error e =>
    rw [arenaCreateBlock_error hinv hlek hcreate]
    exact .inl rfl
  | ok r =>
    obtain ⟨page, h₁⟩ := r
    obtain ⟨hsame, F, A, hinv', hlt⟩ := hinv.createBlock hpos hlek hcreate
    refine .inr ⟨h₁, _, page, rfl, hsame.quiet, hinv', rfl, rfl, hlt, fun p _ => ?_⟩
    rw [Heap.size, Heap.size, hsame.run]

theorem Inv.allocateLarge (hinv : Inv h L) (hgt : ¬n ≤ sclassSmallMax)
    (hle : n ≤ sclassLargeMax) : Reserves h L (h.arenaAllocate n) := by
  rcases hinv.allocatePages hgt hle with herr | ⟨h', L', page, heq, hres⟩
  · exact .inl herr
  · exact .inr ⟨h', L', .large ⟨page, pagesFor n⟩, heq, hres⟩

end Reserve

end Pmdk.NvMalloc
