import Pmdk.NvMalloc.ReserveInv

/-!
# Small objects

A bin knows how many slots of its runs are clear, and lists the runs other than the current one
that are not full. So when the bin has a clear slot but its current run has none, the list is not
empty.
-/

namespace Pmdk.NvMalloc

open Extent Function List

/-! ## Counting -/

theorem sum_map_of_succ {l : List Nat} (hl : l.Nodup) {p : Nat} (hp : p ∈ l) {f g : Nat → Nat}
    (hfg : f p = g p + 1) (hother : ∀ x ∈ l, x ≠ p → f x = g x) :
    (l.map f).sum = (l.map g).sum + 1 := by
  have hperm := perm_cons_erase hp
  have herase : (l.erase p).map f = (l.erase p).map g := by
    refine map_congr_left fun x hx => hother x (mem_of_mem_erase hx) ?_
    rintro rfl
    exact (List.Nodup.not_mem_erase hl) hx
  have hf := (hperm.map f).sum_nat
  have hg := (hperm.map g).sum_nat
  rw [map_cons, sum_cons] at hf hg
  rw [herase] at hf
  omega

theorem countP_of_succ {l : List Nat} (hl : l.Nodup) {x : Nat} (hx : x ∈ l) {P Q : Nat → Bool}
    (hP : P x = true) (hQ : Q x = false) (hother : ∀ y ∈ l, y ≠ x → P y = Q y) :
    l.countP P = l.countP Q + 1 := by
  have hperm := perm_cons_erase hx
  have herase : (l.erase x).countP P = (l.erase x).countP Q := by
    refine countP_congr fun y hy => ?_
    rw [hother y (mem_of_mem_erase hy)]
    rintro rfl
    exact (List.Nodup.not_mem_erase hl) hy
  rw [hperm.countP_eq, hperm.countP_eq, countP_cons_of_pos hP,
    countP_cons_of_neg (by simp [hQ]), herase]

/-! ## Bins -/

section Bins

variable {h h' : Heap} {k : Nat}

theorem Inv.nodup_runs {L : Layout} (hinv : Inv h L) : h.runs.Nodup := by
  rw [← hinv.runs]
  exact (nodup_append.mp hinv.geometry.nodup_hdrPages).2.1

theorem BinOk.nFree_of_mem (hbin : BinOk h k) (hzero : (h.bins k).nFree = 0) {p : Nat}
    (hp : p ∈ h.runsOf k) : (h.run p).nFree = 0 := by
  have hsum := ((perm_cons_erase hp).map fun p => (h.run p).nFree).sum_nat
  rw [← hbin.nFree, map_cons, sum_cons] at hsum
  omega

theorem BinOk.exists_clear (hbin : BinOk h k) (hpos : (h.bins k).nFree ≠ 0) :
    ∃ p ∈ h.runsOf k, 0 < (h.run p).nFree := by
  by_contra hnone
  refine hpos ?_
  rw [hbin.nFree]
  refine sum_eq_zero fun x hx => ?_
  obtain ⟨p, hp, rfl⟩ := mem_map.mp hx
  by_contra hne
  exact hnone ⟨p, hp, Nat.pos_of_ne_zero hne⟩

theorem BinOk.pop (hbin : BinOk h k)
    (hfull : ∀ p, (h.bins k).currentRun = some p → (h.run p).nFree = 0) {page : Nat}
    {runs : List Nat} (hruns : (h.bins k).runs = page :: runs) :
    BinOk (h.setBin k { h.bins k with currentRun := some page, runs }) k := by
  have hself : (h.setBin k { h.bins k with currentRun := some page, runs }).bins k =
      { h.bins k with currentRun := some page, runs } := update_self ..
  have hnodup := hbin.nodup
  rw [hruns, nodup_cons] at hnodup
  refine ⟨?_, fun p hp => ?_, ?_, fun p => ?_⟩
  · rw [hself]
    exact hbin.nFree
  · rw [hself] at hp
    cases hp
    exact ((hbin.mem page).mp (hruns ▸ mem_cons_self)).1
  · rw [hself]
    exact hnodup.2
  · rw [hself]
    have hmem := hbin.mem p
    rw [hruns, mem_cons] at hmem
    constructor
    · intro hp
      obtain ⟨hof, -, hpos⟩ := hmem.mp (.inr hp)
      refine ⟨hof, fun heq => ?_, hpos⟩
      cases heq
      exact hnodup.1 hp
    · rintro ⟨hof, hne, hpos⟩
      have hold : (h.bins k).currentRun ≠ some p :=
        fun hcur => Nat.lt_irrefl 0 (hfull p hcur ▸ hpos)
      rcases hmem.mpr ⟨hof, hold, hpos⟩ with rfl | hp
      · exact absurd rfl hne
      · exact hp

end Bins

/-! ## Selecting a run -/

variable {e : Failure}

section Select

variable {h h' : Heap} {L : Layout} {n : Nat}

/-- The size of a slot, as `arena_allocate` rounds it. -/
def IsSlotSize (n : Nat) : Prop := ∃ k < numArenaBins, n = 64 * (k + 1)

theorem IsSlotSize.bin {n : Nat} (hn : IsSlotSize n) : n / 64 - 1 < numArenaBins := by
  obtain ⟨k, hk, rfl⟩ := hn
  omega

theorem IsSlotSize.pos {n : Nat} (hn : IsSlotSize n) : 0 < slots n := by
  obtain ⟨k, hk, rfl⟩ := hn
  rw [numArenaBins] at hk
  rw [slots]
  refine Nat.div_pos ?_ (by omega)
  have hsize : blockSize - 64 = 4032 := by decide
  omega

theorem activateMoreChunks_error {k : Nat}
    (herr : h.activateMoreChunks k = .error e) : e = .exit := by
  unfold Heap.activateMoreChunks at herr
  split at herr
  · cases herr
    rfl
  · split at herr
    · cases herr
      rfl
    · cases herr

theorem takeFreeBlock_error {k : Nat} (herr : h.takeFreeBlock k = .error e) : e = .exit := by
  unfold Heap.takeFreeBlock at herr
  split at herr
  · unfold Heap.arenaAddChunk at herr
    cases hmore : h.activateMoreChunks 1 with
    | error e' =>
      rw [hmore] at herr
      cases herr
      exact activateMoreChunks_error hmore
    | ok r =>
      rw [hmore] at herr
      cases herr
  · cases herr

theorem arenaCreateRun_error (herr : h.arenaCreateRun n = .error e) : e = .exit := by
  unfold Heap.arenaCreateRun at herr
  cases htake : h.takeFreeBlock 1 with
  | error e' =>
    rw [htake] at herr
    cases herr
    exact takeFreeBlock_error htake
  | ok r =>
    rw [htake] at herr
    cases herr

structure Selected (h h' : Heap) (L L' : Layout) (n page : Nat) : Prop where
  quiet : h.Quiet h'
  inv : Inv h' L'
  res : L'.res = L.res
  act : L'.act = L.act
  le : L.Le L'
  mem : page ∈ h'.runs
  size : (h'.run page).elemSize = n
  clear : 0 < (h'.run page).nFree
  current : (h'.bins (n / 64 - 1)).currentRun = some page
  sizes : ∀ p ∈ h.runs, p ∈ h'.runs ∧ (h'.run p).elemSize = (h.run p).elemSize

theorem RunCreated.selected {page : Nat} (hinv : Inv h L) (hn : IsSlotSize n)
    (hnew : RunCreated h h' L n page) (hzero : (h.bins (n / 64 - 1)).nFree = 0) :
    ∃ L', Selected h (h'.setBin (n / 64 - 1) { h'.bins (n / 64 - 1) with
      currentRun := some page
      nFree := (h'.bins (n / 64 - 1)).nFree + (blockSize - 64) / n }) L L' n page := by
  obtain ⟨F, A, hperm, hcore, hle⟩ := hnew.layout
  obtain ⟨k, hk⟩ : ∃ k, n / 64 - 1 = k := ⟨_, rfl⟩
  rw [hk] at hzero ⊢
  have hpage : page ∉ h.runs := by
    have hnodup := (nodup_append.mp hcore.geometry.nodup_hdrPages).2.1
    rw [← hinv.runs]
    exact (nodup_cons.mp hnodup).1
  have hother : ∀ p ∈ h.runs, h'.run p = h.run p := by
    intro p hp
    rw [hnew.run, update_of_ne]
    rintro rfl
    exact hpage hp
  have hself : h'.run page = ⟨n, slots n, slots n, fun _ => 0⟩ := by
    rw [hnew.run, update_self]
  have hof : ∀ j, h'.runsOf j = if j = k then page :: h.runsOf j else h.runsOf j := by
    intro j
    have hold : h.runs.filter (fun p => (h'.run p).bin = j) = h.runsOf j :=
      filter_congr fun p hp => by rw [hother p hp]
    rw [Heap.runsOf, hnew.runs, filter_cons, hold, hself]
    have hbin : (Run.mk n (slots n) (slots n) fun _ => 0).bin = k := hk
    rw [hbin]
    by_cases hj : j = k
    · simp [hj]
    · simp [hj, Ne.symm hj]
  obtain ⟨bin, hbin⟩ : ∃ bin, ({ h'.bins k with
      currentRun := some page
      nFree := (h'.bins k).nFree + (blockSize - 64) / n } : Bin) = bin := ⟨_, rfl⟩
  rw [hbin]
  have hbinof : ∀ j, (h'.setBin k bin).bins j = if j = k then bin else h.bins j := by
    intro j
    rw [← hnew.bins]
    exact update_apply ..
  refine ⟨_, ⟨hnew.quiet.currentVersion, hnew.quiet.nextLogEntry, hnew.quiet.log,
    hnew.quiet.reserved, hnew.quiet.active⟩, ⟨hcore.congr rfl rfl rfl rfl rfl, hperm, ?_,
    fun j hj => ?_⟩, rfl, rfl, hle, ?_, ?_, ?_, ?_, fun p hp => ?_⟩
  · show L.freeChunks.Perm h'.freeChunks.toList
    rw [hnew.freeChunks]
    exact hinv.freeChunks
  · have hbinok := hinv.bins j hj
    have hnotmem : page ∉ h.runsOf j := fun hmem => hpage (Heap.mem_runsOf.mp hmem).1
    have hsum : (h.runsOf j).map (fun p => (h'.run p).nFree) =
        (h.runsOf j).map fun p => (h.run p).nFree :=
      map_congr_left fun p hp => by rw [hother p (Heap.mem_runsOf.mp hp).1]
    by_cases hjk : j = k
    · subst hjk
      have hofj : (h'.setBin j bin).runsOf j = page :: h.runsOf j := by
        have := hof j
        rw [if_pos rfl] at this
        exact this
      have hbinj : (h'.setBin j bin).bins j = bin := by
        rw [hbinof, if_pos rfl]
      have hrunsj : bin.runs = (h.bins j).runs := by
        rw [← hbin, hnew.bins]
      have hnone : ∀ p, p ∉ (h.bins j).runs := by
        intro p hp
        obtain ⟨hpof, -, hpos⟩ := (hbinok.mem p).mp hp
        rw [hbinok.nFree_of_mem hzero hpof] at hpos
        exact Nat.lt_irrefl 0 hpos
      refine ⟨?_, fun p hp => ?_, ?_, fun p => ?_⟩
      · rw [hbinj, hofj, ← hbin, hnew.bins, map_cons, sum_cons]
        show (h.bins j).nFree + slots n = (h'.run page).nFree +
          ((h.runsOf j).map fun p => (h'.run p).nFree).sum
        rw [hsum, hself, ← hbinok.nFree, Nat.add_comm]
      · rw [hbinj, ← hbin] at hp
        cases hp
        rw [hofj]
        exact mem_cons_self
      · rw [hbinj, hrunsj]
        exact hbinok.nodup
      · rw [hbinj, hrunsj, hofj, ← hbin]
        refine iff_of_false (hnone p) ?_
        rintro ⟨hp, hcur, hpos⟩
        rcases mem_cons.mp hp with rfl | hp
        · exact hcur rfl
        · have hpos' : 0 < (h'.run p).nFree := hpos
          rw [hother p (Heap.mem_runsOf.mp hp).1, hbinok.nFree_of_mem hzero hp] at hpos'
          exact Nat.lt_irrefl 0 hpos'
    · have hofj : (h'.setBin k bin).runsOf j = h.runsOf j := by
        have := hof j
        rw [if_neg hjk] at this
        exact this
      have hbinj : (h'.setBin k bin).bins j = h.bins j := by
        rw [hbinof, if_neg hjk]
      refine ⟨?_, ?_, ?_, fun p => ?_⟩
      · rw [hbinj, hofj, hbinok.nFree, ← hsum]
        rfl
      · rw [hbinj, hofj]
        exact hbinok.current
      · rw [hbinj]
        exact hbinok.nodup
      · rw [hbinj, hofj, hbinok.mem p]
        refine and_congr_right fun hp => ?_
        show _ ↔ _ ∧ 0 < (h'.run p).nFree
        rw [hother p (Heap.mem_runsOf.mp hp).1]
  · show page ∈ h'.runs
    rw [hnew.runs]
    exact mem_cons_self
  · show (h'.run page).elemSize = n
    rw [hself]
  · show 0 < (h'.run page).nFree
    rw [hself]
    exact hn.pos
  · rw [hk, hbinof, if_pos rfl, ← hbin]
  · refine ⟨?_, ?_⟩
    · show p ∈ h'.runs
      rw [hnew.runs]
      exact mem_cons_of_mem page hp
    · show (h'.run p).elemSize = _
      rw [hother p hp]

theorem Inv.popRun (hinv : Inv h L) (hn : IsSlotSize n) (hpos : (h.bins (n / 64 - 1)).nFree ≠ 0)
    (hfull : ∀ p, (h.bins (n / 64 - 1)).currentRun = some p → (h.run p).nFree = 0) :
    ∃ page h', Heap.selectRun.popRun h (n / 64 - 1) (h.bins (n / 64 - 1)) = .ok (page, h') ∧
      Selected h h' L L n page := by
  obtain ⟨k, hk⟩ : ∃ k, n / 64 - 1 = k := ⟨_, rfl⟩
  have hkbins := hn.bin
  rw [hk] at hpos hfull hkbins ⊢
  have hbin := hinv.bins k hkbins
  unfold Heap.selectRun.popRun
  cases hruns : (h.bins k).runs with
  | nil =>
    exfalso
    obtain ⟨p, hp, hclear⟩ := hbin.exists_clear hpos
    have hmem := (hbin.mem p).mpr ⟨hp, fun hcur => ?_, hclear⟩
    · rw [hruns] at hmem
      exact absurd hmem not_mem_nil
    · exact Nat.lt_irrefl 0 (hfull p hcur ▸ hclear)
  | cons page runs =>
    obtain ⟨hof, -, hclear⟩ := (hbin.mem page).mp (hruns ▸ mem_cons_self)
    obtain ⟨hmem, hbink⟩ := Heap.mem_runsOf.mp hof
    refine ⟨page, _, rfl, ⟨rfl, rfl, rfl, rfl, rfl⟩,
      ⟨hinv.toCore.congr rfl rfl rfl rfl rfl, hinv.frees, hinv.freeChunks, fun j hj => ?_⟩, rfl,
      rfl, .of_subset (fun _ hs => hs) (List.Subset.refl _), hmem, ?_, hclear, ?_,
      fun p hp => ⟨hp, rfl⟩⟩
    · by_cases hjk : j = k
      · subst hjk
        exact hbin.pop hfull hruns
      · exact (hinv.bins j hj).congr (update_of_ne hjk ..) rfl rfl
    · obtain ⟨j, hj, hsize⟩ := (hinv.run page hmem).size
      obtain ⟨i, hi, rfl⟩ := hn
      rw [Run.bin] at hbink
      show (h.run page).elemSize = _
      omega
    · rw [hk]
      show (update h.bins k _ k).currentRun = some page
      rw [update_self]

theorem Inv.selectRun (hinv : Inv h L) (hn : IsSlotSize n) :
    h.selectRun n = .error .exit ∨
      ∃ page h' L', h.selectRun n = .ok (page, h') ∧ Selected h h' L L' n page := by
  unfold Heap.selectRun
  dsimp only
  split
  · rename_i hzero
    cases hcreate : h.arenaCreateRun n with
    | error e =>
      rw [arenaCreateRun_error hcreate]
      exact .inl rfl
    | ok r =>
      obtain ⟨page, h₁⟩ := r
      obtain ⟨L', hsel⟩ := (hinv.createRun hn hcreate).selected hinv hn hzero
      exact .inr ⟨page, _, L', rfl, hsel⟩
  · rename_i hpos
    right
    split
    · rename_i page hcur
      split
      · rename_i hfull
        obtain ⟨page', h', heq, hsel⟩ := hinv.popRun hn hpos fun p hp => by
          rw [hcur] at hp
          cases hp
          exact hfull
        exact ⟨page', h', L, heq, hsel⟩
      · rename_i hclear
        obtain ⟨hmem, hbink⟩ := Heap.mem_runsOf.mp ((hinv.bins _ hn.bin).current page hcur)
        refine ⟨page, h, L, rfl, ⟨rfl, rfl, rfl, rfl, rfl⟩, hinv, rfl, rfl,
          .of_subset (fun _ hs => hs) (List.Subset.refl _), hmem, ?_, Nat.pos_of_ne_zero hclear,
          hcur, fun p hp => ⟨hp, rfl⟩⟩
        obtain ⟨j, hj, hsize⟩ := (hinv.run page hmem).size
        obtain ⟨i, hi, rfl⟩ := hn
        rw [Run.bin] at hbink
        omega
    · rename_i hcur
      obtain ⟨page', h', heq, hsel⟩ := hinv.popRun hn hpos fun p hp => by
        rw [hcur] at hp
        cases hp
      exact ⟨page', h', L, heq, hsel⟩

end Select

end Pmdk.NvMalloc
