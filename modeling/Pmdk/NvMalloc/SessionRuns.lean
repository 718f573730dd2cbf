import Pmdk.Lib.Run
import Pmdk.NvMalloc.FreeInv

/-!
# Runs of a session

Every call keeps the invariant, so it holds in every state of a session in which no size wraps
around.
-/

namespace Pmdk.NvMalloc

open Extent Transition Function List

/-- The number of chunks is not zero: the size neither reaches `2 ^ 64` with the header and the
rounding, or it does so by itself. -/
def Fits (nBytes : Nat) : Prop :=
  nBytes + headerSize + chunkSize < 2 ^ 64 ∨ 2 ^ 64 ≤ nBytes + headerSize

instance (nBytes : Nat) : Decidable (Fits nBytes) := inferInstanceAs (Decidable (_ ∨ _))

theorem Fits.chunksFor_pos {nBytes : Nat} (h : Fits nBytes) (hlt : nBytes < 2 ^ 64) :
    0 < chunksFor nBytes := by
  unfold Fits at h
  unfold chunksFor
  rw [headerSize, chunkSize_eq] at h ⊢
  refine Nat.div_pos ?_ (by decide)
  omega

section Session

variable {h h' : Heap} {L : Layout}

theorem Session.reserved_cons (hs : Session h L) {L' : Layout} {o : Obj}
    (hres : Reserved h h' L L' o) :
    Session { h' with reserved := o.ptr h'.size :: h'.reserved } L' := by
  have hptr : ∀ o' ∈ L.objs, o'.ptr h'.size = o'.ptr h.size := by
    intro o' ho'
    cases o' with
    | small page i =>
      exact congrArg (Heap.slotAddr page · i) (hres.sizes page (hs.small page i ho').1)
    | large e => rfl
    | huge e fresh => rfl
  refine ⟨⟨hres.inv.toCore.congr rfl rfl rfl rfl rfl, hres.inv.frees, hres.inv.freeChunks,
    fun k hk => (hres.inv.bins k hk).congr rfl rfl rfl⟩, ?_, ?_⟩
  · show (o.ptr h'.size :: h'.reserved).Perm (L'.res.map (Obj.ptr h'.size))
    rw [hres.res, hres.quiet.reserved, map_cons,
      map_congr_left fun o' ho' => hptr o' (mem_append_left _ ho')]
    exact hs.reserved.cons _
  · show h'.active.Perm (L'.act.map (Obj.ptr h'.size))
    rw [hres.act, hres.quiet.active, map_congr_left fun o' ho' => hptr o' (mem_append_right _ ho')]
    exact hs.active

theorem Session.reserve (hs : Session h L) {nBytes ptr : Nat} (hn : 1 ≤ nBytes)
    (hlt : nBytes < 2 ^ 64) (hfits : sclassLargeMax < nBytes → Fits nBytes)
    (hok : h.nvmReserve nBytes = .ok (some ptr, h')) :
    ∃ L', Session { h' with reserved := ptr :: h'.reserved } L' := by
  rcases hs.toInv.nvmReserve hn fun hlarge => (hfits hlarge).chunksFor_pos hlt with
    herr | ⟨h₁, L', o, heq, hres⟩
  · rw [herr] at hok
    cases hok
  · rw [heq] at hok
    cases hok
    exact ⟨L', hs.reserved_cons hres⟩

theorem Session.put (hs : Session h L) {a : Nat} (ha : h.isWord a = true) (v : Nat) :
    Session (h.put a v) L := by
  have hcore : Core (h.put a v) L := by
    refine hs.toCore.ranges rfl rfl rfl rfl (fun _ _ => Iff.rfl) (fun _ _ => Iff.rfl) hs.geometry []
      (fun s hmem => .inr hmem) (fun _ hmem => absurd hmem not_mem_nil) (fun p hp _ => ?_)
      hs.nodup
    exact sameHdr_update (fun off hoff => hs.not_header ha hp hoff) v
  exact ⟨⟨hcore, hs.frees, hs.freeChunks, fun k hk => (hs.bins k hk).congr rfl rfl rfl⟩,
    hs.reserved, hs.active⟩

theorem Session.step {e : Event} (hs : Session h L)
    (hfits : ∀ nBytes, e = .reserve nBytes → sclassLargeMax < nBytes → Fits nBytes)
    (hstep : step e h = some h') : ∃ L', Session h' L' := by
  cases e with
  | reserve nBytes =>
    simp only [NvMalloc.step] at hstep
    split at hstep
    · rename_i hn
      split at hstep
      · rename_i ptr h₁ heq
        cases hstep
        exact hs.reserve hn.1 hn.2 (hfits nBytes rfl) heq
      · cases hstep
    · cases hstep
  | activate ptr links =>
    simp only [NvMalloc.step] at hstep
    split at hstep
    · rename_i hguard
      obtain ⟨h₁, o, heq, -, hs'⟩ := hs.nvmActivate hguard.1 hguard.2
      rw [heq] at hstep
      cases hstep
      exact ⟨_, hs'⟩
    · cases hstep
  | free ptr links =>
    simp only [NvMalloc.step] at hstep
    split at hstep
    · rename_i hguard
      obtain ⟨h₁, o, heq, -, hs'⟩ := hs.nvmFree hguard.1 hguard.2
      rw [heq] at hstep
      cases hstep
      exact ⟨_, hs'⟩
    · cases hstep
  | write a v =>
    simp only [NvMalloc.step] at hstep
    split at hstep
    · rename_i hword
      cases hstep
      exact ⟨L, hs.put hword v⟩
    · cases hstep

def initLayout : Layout where
  frees := [⟨1, chunkPages - 1⟩]
  freeChunks := []
  arenas := [0, 1, 2]
  runs := []
  res := []
  act := []

theorem session_init : Session init initLayout := by
  have hpages : Separate [(⟨1, chunkPages - 1⟩ : Extent)] [] := by
    refine ⟨?_, fun e he => ?_⟩
    · rw [owned, append_nil, flatMap_singleton]
      exact List.nodup_range'
    · rw [mem_singleton.mp he]
      decide
  have hgeo : initLayout.Geometry init.nextChunk := by
    refine ⟨hpages, fun p hp => ?_, ⟨by decide, fun e he => absurd he not_mem_nil⟩, by decide⟩
    have hcell : p ∈ (⟨1, chunkPages - 1⟩ : Extent).cells := by
      rcases mem_owned.mp hp with ⟨e, he, hcell⟩ | hsingle
      · rwa [mem_singleton.mp he] at hcell
      · exact absurd hsingle not_mem_nil
    rw [mem_cells, chunkPages_eq] at hcell
    dsimp only at hcell
    rw [chunkPages_eq]
    refine ⟨?_, by omega⟩
    have hzero : p / 524288 = 0 := by omega
    rw [hzero]
    decide
  have hmem : init.nvm.mem = update (update
      (prefault (fun _ => 0) 0 initialArenas) (addr 1 0) (usageFree ||| stateInitialized))
      (addr 1 offSize) (chunkPages - 1) := rfl
  have hne : addr 1 0 ≠ addr 1 offSize := by decide
  refine ⟨⟨⟨hgeo, fun s hs => ?_, rfl, ?_, ?_, ?_, ?_, .nil⟩, .refl _, .refl _, fun k hk => ?_⟩,
    .refl _, .refl _⟩
  · rw [mem_singleton.mp (show s ∈ [((1 : Nat), Hdr.free (chunkPages - 1))] from hs)]
    refine ⟨?_, ?_⟩
    · show init.nvm.mem (addr 1 0) = _
      rw [hmem, update_of_ne hne, update_self]
    · show init.nvm.mem (addr 1 offSize) = _
      rw [hmem, update_self]
  · exact fun p hp => absurd hp not_mem_nil
  · exact fun p hp => absurd hp not_mem_nil
  · exact fun p hp => absurd hp not_mem_nil
  · exact fun p i hmem => absurd hmem not_mem_nil
  · exact ⟨rfl, fun p hp => (by cases hp), .nil, fun p =>
      ⟨fun hmem => absurd hmem not_mem_nil, fun hand => absurd hand.1 not_mem_nil⟩⟩

def Heap.LaidOut (h : Heap) : Prop := ∃ L, Session h L

theorem session_run {events : List Event}
    (hfits : ∀ nBytes, .reserve nBytes ∈ events → sclassLargeMax < nBytes → Fits nBytes)
    (hrun : run NvMalloc.step events init = some h) : h.LaidOut := by
  have hinit : init.LaidOut := ⟨initLayout, session_init⟩
  refine run_invariant (G := fun _ _ => True) ?_ (.of_forall (fun _ _ => trivial) _ _) hinit hrun
  rintro e he x y ⟨L, hs⟩ - hstep
  exact hs.step (fun nBytes heq => hfits nBytes (heq ▸ he)) hstep

end Session

end Pmdk.NvMalloc
