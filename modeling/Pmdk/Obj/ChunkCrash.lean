import Pmdk.Obj.Chunk
import Pmdk.Obj.HeapCheck

/-!
# The tiling of a zone at every crash point

A zone is well-formed when its chunks, followed by `size_idx` from the first one, end exactly at the
size of the zone.

Between operations the headers met by the walk are persistent (`Inv`). `Runs z ms` says that the
zone is safe before each of the stores and persists `ms` and satisfies the invariant after the last
one.
-/

namespace Pmdk.Chunk

open Persist Tiling List

abbrev ChunkTiles (image : Nat → Header) : Nat → List Nat → Nat → Prop :=
  Tiles (fun h => h.isChunk = true) Header.sizeIdx image

def WellFormed (image : Nat → Header) (sizeIdx : Nat) : Prop :=
  ∃ ns, ChunkTiles image 0 ns sizeIdx

def SafeFrom (z : Zone) (c : Nat) : Prop :=
  ∀ image sizeIdx, z.MayHold image sizeIdx → ∃ ns, ChunkTiles image c ns sizeIdx

def Safe (z : Zone) : Prop :=
  ∀ image sizeIdx, z.MayHold image sizeIdx → WellFormed image sizeIdx

abbrev Settled (z : Zone) : Nat → List Nat → Nat → Prop :=
  Tiles (fun c : Cell Header => c.stale = [] ∧ c.cur.isChunk = true) (fun c => c.cur.sizeIdx)
    z.headers

def Inv (z : Zone) : Prop :=
  z.sizeIdx.stale = [] ∧ ∃ ns, Settled z 0 ns z.sizeIdx.cur

/-! ## Walks -/

theorem holds_eq_cur {c : Cell Header} (h : c.stale = []) {v : Header} (hv : c.Holds v) :
    v = c.cur := by
  simpa [Cell.Holds, h] using hv

variable {after' ns : List Nat}

theorem Settled.chunkTiles {z : Zone} {i stop : Nat}
    (h : Settled z i ns stop) {image : Nat → Header}
    (hold : ∀ k, (z.headers k).Holds (image k)) : ChunkTiles image i ns stop := by
  induction ns generalizing i with
  | nil => exact h
  | cons n ns ih =>
    obtain ⟨⟨hstale, hchunk⟩, hlen, hpos, hrest⟩ := h
    have himage := holds_eq_cur hstale (hold i)
    refine ⟨?_, ?_, hpos, ih hrest⟩
    · rw [himage]
      exact hchunk
    · rw [himage]
      exact hlen

/-- The image after a crash is safe from `c` on if whatever header it has at `c` is a chunk
and it is safe from the end of that chunk on. -/
theorem safeFrom_of_holds {z : Zone} {c : Nat}
    (h : ∀ v, (z.headers c).Holds v → v.isChunk = true ∧ 0 < v.sizeIdx ∧
      ∀ image sizeIdx, z.MayHold image sizeIdx → image c = v →
        ∃ ns, ChunkTiles image (c + v.sizeIdx) ns sizeIdx) : SafeFrom z c := by
  intro image sizeIdx hold
  obtain ⟨hchunk, hpos, hrest⟩ := h (image c) (hold.1 c)
  obtain ⟨ns, hns⟩ := hrest image sizeIdx hold rfl
  exact ⟨(image c).sizeIdx :: ns, hchunk, rfl, hpos, hns⟩

theorem Settled.safeFrom {z : Zone} {i c : Nat} (h : Settled z i ns c)
    (hc : SafeFrom z c) : SafeFrom z i := by
  induction ns generalizing i with
  | nil =>
    obtain rfl : i = c := h
    exact hc
  | cons n ns ih =>
    obtain ⟨⟨hstale, hchunk⟩, hlen, hpos, hrest⟩ := h
    have hlen : (z.headers i).cur.sizeIdx = n := hlen
    refine safeFrom_of_holds fun v hv => ?_
    rw [holds_eq_cur hstale hv]
    refine ⟨hchunk, by omega, fun image sizeIdx hold _ => ?_⟩
    rw [hlen]
    exact ih hrest image sizeIdx hold

theorem safeFrom_size {z : Zone} (h : z.sizeIdx.stale = []) : SafeFrom z z.sizeIdx.cur := by
  intro image sizeIdx hold
  have hsize : sizeIdx = z.sizeIdx.cur := by
    simpa [Cell.Holds, h] using hold.2
  exact ⟨[], hsize.symm⟩

theorem SafeFrom.congr {z z' : Zone} {c : Nat} (h : SafeFrom z c)
    (hheaders : ∀ i, c ≤ i → ∀ v, (z'.headers i).Holds v → (z.headers i).Holds v)
    (hsize : ∀ n, z'.sizeIdx.Holds n → z.sizeIdx.Holds n) : SafeFrom z' c := by
  intro image sizeIdx hold
  have hold' : z.MayHold (fun i => if i < c then z.hdr i else image i) sizeIdx := by
    refine ⟨fun i => ?_, hsize _ hold.2⟩
    dsimp only
    split
    · exact .inl rfl
    · exact hheaders i (by omega) _ (hold.1 i)
  obtain ⟨ns, hns⟩ := h _ _ hold'
  refine ⟨ns, hns.congr fun k hk _ => ?_⟩
  rw [if_neg (by omega)]

theorem Inv.safe {z : Zone} (h : Inv z) : Safe z := by
  obtain ⟨hsize, ns, hns⟩ := h
  exact hns.safeFrom (safeFrom_size hsize)

/-! ## Programs -/

def Runs : Zone → List Micro → Prop
  | z, [] => Inv z
  | z, m :: ms => Safe z ∧ Runs (z.exec m) ms

variable {ms : List Micro}

theorem Runs.safe {z : Zone} (h : Runs z ms) : Safe z := by
  cases ms with
  | nil => exact Inv.safe h
  | cons m ms => exact h.1

/-- A chunk of the zone at `c`, with the sizes of the chunks before and after it. -/
structure Block (z : Zone) (c : Nat) (before after : List Nat) : Prop where
  settledBefore : Settled z 0 before c
  stale : (z.headers c).stale = []
  chunk : (z.hdr c).isChunk = true
  pos : 0 < (z.hdr c).sizeIdx
  settledAfter : Settled z (c + (z.hdr c).sizeIdx) after z.sizeIdx.cur
  size : z.sizeIdx.stale = []

theorem Block.inv {z : Zone} {c : Nat} {before after : List Nat}
    (h : Block z c before after) : Inv z := by
  refine ⟨h.size, before ++ (z.hdr c).sizeIdx :: after, tiles_append.mpr ⟨c, ?_, ?_⟩⟩
  · exact h.settledBefore
  · exact ⟨⟨h.stale, h.chunk⟩, rfl, h.pos, h.settledAfter⟩

def IsBlock (z : Zone) (c : Nat) : Prop :=
  c < z.sizeIdx.cur ∧ ∃ ns, ChunkTiles z.hdr 0 ns c

theorem Inv.block {z : Zone} (h : Inv z) {c : Nat} (hc : IsBlock z c) :
    ∃ before after, Block z c before after := by
  obtain ⟨hsize, ns, hns⟩ := h
  obtain ⟨hlt, before, hbefore⟩ := hc
  obtain ⟨rest, rfl, -⟩ := hbefore.split (hns.chunkTiles fun k => .inl rfl) (Nat.le_of_lt hlt)
  obtain ⟨j, hj, hrest⟩ := tiles_append.mp hns
  obtain rfl : j = c := by
    rw [Tiles.stop_eq hj, Tiles.stop_eq hbefore]
  cases rest with
  | nil =>
    obtain rfl : j = z.sizeIdx.cur := hrest
    exact absurd hlt (Nat.lt_irrefl _)
  | cons n after =>
    obtain ⟨⟨hstale, hchunk⟩, hlen, hpos, hafter⟩ := hrest
    have hlen : (z.hdr j).sizeIdx = n := hlen
    exact ⟨before, after, hj, hstale, hchunk, by omega, hlen ▸ hafter, hsize⟩

/-! ## Stores into a chunk -/

@[simp] theorem Zone.set_headers (z : Zone) (i j : Nat) (c : Cell Header) :
    (z.set i c).headers j = if j = i then c else z.headers j := by
  simp [Zone.set, Function.update_apply]

@[simp] theorem Zone.set_sizeIdx (z : Zone) (i : Nat) (c : Cell Header) :
    (z.set i c).sizeIdx = z.sizeIdx := rfl

theorem Zone.set_hdr (z : Zone) (i j : Nat) (c : Cell Header) :
    (z.set i c).hdr j = if j = i then c.cur else z.hdr j := by
  unfold Zone.hdr
  rw [Zone.set_headers]
  split <;> rfl

theorem Zone.exec_store_persist (z : Zone) (i : Nat) (h : Header) :
    (z.exec (.store i h)).exec (.persist i) = z.set i (Cell.clean h) := by
  simp [Zone.exec, Zone.set]

theorem Settled.set {z : Zone} {i stop : Nat} (h : Settled z i ns stop)
    {k : Nat} (hk : k < i ∨ stop ≤ k) (c : Cell Header) : Settled (z.set k c) i ns stop := by
  refine Tiles.congr h fun j hj hj' => ?_
  rw [Zone.set_headers, if_neg (by omega)]

variable {z : Zone} {c : Nat} {before after : List Nat}

section

variable (h : Block z c before after)

include h

theorem Block.setInside {k : Nat} (hk : c < k)
    (hk' : k < c + (z.hdr c).sizeIdx) (cell : Cell Header) :
    Block (z.set k cell) c before after := by
  have hhdr : (z.set k cell).hdr c = z.hdr c := by
    rw [Zone.set_hdr, if_neg (by omega)]
  refine ⟨h.settledBefore.set (.inr (by omega)) cell, ?_, ?_, ?_, ?_, h.size⟩
  · rw [Zone.set_headers, if_neg (by omega)]
    exact h.stale
  · rw [hhdr]
    exact h.chunk
  · rw [hhdr]
    exact h.pos
  · rw [hhdr]
    exact h.settledAfter.set (.inl (by omega)) cell

theorem Block.footer {n : Nat} (hn : (z.hdr c).sizeIdx = n)
    (flags : Nat) : Runs z (hugeWriteFooter c flags n) := by
  have hpos := h.pos
  unfold hugeWriteFooter
  split
  · exact h.inv
  · exact ⟨h.inv.safe, (h.setInside (by omega) (by omega) _).inv⟩

theorem Block.safe_store {v : Header} (hchunk : v.isChunk = true)
    (hpos : 0 < v.sizeIdx) (htail : SafeFrom z (c + v.sizeIdx)) : Safe (z.exec (.store c v)) := by
  have hbefore : Settled (z.exec (.store c v)) 0 before c :=
    h.settledBefore.set (.inr (Nat.le_refl c)) _
  refine hbefore.safeFrom (safeFrom_of_holds fun w hw => ?_)
  have hholds : ∀ i, c < i → (z.exec (.store c v)).headers i = z.headers i := by
    intro i hi
    rw [Zone.exec, Zone.set_headers, if_neg (by omega)]
  have hcongr : ∀ k, c < k → SafeFrom z k → SafeFrom (z.exec (.store c v)) k := by
    intro k hk hsafe
    refine hsafe.congr (fun i hi w hw => ?_) (fun _ hn => hn)
    rw [← hholds i (by omega)]
    exact hw
  have hold : w = v ∨ w = z.hdr c := by
    rw [Zone.exec, Zone.set_headers, if_pos rfl, Cell.holds_store] at hw
    exact hw.imp_right (holds_eq_cur h.stale)
  have hpos' := h.pos
  rcases hold with rfl | rfl
  · exact ⟨hchunk, hpos, fun image sizeIdx hm _ =>
      hcongr _ (by omega) htail image sizeIdx hm⟩
  · exact ⟨h.chunk, h.pos, fun image sizeIdx hm _ =>
      hcongr _ (by omega) (h.settledAfter.safeFrom (safeFrom_size h.size)) image sizeIdx hm⟩

/-- A header that is stored and persisted over a chunk, covering it together with some of the
chunks after it. -/
theorem Block.setHeader (v : Header) (hchunk : v.isChunk = true)
    (hpos : 0 < v.sizeIdx) (hafter : Settled z (c + v.sizeIdx) after' z.sizeIdx.cur) :
    Block (z.set c (Cell.clean v)) c before after' := by
  have hhdr : (z.set c (Cell.clean v)).hdr c = v := by
    rw [Zone.set_hdr, if_pos rfl, Cell.cur_clean]
  refine ⟨h.settledBefore.set (.inr (Nat.le_refl c)) _, ?_, by rwa [hhdr], by rwa [hhdr], ?_,
    h.size⟩
  · rw [Zone.set_headers, if_pos rfl]
    rfl
  · rw [hhdr]
    exact hafter.set (.inl (by omega)) _

theorem Block.runs_store_persist (v : Header) (hchunk : v.isChunk = true) (hpos : 0 < v.sizeIdx)
    (hafter : Settled z (c + v.sizeIdx) after' z.sizeIdx.cur)
    (hms : Runs (z.set c (Cell.clean v)) ms) : Runs z ([.store c v, .persist c] ++ ms) := by
  refine ⟨h.inv.safe, h.safe_store hchunk hpos (hafter.safeFrom (safeFrom_size h.size)), ?_⟩
  rw [Zone.exec_store_persist]
  exact hms

theorem Block.runs_set (v : Header) (hchunk : v.isChunk = true)
    (hpos : 0 < v.sizeIdx) (hafter : Settled z (c + v.sizeIdx) after' z.sizeIdx.cur) :
    Runs z [.store c v, .persist c] :=
  h.runs_store_persist v hchunk hpos hafter (h.setHeader v hchunk hpos hafter).inv

theorem Block.runs_header (v : Header) (hchunk : v.isChunk = true)
    (hpos : 0 < v.sizeIdx) (hafter : Settled z (c + v.sizeIdx) after' z.sizeIdx.cur) (flags : Nat) :
    Runs z ([.store c v, .persist c] ++ hugeWriteFooter c flags v.sizeIdx) := by
  refine h.runs_store_persist v hchunk hpos hafter ?_
  refine (h.setHeader v hchunk hpos hafter).footer ?_ flags
  rw [Zone.set_hdr, if_pos rfl, Cell.cur_clean]

end

theorem Runs.append {z : Zone} {ms' : List Micro} (h : Runs z ms)
    (h' : Runs (ms.foldl Zone.exec z) ms') : Runs z (ms ++ ms') := by
  induction ms generalizing z with
  | nil => exact h'
  | cons m ms ih => exact ⟨h.1, ih h.2 h'⟩

/-! ## Splitting -/

theorem runs_remainder {z : Zone} {d m : Nat} (before : List Nat) {after : List Nat}
    (hbefore : Settled z 0 before d) (hsafe : SafeFrom z d) (hm : 0 < m)
    (hafter : Settled z (d + m) after z.sizeIdx.cur) (hsize : z.sizeIdx.stale = []) :
    Runs z (memblockHugeInit d m) := by
  have hblock : Block (z.set d (Cell.clean ⟨.free, 0, m⟩)) d before after := by
    refine ⟨hbefore.set (.inr (Nat.le_refl d)) _, ?_, ?_, ?_, ?_, hsize⟩
    · rw [Zone.set_headers, if_pos rfl]
      rfl
    · rw [Zone.set_hdr, if_pos rfl]
      rfl
    · rw [Zone.set_hdr, if_pos rfl]
      exact hm
    · rw [Zone.set_hdr, if_pos rfl]
      exact hafter.set (.inl (by omega)) _
  refine ⟨hbefore.safeFrom hsafe, ?_, ?_⟩
  · -- the remainder has the new header or what was there before
    have hbefore' : Settled (z.exec (.store d ⟨.free, 0, m⟩)) 0 before d :=
      hbefore.set (.inr (Nat.le_refl d)) _
    refine hbefore'.safeFrom fun image sizeIdx hold => ?_
    by_cases hnew : image d = ⟨.free, 0, m⟩
    · have hafter' : Settled (z.exec (.store d ⟨.free, 0, m⟩)) (d + m) after
          z.sizeIdx.cur := hafter.set (.inl (by omega)) _
      obtain ⟨ns, hns⟩ := hafter'.safeFrom (safeFrom_size hsize) image sizeIdx hold
      exact ⟨m :: ns, by rw [hnew]; rfl, by rw [hnew], hm, hns⟩
    · refine hsafe image sizeIdx ⟨fun i => ?_, hold.2⟩
      have hi := hold.1 i
      rw [Zone.exec, Zone.set_headers] at hi
      split at hi
      · rename_i heq
        subst heq
        rw [Cell.holds_store] at hi
        exact hi.resolve_left hnew
      · exact hi
  · rw [Zone.exec_store_persist]
    refine hblock.footer ?_ 0
    rw [Zone.set_hdr, if_pos rfl]
    rfl

theorem Block.runs_split (h : Block z c before after) {units : Nat} (hpos : 0 < units)
    (hlt : units < (z.hdr c).sizeIdx) (hsafe : SafeFrom z (c + units)) :
    Runs z (heapSplitBlock c (z.hdr c).sizeIdx units) := by
  have hend : c + units + ((z.hdr c).sizeIdx - units) = c + (z.hdr c).sizeIdx := by omega
  have hrest : ∀ z' : Zone, Settled z' 0 before c →
      z'.headers c = Cell.clean ⟨.free, 0, units⟩ →
      (∀ i, c + units ≤ i → z'.headers i = z.headers i) → z'.sizeIdx = z.sizeIdx →
      Runs z' (memblockHugeInit (c + units) ((z.hdr c).sizeIdx - units)) := by
    intro z' hbefore hhdr heq hsize
    have hafter := h.settledAfter
    rw [← hend, ← hsize] at hafter
    refine runs_remainder (before ++ [units])
      (tiles_append.mpr ⟨c, hbefore, ?_⟩) (hsafe.congr ?_ ?_) (by omega)
      (Tiles.congr hafter fun k hk _ => heq k (by omega)) (hsize ▸ h.size)
    · exact ⟨by rw [hhdr]; exact ⟨rfl, rfl⟩, by rw [hhdr]; rfl, hpos, rfl⟩
    · intro i hi v hv
      rw [heq i hi] at hv
      exact hv
    · intro n hn
      rw [hsize] at hn
      exact hn
  have hset : ∀ i, c + units ≤ i →
      (z.set c (Cell.clean ⟨.free, 0, units⟩)).headers i = z.headers i := by
    intro i hi
    rw [Zone.set_headers, if_neg (by omega)]
  have hbefore₁ := h.settledBefore.set (.inr (Nat.le_refl c)) (Cell.clean ⟨.free, 0, units⟩)
  have hhdr₁ : (z.set c (Cell.clean ⟨.free, 0, units⟩)).headers c =
      Cell.clean ⟨.free, 0, units⟩ := by
    rw [Zone.set_headers, if_pos rfl]
  have hruns₁ := hrest _ hbefore₁ hhdr₁ hset rfl
  unfold heapSplitBlock
  rw [memblockHugeInit, append_assoc]
  refine ⟨h.inv.safe, h.safe_store rfl hpos hsafe, ?_⟩
  rw [Zone.exec_store_persist]
  unfold hugeWriteFooter
  split
  · exact hruns₁
  · refine ⟨hruns₁.safe, hrest _ (hbefore₁.set (.inr (by omega)) _) ?_ ?_ rfl⟩
    · rw [Zone.exec, Zone.set_headers, if_neg (by omega), hhdr₁]
    · intro i hi
      rw [Zone.exec, Zone.set_headers, if_neg (by omega), hset i hi]

/-! ## Coalescing -/

/-- The chunk that is found before `c`, if the bucket has it, ends where `c` begins. -/
def PrevRight (z : Zone) (c : Nat) (prevIn : Bool) : Prop :=
  prevIn = true → ∀ p, prevFree z c = some p → IsBlock z p ∧ p + (z.hdr p).sizeIdx = c

theorem Block.next (h : Block z c before after) (nextIn : Bool) :
    ∃ after', Settled z (c + (z.hdr c).sizeIdx +
      (if nextIn then nextFree z c else none).elim 0 fun i => (z.hdr i).sizeIdx) after'
        z.sizeIdx.cur := by
  cases nextIn with
  | false => exact ⟨after, h.settledAfter⟩
  | true =>
    rw [if_pos rfl]
    unfold nextFree
    dsimp only
    split
    · exact ⟨after, h.settledAfter⟩
    · rename_i hne
      split
      · have hafter := h.settledAfter
        cases after with
        | nil => exact absurd hafter hne
        | cons m after =>
          obtain ⟨-, hlen, -, hrest⟩ := hafter
          have hlen : (z.hdr (c + (z.hdr c).sizeIdx)).sizeIdx = m := hlen
          refine ⟨after, ?_⟩
          rw [Option.elim_some, hlen]
          exact hrest
      · exact ⟨after, h.settledAfter⟩

theorem Block.runs_freeChunkReuse (h : Block z c before after) {prevIn : Bool} (nextIn : Bool)
    (hprev : PrevRight z c prevIn) :
    Runs z (heapFreeChunkReuse z c (z.hdr c).sizeIdx prevIn nextIn) := by
  obtain ⟨after', hafter⟩ := h.next nextIn
  have hpos := h.pos
  unfold heapFreeChunkReuse
  dsimp only
  split
  · unfold heapCoalesceHuge hugePrepOperationHdr
    dsimp only
    by_cases hfound : ∃ p, (if prevIn then prevFree z c else none) = some p
    · obtain ⟨p, hp⟩ := hfound
      have hin : prevIn = true := by
        cases prevIn with
        | true => rfl
        | false => cases hp
      rw [hin, if_pos rfl] at hp
      obtain ⟨hblock, hadj⟩ := hprev hin p hp
      obtain ⟨before', rest, hb⟩ := h.inv.block hblock
      rw [hin, if_pos rfl, hp]
      refine hb.runs_header _ rfl (by dsimp only; omega) (?_ : Settled z _ after' _) 0
      dsimp only [Option.elim_some, Option.getD_some]
      rw [← Nat.add_assoc, ← Nat.add_assoc, hadj]
      exact hafter
    · have hnone : (if prevIn then prevFree z c else none) = none := by
        cases hopt : (if prevIn then prevFree z c else none) with
        | none => rfl
        | some p => exact absurd ⟨p, hopt⟩ hfound
      rw [hnone]
      refine h.runs_header _ rfl (by dsimp only; omega) (?_ : Settled z _ after' _) 0
      dsimp only [Option.elim_none, Option.getD_none]
      rw [Nat.zero_add, ← Nat.add_assoc]
      exact hafter
  · exact h.inv

/-! ## The other operations -/

def Micro.Inside (lo hi : Nat) : Micro → Prop
  | .store i _ => lo < i ∧ i < hi
  | .persist i => lo < i ∧ i < hi
  | .storeSize _ => False
  | .persistSize => False

section

variable (h : Block z c before after)

include h

theorem Block.exec_inside {m : Micro} (hm : m.Inside c (c + (z.hdr c).sizeIdx)) :
    Block (z.exec m) c before after ∧ (z.exec m).hdr c = z.hdr c := by
  cases m with
  | store i v =>
    refine ⟨h.setInside hm.1 hm.2 _, ?_⟩
    rw [Zone.exec, Zone.set_hdr, if_neg (by have := hm.1; omega)]
  | persist i =>
    refine ⟨h.setInside hm.1 hm.2 _, ?_⟩
    rw [Zone.exec, Zone.set_hdr, if_neg (by have := hm.1; omega)]
  | storeSize n => exact hm.elim
  | persistSize => exact hm.elim

theorem Block.runs_inside {ms' : List Micro} (hms : ∀ m ∈ ms, m.Inside c (c + (z.hdr c).sizeIdx))
    (hrest : ∀ z', Block z' c before after → z'.hdr c = z.hdr c → Runs z' ms') :
    Runs z (ms ++ ms') := by
  induction ms generalizing z with
  | nil => exact hrest z h rfl
  | cons m ms ih =>
    obtain ⟨hblock, hhdr⟩ := h.exec_inside (hms m mem_cons_self)
    refine ⟨h.inv.safe, ih hblock (fun m' hm' => ?_) fun z' hz' heq => ?_⟩
    · rw [hhdr]
      exact hms m' (mem_cons_of_mem m hm')
    · exact hrest z' hz' (heq.trans hhdr)

theorem Block.runs_runInit (flags : Nat) :
    Runs z (memblockRunInit z c (z.hdr c).sizeIdx flags) := by
  unfold memblockRunInit
  refine h.runs_inside (fun m hm => ?_) fun z' hz' hhdr => ?_
  · rw [mem_append, mem_map, mem_map] at hm
    rcases hm with ⟨i, hi, rfl⟩ | ⟨i, hi, rfl⟩ <;>
    · rw [mem_range] at hi
      constructor <;> omega
  · have hafter := hz'.settledAfter
    rw [hhdr] at hafter
    exact hz'.runs_set ⟨.run, flags, (z.hdr c).sizeIdx⟩ rfl h.pos hafter

theorem Block.runs_ensureHeaderType (flag : Nat) :
    Runs z (Op.micros z (.ensureHeaderType c flag)) := by
  rw [Op.micros]
  split
  · exact h.runs_set { z.hdr c with flags := (z.hdr c).flags ||| flag } h.chunk h.pos h.settledAfter
  · exact h.inv

theorem Block.hugeInit :
    Block ((memblockHugeInit c (z.hdr c).sizeIdx).foldl Zone.exec z) c before after ∧
      (((memblockHugeInit c (z.hdr c).sizeIdx).foldl Zone.exec z).hdr c).sizeIdx =
        (z.hdr c).sizeIdx := by
  have hpos := h.pos
  have hset : Block (z.set c (Cell.clean ⟨.free, 0, (z.hdr c).sizeIdx⟩)) c before after :=
    h.setHeader ⟨.free, 0, (z.hdr c).sizeIdx⟩ rfl hpos h.settledAfter
  have hhdr : (z.set c (Cell.clean ⟨.free, 0, (z.hdr c).sizeIdx⟩)).hdr c =
      ⟨.free, 0, (z.hdr c).sizeIdx⟩ := by
    rw [Zone.set_hdr, if_pos rfl, Cell.cur_clean]
  rw [memblockHugeInit, foldl_append, foldl_cons, foldl_cons, foldl_nil, Zone.exec_store_persist]
  unfold hugeWriteFooter
  split
  · exact ⟨hset, by rw [foldl_nil, hhdr]⟩
  · obtain ⟨hblock, heq⟩ := hset.exec_inside
      (m := .store (c + (z.hdr c).sizeIdx - 1) ⟨.footer, 0, (z.hdr c).sizeIdx⟩)
      (by rw [hhdr]; exact ⟨by omega, by dsimp only; omega⟩)
    exact ⟨hblock, by rw [foldl_cons, foldl_nil, heq, hhdr]⟩

theorem Block.runs_runIntoFreeChunk {prevIn : Bool} (nextIn : Bool)
    (hprev : PrevRight ((memblockHugeInit c (z.hdr c).sizeIdx).foldl Zone.exec z) c prevIn) :
    Runs z (heapRunIntoFreeChunk z c prevIn nextIn) := by
  obtain ⟨hblock, hsize⟩ := h.hugeInit
  have hreuse := hblock.runs_freeChunkReuse nextIn hprev
  rw [hsize] at hreuse
  exact Runs.append (h.runs_header ⟨.free, 0, _⟩ rfl h.pos h.settledAfter 0) hreuse

end

/-- The zone grows: its new last chunk is complete before the size of the zone changes. -/
theorem Inv.runs_size (h : Inv z) {newSize : Nat} (hlt : z.sizeIdx.cur < newSize)
    (hstale : (z.headers z.sizeIdx.cur).stale = [])
    (hlast : z.hdr z.sizeIdx.cur = ⟨.free, 0, newSize - z.sizeIdx.cur⟩) :
    Runs z [.storeSize newSize, .persistSize] := by
  obtain ⟨hsize, ns, hns⟩ := h
  have hgrown : Settled z 0 (ns ++ [newSize - z.sizeIdx.cur]) newSize := by
    refine tiles_append.mpr ⟨z.sizeIdx.cur, hns, ⟨hstale, ?_⟩, ?_, by omega, ?_⟩
    · exact (congrArg Header.isChunk hlast).trans rfl
    · exact congrArg Header.sizeIdx hlast
    · exact (by omega : z.sizeIdx.cur + (newSize - z.sizeIdx.cur) = newSize)
  refine ⟨Inv.safe ⟨hsize, ns, hns⟩, fun image sizeIdx hold => ?_, rfl, _, hgrown⟩
  rcases Cell.holds_store.mp hold.2 with rfl | hold'
  · exact ⟨_, hgrown.chunkTiles hold.1⟩
  · obtain rfl : sizeIdx = z.sizeIdx.cur := by
      simpa [Cell.Holds, hsize] using hold'
    exact ⟨ns, hns.chunkTiles hold.1⟩

theorem Inv.runs_zoneInit (h : Inv z) {newSize : Nat} (hlt : z.sizeIdx.cur < newSize) :
    Runs z (heapZoneInit z.sizeIdx.cur newSize) := by
  have hset : ∀ {z' : Zone}, Inv z' → ∀ {i : Nat}, z'.sizeIdx.cur ≤ i → ∀ cell,
      Inv (z'.set i cell) := by
    intro z' hz' i hi cell
    obtain ⟨hsize, ns, hns⟩ := hz'
    exact ⟨hsize, ns, hns.set (.inr hi) cell⟩
  have hhead : Inv (z.set z.sizeIdx.cur (Cell.clean ⟨.free, 0, newSize - z.sizeIdx.cur⟩)) :=
    hset h (Nat.le_refl _) _
  unfold heapZoneInit memblockHugeInit
  rw [append_assoc]
  refine ⟨h.safe, (hset h (Nat.le_refl _) _).safe, ?_⟩
  rw [Zone.exec_store_persist]
  unfold hugeWriteFooter
  split
  · refine hhead.runs_size hlt ?_ ?_
    · rw [Zone.set_sizeIdx, Zone.set_headers, if_pos rfl]
      rfl
    · rw [Zone.set_sizeIdx, Zone.set_hdr, if_pos rfl]
      rfl
  · refine ⟨hhead.safe, (hset hhead (by rw [Zone.set_sizeIdx]; omega) _).runs_size hlt ?_ ?_⟩
    · rw [Zone.set_sizeIdx, Zone.set_sizeIdx, Zone.set_headers, if_neg (by omega),
        Zone.set_headers, if_pos rfl]
      rfl
    · rw [Zone.set_sizeIdx, Zone.set_sizeIdx, Zone.set_hdr, if_neg (by omega), Zone.set_hdr,
        if_pos rfl]
      rfl

/-! ## Runs of the zone -/

def Op.Issued (z : Zone) : Op → Prop
  | .split c units =>
    IsBlock z c ∧ (z.hdr c).type = .free ∧ 0 < units ∧ units < (z.hdr c).sizeIdx
  | .freeChunkReuse c _ _ => IsBlock z c ∧ (z.hdr c).type = .free
  | .runInit c _ => IsBlock z c ∧ (z.hdr c).type = .free
  | .runIntoFreeChunk c _ _ => IsBlock z c ∧ (z.hdr c).type = .run
  | .prepHdr allocated c =>
    IsBlock z c ∧ (z.hdr c).type = if allocated then .free else .used
  | .ensureHeaderType c _ => IsBlock z c ∧ (z.hdr c).type = .free
  | .reinitChunk c => IsBlock z c
  | .zoneInit newSize => z.sizeIdx.cur < newSize

def Op.CrashSafe (z : Zone) : Op → Prop
  | .split c units => SafeFrom z (c + units)
  | .freeChunkReuse c prevIn _ => PrevRight z c prevIn
  | .runIntoFreeChunk c prevIn _ =>
    PrevRight ((memblockHugeInit c (z.hdr c).sizeIdx).foldl Zone.exec z) c prevIn
  | _ => True

theorem Inv.runs_micros (h : Inv z) {op : Op} (hissued : op.Issued z)
    (hsafe : op.CrashSafe z) : Runs z (op.micros z) := by
  cases op with
  | split c units =>
    obtain ⟨hc, -, hpos, hlt⟩ := hissued
    obtain ⟨before, after, hblock⟩ := h.block hc
    exact hblock.runs_split hpos hlt hsafe
  | freeChunkReuse c prevIn nextIn =>
    obtain ⟨before, after, hblock⟩ := h.block hissued.1
    exact hblock.runs_freeChunkReuse nextIn hsafe
  | runInit c flags =>
    obtain ⟨before, after, hblock⟩ := h.block hissued.1
    exact hblock.runs_runInit flags
  | runIntoFreeChunk c prevIn nextIn =>
    obtain ⟨before, after, hblock⟩ := h.block hissued.1
    exact hblock.runs_runIntoFreeChunk nextIn hsafe
  | prepHdr allocated c =>
    obtain ⟨before, after, hblock⟩ := h.block hissued.1
    refine hblock.runs_header ⟨if allocated then .used else .free, (z.hdr c).flags, _⟩ ?_
      hblock.pos hblock.settledAfter 0
    cases allocated <;> rfl
  | ensureHeaderType c flag =>
    obtain ⟨before, after, hblock⟩ := h.block hissued.1
    exact hblock.runs_ensureHeaderType flag
  | reinitChunk c =>
    obtain ⟨before, after, hblock⟩ := h.block hissued
    rw [Op.micros]
    split
    · exact hblock.footer rfl _
    · exact h
  | zoneInit newSize => exact h.runs_zoneInit hissued

def Act.Issued : Act → State → Prop
  | .call op, s => op.Issued s.zone
  | .tick, _ => True
  | .crash image sizeIdx, s => s.zone.MayHold image sizeIdx

def Act.CrashSafe : Act → State → Prop
  | .call op, s => op.CrashSafe s.zone
  | _, _ => True

theorem WellFormed.inv {image : Nat → Header} {sizeIdx : Nat} (h : WellFormed image sizeIdx) :
    Inv (Zone.ofImage image sizeIdx) := by
  have hsettled : ∀ ns i, ChunkTiles image i ns sizeIdx →
      Settled (Zone.ofImage image sizeIdx) i ns sizeIdx := by
    intro ns
    induction ns with
    | nil =>
      intro i hi
      exact hi
    | cons n ns ih =>
      intro i hi
      exact ⟨⟨rfl, hi.1⟩, hi.2.1, hi.2.2.1, ih _ hi.2.2.2⟩
  obtain ⟨ns, hns⟩ := h
  exact ⟨rfl, ns, hsettled ns 0 hns⟩

def State.Inv (s : State) : Prop :=
  Runs s.zone s.todo

theorem step_inv {a : Act} {s t : State} (h : s.Inv) (hissued : a.Issued s)
    (hsafe : a.CrashSafe s) (hstep : step a s = some t) : t.Inv := by
  unfold State.Inv at h ⊢
  cases a with
  | call op =>
    rw [step] at hstep
    split at hstep
    · rename_i hnil
      cases hstep
      rw [hnil] at h
      exact Inv.runs_micros h hissued hsafe
    · cases hstep
  | tick =>
    rw [step] at hstep
    split at hstep
    · cases hstep
    · rename_i m todo htodo
      cases hstep
      rw [htodo] at h
      exact h.2
  | crash image sizeIdx =>
    cases hstep
    exact (h.safe image sizeIdx hissued).inv

/-- At every point of a run, between any two stores or persists, every image that a crash may
leave is well-formed. -/
theorem wellFormed_run {image : Nat → Header} {sizeIdx : Nat} (h : WellFormed image sizeIdx)
    {as : List Act} {s : State}
    (hguard : Transition.Guarded step (fun a s => a.Issued s ∧ a.CrashSafe s) as
      ⟨Zone.ofImage image sizeIdx, []⟩)
    (hrun : Transition.run step as ⟨Zone.ofImage image sizeIdx, []⟩ = some s) :
    Safe s.zone := by
  have hinv : s.Inv := by
    refine Transition.run_invariant ?_ hguard ?_ hrun
    · intro a _ u v hu hg huv
      exact step_inv hu hg.1 hg.2 huv
    · exact h.inv
  exact Runs.safe hinv

def mergedImage (i : Nat) : Header :=
  if i = 0 then ⟨.free, 0, 10⟩ else if i = 3 then ⟨.free, 0, 7⟩ else ⟨.unknown, 0, 0⟩

/-- The chunk is split again, power fails before the new size of its header is persistent, and
the whole of it is allocated. -/
def splitAgain : List Act :=
  [.call (.split 0 3), .tick, .crash mergedImage 10, .call (.prepHdr true 0), .tick]

theorem wellFormed_mergedImage : WellFormed mergedImage 10 := ⟨[10], rfl, rfl, by decide, rfl⟩

theorem splitAgain_guarded : Transition.Guarded step (fun a s => a.Issued s ∧ a.CrashSafe s)
    splitAgain ⟨Zone.ofImage mergedImage 10, []⟩ := by
  have hrest : Settled (Zone.ofImage mergedImage 10) 3 [7] 10 :=
    ⟨⟨rfl, rfl⟩, rfl, by decide, rfl⟩
  have hfirst : IsBlock (Zone.ofImage mergedImage 10) 0 := ⟨by decide, [], rfl⟩
  refine ⟨⟨⟨hfirst, rfl, by decide, by decide⟩, hrest.safeFrom (safeFrom_size rfl)⟩,
    ⟨trivial, trivial⟩, ⟨⟨fun i => ?_, .inl rfl⟩, trivial⟩, ⟨⟨hfirst, rfl⟩, trivial⟩,
    ⟨trivial, trivial⟩, trivial⟩
  -- the medium still has the old header, whatever the slot
  by_cases hi : i = 0
  · subst hi
    exact .inr List.mem_cons_self
  · refine .inl ?_
    dsimp only [Zone.exec]
    rw [Zone.set_headers, if_neg hi]
    rfl

theorem wellFormed_run_splitAgain :
    ∃ s, Transition.run step splitAgain ⟨Zone.ofImage mergedImage 10, []⟩ = some s ∧
      Safe s.zone :=
  ⟨_, rfl, wellFormed_run wellFormed_mergedImage splitAgain_guarded rfl⟩

def freshImage (i : Nat) : Header :=
  if i = 0 then ⟨.free, 0, 10⟩ else ⟨.unknown, 0, 0⟩

/-- A chunk of a fresh zone is split. Once the shrunk header is persistent, the walk runs into
a slot that was never written. -/
theorem not_safe_split_fresh :
    ¬ ∀ (image : Nat → Header) (sizeIdx : Nat), WellFormed image sizeIdx →
      ∀ (as : List Act) (s : State),
        Transition.Guarded step Act.Issued as ⟨Zone.ofImage image sizeIdx, []⟩ →
        Transition.run step as ⟨Zone.ofImage image sizeIdx, []⟩ = some s → Safe s.zone := by
  intro hsafe
  have hwf : WellFormed freshImage 10 := ⟨[10], rfl, rfl, by decide, rfl⟩
  have hissued : (Op.split 0 3).Issued (Zone.ofImage freshImage 10) :=
    ⟨⟨by decide, [], rfl⟩, rfl, by decide, by decide⟩
  obtain ⟨ns, hns⟩ := hsafe freshImage 10 hwf [.call (.split 0 3), .tick, .tick] _
    ⟨hissued, trivial, trivial, trivial⟩ rfl _ 10 ⟨fun i => .inl rfl, .inl rfl⟩
  cases ns with
  | nil => cases hns
  | cons n ns =>
    obtain ⟨-, rfl, -, hrest⟩ := hns
    cases ns with
    | nil => cases hrest
    | cons m ns => exact absurd hrest.1 (by decide)

/-! ## The check of the zone -/

open HeapCheck (MAX_CHUNK heapVerifyZone)

/-- The zone with the bytes of an image. The types of chunks are in the order of their numbers. -/
def zoneOf (image : Nat → Header) (sizeIdx : Nat) : HeapCheck.Zone where
  magic := HeapCheck.ZONE_HEADER_MAGIC
  sizeIdx := UInt32.ofNat sizeIdx
  chunkHeaders i :=
    ⟨UInt16.ofNat (image i.toNat).type.ctorIdx, UInt16.ofNat (image i.toNat).flags,
      UInt32.ofNat (image i.toNat).sizeIdx⟩

/-- The flags of the headers are flags of chunks. -/
def Flagged (image : Nat → Header) : Prop :=
  ∀ i, UInt16.ofNat (image i).flags &&& ~~~HeapCheck.CHUNK_FLAGS_ALL_VALID = 0

theorem tiles_zoneOf {image : Nat → Header} {ns : List Nat} {i sizeIdx : Nat}
    (h : ChunkTiles image i ns sizeIdx) (hsize : sizeIdx ≤ MAX_CHUNK)
    (hflags : Flagged image) : HeapCheck.Tiles (zoneOf image sizeIdx) i ns := by
  have hmax : MAX_CHUNK < 2 ^ 32 := by decide
  have hword : ∀ n ≤ sizeIdx, (UInt32.ofNat n).toNat = n := fun n hn =>
    Nat.mod_eq_of_lt (by omega)
  induction ns generalizing i with
  | nil => exact Eq.trans h (hword sizeIdx le_rfl).symm
  | cons n ns ih =>
    obtain ⟨hchunk, rfl, hpos, hrest⟩ := h
    have hle := hrest.le
    have hi := hword i (by omega)
    refine ⟨?_, ?_, hpos, ih hrest⟩
    · unfold HeapCheck.Valid HeapCheck.heapVerifyChunkHeader
      simp only [zoneOf, hi, hflags i]
      cases htype : (image i).type <;> first | rfl | simp [Header.isChunk, htype] at hchunk
    · simp only [zoneOf, hi]
      exact hword _ (by omega)

/-- `heap_verify_zone` accepts every image that a crash may leave at any point of a run. -/
theorem verified_run {image : Nat → Header} {sizeIdx : Nat} (h : WellFormed image sizeIdx)
    {as : List Act} {s : State}
    (hguard : Transition.Guarded step (fun a s => a.Issued s ∧ a.CrashSafe s) as
      ⟨Zone.ofImage image sizeIdx, []⟩)
    (hrun : Transition.run step as ⟨Zone.ofImage image sizeIdx, []⟩ = some s)
    {image' : Nat → Header} {sizeIdx' : Nat} (hhold : s.zone.MayHold image' sizeIdx')
    (hpos : 0 < sizeIdx') (hsize : sizeIdx' ≤ MAX_CHUNK) (hflags : Flagged image') :
    ∃ fuel reads, heapVerifyZone fuel (zoneOf image' sizeIdx') = some (reads, .ok ()) ∧
      ∀ i ∈ reads, i.toNat < MAX_CHUNK := by
  have hinv : s.Inv := by
    refine Transition.run_invariant ?_ hguard h.inv hrun
    exact fun a _ u v hu hg huv => step_inv hu hg.1 hg.2 huv
  obtain ⟨ns, htiles⟩ := Runs.safe hinv image' sizeIdx' hhold
  obtain ⟨reads, hwalk, hinside⟩ :=
    HeapCheck.walk_of_tiles (i := 0) (tiles_zoneOf htiles hsize hflags)
  have hmax : MAX_CHUNK < 2 ^ 32 := by decide
  have hword : (UInt32.ofNat sizeIdx').toNat = sizeIdx' := Nat.mod_eq_of_lt (by omega)
  refine ⟨ns.length + 1, reads, ?_, fun i hi => (hinside i hi).trans_le (hword.trans_le hsize)⟩
  rw [HeapCheck.heapVerifyZone_of_magic rfl, hwalk]
  intro hzero
  have heq : sizeIdx' = (0 : UInt32).toNat := hword.symm.trans (congrArg UInt32.toNat hzero)
  exact hpos.ne' heq

/-- The chunk is in use as a whole, and the header of the split that power has undone is inside. -/
def usedImage (i : Nat) : Header := if i = 0 then ⟨.used, 0, 10⟩ else mergedImage i

theorem verified_run_splitAgain : ∃ s, Transition.run step splitAgain
    ⟨Zone.ofImage mergedImage 10, []⟩ = some s ∧ s.zone.MayHold usedImage 10 ∧
    ∃ fuel reads, heapVerifyZone fuel (zoneOf usedImage 10) = some (reads, .ok ()) := by
  have hflags : Flagged usedImage := fun i => by
    unfold usedImage mergedImage
    split_ifs <;> rfl
  have hhold : ∀ s, Transition.run step splitAgain ⟨Zone.ofImage mergedImage 10, []⟩ = some s →
      s.zone.MayHold usedImage 10 := by
    intro s hs
    cases hs
    refine ⟨fun i => .inl ?_, .inl rfl⟩
    dsimp only [Zone.exec]
    by_cases hi : i = 0
    · subst hi
      rfl
    · rw [Zone.set_headers, if_neg hi, usedImage, if_neg hi]
      rfl
  obtain ⟨fuel, reads, h, -⟩ := verified_run wellFormed_mergedImage splitAgain_guarded rfl
    (hhold _ rfl) (by decide) (by decide) hflags
  exact ⟨_, rfl, hhold _ rfl, fuel, reads, h⟩

end Pmdk.Chunk
