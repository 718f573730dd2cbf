import Pmdk.Obj.ExtendInv

/-!
# Single stores and block insertions of a heap that grows

What a store, `heap_zone_init` and `heap_free_chunk_reuse` do to the invariant.
-/

namespace Pmdk.Extend

open Persist Chunk Function

variable {file nzones id : Nat} {sizep : Cell Nat} {zones : Nat → Zone} {todo : List Store}
  {bucket : List Block}

/-! ## Pending stores -/

theorem pending_map (zone id : Nat) (ms : List Micro) :
    pending id (ms.map (Store.zone zone)) = if zone = id then ms else [] := by
  unfold pending
  rw [List.filterMap_map]
  split
  · rename_i heq
    subst heq
    simp
  · rename_i hne
    simp [hne]

theorem final_map (zones : Nat → Zone) (zone : Nat) (ms : List Micro) :
    final zones (ms.map (Store.zone zone)) =
      update zones zone (ms.foldl Zone.exec (zones zone)) := by
  funext id
  rw [final, pending_map, update_apply]
  split
  · rename_i heq
    rw [if_pos heq.symm, heq]
  · rename_i hne
    rw [if_neg fun heq => hne heq.symm]
    rfl

theorem final_cons (zones : Nat → Zone) (zone : Nat) (m : Micro) (todo : List Store) :
    final (update zones zone ((zones zone).exec m)) todo =
      final zones (.zone zone m :: todo) := by
  funext id
  unfold final pending
  rw [List.filterMap_cons, update_apply]
  dsimp only
  by_cases heq : zone = id
  · subst heq
    rw [if_pos rfl, if_pos rfl]
    rfl
  · rw [if_neg fun h => heq h.symm, if_neg heq]

theorem Core.exec_zone {zone : Nat} {m : Micro}
    (h : Core file sizep nzones zones (.zone zone m :: todo) bucket) :
    Core file sizep nzones (update zones zone ((zones zone).exec m)) todo bucket := by
  have hpending : ∀ id, pending id (.zone zone m :: todo) =
      if zone = id then m :: pending id todo else pending id todo := by
    intro id
    unfold pending
    rw [List.filterMap_cons]
    dsimp only
    split <;> rename_i heq <;> split at heq <;> simp_all
  refine ⟨h.size, h.nzones_le, fun id => ?_, fun id hid => ?_, fun b hb => ?_⟩
  · have hcalm := h.calm id
    rw [hpending] at hcalm
    rw [update_apply]
    by_cases heq : zone = id
    · subst heq
      rw [if_pos rfl] at hcalm ⊢
      exact hcalm.2
    · rw [if_neg heq] at hcalm
      rw [if_neg fun h => heq h.symm]
      exact hcalm
  · obtain ⟨hunused, hnil⟩ := h.unused id hid
    rw [hpending] at hnil
    split at hnil
    · cases hnil
    · rename_i hne
      rw [update_of_ne fun heq => hne heq.symm]
      exact ⟨hunused, hnil⟩
  · rw [final_cons]
    exact h.block b hb

theorem Core.mono {file' nzones' : Nat} {sizep' : Cell Nat} {todo' : List Store}
    (h : Core file sizep nzones zones todo bucket)
    (hsize : ∀ v, sizep'.Holds v → heapMinSize ≤ v ∧ v ≤ file') (hfile : file ≤ file')
    (hsizep : ∀ v, sizep'.Holds v → ∃ w, sizep.Holds w ∧ w ≤ v) (hzones : nzones ≤ nzones')
    (hmax : nzones' ≤ heapMaxZone file') (htodo : ∀ id, pending id todo' = pending id todo) :
    Core file' sizep' nzones' zones todo' bucket := by
  refine ⟨hsize, hmax, fun id => ?_, fun id hid => ?_, fun b hb => ?_⟩
  · rw [htodo]
    exact (h.calm id).mono fun n hn => hn.mono hfile hsizep hzones
  · rw [htodo]
    exact h.unused id (by omega)
  · have hfinal : final zones todo' = final zones todo := by
      funext id
      rw [final, htodo]
      rfl
    rw [hfinal]
    exact h.block b hb

theorem Core.sizeIdx (h : Core file sizep nzones zones todo bucket) (id : Nat) {n : Nat}
    (hn : (zones id).sizeIdx.Holds n) : n = 0 ∨ SizeOk file sizep nzones id n :=
  (h.calm id).quiet.size hn

theorem Core.tidy (h : Core file sizep nzones zones [] bucket) (id : Nat) :
    Tidy (SizeOk file sizep nzones id) (zones id) :=
  h.calm id

/-! ## A new chunk -/

theorem heapZoneInit_eq {zone first n : Nat} (hlt : first < n) (hn : n ≤ maxChunk) :
    heapZoneInit zone first n = (Chunk.heapZoneInit first n).map (Store.zone zone) := by
  have hmax : maxChunk < 2 ^ 32 := by decide
  have hmod : (n + 2 ^ 32 - first) % 2 ^ 32 = n - first := by omega
  rw [heapZoneInit, hmod, Chunk.heapZoneInit]

/-- `heap_zone_init` adds one chunk to the zone, and no block of the bucket changes. -/
theorem Core.zoneInit {zone : Nat} (h : Core file sizep nzones zones [] bucket)
    (hstale : sizep.stale = []) (hzone : zone < nzones)
    (hroom : zone + 1 = nzones → Room file sizep.cur zone)
    (hlt : ∀ n, zoneCalcSizeIdx zone nzones sizep.cur = some n → 0 < n →
      (∀ e, SizeOk file sizep nzones zone e → e ≤ n) → (zones zone).sizeIdx.cur < n) :
    ∃ (n : Nat) (ms : List Micro), zoneCalcSizeIdx zone nzones sizep.cur = some n ∧
        (zones zone).sizeIdx.cur < n ∧
      heapZoneInit zone (zones zone).sizeIdx.cur n = ms.map (Store.zone zone) ∧
      Core file sizep nzones zones (ms.map (Store.zone zone)) bucket ∧
      Grown (zones zone) (final zones (ms.map (Store.zone zone)) zone)
        (zones zone).sizeIdx.cur n := by
  obtain ⟨n, hcalc, hpos, hok, hmax⟩ := zoneCalcSizeIdx_ok hstale h.nzones_le hzone hroom
  have hlt := hlt n hcalc hpos hmax
  obtain ⟨hcalm, hgrown⟩ := (h.tidy zone).zoneInit hlt hok hmax
  refine ⟨n, _, hcalc, hlt, heapZoneInit_eq hlt hok.le, ?_, ?_⟩
  · refine ⟨h.size, h.nzones_le, fun id => ?_, fun id hid => ?_, fun b hb => ?_⟩
    · rw [pending_map]
      split
      · rename_i heq
        exact heq ▸ hcalm
      · exact h.calm id
    · rw [pending_map, if_neg (by omega)]
      exact ⟨(h.unused id hid).1, rfl⟩
    · have hin : IsBlock (zones b.zone) b.chunk ∧ ((zones b.zone).hdr b.chunk).sizeIdx = b.size :=
        h.block b hb
      unfold Block.In
      rw [final_map, update_apply]
      split
      · rename_i heq
        rw [heq] at hin
        have hlt' := hin.1.1
        refine ⟨⟨?_, ?_⟩, ?_⟩
        · rw [hgrown.sizeIdx, Cell.cur_clean]
          omega
        · exact Boundary.congr hin.1.2 fun k hk => hgrown.frame k (by omega)
        · rw [hgrown.frame b.chunk hlt']
          exact hin.2
      · exact hin
  · rw [final_map, update_self]
    exact hgrown

/-! ## Reuse of a chunk -/

/-- What `heap_free_chunk_reuse` does: the chunk becomes one with its neighbours in the bucket,
and these leave the bucket. -/
structure Reused (s : State) (zone chunk : Nat) (block : Block) (t : State) : Prop where
  inZone : block.zone = zone
  core : Core s.file s.sizep s.nzones s.zones t.todo t.bucket
  todo : ∃ ms : List Micro, t.todo = ms.map (Store.zone zone)
  joined : Joined (s.zones zone) (final s.zones t.todo zone) block.chunk block.size
  other : ∀ id, id ≠ zone → final s.zones t.todo id = s.zones id
  mem : ∀ b ∈ t.bucket, b = block ∨ b ∈ s.bucket ∧
    (b.zone = zone → b.chunk < block.chunk ∨ block.chunk + block.size ≤ b.chunk)
  le : block.chunk ≤ chunk ∧ chunk < block.chunk + block.size ∧
    block.chunk + block.size ≤ (s.zones zone).sizeIdx.cur
  stop : Boundary (s.zones zone) (block.chunk + block.size)
  footer : block.chunk + block.size = (s.zones zone).sizeIdx.cur →
    ((s.zones zone).hdr ((s.zones zone).sizeIdx.cur - 1)).sizeIdx =
      ((s.zones zone).hdr chunk).sizeIdx →
    chunk + ((s.zones zone).hdr chunk).sizeIdx = (s.zones zone).sizeIdx.cur →
    ((final s.zones t.todo zone).hdr (block.chunk + block.size - 1)).sizeIdx = block.size
  next : ∀ b ∈ s.bucket, b.zone = zone → b.chunk = chunk + ((s.zones zone).hdr chunk).sizeIdx →
    block.chunk + block.size = b.chunk + b.size
  last : block.chunk + block.size = chunk + ((s.zones zone).hdr chunk).sizeIdx ∨
    ∃ b ∈ s.bucket, b.zone = zone ∧ b.chunk = chunk + ((s.zones zone).hdr chunk).sizeIdx ∧
      block.chunk + block.size = b.chunk + b.size
  prev : ∀ b ∈ s.bucket, b.zone = zone → b.Last (s.zones zone) chunk → block.chunk = b.chunk

variable {s : State} {zone chunk : Nat}

theorem has_iff {c : Nat} : s.has zone c = true ↔
    ⟨zone, c, ((s.zones zone).hdr c).sizeIdx⟩ ∈ s.bucket := by
  rw [State.has, decide_eq_true_iff]

theorem reuse_eq {prevIn nextIn : Bool} {p n : Nat}
    (hprev : (prevFree (s.zones zone) chunk).elim false (s.has zone) = prevIn)
    (hnext : (nextFree (s.zones zone) chunk).elim false (s.has zone) = nextIn)
    (hnm : heapCoalesceHuge (s.zones zone) chunk ((s.zones zone).hdr chunk).sizeIdx prevIn nextIn =
      (p, n)) :
    (s.reuse zone chunk).1 = ⟨zone, p, n⟩ ∧
      (s.reuse zone chunk).2.todo = (heapFreeChunkReuse (s.zones zone) chunk
        ((s.zones zone).hdr chunk).sizeIdx prevIn nextIn).map (Store.zone zone) ∧
      ∀ b ∈ (s.reuse zone chunk).2.bucket, b = ⟨zone, p, n⟩ ∨ b ∈ s.bucket ∧
        (b.zone = zone → b.size = ((s.zones zone).hdr b.chunk).sizeIdx →
          (prevIn = true → prevFree (s.zones zone) chunk ≠ some b.chunk) ∧
          (nextIn = true → nextFree (s.zones zone) chunk ≠ some b.chunk)) := by
  subst hprev hnext
  have hfirst : (s.reuse zone chunk).1 = ⟨zone, p, n⟩ := by
    have h : (s.reuse zone chunk).1 = ⟨zone, (heapCoalesceHuge (s.zones zone) chunk
        ((s.zones zone).hdr chunk).sizeIdx
        ((prevFree (s.zones zone) chunk).elim false (s.has zone))
        ((nextFree (s.zones zone) chunk).elim false (s.has zone))).1, _⟩ := rfl
    rw [h, hnm]
  refine ⟨hfirst, rfl, fun b hb => ?_⟩
  have hremoved : b = (s.reuse zone chunk).1 ∨ b ∈ s.bucket.filter fun b =>
      !((prevFree (s.zones zone) chunk).elim false (s.has zone) && b.zone = zone &&
          some b.chunk = prevFree (s.zones zone) chunk &&
          b.size = ((s.zones zone).hdr b.chunk).sizeIdx) &&
        !((nextFree (s.zones zone) chunk).elim false (s.has zone) && b.zone = zone &&
          some b.chunk = nextFree (s.zones zone) chunk &&
          b.size = ((s.zones zone).hdr b.chunk).sizeIdx) := by
    unfold State.reuse at hb
    dsimp only at hb
    split at hb
    · exact .inr hb
    · exact List.mem_cons.mp hb
  rcases hremoved with heq | hmem
  · exact .inl (heq.trans hfirst)
  · rw [List.mem_filter] at hmem
    refine .inr ⟨hmem.1, fun hzone hsize => ?_⟩
    have hkept := hmem.2
    simp only [hzone, hsize, decide_true, Bool.and_true, Bool.and_eq_true, Bool.not_eq_true',
      Bool.and_eq_false_iff, decide_eq_false_iff_not] at hkept
    refine ⟨fun htrue heq => ?_, fun htrue heq => ?_⟩
    · rcases hkept.1 with hfalse | hne
      · exact Bool.false_ne_true (hfalse.symm.trans htrue)
      · exact hne heq.symm
    · rcases hkept.2 with hfalse | hne
      · exact Bool.false_ne_true (hfalse.symm.trans htrue)
      · exact hne heq.symm

theorem Core.reuse (h : Core s.file s.sizep s.nzones s.zones s.todo s.bucket) (htodo : s.todo = [])
    (hzone : zone < s.nzones) (hc : IsBlock (s.zones zone) chunk)
    (hself : ∀ b ∈ s.bucket, b.zone = zone → b.chunk = chunk →
      chunk = 0 ∧ chunk + ((s.zones zone).hdr chunk).sizeIdx = (s.zones zone).sizeIdx.cur) :
    Reused s zone chunk (s.reuse zone chunk).1 (s.reuse zone chunk).2 := by
  rw [htodo] at h
  have htidy := h.tidy zone
  obtain ⟨hchunk, hpos, hend, hle⟩ := hc.chunk htidy.inv
  have hin : ∀ b ∈ s.bucket, IsBlock (s.zones b.zone) b.chunk ∧
      ((s.zones b.zone).hdr b.chunk).sizeIdx = b.size := h.block
  have hlt : chunk < 2 ^ 32 := by
    have hsize : (s.zones zone).sizeIdx.cur ≤ maxChunk := by
      rcases h.sizeIdx zone (.inl rfl) with hzero | hok
      · omega
      · exact hok.le
    have hmax : maxChunk < 2 ^ 32 := by decide
    have hlt' := hc.1
    omega
  generalize hprevIn : (prevFree (s.zones zone) chunk).elim false (s.has zone) = prevIn
  generalize hnextIn : (nextFree (s.zones zone) chunk).elim false (s.has zone) = nextIn
  have hprev : PrevRight (s.zones zone) chunk prevIn := by
    refine htidy.prevRight hc hlt fun htrue p hp => ?_
    rw [hp, Option.elim_some] at hprevIn
    rw [htrue, has_iff] at hprevIn
    refine ⟨(hin _ hprevIn).1, fun heq => ?_⟩
    obtain ⟨hzero, -⟩ := hself _ hprevIn rfl heq
    rw [prevFree, if_pos hzero] at hp
    cases hp
  obtain ⟨p, n, hnm, hm, hcalm, hjoined, hfooter, hsame⟩ := htidy.reuse hc nextIn hprev
  obtain ⟨hnpos, hp, hend', hle'⟩ := hm.bounds htidy.inv hc
  obtain ⟨hblock, htodo', hmem⟩ := reuse_eq hprevIn hnextIn hnm
  -- a block that stays in the bucket is not one of those that are merged
  have hout : ∀ b ∈ (s.reuse zone chunk).2.bucket, b = ⟨zone, p, n⟩ ∨ b ∈ s.bucket ∧
      (b.zone = zone → b.chunk < p ∨ p + n ≤ b.chunk) := by
    intro b hb
    rcases hmem b hb with heq | ⟨hb, hkept⟩
    · exact .inl heq
    by_cases hz : b.zone = zone
    swap
    · exact .inr ⟨hb, fun h => absurd h hz⟩
    obtain ⟨hblock, hsize⟩ := hin b hb
    rw [hz] at hblock hsize
    obtain ⟨hprevNot, hnextNot⟩ := hkept hz hsize.symm
    rcases Nat.lt_trichotomy b.chunk chunk with hbefore | heq | hafter
    · refine .inr ⟨hb, fun _ => ?_⟩
      rcases hm.first with rfl | ⟨htrue, hfree, hadj⟩
      · exact .inl hbefore
      · rcases Nat.lt_trichotomy b.chunk p with hlt' | heq | hgt
        · exact .inl hlt'
        · exact absurd (heq ▸ hfree) (hprevNot htrue)
        · exact absurd hblock.2 (Boundary.not_inside hm.block.2 hgt (by omega))
    · obtain ⟨hzero, hstop⟩ := hself b hb hz heq
      obtain rfl : p = b.chunk := by omega
      obtain rfl : n = b.size := by rw [← hsize, heq]; omega
      exact .inl (by rw [← hz])
    · refine .inr ⟨hb, fun _ => .inr ?_⟩
      have hge := (Boundary.chunk hc.2 hblock.2 hafter).2.2.2
      rcases hm.last with hlast | ⟨htrue, hnext, hfree, hlast⟩
      · omega
      · rcases Nat.lt_or_eq_of_le hge with hgt | heq
        · have hge' := (Boundary.chunk hnext.2 hblock.2 hgt).2.2.2
          omega
        · exact absurd (heq ▸ hfree) (hnextNot htrue)
  have hfinal : final s.zones (s.reuse zone chunk).2.todo = update s.zones zone
      ((heapFreeChunkReuse (s.zones zone) chunk ((s.zones zone).hdr chunk).sizeIdx prevIn
        nextIn).foldl Zone.exec (s.zones zone)) := by
    rw [htodo', final_map]
  have hself' : final s.zones (s.reuse zone chunk).2.todo zone =
      (heapFreeChunkReuse (s.zones zone) chunk ((s.zones zone).hdr chunk).sizeIdx prevIn
        nextIn).foldl Zone.exec (s.zones zone) := by
    rw [hfinal, update_self]
  have hother : ∀ id, id ≠ zone → final s.zones (s.reuse zone chunk).2.todo id = s.zones id := by
    intro id hne
    rw [hfinal, update_of_ne hne]
  rw [hblock]
  refine ⟨rfl, ⟨h.size, h.nzones_le, fun id => ?_, fun id hid => ?_, fun b hb => ?_⟩,
    ⟨_, htodo'⟩, hself' ▸ hjoined, hother, hout, ⟨hp, by dsimp only; omega, hle'⟩, hm.stop,
    fun hstop hfoot hlast => ?_, fun b hb hz hb' => ?_, ?_, fun b hb hz hlast => ?_⟩
  · rw [htodo', pending_map]
    split
    · rename_i heq
      exact heq ▸ hcalm
    · exact h.calm id
  · rw [htodo', pending_map, if_neg (by omega)]
    exact ⟨(h.unused id hid).1, rfl⟩
  · unfold Block.In
    rcases hout b hb with rfl | ⟨hb, hsep⟩
    · rw [hself']
      exact ⟨hjoined.isBlock_first hm.block, hjoined.size⟩
    · by_cases hz : b.zone = zone
      · obtain ⟨hblock, hsize⟩ := hin b hb
        rw [hz] at hblock hsize ⊢
        rw [hself']
        obtain ⟨hblock', hhdr⟩ := hjoined.isBlock hblock (hsep hz)
        exact ⟨hblock', hhdr.symm ▸ hsize⟩
      · rw [hother _ hz]
        exact hin b hb
  · rw [hself']
    dsimp only at hstop ⊢
    by_cases hne : n = ((s.zones zone).hdr chunk).sizeIdx
    · obtain ⟨-, hz⟩ := hsame hne
      rw [hz, hstop, hfoot, hne]
    · exact hfooter hne
  · obtain ⟨hblock, hsize⟩ := hin b hb
    rw [hz] at hblock hsize
    rw [← hsize]
    have hfree : nextFree (s.zones zone) chunk = some b.chunk := by
      have hlt' := hblock.1
      unfold nextFree
      dsimp only
      rw [← hb', if_neg (by omega), if_pos (htidy.free hblock)]
    refine hm.last_of ?_ _ hfree
    rw [← hnextIn, hfree, Option.elim_some, has_iff, hsize, ← hz]
    exact hb
  · rcases hm.last with hlast | ⟨htrue, -, hfree, hlast⟩
    · exact .inl hlast
    · rw [hfree, Option.elim_some] at hnextIn
      rw [htrue, has_iff] at hnextIn
      exact .inr ⟨_, hnextIn, rfl, rfl, hlast⟩
  · obtain ⟨hblock, hsize⟩ := hin b hb
    rw [hz] at hblock hsize
    obtain ⟨hstop, hfoot⟩ := hlast
    obtain ⟨-, hbpos, -, -⟩ := hblock.chunk htidy.inv
    have hfree : prevFree (s.zones zone) chunk = some b.chunk := by
      have hid : prevChunkId (s.zones zone) chunk = b.chunk := by
        rw [prevChunkId, hfoot]
        omega
      rw [prevFree, if_neg (by omega), hid, if_pos (htidy.free hblock)]
    refine hm.first_of ?_ _ hfree
    rw [← hprevIn, hfree, Option.elim_some, has_iff, hsize, ← hz]
    exact hb

end Pmdk.Extend
