import Pmdk.Obj.LanesAct

/-!
# The redo logs of the lanes

Processing a redo log of the allocator adds a ulog to a log of its lane or frees one. The other
redo logs leave the chains as they are.
-/

namespace Pmdk.Lanes

open Undo (Loc Ctx Job Write laneUndoSize)
open List
open Function

variable {k : Log}

section Process

variable {l : Log → List (Nat × Nat × Nat)} {s t : State} {i : Nat}

variable {m m' : List (Nat × Nat × Nat)} {q : Pool}

theorem logs_congr
    (h : m.map (fun x => (x.1, x.2.2)) = m'.map fun x => (x.1, x.2.2)) : logs m = logs m' := by
  have hmap := congrArg (List.map (Prod.map Loc.ext id)) h
  rw [map_map, map_map] at hmap
  exact congrArg (_ :: ·) hmap

theorem Placed.append {ctx : Ctx} (h : Placed ctx m) :
    Placed ctx (m ++ m') := by
  rcases h with hnone | ⟨pre, loc, c, post, hlogs, hcurr, halign, htotal⟩
  · exact .inl hnone
  · refine .inr ⟨pre, loc, c, post ++ m'.map (fun x => (.ext x.1, x.2.2)), ?_, hcurr, halign,
      htotal⟩
    rw [logs, map_append, ← cons_append, ← logs, hlogs, append_assoc]
    rfl

theorem Placed.congr {ctx ctx' : Ctx} (h : Placed ctx m)
    (hm : m'.map (fun x => (x.1, x.2.2)) = m.map fun x => (x.1, x.2.2))
    (hcurr : ctx'.curr = ctx.curr) (hcap : ctx'.currCapacity = ctx.currCapacity)
    (htotal : ctx'.totalLogged = ctx.totalLogged) : Placed ctx' m' := by
  rw [Placed, logs_congr hm, hcurr, hcap, htotal]
  exact h

theorem link_ok (h : Inv l s) (hi : i < s.pool.nlanes) (hrun : s.mode = .run)
    {loc : Loc} {offset capacity : Nat}
    (hredo : s.pool.redo ⟨i, .internal⟩ = .stored (.link k loc offset capacity))
    (hq : (Change.link k loc offset capacity).apply s.pool = some q) :
    ∃ l', Inv l' (s.put i
      { q with
        redo := update q.redo ⟨i, .internal⟩ (.processed (.link k loc offset capacity)) }
      ((s.lanes i).processed (.link k loc offset capacity))) := by
  have hlane := h.lane i hi
  have hr := hlane.redo
  rw [hredo] at hr
  obtain ⟨rfl, ⟨n, hasked, hlt⟩, rfl, hfree, hne, hsize, hcap⟩ := hr
  obtain ⟨hnext, hslot⟩ := h.next_eq hi hasked
  obtain ⟨m, hm, hlast, hchains, hlogs, hheap⟩ :=
    link_chains h.chains hslot hfree hne hsize hcap hq
  have hfst : m.map Prod.fst = (l k).map Prod.fst := by
    have hmap := congrArg (List.map Prod.fst) hm
    rwa [map_map, map_map] at hmap
  have hoffset : ∀ o, (s.pool.redo ⟨k.lane, .internal⟩).offset = some o → o = offset := by
    intro o ho
    rw [hredo] at ho
    exact (Option.some.inj ho).symm
  have hother : ∀ j < s.pool.nlanes, j ≠ k.lane →
      (s.pool.redo ⟨j, .internal⟩).offset ≠ some offset := fun j hj hjk hoff =>
    hjk (h.fresh j hj k.lane hi offset hoff (by rw [hredo]; rfl))
  refine ⟨update l k (m ++ [(offset, 0, capacity)]), h.update ?_ (fun j hj slot => ?_)
    (fun j hj hjk o ho hfree' => ?_) hlogs.size hlogs.nlanes (fun j hj slot => ?_) ?_
    (fun o ho j hj hjk => ?_) hrun⟩
  · exact ⟨hchains.forest, hchains.block, hchains.undo, hchains.internal⟩
  · rw [update_of_ne]
    rintro rfl
    exact hj rfl
  · refine hheap o ?_ hfree'
    rintro rfl
    exact hother j hj hjk ho
  · show update q.redo _ _ _ = _
    rw [update_of_ne (by simp [hj]), hlogs.redo]
  · have hexternal := hlane.external
    have hundo := hlane.undo
    have hprocessed : RedoOk (update l k (m ++ [(offset, 0, capacity)])) q k.lane
        ((s.lanes k.lane).processed (.link k (lastLoc (l k)) offset capacity))
        (.processed (.link k (lastLoc (l k)) offset capacity)) :=
      ⟨rfl, m, (0, capacity), update_self .., hlast.symm⟩
    obtain ⟨kl, slot⟩ := k
    dsimp only at *
    have hredo' : update q.redo ⟨kl, .internal⟩ (.processed
        (.link ⟨kl, slot⟩ (lastLoc (l ⟨kl, slot⟩)) offset capacity)) ⟨kl, .internal⟩ = _ :=
      update_self ..
    cases slot with
    | internal => exact absurd rfl hslot
    | external =>
      have hphase : ∃ tx, (s.lanes kl).phase = .open tx (.reserve n) := by
        unfold Lane.asked at hasked
        split at hasked
        · rename_i hphase
          cases hasked
          exact ⟨_, hphase⟩
        · split at hasked
          · cases hasked
          · cases hasked
        · cases hasked
      obtain ⟨tx, hphase⟩ := hphase
      exact {
        internal := hlane.internal
        external := by
          rw [update_self]
          refine ⟨?_, .inr ⟨tx, n, hphase, hlt⟩⟩
          show ((s.lanes kl).ctx .external).next ++ [offset] = _
          rw [hnext, map_append, hfst]
          rfl
        undo := by
          rw [update_of_ne (by simp)]
          exact hundo
        redo := by
          show RedoOk _ _ _ _ (update q.redo _ _ _)
          rw [hredo']
          exact hprocessed
        publish := by
          show PublishOk (update q.redo _ _ _)
          rw [update_of_ne (by simp), hlogs.redo]
          exact hlane.publish
        noRedo := by
          show update q.redo _ _ _ = _
          rw [update_of_ne (by simp), hlogs.redo]
          exact hlane.noRedo }
    | undo =>
      have hphase : ∃ dest bytes, (s.lanes kl).phase = .open true (.addBuffer
          ⟨dest, bytes, false⟩) ∧ ((s.lanes kl).ctx .undo).currCapacity = 0 ∧
          n = ((s.lanes kl).ctx .undo).totalLogged + (bytes.length + 24) := by
        unfold Lane.asked at hasked
        split at hasked
        · cases hasked
        · rename_i hphase
          split at hasked
          · rename_i hzero
            cases hasked
            exact ⟨_, _, hphase, hzero, rfl⟩
          · cases hasked
        · cases hasked
      obtain ⟨dest, bytes, hphase, hzero, rfl⟩ := hphase
      rw [hphase] at hundo
      obtain ⟨-, hplaced, hdest, -⟩ := hundo
      exact {
        internal := hlane.internal
        external := by
          rw [update_of_ne (by simp)]
          exact hexternal
        undo := by
          rw [update_self]
          show UndoOk _ _ (s.lanes kl).phase
          rw [hphase]
          refine ⟨?_, (hplaced.congr hm rfl rfl rfl).append, hdest, .inr ⟨hzero, hlt⟩⟩
          show ((s.lanes kl).ctx .undo).next ++ [offset] = _
          rw [hnext, map_append, hfst]
          rfl
        redo := by
          show RedoOk _ _ _ _ (update q.redo _ _ _)
          rw [hredo']
          exact hprocessed
        publish := by
          show PublishOk (update q.redo _ _ _)
          rw [update_of_ne (by simp), hlogs.redo]
          exact hlane.publish
        noRedo := by
          show update q.redo _ _ _ = _
          rw [update_of_ne (by simp), hlogs.redo]
          exact hlane.noRedo }
  · have ho' : (update q.redo ⟨k.lane, .internal⟩ _ ⟨k.lane, .internal⟩).offset =
        some o := ho
    rw [update_self] at ho'
    cases ho'
    exact hother j hj hjk

theorem unlink_ok (h : Inv l s) (hi : i < s.pool.nlanes) (hrun : s.mode = .run) {loc : Loc}
    {offset : Nat} (hredo : s.pool.redo ⟨i, .internal⟩ = .stored (.unlink k loc offset))
    (hq : (Change.unlink k loc offset).apply s.pool = some q) :
    ∃ l', Inv l' (s.put i
      { q with redo := update q.redo ⟨i, .internal⟩ (.processed (.unlink k loc offset)) }
      ((s.lanes i).processed (.unlink k loc offset))) := by
  have hlane := h.lane i hi
  have hr := hlane.redo
  rw [hredo] at hr
  obtain ⟨rfl, l₀, a, n, n', hl₀, rfl, hphase, h0⟩ := hr
  obtain ⟨hchains, hlogs, hfree, hheap⟩ := unlink_chains h.chains (by simp) hl₀ hq
  have hother : ∀ j < s.pool.nlanes, j ≠ i →
      (s.pool.redo ⟨j, .internal⟩).offset ≠ some offset := fun j hj hji hoff =>
    hji (h.fresh j hj i hi offset hoff (by rw [hredo]; rfl))
  refine ⟨update l ⟨i, .undo⟩ (l₀ ++ [(a, 0, n.2)]), h.update ?_ (fun j hj slot => ?_)
    (fun j _ _ o _ ho => hheap o ho) hlogs.size hlogs.nlanes (fun j hj slot => ?_) ?_
    (fun o ho j hj hji => ?_) hrun⟩
  · exact ⟨hchains.forest, hchains.block, hchains.undo, hchains.internal⟩
  · rw [update_of_ne (by simp [hj])]
  · show update q.redo _ _ _ = _
    rw [update_of_ne (by simp [hj]), hlogs.redo]
  · have hprocessed : (s.lanes i).processed (.unlink ⟨i, .undo⟩ (.ext a) offset) =
        { s.lanes i with phase := .finish (frees (l₀ ++ [(a, 0, n.2)])) } := by
      rw [Lane.processed, hphase, hl₀, frees_concat l₀ a n (0, n.2)]
      rfl
    rw [hprocessed]
    exact {
      internal := hlane.internal
      external := by
        rw [update_of_ne (by simp)]
        exact hlane.external.of_phase (by simp [hphase]) _
      undo := by
        rw [update_self]
        show if _ then _ else _
        rw [if_neg h0]
        exact ⟨[], nofun, rfl⟩
      redo := by
        show RedoOk _ _ _ _ (update q.redo _ _ _)
        rw [update_self]
        exact ⟨rfl, l₀, a, (0, n.2), update_self .., rfl, hfree⟩
      publish := by
        show PublishOk (update q.redo _ _ _)
        rw [update_of_ne (by simp), hlogs.redo]
        exact hlane.publish
      noRedo := by
        show update q.redo _ _ _ = _
        rw [update_of_ne (by simp), hlogs.redo]
        exact hlane.noRedo }
  · have ho' : (update q.redo ⟨i, .internal⟩ _ ⟨i, .internal⟩).offset = some o := ho
    rw [update_self] at ho'
    cases ho'
    exact hother j hj hji

theorem Inv.set_pool (h : Inv l s) {mode : Mode} (hpq : SameShape s.pool q)
    (hredo : ∀ k, q.redo k = s.pool.redo k ∨ k.slot ≠ .undo ∧ q.redo k = .empty ∨
      k.slot = .external ∧ PublishOk (q.redo k))
    (hmode : ModeOk { s with pool := q } mode) : Inv l { s with pool := q, mode } where
  chains := h.chains.congr hpq
  lane j hj := by
    have hlane := h.lane j (hpq.nlanes ▸ hj)
    exact {
      internal := hlane.internal
      external := hlane.external
      undo := hlane.undo
      redo := by
        show RedoOk l q j _ (q.redo _)
        rcases hredo ⟨j, .internal⟩ with heq | ⟨-, heq⟩ | ⟨hslot, -⟩
        · have hsame : LaneOk l { q with redo := s.pool.redo } j (s.lanes j) :=
            hlane.congr (fun _ => rfl) (fun o _ ho => (congrFun hpq.heap o).trans ho) hpq.size
              fun _ => rfl
          rw [heq]
          exact hsame.redo
        · rw [heq]
          trivial
        · cases hslot
      publish := by
        show PublishOk (q.redo _)
        rcases hredo ⟨j, .external⟩ with heq | ⟨-, heq⟩ | ⟨-, hok⟩
        · rw [heq]
          exact hlane.publish
        · rw [heq]
          trivial
        · exact hok
      noRedo := by
        rcases hredo ⟨j, .undo⟩ with heq | ⟨hslot, -⟩ | ⟨hslot, -⟩
        · exact heq.trans hlane.noRedo
        · exact absurd rfl hslot
        · cases hslot }
  fresh := by
    intro j hj j' hj' o ho ho'
    have hoff : ∀ j, (q.redo ⟨j, .internal⟩).offset = some o →
        (s.pool.redo ⟨j, .internal⟩).offset = some o := by
      intro j ho
      rcases hredo ⟨j, .internal⟩ with heq | ⟨-, heq⟩ | ⟨hslot, -⟩
      · rwa [heq] at ho
      · rw [heq] at ho
        cases ho
      · cases hslot
    exact h.fresh j (hpq.nlanes ▸ hj) j' (hpq.nlanes ▸ hj') o (hoff j ho) (hoff j' ho')
  mode := hmode

theorem ModeOk.congr {s' : State} {mode : Mode} (h : ModeOk s mode) (hlanes : s'.lanes = s.lanes)
    (hnlanes : s'.pool.nlanes = s.pool.nlanes) : ModeOk s' mode := by
  unfold ModeOk at h ⊢
  rw [hlanes, hnlanes]
  exact h

theorem process_ok (h : Inv l s) (hk : k.lane < s.pool.nlanes)
    (hs : s.process k = some t) : ∃ l', Inv l' t := by
  have hlane := h.lane k.lane hk
  obtain ⟨i, slot⟩ := k
  unfold State.process at hs
  split at hs
  · rename_i c hc
    obtain ⟨q, hq, hs⟩ := Option.bind_eq_some_iff.mp hs
    cases slot with
    | undo =>
      have hno := hlane.noRedo
      rw [hc] at hno
      cases hno
    | external =>
      have hpublish := hlane.publish
      rw [hc] at hpublish
      obtain ⟨i', first, rfl⟩ := hpublish
      obtain ⟨hpq, hredo⟩ := publish_sameShape hq
      have hset : ∀ k, update q.redo ⟨i, .external⟩ (.processed (.publish i' first)) k =
          s.pool.redo k ∨ k.slot ≠ .undo ∧ update q.redo ⟨i, .external⟩
            (.processed (.publish i' first)) k = .empty ∨ k.slot = .external ∧ PublishOk
            (update q.redo ⟨i, .external⟩ (.processed (.publish i' first)) k) := by
        intro k
        rw [update_apply]
        split
        · rename_i heq
          exact .inr (.inr ⟨heq ▸ rfl, _, _, rfl⟩)
        · exact .inl (congrFun hredo k)
      have hshape : SameShape s.pool { q with
          redo := update q.redo ⟨i, .external⟩ (.processed (.publish i' first)) } :=
        ⟨hpq.head, hpq.heap, hpq.undo, hpq.size, hpq.nlanes⟩
      have hmode := h.mode
      dsimp only at hs
      split at hs
      · rename_i hrun
        cases hs
        refine ⟨l, ?_⟩
        rw [Lane.processed, put_self]
        exact h.set_pool hshape hset (hmode.congr rfl hpq.nlanes)
      · cases hs
      · rename_i j todo hrec
        cases hs
        rw [hrec] at hmode
        refine ⟨l, h.set_pool hshape hset ?_⟩
        cases todo with
        | none => exact hmode.congr rfl hpq.nlanes
        | some todo =>
          exact ⟨fun i' hi' => hmode.1 i' (hpq.nlanes ▸ hi'),
            fun w hw => hmode.2 w (mem_of_mem_tail hw)⟩
    | internal =>
      have hredo := hlane.redo
      rw [hc] at hredo
      have hbusy : (s.lanes i).phase ≠ .idle := by
        intro hidle
        match c, hredo with
        | .link _ _ _ _, ⟨_, ⟨n, hasked, _⟩, _⟩ =>
          rw [Lane.asked, hidle] at hasked
          cases hasked
        | .unlink _ _ _, ⟨_, _, _, _, _, _, _, hphase, _⟩ =>
          rw [hidle] at hphase
          cases hphase
      have hmode := h.mode
      dsimp only at hs
      split at hs
      · rename_i hrun
        cases hs
        match c, hredo with
        | .link _ _ _ _, _ => exact link_ok h hk hrun hc hq
        | .unlink _ _ _, _ => exact unlink_ok h hk hrun hc hq
      · cases hs
      · rename_i j todo hrec
        rw [hrec] at hmode
        cases todo with
        | none => exact absurd (hmode i hk) hbusy
        | some todo => exact absurd (hmode.1 i hk) hbusy
  · cases hs

theorem clobber_ok (h : Inv l s) (hk : k.lane < s.pool.nlanes)
    (hs : s.clobber k = some t) : Inv l t := by
  have hlane := h.lane k.lane hk
  obtain ⟨i, slot⟩ := k
  unfold State.clobber at hs
  split at hs
  · rename_i c hc
    have hslot : slot ≠ .undo := by
      rintro rfl
      have hno := hlane.noRedo
      rw [hc] at hno
      cases hno
    have hhead : ((s.lanes i).ctx slot).next.head?.getD 0 = s.pool.head ⟨i, slot⟩ := by
      have hchain := h.chains.forest.chain ⟨i, slot⟩
      cases slot with
      | undo => exact absurd rfl hslot
      | external =>
        rw [hlane.external.1]
        exact hchain.head_eq
      | internal =>
        rw [h.chains.internal] at hchain
        rw [hlane.internal.next]
        exact hchain.symm
    have hpq := ulogClobber_sameShape hhead hslot
    have hset : ∀ k', update s.pool.redo ⟨i, slot⟩ .empty k' = s.pool.redo k' ∨
        k'.slot ≠ .undo ∧ update s.pool.redo ⟨i, slot⟩ .empty k' = .empty ∨
        k'.slot = .external ∧ PublishOk (update s.pool.redo ⟨i, slot⟩ .empty k') := by
      intro k'
      rw [update_apply]
      split
      · rename_i heq
        exact .inr (.inl ⟨heq ▸ hslot, rfl⟩)
      · exact .inl rfl
    have hmode := h.mode
    dsimp only at hs
    split at hs
    · cases hs
    · rename_i tx hrun hphase
      have hquiet : (s.pool.redo ⟨i, .internal⟩).waiting = false := by
        have hredo := hlane.redo
        dsimp only at hredo
        generalize s.pool.redo ⟨i, .internal⟩ = r at hredo ⊢
        match r, hredo with
        | .empty, _ | .processed _, _ => rfl
        | .stored (.link _ _ _ _), ⟨_, ⟨n, hasked, _⟩, _⟩ =>
          rw [Lane.asked, hphase] at hasked
          cases hasked
        | .stored (.unlink _ _ _), ⟨_, _, _, _, _, _, _, hfinish, _⟩ =>
          rw [hphase] at hfinish
          cases hfinish
      have hundo := hlane.undo
      rw [hphase] at hundo
      refine published_ok h hk hrun hquiet hpq (fun k' hk' => update_of_ne hk' ..) ?_
        (by simp [hphase]) hundo hs
      show PublishOk (update s.pool.redo _ _ _)
      rw [update_self]
      trivial
    · cases hs
      exact h.set_pool hpq hset (hmode.congr rfl hpq.nlanes)
  · cases hs

end Process

end Pmdk.Lanes
