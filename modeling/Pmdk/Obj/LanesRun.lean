import Pmdk.Obj.LanesRedo

/-!
# Contexts that mirror their logs

Every step keeps the invariant of the contexts, as long as the pool is not opened in the middle of a
change to a chain and an extension does not fail half-way.
-/

namespace Pmdk.Lanes

open Undo (Loc Ctx Job Write laneUndoSize)
open List

section Open

variable {l : Log → List (Nat × Nat × Nat)} {s t : State} {i : Nat}

/-! ## Opening the pool -/

theorem laneInit_eq (h : Chains s.pool l) (i : Nat) :
    ∃ lane, laneInit s.pool i = some lane ∧ lane.phase = .idle ∧
      Agrees (lane.ctx .internal) Slot.internal.size [] ∧
      Agrees (lane.ctx .external) Slot.external.size (l ⟨i, .external⟩) ∧
      Agrees (lane.ctx .undo) laneUndoSize (l ⟨i, .undo⟩) := by
  unfold laneInit
  rw [h.operationNew_eq, Option.bind_some, h.operationNew_eq, Option.bind_some, h.operationNew_eq,
    Option.map_some, h.internal]
  exact ⟨_, rfl, rfl, ⟨rfl, rfl⟩, ⟨rfl, rfl⟩, ⟨rfl, rfl⟩⟩

/-- `lane_boot` creates contexts that agree with the logs as they are now. -/
theorem reopen_ok (h : Inv l s) (hquiet : Undisturbed .reopen s) {lanes : Nat → Lane}
    (hboot : laneBoot s.pool = some lanes) : Inv l { s with lanes, mode := .replay 0 } := by
  unfold laneBoot at hboot
  split at hboot
  · cases hboot
    have hidle : ∀ i, ((laneInit s.pool i).getD Lane.new).phase = .idle := by
      intro i
      obtain ⟨lane, hlane, hphase, -⟩ := laneInit_eq h.chains i
      rw [hlane]
      exact hphase
    refine ⟨h.chains, fun i hi => ?_, h.fresh, fun i _ => hidle i⟩
    have hlane := h.lane i hi
    obtain ⟨lane, hinit, hphase, hinternal, hexternal, hundo⟩ := laneInit_eq h.chains i
    show LaneOk l s.pool i ((laneInit s.pool i).getD Lane.new)
    rw [hinit]
    exact {
      internal := hinternal
      external := ⟨hexternal.next, .inl hexternal.capacity⟩
      undo := by
        show UndoOk _ _ lane.phase
        rw [hphase]
        exact hundo
      redo := by
        have hr := hlane.redo
        have hwait := hquiet i hi
        generalize s.pool.redo ⟨i, .internal⟩ = r at hr hwait
        match r, hwait, hr with
        | .empty, _, _ => trivial
        | .processed (.link _ _ _ _), _, hr => exact hr
        | .processed (.unlink _ _ _), _, hr => exact hr
      publish := hlane.publish
      noRedo := hlane.noRedo }
  · cases hboot

theorem ulogRecover_ok (h : Inv l s) (hidle : ∀ i < s.pool.nlanes, (s.lanes i).phase = .idle)
    {k : Log} (hk : k.lane < s.pool.nlanes) {q : Pool} (hs : s.pool.ulogRecover k = some q) :
    SameShape s.pool q ∧ ∀ k', q.redo k' = s.pool.redo k' ∨
      k'.slot ≠ .undo ∧ q.redo k' = .empty := by
  have hlane := h.lane k.lane hk
  obtain ⟨i, slot⟩ := k
  unfold Pool.ulogRecover at hs
  have hmain : ∀ c, (s.pool.redo ⟨i, slot⟩ = .stored c ∨ s.pool.redo ⟨i, slot⟩ = .processed c) →
      ∀ p, c.apply s.pool = some p → SameShape s.pool p ∧ p.redo = s.pool.redo ∧
        slot ≠ .undo := by
    intro c hc p hp
    cases slot with
    | undo =>
      have hno := hlane.noRedo
      rcases hc with hc | hc
      all_goals
        rw [hc] at hno
        cases hno
    | external =>
      have hpublish := hlane.publish
      have hcases : ∃ i first, c = .publish i first := by
        rcases hc with hc | hc
        all_goals
          rw [hc] at hpublish
          exact hpublish
      obtain ⟨j, first, rfl⟩ := hcases
      obtain ⟨hpq, hredo⟩ := publish_sameShape hp
      exact ⟨hpq, hredo, by simp⟩
    | internal =>
      have hredo := hlane.redo
      have hphase := hidle i hk
      rcases hc with hc | hc
      · rw [hc] at hredo
        cases c with
        | link k loc offset capacity =>
          obtain ⟨-, ⟨n, hasked, -⟩, -⟩ := hredo
          rw [Lane.asked, hphase] at hasked
          cases hasked
        | unlink k loc offset =>
          obtain ⟨-, -, -, -, -, -, -, hfinish, -⟩ := hredo
          rw [hphase] at hfinish
          cases hfinish
        | publish j first => exact hredo.elim
      · rw [hc] at hredo
        cases c with
        | link k loc offset capacity =>
          obtain ⟨-, l₀, x, hl₀, hloc⟩ := hredo
          subst hloc
          obtain ⟨hpq, hsame⟩ := relink_sameShape h.chains hl₀ hp
          exact ⟨hpq, hsame, by simp⟩
        | unlink k loc offset =>
          obtain ⟨-, l₀, a, n, hl₀, hloc, hfree⟩ := hredo
          subst hloc
          obtain ⟨hpq, hsame⟩ := reunlink_sameShape h.chains hl₀ hfree hp
          exact ⟨hpq, hsame, by simp⟩
        | publish j first => exact hredo.elim
  have hclobber : ∀ p : Pool, SameShape s.pool p → p.redo = s.pool.redo → slot ≠ .undo →
      SameShape s.pool (p.ulogClobber ⟨i, slot⟩ (p.ulog ⟨i, slot⟩).next) ∧
      ∀ k', (p.ulogClobber ⟨i, slot⟩ (p.ulog ⟨i, slot⟩).next).redo k' = s.pool.redo k' ∨
        k'.slot ≠ .undo ∧ (p.ulogClobber ⟨i, slot⟩ (p.ulog ⟨i, slot⟩).next).redo k' = .empty := by
    intro p hp hredo hslot
    refine ⟨hp.trans (ulogClobber_sameShape rfl hslot), fun k' => ?_⟩
    show Function.update p.redo ⟨i, slot⟩ .empty k' = _ ∨
      _ ∧ Function.update p.redo ⟨i, slot⟩ .empty k' = _
    rw [Function.update_apply]
    split
    · rename_i heq
      exact .inr ⟨heq ▸ hslot, rfl⟩
    · exact .inl (congrFun hredo k')
  split at hs
  · cases hs
    exact ⟨SameShape.refl _, fun _ => .inl rfl⟩
  · rename_i c hc
    obtain ⟨p, hp, rfl⟩ := Option.map_eq_some_iff.mp hs
    obtain ⟨hpq, hredo, hslot⟩ := hmain c (.inl hc) p hp
    exact hclobber p hpq hredo hslot
  · rename_i c hc
    obtain ⟨p, hp, rfl⟩ := Option.map_eq_some_iff.mp hs
    obtain ⟨hpq, hredo, hslot⟩ := hmain c (.inr hc) p hp
    exact hclobber p hpq hredo hslot

theorem replay_ok (h : Inv l s) (hs : s.replay = some t) : Inv l t := by
  have hmode := h.mode
  unfold State.replay at hs
  split at hs
  · rename_i i hreplay
    rw [hreplay] at hmode
    split at hs
    · rename_i hi
      obtain ⟨p, hp, hs⟩ := Option.bind_eq_some_iff.mp hs
      obtain ⟨q, hq, rfl⟩ := Option.map_eq_some_iff.mp hs
      obtain ⟨hsp, hredo⟩ := ulogRecover_ok (k := ⟨i, .internal⟩) h hmode hi hp
      have h' : Inv l { s with pool := p, mode := .replay i } :=
        h.set_pool hsp (fun k => (hredo k).imp_right .inl) fun j hj => hmode j (hsp.nlanes ▸ hj)
      obtain ⟨hpq, hredo'⟩ := ulogRecover_ok (k := ⟨i, .external⟩) h' h'.mode
        (show i < p.nlanes from hsp.nlanes.symm ▸ hi) hq
      exact h'.set_pool hpq (fun k => (hredo' k).imp_right .inl)
        fun j hj => h'.mode j (hpq.nlanes ▸ hj)
    · cases hs
      exact ⟨h.chains, h.lane, h.fresh, hmode⟩
  · cases hs

theorem recover_ok (h : Inv l s) {j : Nat} {ws : List UInt64}
    (hquiet : Undisturbed (.recover j ws) s) (hs : s.recover j ws = some t) : Inv l t := by
  have hmode := h.mode
  unfold State.recover at hs
  unfold Undisturbed at hquiet
  split at hs
  · rename_i i hrec
    rw [hrec] at hmode hquiet
    dsimp only at hquiet
    split at hs
    · rename_i hi
      dsimp only at hs
      rw [h.chains.operationNew_eq, Option.bind_some] at hs
      obtain ⟨n, hn, hs⟩ := Option.bind_eq_some_iff.mp hs
      obtain ⟨-, -, hs⟩ := Option.bind_eq_some_iff.mp hs
      obtain ⟨todo, htodo, rfl⟩ := Option.map_eq_some_iff.mp hs
      refine ⟨h.chains, h.lane, h.fresh, hmode, ?_⟩
      unfold Undo.finishWrites at htodo
      split at htodo
      · cases htodo
        nofun
      · rename_i hne
        obtain ⟨zs, hzs, htodo⟩ := Option.bind_eq_some_iff.mp htodo
        obtain ⟨m, hm, rfl⟩ := Option.map_eq_some_iff.mp htodo
        rcases hquiet with hzero | ⟨m', hm', hlen⟩
        · exact absurd (Option.some.inj (hn.symm.trans hzero)) hne
        · obtain rfl : m' = m := Option.some.inj (Eq.trans (Eq.symm hm') hm)
          have hfree : Undo.freeWrites m' = [] := by
            have hdrop : m'.dropLast = [] :=
              length_eq_zero_iff.mp (by rw [length_dropLast]; omega)
            rw [Undo.freeWrites, hdrop]
            rfl
          rw [hfree, append_nil]
          exact zeroWrites_zero hzs
    · cases hs
      exact ⟨h.chains, h.lane, h.fresh, trivial⟩
  · rename_i i hrec
    rw [hrec] at hmode
    cases hs
    exact ⟨h.chains, h.lane, h.fresh, hmode.1⟩
  · rename_i i w todo hrec
    rw [hrec] at hmode
    obtain ⟨q, hq, rfl⟩ := Option.map_eq_some_iff.mp hs
    obtain ⟨loc, nbytes, rfl⟩ := hmode.2 w mem_cons_self
    obtain ⟨v, hv, rfl⟩ := Option.map_eq_some_iff.mp hq
    refine h.set_pool (zero_sameShape hv) (fun _ => .inl rfl) ⟨hmode.1, fun w hw => ?_⟩
    exact hmode.2 w (mem_cons_of_mem _ hw)
  · cases hs

end Open

/-! ## All steps -/

section Step

variable {l : Log → List (Nat × Nat × Nat)} {s t : State} {i : Nat}

/-- `ulog_reserve` fails before it has extended the log, or the undo log will be clobbered. -/
theorem fail_ok (h : Inv l s) (hi : i < s.pool.nlanes) (hquiet : Undisturbed (.fail i) s)
    {slot : Slot} (hshort : s.short i = some slot) :
    slot = .undo ∧ ((s.lanes i).ctx slot).totalLogged ≠ 0 ∨
      ((s.lanes i).ctx slot).ulogCapacity = slot.size + capacities (l ⟨i, slot⟩) := by
  obtain ⟨n, hasked, -⟩ := short_eq_some hshort
  refine (hquiet slot hshort).imp_right fun hreserved => ?_
  rw [(h.next_eq hi hasked).1, h.chains.reserved_eq] at hreserved
  exact (Option.some.inj hreserved).symm

theorem act_ok (h : Inv l s) {a : Act} (hi : i < s.pool.nlanes) (hrun : s.mode = .run)
    (hempty : s.pool.redo ⟨i, .internal⟩ = .empty) (hquiet : Undisturbed a s) (ha : a.lane = i)
    (hs : s.act i a = some t) : Inv l t := by
  have hlane := h.lane i hi
  have hundo := hlane.undo
  have hexternal := hlane.external
  have hwait : (s.pool.redo ⟨i, .internal⟩).waiting = false := by
    rw [hempty]
    rfl
  unfold State.act at hs
  dsimp only at hs
  split at hs
  · rename_i hphase
    rw [hphase] at hundo hexternal
    cases hs
    exact h.put_lane hi hrun hwait rfl (hexternal.of_phase (by simp) _)
      ⟨hundo.next, .inl ⟨rfl, rfl, rfl⟩, hundo.capacity⟩
  · rename_i hphase
    rw [hphase] at hundo hexternal
    cases hs
    exact h.put_lane hi hrun hwait rfl (hexternal.of_phase (by simp) _) hundo
  · rename_i hphase
    rw [hphase] at hundo hexternal
    split at hs
    · rename_i hbytes
      cases hs
      exact h.put_lane hi hrun hwait rfl (hexternal.of_phase (by simp) _)
        ⟨hundo.1, hundo.2.1, hbytes.2, .inl hundo.2.2⟩
    · cases hs
  · rename_i tx hphase
    rw [hphase] at hundo hexternal
    cases hs
    refine h.put_lane hi hrun hwait rfl (hexternal.of_phase (by simp) _) ?_
    cases tx with
    | false => exact hundo
    | true => exact hundo
  · exact extend_ok h hi hrun hs
  · rename_i tx n hphase
    rw [hphase] at hundo hexternal
    split at hs
    · rename_i hle
      cases hs
      refine h.put_lane hi hrun hwait rfl ⟨hexternal.1, .inl ?_⟩ ?_
      · refine hexternal.2.resolve_right ?_
        rintro ⟨tx', n', heq, hlt⟩
        cases heq
        exact absurd hle (Nat.not_le_of_lt hlt)
      · cases tx with
        | false => exact hundo
        | true => exact hundo
    · obtain ⟨c, hc, rfl⟩ := Option.map_eq_some_iff.mp hs
      rw [hexternal.1, h.chains.reserved_eq] at hc
      obtain ⟨hc, -⟩ := Option.filter_eq_some_iff.mp hc
      refine h.put_lane hi hrun hwait rfl ⟨hexternal.1, .inl (Option.some.inj hc).symm⟩ ?_
      cases tx with
      | false => exact hundo
      | true => exact hundo
  · rename_i tx n hphase
    rw [hphase] at hundo hexternal
    obtain ⟨slot, hshort, rfl⟩ := Option.map_eq_some_iff.mp hs
    obtain rfl : _ = i := ha
    obtain ⟨n', hasked, -⟩ := short_eq_some hshort
    rw [Lane.asked, hphase] at hasked
    cases hasked
    refine h.put_lane hi hrun hwait rfl ⟨hexternal.1, .inl ?_⟩ ?_
    · exact (fail_ok h hi hquiet hshort).resolve_left fun hundo => by
        cases hundo.1
    · cases tx with
      | false => exact hundo
      | true => exact hundo
  · rename_i job hphase
    obtain ⟨slot, hshort, hs⟩ := Option.bind_eq_some_iff.mp hs
    obtain rfl : _ = i := ha
    obtain ⟨n', hasked, -⟩ := short_eq_some hshort
    have hslot : slot = .undo := by
      unfold Lane.asked at hasked
      rw [hphase] at hasked
      split at hasked
      · rename_i heq
        cases heq
      · split at hasked
        · cases hasked
          rfl
        · cases hasked
      · cases hasked
    subst hslot
    refine finishUndo_ok h hi hrun hwait (SameShape.refl _) (fun _ _ => rfl) hlane.publish
      (by simp [hphase]) (fun hzero => ?_) hs
    rw [hphase] at hundo
    refine ⟨hundo.1, ?_⟩
    exact (fail_ok h hi hquiet hshort).resolve_left fun hne => hne.2 hzero
  · rename_i dest bytes hphase
    obtain ⟨u, hu, rfl⟩ := Option.map_eq_some_iff.mp hs
    exact copyData_ok h hi hrun hwait hphase hu
  · rename_i dest bytes hphase
    obtain ⟨u, hu, rfl⟩ := Option.map_eq_some_iff.mp hs
    exact copyHead_ok h hi hrun hwait hphase hu
  · rename_i hphase
    exact publish_ok h hi hrun hwait hphase hs
  · rename_i hphase
    rw [hphase] at hundo
    exact finishUndo_ok h hi hrun hwait (SameShape.refl _) (fun _ _ => rfl) hlane.publish
      (by simp [hphase]) (fun _ => UndoOk.agrees hundo) hs
  · rename_i hphase
    exact finished_ok h hi hrun hwait hphase hs
  · rename_i hphase
    obtain ⟨q, hq, rfl⟩ := Option.map_eq_some_iff.mp hs
    exact finish_ok h hi hrun hwait hphase hq
  · cases hs

theorem inv_step {a : Act} (h : ∃ l, Inv l s) (hquiet : Undisturbed a s)
    (hs : step a s = some t) : ∃ l, Inv l t := by
  obtain ⟨l, h⟩ := h
  unfold step at hs
  split at hs
  · rename_i hi
    split at hs
    · exact process_ok h hi hs
    · exact ⟨l, clobber_ok h hi hs⟩
    · obtain ⟨lanes, hlanes, rfl⟩ := Option.map_eq_some_iff.mp hs
      exact ⟨l, reopen_ok h hquiet hlanes⟩
    · exact ⟨l, replay_ok h hs⟩
    · split at hs
      · exact ⟨l, recover_ok h hquiet hs⟩
      · cases hs
    · split at hs
      · rename_i hrun
        exact ⟨l, act_ok h hi hrun.1 hrun.2 hquiet rfl hs⟩
      · cases hs
  · cases hs

/-! ## What the contexts say -/

theorem Agrees.mirrors (h : Chains s.pool l) {k : Log} {ctx : Ctx}
    (hctx : Agrees ctx k.slot.size (l k)) : Mirrors s.pool k ctx := by
  obtain ⟨m, hm, heq⟩ := h.view_chain k
  refine ⟨⟨m, hm, ?_, ?_⟩, fun o ho => ?_⟩
  · rw [hctx.next, ← heq, map_map]
    rfl
  · rw [hctx.capacity, ← heq, capacities, map_map]
    rfl
  · rw [hctx.next] at ho
    obtain ⟨x, hx, rfl⟩ := mem_map.mp ho
    obtain ⟨u, hu, -⟩ := h.get_block hx
    rw [hu]
    rfl

theorem isSome_of_next (h : Chains s.pool l) {k : Log} {next : List Nat}
    (hnext : next = (l k).map Prod.fst) : ∀ o ∈ next, (s.pool.blocks o).isSome := by
  intro o ho
  rw [hnext] at ho
  obtain ⟨x, hx, rfl⟩ := mem_map.mp ho
  obtain ⟨u, hu, -⟩ := h.get_block hx
  rw [hu]
  rfl

theorem Inv.follows (h : Inv l s) (hi : i < s.pool.nlanes) : Follows s.pool i (s.lanes i) := by
  have hlane := h.lane i hi
  have hundo := hlane.undo
  constructor
  · intro slot hslot
    cases slot with
    | internal =>
      rw [hlane.internal.next]
      nofun
    | external => exact isSome_of_next h.chains hlane.external.1
    | undo =>
      have hnext : ((s.lanes i).ctx .undo).next = (l ⟨i, .undo⟩).map Prod.fst := by
        generalize hphase : (s.lanes i).phase = phase at hundo hslot
        match phase, hundo with
        | .idle, hundo => exact hundo.next
        | .open true _, hundo => exact hundo.1
        | .open false _, hundo => exact hundo.next
        | .process _, hundo => exact hundo.next
        | .finish todo, _ => exact absurd rfl (hslot ⟨todo, rfl⟩)
      exact isSome_of_next h.chains hnext
  · intro job hphase loc hloc
    rw [hphase] at hundo
    rcases hundo.2.1 with ⟨hnone, -⟩ | ⟨pre, loc', c, post, hlogs, hcurr, -⟩
    · rw [hnone] at hloc
      cases hloc
    · obtain rfl : loc' = loc := Option.some.inj (hcurr.symm.trans hloc)
      obtain ⟨u, hu, -⟩ := h.chains.next_of_room hlogs
      rw [hu]
      rfl
  · intro dest bytes hphase hzero c hc hle loc hloc
    rw [hphase] at hundo
    rw [hundo.1, h.chains.reserved_eq] at hc
    obtain rfl := Option.some.inj hc
    rcases hundo.2.1 with ⟨hnone, -⟩ | ⟨pre, loc', c', post, hlogs, hcurr, -, htotal⟩
    · rw [hnone] at hloc
      cases hloc
    · obtain rfl : loc' = loc := Option.some.inj (hcurr.symm.trans hloc)
      obtain ⟨u, hu, hroom, hnext⟩ := h.chains.next_of_room hlogs
      have hne : u.next ≠ 0 := hroom (by have : Slot.undo.size = laneUndoSize := rfl; omega)
      obtain ⟨v, -, hv, -⟩ := hnext hne
      refine ⟨u, hu, hne, ?_⟩
      rw [hv]
      rfl

theorem Inv.mirrored (h : Inv l s) : Mirrored s := by
  intro _ i hi
  refine ⟨fun hidle slot => ?_, h.follows hi⟩
  have hlane := h.lane i hi
  have hundo := hlane.undo
  rw [hidle] at hundo
  cases slot with
  | internal => exact Agrees.mirrors h.chains (h.chains.internal i ▸ hlane.internal)
  | external =>
    have hexternal := hlane.external
    rw [hidle] at hexternal
    refine Agrees.mirrors h.chains ⟨hexternal.1, hexternal.2.resolve_right ?_⟩
    rintro ⟨tx, n, heq, -⟩
    cases heq
  | undo => exact Agrees.mirrors h.chains hundo

end Step

/-- In every run, the contexts of the lanes mirror their logs whenever no operation is in
progress. -/
theorem mirrored_run {nlanes size : Nat} {as : List Act} {t : State}
    (has : Transition.Guarded step Undisturbed as (State.init nlanes size))
    (hrun : Transition.run step as (State.init nlanes size) = some t) : Mirrored t := by
  have hinv := Transition.run_invariant
    (fun a _ s t (hs : ∃ l, Inv l s) hG hstep => inv_step hs hG hstep) has
    ⟨_, inv_init nlanes size⟩ hrun
  obtain ⟨l, h⟩ := hinv
  exact h.mirrored

def extendExternal : List Act :=
  [.begin 0, .reserve 0 656, .extend 0 1024 704 [1, 2, 3, 4], .process ⟨0, .internal⟩,
    .clobber ⟨0, .internal⟩, .reserved 0, .publish 0 [1, 2, 3, 4], .process ⟨0, .external⟩,
    .clobber ⟨0, .external⟩, .finish 0 [], .reopen, .replay, .replay, .recover 0 [],
    .recover 0 [], .recover 0 []]

theorem mirrored_run_extendExternal :
    ∃ t, Transition.run step extendExternal (State.init 1 4096) = some t ∧ t.mode = .run ∧
      (t.pool.ulog ⟨0, .external⟩).next = 1024 ∧ Mirrored t := by
  have has : Transition.Guarded step Undisturbed extendExternal (State.init 1 4096) := by
    decide +kernel
  have hend : (Transition.run step extendExternal (State.init 1 4096)).map
      (fun t => (t.mode, (t.pool.ulog ⟨0, .external⟩).next)) = some (.run, 1024) := by
    decide +kernel
  obtain ⟨t, hrun, ht⟩ := Option.map_eq_some_iff.mp hend
  obtain ⟨hmode, hnext⟩ := Prod.mk.inj ht
  exact ⟨t, hrun, hmode, hnext, mirrored_run has hrun⟩

/-- A transaction whose snapshot needs two further ulogs is cut by a crash. The recovery frees the
second one through a context of its own. -/
def crashInLongTx : List Act :=
  [.begin 0, .addBuffer 0 5000 (List.replicate 2100 7), .extend 0 1024 64 [1, 2, 3, 4],
    .process ⟨0, .internal⟩, .clobber ⟨0, .internal⟩, .extend 0 1280 128 [1, 2, 3, 4],
    .process ⟨0, .internal⟩, .clobber ⟨0, .internal⟩, .copyData 0, .copyHead 0, .copyData 0,
    .copyHead 0, .copyData 0, .copyHead 0, .reopen, .replay, .replay, .recover 0 [],
    .recover 0 [], .recover 0 [1, 2, 3, 4], .process ⟨0, .internal⟩, .clobber ⟨0, .internal⟩,
    .recover 0 [], .recover 0 []]

/-- The vector of the lane still names the ulog that was freed. -/
theorem not_mirrored_crashInLongTx :
    ¬ ∀ (nlanes size : Nat) (as : List Act) (t : State),
      Transition.run step as (State.init nlanes size) = some t → Mirrored t := by
  intro h
  have hend : (Transition.run step crashInLongTx (State.init 1 4096)).map
      (fun t => (t.mode, t.pool.nlanes, (t.lanes 0).phase, ((t.lanes 0).ctx .undo).next,
        (t.pool.blocks 1280).isSome)) = some (.run, 1, .idle, [1024, 1280], false) := by
    decide +kernel
  obtain ⟨t, hrun, ht⟩ := Option.map_eq_some_iff.mp hend
  simp only [Prod.mk.injEq] at ht
  obtain ⟨hmode, hnlanes, hidle, hnext, hfreed⟩ := ht
  have hlane := h 1 4096 crashInLongTx t hrun hmode 0 (by rw [hnlanes]; exact Nat.one_pos)
  have hallocated := (hlane.1 hidle .undo).allocated 1280 (by rw [hnext]; simp)
  rw [hfreed] at hallocated
  cases hallocated

end Pmdk.Lanes
