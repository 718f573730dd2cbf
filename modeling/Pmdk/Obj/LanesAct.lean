import Pmdk.Obj.LanesInv

/-!
# The operations of a lane

What a lane does by itself keeps the invariant of the contexts: it writes to its logs, stores a
redo log for the allocator, and goes from one phase to the next.
-/

namespace Pmdk.Lanes

open Undo (Loc Ctx Job Write laneUndoSize)
open List
open Function

/-! ## The current ulog -/

section Current

variable {l : Log → List (Nat × Nat × Nat)} {p : Pool} {i : Nat} {ctx ctx' : Ctx}
  {m : List (Nat × Nat × Nat)}

variable {loc : Loc} {n : Nat} {tx : Bool}

theorem logs_split {pre post : List (Loc × Nat)} {c : Nat} (h : logs m = pre ++ (loc, c) :: post) :
    ∃ l₀ l₁, m = l₀ ++ l₁ ∧ loc = lastLoc l₀ ∧ post = l₁.map fun x => (.ext x.1, x.2.2) := by
  cases pre with
  | nil =>
    obtain ⟨heq, hpost⟩ := List.cons.inj h
    obtain ⟨rfl, -⟩ := Prod.mk.inj heq
    exact ⟨[], m, rfl, rfl, hpost.symm⟩
  | cons y pre =>
    obtain ⟨-, hmap⟩ := List.cons.inj h
    obtain ⟨l₁, l', rfl, -, hl'⟩ := map_eq_append_iff.mp hmap
    obtain ⟨x, l₂, rfl, hx, hpost⟩ := map_eq_cons_iff.mp hl'
    obtain ⟨rfl, -⟩ := Prod.mk.inj hx
    exact ⟨l₁ ++ [x], l₂, by simp, (lastLoc_concat l₁ x).symm, hpost.symm⟩

theorem sum_logs (m : List (Nat × Nat × Nat)) :
    ((logs m).map Prod.snd).sum = laneUndoSize + capacities m := by
  rw [logs, map_cons, sum_cons, map_map]
  rfl

theorem Chains.next_of_room (h : Chains p l) {pre post : List (Loc × Nat)} {c : Nat}
    (hlogs : logs (l ⟨i, .undo⟩) = pre ++ (loc, c) :: post) :
    ∃ u, (p.view ⟨i, .undo⟩).get loc = some u ∧
      ((pre.map Prod.snd).sum + c < laneUndoSize + capacities (l ⟨i, .undo⟩) → u.next ≠ 0) ∧
      (u.next ≠ 0 → ∃ v rest, p.blocks u.next = some v ∧
        post = (.ext u.next, v.capacity) :: rest) := by
  obtain ⟨l₀, l₁, hl, rfl, rfl⟩ := logs_split hlogs
  obtain ⟨u, hu, hnext⟩ := h.get_next hl
  refine ⟨u, hu, fun hlt => ?_, fun hne => ?_⟩
  · rw [← sum_logs, hlogs, map_append, sum_append, map_cons, sum_cons] at hlt
    cases l₁ with
    | nil =>
      simp only [map_nil, sum_nil] at hlt
      omega
    | cons x l₁ =>
      rw [hnext]
      exact ((h.forest.chain _).mem (show x ∈ l ⟨i, .undo⟩ by simp [hl])).1
  · cases l₁ with
    | nil => exact absurd hnext hne
    | cons x l₁ =>
      obtain ⟨v, hv, hvx⟩ := h.get_block (show x ∈ l ⟨i, .undo⟩ by simp [hl])
      have hux : u.next = x.1 := hnext
      refine ⟨v, l₁.map fun x => (.ext x.1, x.2.2), hux ▸ hv, ?_⟩
      rw [hux, map_cons, ← hvx]
      rfl

theorem select_placed {size : Nat} (h : Chains p l)
    (hnext : ctx.next = (l ⟨i, .undo⟩).map Prod.fst) (hplaced : Placed ctx (l ⟨i, .undo⟩))
    (hcap : ctx.ulogCapacity = laneUndoSize + capacities (l ⟨i, .undo⟩) ∨
      ctx.currCapacity = 0 ∧ ctx.ulogCapacity < ctx.totalLogged + (size + 24))
    (hsel : ctx.select (p.view ⟨i, .undo⟩) size = some ctx') :
    ctx'.next = ctx.next ∧ Placed ctx' (l ⟨i, .undo⟩) ∧ ctx'.currCapacity ≠ 0 ∧
      ctx'.ulogCapacity = laneUndoSize + capacities (l ⟨i, .undo⟩) := by
  unfold Ctx.select at hsel
  split at hsel
  · rename_i hne
    cases hsel
    exact ⟨rfl, hplaced, hne, hcap.resolve_right fun h0 => hne h0.1⟩
  · rename_i hzero
    rw [not_not] at hzero
    obtain ⟨ulogCapacity, hulog, hsel⟩ := Option.bind_eq_some_iff.mp hsel
    obtain ⟨loc', hloc', hsel⟩ := Option.bind_eq_some_iff.mp hsel
    obtain ⟨v, hv, rfl⟩ := Option.map_eq_some_iff.mp hsel
    have hcapacity : ulogCapacity = laneUndoSize + capacities (l ⟨i, .undo⟩) := by
      split at hulog
      · rw [hnext, h.reserved_eq] at hulog
        obtain ⟨-, hulog⟩ := Option.filter_eq_some_iff.mp hulog |>.symm
        exact (Option.some.inj hulog).symm
      · rename_i hle
        cases hulog
        exact hcap.resolve_right fun hlt => hle hlt.2
    refine ⟨rfl, ?_, ?_, hcapacity⟩
    · rcases hplaced with ⟨hcurr, -, htotal⟩ | ⟨pre, loc, c, post, hlogs, hcurr, -, htotal⟩
      · rw [hcurr] at hloc'
        cases hloc'
        cases hv
        refine .inr ⟨[], .base, laneUndoSize, _, rfl, rfl, ?_, ?_⟩
        · show (p.ulog ⟨i, .undo⟩).capacity % 64 = 0
          rw [h.undo]
          rfl
        · show ctx.totalLogged + (p.ulog ⟨i, .undo⟩).capacity = _
          rw [h.undo, htotal]
          rfl
      · obtain ⟨u, hu, -, hpost⟩ := h.next_of_room hlogs
        rw [hcurr] at hloc'
        dsimp only at hloc'
        rw [hu, Option.bind_some] at hloc'
        split at hloc'
        · cases hloc'
        · rename_i hne
          cases hloc'
          obtain ⟨w, rest, hw, rfl⟩ := hpost hne
          obtain rfl : w = v := Option.some.inj (hw.symm.trans hv)
          refine .inr ⟨pre ++ [(loc, c)], .ext u.next, w.capacity, rest, ?_, rfl, ?_, ?_⟩
          · rw [hlogs, append_assoc]
            rfl
          · have hheap : p.heap u.next = some (shape w) := by rw [Pool.heap, hw, Option.map_some]
            exact (h.block hheap).2.2
          · show ctx.totalLogged + w.capacity = _
            rw [map_append, sum_append, map_singleton, sum_singleton]
            omega
    · show v.capacity ≠ 0
      cases loc' with
      | base =>
        cases hv
        rw [show (p.view ⟨i, .undo⟩).undo.capacity = laneUndoSize from h.undo i]
        decide
      | ext o =>
        have hheap : p.heap o = some (shape v) := by
          rw [Pool.heap, show p.blocks o = some v from hv, Option.map_some]
        have hle : 64 ≤ v.capacity := (h.block hheap).2.1
        omega

theorem Placed.advance (h : Placed ctx m) (hn : n ≤ ctx.currCapacity)
    (hmod : n % 64 = 0) : Placed (ctx.advance n) m := by
  rcases h with ⟨hcurr, hcap, htotal⟩ | ⟨pre, loc, c, post, hlogs, hcurr, halign, htotal⟩
  · refine .inl ⟨hcurr, ?_, ?_⟩
    · show ctx.currCapacity - n = 0
      omega
    · show ctx.totalLogged + n = 0
      omega
  · refine .inr ⟨pre, loc, c, post, hlogs, hcurr, ?_, ?_⟩
    · show (ctx.currCapacity - n) % 64 = 0
      omega
    · show ctx.totalLogged + n + (ctx.currCapacity - n) = _
      omega

theorem Placed.mod_eq_zero (h : Placed ctx m) : ctx.currCapacity % 64 = 0 := by
  rcases h with ⟨-, hcap, -⟩ | ⟨_, _, _, _, -, -, halign, -⟩
  · rw [hcap]
  · exact halign

end Current

/-! ## The actions of a lane -/

variable {ws : List UInt64} {u : Undo.State} {q : Pool}

section Act

variable {l : Log → List (Nat × Nat × Nat)} {s t : State} {i : Nat}

theorem ExternalOk.of_phase {ctx : Ctx} {m : List (Nat × Nat × Nat)} {phase : Phase}
    (h : ExternalOk ctx m phase) (hphase : ∀ tx n, phase ≠ .open tx (.reserve n))
    (phase' : Phase) : ExternalOk ctx m phase' :=
  ⟨h.1, .inl (h.2.resolve_right fun ⟨tx, n, heq, _⟩ => hphase tx n heq)⟩

theorem freeWrites_eq_frees (h : Chains s.pool l) {m : List (Nat × Ulog)}
    (hm : (s.pool.view ⟨i, .undo⟩).chain = some m) : Undo.freeWrites m = frees (l ⟨i, .undo⟩) := by
  obtain ⟨m', hm', heq⟩ := h.view_chain ⟨i, .undo⟩
  obtain rfl : m = m' := Option.some.inj (hm.symm.trans hm')
  rw [frees, ← heq, ← map_dropLast, map_map]
  rfl

theorem zeroWrites_zero {p : Undo.Pool} {next : List Nat} {zs : List Write}
    (h : Undo.zeroWrites p n next = some zs) : ∀ w ∈ zs, ∃ loc nbytes, w = .zero loc nbytes := by
  unfold Undo.zeroWrites at h
  split at h
  · cases h
    intro w hw
    exact ⟨_, _, mem_singleton.mp hw⟩
  · obtain ⟨o, -, h⟩ := Option.bind_eq_some_iff.mp h
    obtain ⟨u, -, rfl⟩ := Option.map_eq_some_iff.mp h
    intro w hw
    rcases mem_cons.mp hw with rfl | hw
    · exact ⟨_, _, rfl⟩
    · exact ⟨_, _, mem_singleton.mp hw⟩

theorem finishUndo_ok (h : Inv l s) (hi : i < s.pool.nlanes) (hrun : s.mode = .run)
    (hquiet : (s.pool.redo ⟨i, .internal⟩).waiting = false) (hpq : SameShape s.pool q)
    (hredo : ∀ k, k ≠ ⟨i, .external⟩ → q.redo k = s.pool.redo k)
    (hpublish : PublishOk (q.redo ⟨i, .external⟩))
    (hphase : ∀ tx n, (s.lanes i).phase ≠ .open tx (.reserve n))
    (hzero : ((s.lanes i).ctx .undo).totalLogged = 0 →
      Agrees ((s.lanes i).ctx .undo) laneUndoSize (l ⟨i, .undo⟩))
    (hs : s.finishUndo i q = some t) : Inv l t := by
  obtain ⟨todo, htodo, rfl⟩ := Option.map_eq_some_iff.mp hs
  refine h.put_quiet hi hrun hquiet hpq hredo hpublish rfl
    ((h.lane i hi).external.of_phase hphase _) ?_
  unfold Undo.finishWrites at htodo
  show if _ then _ else _
  split at htodo
  · rename_i h0
    cases htodo
    rw [if_pos h0]
    exact ⟨rfl, hzero h0⟩
  · rename_i h0
    rw [if_neg h0]
    obtain ⟨zs, hzs, htodo⟩ := Option.bind_eq_some_iff.mp htodo
    obtain ⟨m, hm, rfl⟩ := Option.map_eq_some_iff.mp htodo
    refine ⟨zs, zeroWrites_zero hzs, ?_⟩
    rw [freeWrites_eq_frees (s := { s with pool := q }) (h.chains.congr hpq) hm]

theorem published_ok (h : Inv l s) (hi : i < s.pool.nlanes) (hrun : s.mode = .run)
    (hquiet : (s.pool.redo ⟨i, .internal⟩).waiting = false) (hpq : SameShape s.pool q)
    (hredo : ∀ k, k ≠ ⟨i, .external⟩ → q.redo k = s.pool.redo k)
    (hpublish : PublishOk (q.redo ⟨i, .external⟩))
    (hphase : ∀ tx n, (s.lanes i).phase ≠ .open tx (.reserve n))
    (hagrees : Agrees ((s.lanes i).ctx .undo) laneUndoSize (l ⟨i, .undo⟩))
    (hs : s.published i tx q = some t) : Inv l t := by
  unfold State.published at hs
  split at hs
  · exact finishUndo_ok h hi hrun hquiet hpq hredo hpublish hphase (fun _ => hagrees) hs
  · cases hs
    exact h.put_quiet hi hrun hquiet hpq hredo hpublish rfl
      ((h.lane i hi).external.of_phase hphase _) hagrees

theorem UndoOk.agrees {ctx : Ctx} {m : List (Nat × Nat × Nat)}
    (h : UndoOk ctx m (.open tx .none)) : Agrees ctx laneUndoSize m := by
  cases tx with
  | false => exact h
  | true => exact ⟨h.1, h.2.2⟩

theorem publish_ok (h : Inv l s) (hi : i < s.pool.nlanes) (hrun : s.mode = .run)
    (hquiet : (s.pool.redo ⟨i, .internal⟩).waiting = false)
    (hphase : (s.lanes i).phase = .open tx .none) (hs : s.publish i tx ws = some t) : Inv l t := by
  have hlane := h.lane i hi
  have hundo := hlane.undo
  have hexternal := hlane.external
  rw [hphase] at hundo hexternal
  have hne : ∀ tx n, (s.lanes i).phase ≠ .open tx (.reserve n) := fun tx n heq => by
    rw [hphase] at heq
    cases heq
  unfold State.publish at hs
  dsimp only at hs
  split at hs
  · split at hs
    · cases hs
    · exact published_ok h hi hrun hquiet (SameShape.refl _) (fun _ _ => rfl) hlane.publish hne
        hundo.agrees hs
  · cases hs
  · obtain ⟨q, hq, hs⟩ := Option.bind_eq_some_iff.mp hs
    obtain ⟨hpq, hredo⟩ := publish_sameShape hq
    exact published_ok h hi hrun hquiet hpq (fun k _ => by rw [hredo])
      (by rw [hredo]; exact hlane.publish) hne hundo.agrees hs
  · obtain ⟨q, hq, rfl⟩ := Option.map_eq_some_iff.mp hs
    have hhead : ((s.lanes i).ctx .external).next.head?.getD 0 = s.pool.head ⟨i, .external⟩ := by
      rw [hexternal.1]
      exact (h.chains.forest.chain _).head_eq
    have hredo := ulogStore_redo hq
    refine h.put_quiet hi hrun hquiet (ulogStore_sameShape hhead (by simp) hq)
      (fun k hk => by rw [hredo, update_of_ne hk]) ?_ rfl
      (hexternal.of_phase (by simp) _) hundo.agrees
    rw [hredo, update_self]
    exact ⟨_, _, rfl⟩

theorem putUndo_ok (h : Inv l s) (hi : i < s.pool.nlanes) (hrun : s.mode = .run)
    (hquiet : (s.pool.redo ⟨i, .internal⟩).waiting = false)
    (hphase : ∀ tx n, (s.lanes i).phase ≠ .open tx (.reserve n))
    {v v' : Ulog} (hv : (s.pool.view ⟨i, .undo⟩).get loc = some v)
    (hu : u.pool = (s.pool.view ⟨i, .undo⟩).set v' loc) (hshape : shape v' = shape v)
    (hundo : UndoOk u.ctx (l ⟨i, .undo⟩) (.open true (match u.phase with
      | .work (some job) => .addBuffer job
      | _ => .none))) : Inv l (s.putUndo i u) := by
  refine h.put_quiet hi hrun hquiet ?_ (fun _ _ => rfl) (h.lane i hi).publish rfl
    ((h.lane i hi).external.of_phase hphase _) hundo
  rw [hu]
  exact SameShape.of_set hv hshape

theorem copyData_ok (h : Inv l s) (hi : i < s.pool.nlanes) (hrun : s.mode = .run)
    (hquiet : (s.pool.redo ⟨i, .internal⟩).waiting = false) {dest : Nat} {bytes : List UInt8}
    (hphase : (s.lanes i).phase = .open true (.addBuffer ⟨dest, bytes, false⟩))
    (hs : (s.undo i ⟨dest, bytes, false⟩).copyData ⟨dest, bytes, false⟩ = some u) :
    Inv l (s.putUndo i u) := by
  have hundo := (h.lane i hi).undo
  rw [hphase] at hundo
  obtain ⟨hnext, hplaced, hdest, hcap⟩ := hundo
  obtain ⟨ctx, hsel, hs⟩ := Option.bind_eq_some_iff.mp hs
  obtain ⟨loc, hloc, hs⟩ := Option.bind_eq_some_iff.mp hs
  obtain ⟨v, hv, rfl⟩ := Option.map_eq_some_iff.mp hs
  obtain ⟨hnext', hplaced', hne, hcap'⟩ := select_placed h.chains hnext hplaced hcap hsel
  refine putUndo_ok h hi hrun hquiet (by simp [hphase]) hv rfl rfl ?_
  exact ⟨hnext'.trans hnext, hplaced', hdest, hne, hcap'⟩

theorem copyHead_ok (h : Inv l s) (hi : i < s.pool.nlanes) (hrun : s.mode = .run)
    (hquiet : (s.pool.redo ⟨i, .internal⟩).waiting = false) {dest : Nat} {bytes : List UInt8}
    (hphase : (s.lanes i).phase = .open true (.addBuffer ⟨dest, bytes, true⟩))
    (hs : (s.undo i ⟨dest, bytes, true⟩).copyHead ⟨dest, bytes, true⟩ = some u) :
    Inv l (s.putUndo i u) := by
  have hundo := (h.lane i hi).undo
  rw [hphase] at hundo
  obtain ⟨hnext, hplaced, hdest, hne, hcap⟩ := hundo
  obtain ⟨loc, hloc, hs⟩ := Option.bind_eq_some_iff.mp hs
  obtain ⟨v, hv, rfl⟩ := Option.map_eq_some_iff.mp hs
  have hmod := hplaced.mod_eq_zero
  have hlen := @Undo.length_entryWords ⟨dest, bytes, true⟩ ((s.lanes i).ctx .undo)
    (show bytes.length < 2 ^ 61 by omega) (by omega)
  dsimp only at hlen
  refine putUndo_ok h hi hrun hquiet (by simp [hphase]) hv rfl rfl ⟨hnext, ?_, ?_⟩
  · refine hplaced.advance ?_ ?_
    · show (Undo.entryWords ((s.lanes i).ctx .undo) ⟨dest, bytes, true⟩).length * 8 ≤ _
      omega
    · show (Undo.entryWords ((s.lanes i).ctx .undo) ⟨dest, bytes, true⟩).length * 8 % 64 = 0
      omega
  · dsimp only
    split
    · rename_i job heq
      split at heq
      · cases heq
      · cases heq
        refine ⟨?_, .inl hcap⟩
        rw [length_drop]
        have hle : ((s.lanes i).ctx .undo).dataSize bytes.length ≤ bytes.length := by
          rw [Ctx.dataSize]
          omega
        show dest + ((s.lanes i).ctx .undo).dataSize bytes.length +
          (bytes.length - ((s.lanes i).ctx .undo).dataSize bytes.length) < _
        omega
    · exact hcap

theorem Inv.next_eq (h : Inv l s) (hi : i < s.pool.nlanes) {slot : Slot}
    (hasked : (s.lanes i).asked = some (slot, n)) :
    ((s.lanes i).ctx slot).next = (l ⟨i, slot⟩).map Prod.fst ∧ slot ≠ .internal := by
  have hlane := h.lane i hi
  unfold Lane.asked at hasked
  split at hasked
  · obtain ⟨rfl, -⟩ := Prod.mk.inj (Option.some.inj hasked)
    exact ⟨hlane.external.1, by simp⟩
  · rename_i hphase
    have hundo := hlane.undo
    rw [hphase] at hundo
    split at hasked
    · obtain ⟨rfl, -⟩ := Prod.mk.inj (Option.some.inj hasked)
      exact ⟨hundo.1, by simp⟩
    · cases hasked
  · cases hasked

theorem short_eq_some {slot : Slot} (h : s.short i = some slot) :
    ∃ n, (s.lanes i).asked = some (slot, n) ∧ ((s.lanes i).ctx slot).ulogCapacity < n := by
  obtain ⟨⟨slot', n⟩, hasked, h⟩ := Option.bind_eq_some_iff.mp h
  dsimp only at h
  split at h
  · rename_i hlt
    cases h
    exact ⟨n, hasked, hlt.1⟩
  · cases h

theorem store_ok (h : Inv l s) (hi : i < s.pool.nlanes) (hrun : s.mode = .run) {c : Change}
        (hs : s.pool.ulogStore ⟨i, .internal⟩ ((s.lanes i).ctx .internal).next ws c = some q)
    (hredo : RedoOk l s.pool i (s.lanes i) (.stored c))
    (hfresh : ∀ o, (Redo.stored c).offset = some o → ∀ j < s.pool.nlanes, j ≠ i →
      (s.pool.redo ⟨j, .internal⟩).offset ≠ some o) : Inv l (s.put i q (s.lanes i)) := by
  have hlane := h.lane i hi
  have hhead : ((s.lanes i).ctx .internal).next.head?.getD 0 = s.pool.head ⟨i, .internal⟩ := by
    have hchain := h.chains.forest.chain ⟨i, .internal⟩
    rw [h.chains.internal] at hchain
    rw [hlane.internal.next]
    exact hchain.symm
  have hq := ulogStore_redo hs
  have hpq := ulogStore_sameShape hhead (by simp) hs
  refine h.put hpq (fun j hj slot => by rw [hq, update_of_ne (by simp [hj])]) ?_ ?_ hrun
  · exact {
      internal := hlane.internal
      external := hlane.external
      undo := hlane.undo
      redo := by
        rw [hq, update_self]
        match c, hredo with
        | .link _ _ _ _, ⟨hk, hasked, hloc, hfree, hne, hlt, hcap⟩ =>
          exact ⟨hk, hasked, hloc, by rw [hpq.heap, hfree], hne, hpq.size ▸ hlt, hcap⟩
        | .unlink _ _ _, hredo => exact hredo
      publish := by
        rw [hq, update_of_ne (by simp)]
        exact hlane.publish
      noRedo := by
        rw [hq, update_of_ne (by simp)]
        exact hlane.noRedo }
  · rw [hq, update_self]
    exact hfresh

theorem put_self (s : State) (i : Nat) (q : Pool) :
    s.put i q (s.lanes i) = { s with pool := q } := by
  rw [State.put, update_eq_self]

theorem extend_ok (h : Inv l s) (hi : i < s.pool.nlanes) (hrun : s.mode = .run)
    {offset capacity : Nat} (hs : s.extend i offset capacity ws = some t) :
    Inv l t := by
  obtain ⟨slot, hshort, hs⟩ := Option.bind_eq_some_iff.mp hs
  obtain ⟨n, hasked, hlt⟩ := short_eq_some hshort
  split at hs
  · rename_i hoffset
    obtain ⟨hne, hsize, hnone, hpending, hcap⟩ := hoffset
    obtain ⟨q, hq, rfl⟩ := Option.map_eq_some_iff.mp hs
    rw [← put_self s i q]
    refine store_ok h hi hrun hq ?_ fun o ho j hj _ => ?_
    · refine ⟨rfl, ⟨n, hasked, hlt⟩, last_eq_lastLoc (h.next_eq hi hasked).1, ?_, hne, hsize, hcap⟩
      rw [Pool.heap, Option.isNone_iff_eq_none.mp hnone, Option.map_none]
    · obtain rfl : offset = o := Option.some.inj ho
      exact hpending j hj
  · cases hs

theorem frees_eq_cons {m : List (Nat × Nat × Nat)} {w : Write} {todo : List Write}
    (h : w :: todo = frees m) : ∃ l₀ a n x, m = l₀ ++ [(a, n), x] ∧ w = .freeNext (.ext a) := by
  rcases eq_nil_or_concat m with rfl | ⟨m, x, rfl⟩
  · cases h
  · rw [frees, concat_eq_append, dropLast_concat] at h
    rcases eq_nil_or_concat m with rfl | ⟨l₀, ⟨a, n⟩, rfl⟩
    · cases h
    · rw [concat_eq_append, map_append, reverse_append] at h
      refine ⟨l₀, a, n, x, by simp, ?_⟩
      simpa using (List.cons.inj h).1

theorem frees_concat (l₀ : List (Nat × Nat × Nat)) (a : Nat) (n n' : Nat × Nat)
    (x : Nat × Nat × Nat) :
    frees (l₀ ++ [(a, n), x]) = .freeNext (.ext a) :: frees (l₀ ++ [(a, n')]) := by
  rw [frees, frees, dropLast_concat, show l₀ ++ [(a, n), x] = l₀ ++ [(a, n)] ++ [x] by simp,
    dropLast_concat]
  simp

theorem Inv.offset_ne_of_mem (h : Inv l s) {j : Nat} (hj : j < s.pool.nlanes) {k : Log}
    {x : Nat × Nat × Nat} (hx : x ∈ l k) (hk : k.lane ≠ j) :
    (s.pool.redo ⟨j, .internal⟩).offset ≠ some x.1 := by
  intro hoff
  have hheap := ((h.chains.forest.chain k).mem hx).2
  have hother : ∀ k' : Log, k'.lane = j → ∀ y ∈ l k', x.1 ≠ y.1 := fun k' hk' y hy =>
    h.chains.forest.disjoint (fun heq => hk (by rw [heq, hk'])) x hx y hy
  have hredo := (h.lane j hj).redo
  generalize s.pool.redo ⟨j, .internal⟩ = r at hoff hredo
  match r, hoff, hredo with
  | .stored (.link _ _ _ _), hoff, ⟨_, _, _, hfree, _⟩ =>
    cases hoff
    rw [hfree] at hheap
    cases hheap
  | .stored (.unlink k' _ o), hoff, ⟨hk', l₁, b, n, n', hl₁, _⟩ =>
    exact hother k' (by rw [hk']) (o, n') (by simp [hl₁]) (Option.some.inj hoff).symm
  | .processed (.link k' _ o _), hoff, ⟨hk', l₁, n, hl₁, _⟩ =>
    exact hother k' hk' (o, n) (by simp [hl₁]) (Option.some.inj hoff).symm
  | .processed (.unlink _ _ _), hoff, ⟨_, _, _, _, _, _, hfree⟩ =>
    cases hoff
    rw [hfree] at hheap
    cases hheap

theorem finish_ok (h : Inv l s) (hi : i < s.pool.nlanes) (hrun : s.mode = .run)
    (hquiet : (s.pool.redo ⟨i, .internal⟩).waiting = false) {w : Write} {todo : List Write}
    (hphase : (s.lanes i).phase = .finish (w :: todo))
    (hs : s.pool.clobberData s.lanes i i ws w = some q) :
    Inv l (s.put i q { s.lanes i with phase := .finish (remaining (w :: todo)) }) := by
  have hlane := h.lane i hi
  have hundo := hlane.undo
  rw [hphase] at hundo
  by_cases h0 : ((s.lanes i).ctx .undo).totalLogged = 0
  · rw [UndoOk, if_pos h0] at hundo
    cases hundo.1
  · rw [UndoOk, if_neg h0] at hundo
    obtain ⟨zs, hzs, htodo⟩ := hundo
    cases w with
    | zero loc nbytes =>
      obtain ⟨v, hv, rfl⟩ := Option.map_eq_some_iff.mp hs
      refine h.put_quiet hi hrun hquiet (zero_sameShape hv) (fun _ _ => rfl) hlane.publish rfl
        (hlane.external.of_phase (by simp [hphase]) _) ?_
      show if _ then _ else _
      rw [if_neg h0]
      cases zs with
      | nil =>
        obtain ⟨_, _, _, _, -, hw⟩ := frees_eq_cons htodo
        cases hw
      | cons z zs =>
        exact ⟨zs, fun y hy => hzs y (mem_cons_of_mem z hy), (List.cons.inj htodo).2⟩
    | freeNext loc =>
      obtain ⟨u, hu, hs⟩ := Option.bind_eq_some_iff.mp hs
      cases zs with
      | cons z zs =>
        obtain ⟨_, _, hz⟩ := hzs z mem_cons_self
        rw [hz] at htodo
        cases htodo
      | nil =>
        rw [nil_append] at htodo
        obtain ⟨l₀, a, n, ⟨o, n'⟩, hl₀, hw⟩ := frees_eq_cons htodo
        cases hw
        have hget := h.chains.get_next (show l ⟨i, .undo⟩ = l₀ ++ [(a, n)] ++ [(o, n')] by
          rw [hl₀, append_assoc]; rfl)
        rw [lastLoc_concat] at hget
        obtain ⟨u', hu', hnext⟩ := hget
        obtain rfl : u' = u := Option.some.inj (hu'.symm.trans hu)
        obtain rfl : u'.next = o := hnext
        have hsame : { s.lanes i with phase := .finish (remaining
            (.freeNext (.ext a) :: todo)) } = s.lanes i := by
          show { s.lanes i with phase := .finish (.freeNext (.ext a) :: todo) } = s.lanes i
          rw [← hphase]
        rw [hsame]
        refine store_ok h hi hrun hs ⟨rfl, l₀, a, n, n', hl₀, rfl, htodo ▸ hphase, h0⟩
          fun o' ho' j hj hne hoff => ?_
        cases ho'
        have hmem : (u'.next, n') ∈ l ⟨i, .undo⟩ := by simp [hl₀]
        exact h.offset_ne_of_mem hj hmem (Ne.symm hne) hoff

theorem finished_ok (h : Inv l s) (hi : i < s.pool.nlanes) (hrun : s.mode = .run)
    (hquiet : (s.pool.redo ⟨i, .internal⟩).waiting = false)
    (hphase : (s.lanes i).phase = .finish []) (hs : s.finished i = some t) : Inv l t := by
  have hlane := h.lane i hi
  have hundo := hlane.undo
  rw [hphase] at hundo
  unfold State.finished at hs
  dsimp only at hs
  split at hs
  · rename_i h0
    rw [UndoOk, if_pos h0] at hundo
    cases hs
    exact h.put_lane hi hrun hquiet rfl (hlane.external.of_phase (by simp [hphase]) _) hundo.2
  · rw [h.chains.operationNew_eq] at hs
    cases hs
    exact h.put_lane hi hrun hquiet rfl (hlane.external.of_phase (by simp [hphase]) _) ⟨rfl, rfl⟩

end Act

end Pmdk.Lanes
