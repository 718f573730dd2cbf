import Pmdk.Obj.TxActions

/-!
# Aborted transactions and their reservations

`Ledger` states that the actions of a transaction are the account of what it has reserved: they hold
the counters that have changed, and their blocks are those that are not in the default bucket. A
call keeps the account unless it loses an action or makes a reservation that it does not enter;
`Keeps` says when it does not.
-/

namespace Pmdk.TxActions

open Extend (Block)
open List
open Palloc
open Tx (Thread Event)
open TxRange (maxAllocSize vecErase)

variable {before : Nat → Int} {s s' : State} {mallocs : List Bool}

/-! ## The account -/

structure Ledger (before : Nat → Int) (s : State) : Prop where
  nresv : ∀ r, s.heap.nresv r = before r + held s.actions r
  reserved : s.reserved.Perm (s.actions.filterMap Action.reserved)

structure Clean (before : Nat → Int) (s : State) : Prop where
  nresv : ∀ r, s.heap.nresv r = before r
  tracked : ∀ b ∈ s.reserved, Tracked s.heap.bucket b

/-- After `tx_abort` nothing is left, and otherwise the account is right. -/
structure Inv (before : Nat → Int) (s : State) : Prop where
  ledger : ¬ Aborted s.thread → Ledger before s
  clean : Aborted s.thread → Clean before s ∧ s.actions = []

theorem Ledger.txAbort (h : Ledger before s) (hmallocs : false ∉ mallocs)
    (hs : s.txAbort mallocs = some s') : Clean before s' ∧ s'.actions = [] := by
  obtain ⟨heap, hheap, rfl⟩ := Option.map_eq_some_iff.mp hs
  refine ⟨⟨fun r => ?_, fun b hb => ?_⟩, rfl⟩
  · rw [pallocCancel_nresv hheap, h.nresv]
    exact Int.add_sub_cancel _ _
  · exact pallocCancel_tracked hheap hmallocs (.inl (h.reserved.mem_iff.mp hb))

theorem Ledger.follow {t : Thread} (h : Ledger before s) (hmallocs : false ∉ mallocs)
    (hs : s.follow mallocs t = some s') : Inv before s' ∧ s'.thread = t := by
  unfold State.follow at hs
  split at hs
  · rename_i habort
    obtain ⟨u, hu, rfl⟩ := Option.map_eq_some_iff.mp hs
    obtain ⟨hclean, hnil⟩ := h.txAbort hmallocs hu
    exact ⟨⟨fun hno => absurd habort hno, fun _ => ⟨⟨hclean.nresv, hclean.tracked⟩, hnil⟩⟩, rfl⟩
  · rename_i hno
    obtain rfl := Option.some.inj hs
    exact ⟨⟨fun _ => ⟨h.nresv, h.reserved⟩, fun habort => absurd habort hno⟩, rfl⟩

theorem objTxAbort_aborted {errnum : Int} {t t' : Thread} (h : Tx.objTxAbort errnum t = some t')
    (hone : t.txEntries ≤ 1) : Aborted t' := by
  unfold Tx.objTxAbort at h
  split at h
  · cases h
  · dsimp only at h
    split at h
    · cases h
    · obtain ⟨u, hu, hcb⟩ := Option.bind_eq_some_iff.mp h
      have hu' : Event.cancel ∈ u.log := by
        unfold Tx.laneRelease Tx.txAbort Thread.emit at hu
        split at hu
        · cases hu
        · rw [← Option.some.inj hu]
          simp
      unfold Tx.objTxCallback at hcb
      split at hcb
      · rw [← Option.some.inj hcb]
        exact hu'
      · cases hcb
      · rw [← Option.some.inj hcb]
        exact mem_append_left _ hu'
      · rw [← Option.some.inj hcb]
        exact hu'
    · rename_i n hmany
      omega

theorem Ledger.objTxAbort {errnum : Int} (h : Ledger before s) (hmallocs : false ∉ mallocs)
    (hs : s.objTxAbort errnum mallocs = some s') :
    Inv before s' ∧ (s.thread.txEntries ≤ 1 → Aborted s'.thread) := by
  obtain ⟨t, ht, hfollow⟩ := Option.bind_eq_some_iff.mp hs
  obtain ⟨hinv, hthread⟩ := h.follow hmallocs hfollow
  exact ⟨hinv, fun hone => hthread ▸ objTxAbort_aborted ht hone⟩

theorem Inv.settle (h : Inv before s) : Ledger before s.settle := by
  by_cases habort : Aborted s.thread
  · obtain ⟨hclean, hnil⟩ := h.clean habort
    refine ⟨fun r => ?_, ?_⟩
    · change s.heap.nresv r = before r + held s.actions r
      rw [hnil, held_nil, Int.add_zero]
      exact hclean.nresv r
    · change (if Aborted s.thread then [] else s.reserved).Perm (s.actions.filterMap _)
      rw [if_pos habort, hnil]
      exact .refl _
  · have hledger := h.ledger habort
    refine ⟨hledger.nresv, ?_⟩
    change (if Aborted s.thread then [] else s.reserved).Perm (s.actions.filterMap _)
    rw [if_neg habort]
    exact hledger.reserved

theorem Ledger.inv (h : Ledger before s) (hlog : ¬ Aborted s.thread) : Inv before s :=
  ⟨fun _ => h, fun habort => absurd habort hlog⟩

/-! ## When a call keeps the account -/

def AddKeeps (log vec : Bool) (s : State) : Prop :=
  log = true → s.capacity = s.actions.length → vec = true

def AllocKeeps (a : AllocAnswers) (s : State) : Prop :=
  AddKeeps a.log a.vec s ∧
    ∀ act ∈ (pallocReserve a.search a.outcome s.heap).1,
      a.log = true → a.malloc = true ∧ act.offset ∉ s.ranges

/-- `pmemobj_tx_free` aborts the transaction and returns an error. -/
def FreeFails (oid : Oid) (f : FreeAnswers) (s : State) : Prop :=
  oid.off ≠ 0 ∧ (oid.samePool = false ∨
    (s.findAction oid.off = none ∧ f.log = false ∧ f.errno ≠ 0))

instance (log vec : Bool) (s : State) : Decidable (AddKeeps log vec s) :=
  inferInstanceAs (Decidable (_ → _ → _))

instance (a : AllocAnswers) (s : State) : Decidable (AllocKeeps a s) :=
  inferInstanceAs (Decidable (_ ∧ ∀ act ∈ _, _ → _))

instance (oid : Oid) (f : FreeAnswers) (s : State) : Decidable (FreeFails oid f s) :=
  inferInstanceAs (Decidable (_ ∧ (_ ∨ _)))

theorem txActionAdd_rest {log vec : Bool} {rest : List Action} {capacity : Nat}
    (hkeep : AddKeeps log vec s) (h : txActionAdd log vec s = .back rest capacity) :
    log = true ∧ rest = s.actions := by
  unfold txActionAdd at h
  split at h
  · cases h
  · rename_i hlog
    rw [Bool.not_eq_false] at hlog
    refine ⟨hlog, ?_⟩
    split at h
    · rename_i hfull
      rw [if_pos (hkeep hlog hfull)] at h
      exact (Slot.back.inj h).1.symm
    · exact (Slot.back.inj h).1.symm

theorem Ledger.txAllocCommon {size : Nat} {a : AllocAnswers} {r : Option Nat × State}
    (h : Ledger before s) (hmallocs : false ∉ mallocs) (hkeep : AllocKeeps a s)
    (hs : txAllocCommon size a mallocs s = some r) :
    (r.1 = none ∧ Inv before r.2) ∨ (r.1 ≠ none ∧ Ledger before r.2 ∧ r.2.thread = s.thread) := by
  have habort : ∀ u : State, Ledger before u →
      (u.objTxAbort Tx.ENOMEM mallocs).map (fun s => (none, s)) = some r →
      (r.1 = none ∧ Inv before r.2) ∨ (r.1 ≠ none ∧ Ledger before r.2 ∧ r.2.thread = s.thread) := by
    intro u hu hr
    obtain ⟨v, hv, rfl⟩ := Option.map_eq_some_iff.mp hr
    exact .inl ⟨rfl, (hu.objTxAbort hmallocs hv).1⟩
  unfold TxActions.txAllocCommon at hs
  split at hs
  · exact habort s h hs
  · split at hs
    · exact habort s h hs
    · cases hs
    · rename_i rest capacity hadd
      obtain ⟨hlog, rfl⟩ := txActionAdd_rest hkeep.1 hadd
      split at hs
      · rename_i heap hreserve
        refine habort { s with heap, capacity } ⟨fun r => ?_, h.reserved⟩ hs
        rw [pallocReserve_nresv hreserve, h.nresv]
        exact Int.add_zero _
      · rename_i act heap hreserve
        obtain ⟨hmalloc, hnew⟩ := hkeep.2 act (by rw [hreserve]; rfl) hlog
        rw [if_neg (by rintro (h | h); exacts [absurd hmalloc (by rw [h]; decide), hnew h])] at hs
        obtain rfl := Option.some.inj hs
        refine .inr ⟨Option.some_ne_none _, ⟨fun r => ?_, ?_⟩, rfl⟩
        · dsimp only
          rw [pallocReserve_nresv hreserve, h.nresv, held_append, Int.add_assoc]
          rfl
        · dsimp only
          rw [filterMap_append]
          refine perm_append_comm.trans (h.reserved.append ?_)
          cases hact : act.reserved <;> simp [hact]

theorem perm_vecErase {α : Type} {v : List α} {i : Nat} {a : α} (hi : v[i]? = some a) :
    v.Perm (a :: vecErase v i) := by
  obtain ⟨init, back, rfl⟩ : ∃ init back, v = init ++ [back] := by
    rcases eq_nil_or_concat v with rfl | ⟨init, back, h⟩
    · exact absurd hi nofun
    · exact ⟨init, back, by rw [h, concat_eq_append]⟩
  have herase : vecErase (init ++ [back]) i = ((init ++ [back]).set i back).dropLast := by
    unfold vecErase
    rw [getLast?_concat]
  rw [herase]
  have hlt := (List.getElem?_eq_some_iff.mp hi).1
  rw [length_append, length_singleton] at hlt
  by_cases hlast : i = init.length
  · subst hlast
    rw [getElem?_append_right (Nat.le_refl _), Nat.sub_self, getElem?_cons_zero,
      Option.some.injEq] at hi
    rw [set_append_right _ _ (Nat.le_refl _), Nat.sub_self, set_cons_zero, dropLast_concat, hi]
    exact perm_append_singleton _ _
  · rw [getElem?_append_left (by omega)] at hi
    rw [set_append_left _ _ (by omega), dropLast_concat]
    have hget := (List.getElem?_eq_some_iff.mp hi).2
    have hsplit : init.set i back = init.take i ++ back :: init.drop (i + 1) := by
      rw [set_eq_take_append_cons_drop, if_pos (by omega)]
    have hinit : init = init.take i ++ a :: init.drop (i + 1) := by
      rw [← hget, getElem_cons_drop, take_append_drop]
    have hfront : init.Perm (a :: (init.take i ++ init.drop (i + 1))) := by
      conv_lhs => rw [hinit]
      exact perm_middle
    rw [hsplit]
    refine (perm_append_singleton _ _).trans ?_
    refine (hfront.cons back).trans ((List.Perm.swap _ _ _).trans ?_)
    exact List.Perm.cons a perm_middle.symm

theorem Ledger.cancelAction {i off : Nat} (h : Ledger before s) (hmallocs : false ∉ mallocs)
    (hs : s.cancelAction i off mallocs = some s') : Ledger before s' ∧ s'.thread = s.thread := by
  obtain ⟨act, hact, hmap⟩ := Option.bind_eq_some_iff.mp hs
  obtain ⟨heap, hheap, rfl⟩ := Option.map_eq_some_iff.mp hmap
  have hperm := perm_vecErase hact
  have hhead : mallocs.headD true = true := by
    cases mallocs with
    | nil => rfl
    | cons m ms =>
      cases m with
      | true => rfl
      | false => exact absurd mem_cons_self hmallocs
  refine ⟨⟨fun r => ?_, ?_⟩, rfl⟩
  · change heap.nresv r = before r + held (vecErase s.actions i) r
    rw [pallocCancel_nresv hheap, h.nresv, held_perm hperm, held_cons, held_cons, held_nil]
    omega
  · change (if mallocs.headD true = true then act.reserved.elim s.reserved s.reserved.erase
      else s.reserved).Perm ((vecErase s.actions i).filterMap Action.reserved)
    rw [if_pos hhead]
    have hres := h.reserved.trans (hperm.filterMap Action.reserved)
    cases hact' : act.reserved with
    | none => rwa [filterMap_cons_none hact'] at hres
    | some b =>
      rw [filterMap_cons_some hact'] at hres
      have herase := hres.erase b
      rwa [erase_cons_head] at herase

theorem Ledger.txFree {oid : Oid} {f : FreeAnswers} {r : Int × State} (h : Ledger before s)
    (hmallocs : false ∉ mallocs) (hkeep : AddKeeps f.log f.vec s)
    (hs : txFree oid f mallocs s = some r) :
    (Ledger before r.2 ∧ r.2.thread = s.thread ∧ r.1 = 0) ∨
      (Inv before r.2 ∧ (s.thread.txEntries ≤ 1 → Aborted r.2.thread) ∧
        (r.1 ≠ 0 → FreeFails oid f s)) := by
  unfold TxActions.txFree at hs
  split at hs
  · cases hs
  · split at hs
    · obtain rfl := Option.some.inj hs
      exact .inl ⟨h, rfl, rfl⟩
    · rename_i hoff
      split at hs
      · rename_i hpool
        obtain ⟨u, hu, rfl⟩ := Option.map_eq_some_iff.mp hs
        obtain ⟨hinv, hab⟩ := h.objTxAbort hmallocs hu
        exact .inr ⟨hinv, hab, fun _ => ⟨hoff, .inl hpool⟩⟩
      · split at hs
        · obtain ⟨u, hu, rfl⟩ := Option.map_eq_some_iff.mp hs
          obtain ⟨hledger, hthread⟩ := h.cancelAction hmallocs hu
          exact .inl ⟨hledger, hthread, rfl⟩
        · rename_i hfind
          split at hs
          · rename_i hadd
            obtain ⟨u, hu, rfl⟩ := Option.map_eq_some_iff.mp hs
            obtain ⟨hinv, hab⟩ := h.objTxAbort hmallocs hu
            have hlog : f.log = false := by
              unfold txActionAdd at hadd
              by_contra hlog
              rw [if_neg hlog] at hadd
              split at hadd
              · split at hadd
                · cases hadd
                · split at hadd <;> cases hadd
              · cases hadd
            exact .inr ⟨hinv, hab, fun herr => ⟨hoff, .inr ⟨hfind, hlog, herr⟩⟩⟩
          · cases hs
          · rename_i rest capacity hadd
            obtain ⟨-, rfl⟩ := txActionAdd_rest hkeep hadd
            obtain rfl := Option.some.inj hs
            refine .inl ⟨⟨fun r => ?_, ?_⟩, rfl, rfl⟩
            · change s.heap.nresv r = before r + held (s.actions ++ [_]) r
              rw [h.nresv, held_append]
              rfl
            · change s.reserved.Perm ((s.actions ++ [_]).filterMap Action.reserved)
              rw [filterMap_append]
              exact h.reserved.trans (.of_eq (append_nil _).symm)

/-- The allocation and the free of a reallocation keep the account, and the free does not fail at an
inner level from which `obj_tx_abort` returns. -/
def ReallocKeeps (oid : Oid) (size : Nat) (a : AllocAnswers) (f : FreeAnswers) (jumps : Bool)
    (mallocs : List Bool) (s : State) : Prop :=
  if size > maxAllocSize then True
  else if oid.off = 0 then AllocKeeps a s
  else if size = 0 then AddKeeps f.log f.vec s
  else
    AllocKeeps a s ∧ ∀ new ∈ txAllocCommon size a mallocs s, new.1 ≠ none →
      AddKeeps f.log f.vec new.2 ∧
        (1 < s.thread.txEntries → jumps = false → ¬ FreeFails oid f new.2)

instance (oid : Oid) (size : Nat) (a : AllocAnswers) (f : FreeAnswers) (jumps : Bool)
    (mallocs : List Bool) (s : State) :
    Decidable (ReallocKeeps oid size a f jumps mallocs s) := by
  unfold ReallocKeeps
  infer_instance

theorem Ledger.txRealloc {oid : Oid} {size : Nat} {a : AllocAnswers} {f : FreeAnswers}
    {jumps : Bool} (h : Ledger before s) (hlog : ¬ Aborted s.thread) (hmallocs : false ∉ mallocs)
    (hkeep : ReallocKeeps oid size a f jumps mallocs s)
    (hs : txRealloc oid size a f jumps mallocs s = some s') : Inv before s' := by
  unfold TxActions.txRealloc at hs
  unfold ReallocKeeps at hkeep
  split at hs
  · cases hs
  · split at hs
    · exact (h.objTxAbort hmallocs hs).1
    · rename_i hsize
      rw [if_neg hsize] at hkeep
      split at hs
      · rename_i hoff
        rw [if_pos hoff] at hkeep
        obtain ⟨r, hr, rfl⟩ := Option.map_eq_some_iff.mp hs
        rcases h.txAllocCommon hmallocs hkeep hr with ⟨-, hinv⟩ | ⟨-, hledger, hthread⟩
        · exact hinv
        · exact hledger.inv (hthread ▸ hlog)
      · rename_i hoff
        rw [if_neg hoff] at hkeep
        split at hs
        · rename_i hzero
          rw [if_pos hzero] at hkeep
          obtain ⟨r, hr, rfl⟩ := Option.map_eq_some_iff.mp hs
          rcases h.txFree hmallocs hkeep hr with ⟨hledger, hthread, -⟩ | ⟨hinv, -⟩
          · exact hledger.inv (hthread ▸ hlog)
          · exact hinv
        · rename_i hzero
          rw [if_neg hzero] at hkeep
          obtain ⟨new, hnew, hs⟩ := Option.bind_eq_some_iff.mp hs
          rcases h.txAllocCommon hmallocs hkeep.1 hnew with
            ⟨hnone, hinv⟩ | ⟨hsome, hledger, hthread⟩
          · rw [hnone] at hs
            exact Option.some.inj hs ▸ hinv
          · split at hs
            · contradiction
            · obtain ⟨hadd, hfails⟩ := hkeep.2 new hnew hsome
              obtain ⟨r, hr, rfl⟩ := Option.map_eq_some_iff.mp hs
              rcases hledger.txFree hmallocs hadd hr with
                ⟨hledger', hthread', hret⟩ | ⟨hinv, hone, herr⟩
              · rw [if_neg fun hne => hne.1 hret]
                exact hledger'.inv (hthread' ▸ hthread ▸ hlog)
              · split
                · -- the free has failed: the transaction is aborted, with no action left
                  rename_i hpop
                  have hout : s.thread.txEntries ≤ 1 := by
                    by_contra hinner
                    exact hfails (by omega) hpop.2 (herr hpop.1)
                  have habort := hone (hthread ▸ hout)
                  obtain ⟨hclean, hnil⟩ := hinv.clean habort
                  refine ⟨fun hno => absurd habort hno, fun _ => ⟨⟨hclean.nresv, hclean.tracked⟩,
                      ?_⟩⟩
                  change r.2.actions.dropLast = []
                  rw [hnil]
                  rfl
                · exact hinv

/-! ## Runs -/

def Keeps (a : Act) (s : State) : Prop :=
  false ∉ a.mallocs ∧
    match a.call with
    | .tx _ => True
    | .alloc _ al => AllocKeeps al s.settle
    | .free _ f => AddKeeps f.log f.vec s.settle
    | .realloc oid size al f jumps => ReallocKeeps oid size al f jumps a.mallocs s.settle

instance (a : Act) (s : State) : Decidable (Keeps a s) := by
  unfold Keeps
  obtain ⟨call, mallocs⟩ := a
  cases call <;> infer_instance

theorem inv_begin (t : Thread) (heap : Heap) : Inv heap.nresv (State.begin t heap) :=
  ⟨fun _ => ⟨fun _ => (Int.add_zero _).symm, .refl _⟩, fun habort => absurd habort not_mem_nil⟩

theorem inv_step {a : Act} (h : Inv before s) (hkeep : Keeps a s) (hs : step a s = some s') :
    Inv before s' := by
  have hledger := h.settle
  have hlog : ¬ Aborted s.settle.thread := not_mem_nil
  obtain ⟨hmallocs, hkeep⟩ := hkeep
  unfold step at hs
  dsimp only at hs
  split at hs
  · split at hs
    · cases hs
    · obtain ⟨r, -, hs⟩ := Option.bind_eq_some_iff.mp hs
      split at hs
      · cases hs
      · exact (hledger.follow hmallocs hs).1
  · rename_i size al hcall
    rw [hcall] at hkeep
    obtain ⟨r, hr, rfl⟩ := Option.map_eq_some_iff.mp hs
    unfold txAlloc at hr
    split at hr
    · cases hr
    · split at hr
      · obtain ⟨u, hu, rfl⟩ := Option.map_eq_some_iff.mp hr
        exact (hledger.objTxAbort hmallocs hu).1
      · rcases hledger.txAllocCommon hmallocs hkeep hr with ⟨-, hinv⟩ | ⟨-, hledger', hthread⟩
        · exact hinv
        · exact hledger'.inv (hthread ▸ hlog)
  · rename_i oid f hcall
    rw [hcall] at hkeep
    obtain ⟨r, hr, rfl⟩ := Option.map_eq_some_iff.mp hs
    rcases hledger.txFree hmallocs hkeep hr with ⟨hledger', hthread, -⟩ | ⟨hinv, -⟩
    · exact hledger'.inv (hthread ▸ hlog)
    · exact hinv
  · rename_i oid size al f jumps hcall
    rw [hcall] at hkeep
    exact hledger.txRealloc hlog hmallocs hkeep hs

/-- In a transaction whose calls keep the account, `tx_abort` leaves nothing of the reservations:
the counter of every run has its value from before the transaction, and every huge block is in the
default bucket. -/
theorem clean_of_aborted (t : Thread) (heap : Heap) (acts : List Act) (s : State)
    (hkeep : Transition.Guarded step Keeps acts (State.begin t heap))
    (hrun : Transition.run step acts (State.begin t heap) = some s) (habort : Aborted s.thread) :
    Clean heap.nresv s :=
  ((Transition.run_invariant (fun _ _ _ _ h hG hstep => inv_step h hG hstep) hkeep
    (inv_begin t heap) hrun).clean habort).1

/-! ## Runs on a small heap -/

def begun : Thread :=
  { Thread.init with pop := some 0, stage := .work, lane := true, txEntries := 1, nestCount := 1 }

def eightChunks : Heap := ⟨fun _ => 0, [⟨0, 0, 8⟩]⟩

def granted (outcome : Outcome) : AllocAnswers := ⟨true, true, [], outcome, true⟩

def abortedTx : List Act :=
  [⟨.alloc 64 (granted (.huge 3 4096 true)), []⟩,
    ⟨.alloc 64 (granted (.run 65536 (some 0))), []⟩,
    ⟨.realloc ⟨4096, true⟩ 64 (granted (.huge 2 8192 true)) ⟨true, true, 0⟩ false, []⟩,
    ⟨.tx (.txBegin 0 true []), []⟩,
    ⟨.free ⟨32768, true⟩ ⟨true, true, 0⟩, []⟩,
    ⟨.alloc 64 (granted .fails), []⟩,
    ⟨.tx .txEnd, []⟩]

theorem clean_abortedTx :
    ∃ s, Transition.run step abortedTx (State.begin begun eightChunks) = some s ∧
      s.reserved = [⟨0, 3, 2⟩] ∧ s.heap.bucket = [⟨0, 0, 8⟩] ∧ Clean (fun _ => 0) s :=
  ⟨_, rfl, by decide, by decide,
    clean_of_aborted begun eightChunks abortedTx _ (by decide) rfl (by decide)⟩

def lostReservation : List Act :=
  [⟨.alloc 64 ⟨true, true, [], .run 65536 (some 0), false⟩, []⟩]

/-- The counter of the run keeps the reservation of the aborted transaction. -/
theorem not_clean_lostReservation :
    ∃ s, Transition.run step lostReservation (State.begin begun eightChunks) = some s ∧
      Aborted s.thread ∧ ¬ Clean (fun _ => 0) s := by
  refine ⟨_, rfl, by decide, fun h => ?_⟩
  exact absurd (h.nresv 0) (by decide)

def lostRealloc : List Act :=
  [⟨.tx (.txBegin 0 true []), []⟩,
    ⟨.realloc ⟨32768, true⟩ 64 (granted (.run 65536 (some 0))) ⟨false, true, 12⟩ false, []⟩,
    ⟨.tx .txEnd, []⟩]

example : (Transition.run step lostRealloc (State.begin begun eightChunks)).map
    (fun s => (Aborted s.thread, s.heap.nresv 0)) = some (True, 1) := by
  simp only [Option.map_eq_some_iff]
  exact ⟨_, rfl, Prod.ext (eq_true (by decide)) (by decide)⟩

end Pmdk.TxActions
