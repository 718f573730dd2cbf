import Pmdk.Obj.UndoClobber

/-!
# The entries of a transaction are its own

In every run of a lane in which the crashes find nothing behind the entries that the recovery
counts, the loop over the undo log enumerates at every point of every transaction exactly the
entries that this transaction has appended.
-/

namespace Pmdk.Undo

open Ulog List

/-! ## The invariant -/

def Working (s : State) (l : List (Nat × Ulog)) : Option Job → Prop
  | none => Ready s.ctx (logsOf s.pool l) s.appended
  | some ⟨dest, bytes, false⟩ =>
    Ready s.ctx (logsOf s.pool l) s.appended ∧ dest + bytes.length < 2 ^ 61
  | some ⟨dest, bytes, true⟩ =>
    Writing s.ctx (logsOf s.pool l) ((entryWords s.ctx ⟨dest, bytes, true⟩).drop 8)
      s.appended ∧ 64 ≤ s.ctx.currCapacity ∧ dest + bytes.length < 2 ^ 61

def PhaseOk (s : State) : Phase → Prop
  | .idle => ∃ l, Chained s.pool s.ctx.next l ∧ AllClean (logsOf s.pool l)
  | .work job => ∃ l, Chained s.pool s.ctx.next l ∧ Working s l job
  | .finish todo _ => ∃ p l, applyAll todo s.pool = some p ∧ Chained p s.ctx.next l ∧
      AllClean (logsOf p l)

structure Inv (s : State) : Prop where
  heap : HeapOk s.pool
  phase : PhaseOk s s.phase

theorem inv_init (size : Nat) : Inv (State.init size) where
  heap := ⟨rfl, nofun⟩
  phase := by
    refine ⟨[], ⟨rfl, [], rfl, nofun⟩, fun x hx k _ => ?_⟩
    rw [mem_singleton.mp hx]
    rfl

theorem Inv.foreachEntry_eq {s : State} (h : Inv s) {job : Option Job}
    (hwork : s.phase = .work job) : s.pool.foreachEntry = some s.appended := by
  have hphase := h.phase
  rw [hwork] at hphase
  obtain ⟨l, hc, hw⟩ := hphase
  match job, hw with
  | none, hw => exact hw.foreachEntry_eq h.heap hc
  | some ⟨_, _, false⟩, hw => exact hw.1.foreachEntry_eq h.heap hc
  | some ⟨_, _, true⟩, hw => exact hw.1.foreachEntry_eq h.heap hc

/-! ## The steps -/

section Steps

variable {s t : State} {l : List (Nat × Ulog)}

theorem operationNew_eq {p : Pool} {ctx : Ctx} (h : operationNew laneUndoSize p = some ctx) :
    ∃ l, p.chain = some l ∧ Linked.Chain Ulog.next p.blocks p.undo.next l ∧
      ctx.next = l.map Prod.fst := by
  obtain ⟨l, hl, rfl⟩ := Option.map_eq_some_iff.mp h
  exact ⟨l, hl, Linked.chain_of_walk hl, rfl⟩

theorem finishWrites_clean {p : Pool} (ctx : Ctx) {next : List Nat} {todo : List Write}
    (hp : HeapOk p) (hc : Chained p next l) (hnext : ctx.next = next)
    (hd : Dirty p l ctx.totalLogged) (hz : ctx.totalLogged = 0 → AllClean (logsOf p l))
    (hw : finishWrites p ctx = some todo) :
    ∃ p' l', applyAll todo p = some p' ∧ Chained p' next l' ∧ AllClean (logsOf p' l') := by
  unfold finishWrites at hw
  split at hw
  · rename_i hzero
    cases hw
    exact ⟨p, l, rfl, hc, hz hzero⟩
  · rw [hnext] at hw
    exact clobber_clean hp hc hd hw

theorem copyData_ok {dest : Nat} {bytes : List UInt8} (hp : HeapOk s.pool)
    (hc : Chained s.pool s.ctx.next l) (h : Working s l (some ⟨dest, bytes, false⟩))
    (hs : s.copyData ⟨dest, bytes, false⟩ = some t) : Inv t := by
  obtain ⟨hready, hjob⟩ := h
  obtain ⟨ctx, hsel, hs⟩ := Option.bind_eq_some_iff.mp hs
  obtain ⟨loc, hloc, hs⟩ := Option.bind_eq_some_iff.mp hs
  obtain ⟨u, hu, rfl⟩ := Option.map_eq_some_iff.mp hs
  obtain ⟨hw, hcap, hnext⟩ := select_writing hp hc hready hsel
  obtain ⟨pre, loc', u', post, ess, es₁, hlogs, hes, hat⟩ := hw
  obtain rfl : loc' = loc := Option.some.inj (hat.curr.symm.trans hloc)
  obtain rfl : u' = u := Option.some.inj ((hc.get_eq (hlogs ▸ by simp)).symm.trans hu)
  obtain ⟨l', hc', hlogs'⟩ := hc.set hlogs (u'.store (ctx.currOffset / 8 + 8)
    ((entryWords ctx ⟨dest, bytes, false⟩).drop 8)) rfl
  refine ⟨hp.set hu rfl, l', hnext ▸ hc', ?_, hcap, hjob⟩
  exact ⟨pre, loc', _, post, ess, es₁, hlogs', hes, hat.stage _⟩

theorem copyHead_ok {dest : Nat} {bytes : List UInt8} (hp : HeapOk s.pool)
    (hc : Chained s.pool s.ctx.next l) (h : Working s l (some ⟨dest, bytes, true⟩))
    (hs : s.copyHead ⟨dest, bytes, true⟩ = some t) : Inv t := by
  obtain ⟨⟨pre, loc', u', post, ess, es₁, hlogs, hes, hat⟩, hcap, hjob⟩ := h
  obtain ⟨loc, hloc, hs⟩ := Option.bind_eq_some_iff.mp hs
  obtain ⟨u, hu, rfl⟩ := Option.map_eq_some_iff.mp hs
  obtain rfl : loc' = loc := Option.some.inj (hat.curr.symm.trans hloc)
  have hmem : (loc', u') ∈ logsOf s.pool l := hlogs ▸ by simp
  obtain rfl : u' = u := Option.some.inj ((hc.get_eq hmem).symm.trans hu)
  have hat' := hat.finish hjob hcap (hp.capacity hc hmem).2
  obtain ⟨l', hc', hlogs'⟩ := hc.set hlogs (u'.store (s.ctx.currOffset / 8)
    ((entryWords s.ctx ⟨dest, bytes, true⟩).take 8)) rfl
  refine ⟨hp.set hu rfl, l', hc', ?_⟩
  have hready : Ready (s.ctx.advance ((entryWords s.ctx ⟨dest, bytes, true⟩).length * 8))
      (logsOf (s.pool.set (u'.store (s.ctx.currOffset / 8)
        ((entryWords s.ctx ⟨dest, bytes, true⟩).take 8)) loc') l')
      (s.appended ++ [entryWords s.ctx ⟨dest, bytes, true⟩]) :=
    .inr ⟨pre, loc', _, post, ess, _, hlogs', by rw [hes, append_assoc], hat'⟩
  split
  · exact hready
  · refine ⟨hready, ?_⟩
    have hle : s.ctx.dataSize bytes.length ≤ bytes.length := by
      rw [Ctx.dataSize]
      omega
    rw [length_drop]
    dsimp only
    omega

theorem publish_ok (hp : HeapOk s.pool) (hc : Chained s.pool s.ctx.next l)
    (h : Ready s.ctx (logsOf s.pool l) s.appended) :
    HeapOk s.publish ∧ Chained s.publish s.ctx.next l ∧ Dirty s.publish l s.ctx.totalLogged ∧
      (s.ctx.totalLogged = 0 → AllClean (logsOf s.publish l)) := by
  have hd := h.dirty hp
  unfold State.publish
  split
  · exact ⟨hp, hc, hd, h.allClean hp⟩
  · have hdata : ∀ k, (s.pool.undo.store 0 [0]).data k = 0 ∨
        (s.pool.undo.store 0 [0]).data k = s.pool.undo.data k := by
      intro k
      rw [store_data]
      split
      · rename_i hk
        obtain rfl : k = 0 := by simpa using hk.2
        exact .inl rfl
      · exact .inr rfl
    have hzero : ∀ k, s.pool.undo.data k = 0 → (s.pool.undo.store 0 [0]).data k = 0 :=
      fun k hk => (hdata k).elim id fun heq => heq.trans hk
    refine ⟨⟨hp.base, hp.block⟩, ⟨hc.chain, hc.next_eq⟩,
      ⟨fun k hle hk => hzero k (hd.base k hle hk), hd.head⟩, fun hz x hx => ?_⟩
    have hclean := h.allClean hp hz
    rcases mem_cons.mp hx with rfl | hx
    · exact fun k hk => hzero k (hclean _ mem_cons_self k hk)
    · exact hclean x (mem_cons_of_mem _ hx)

def CleanPast (p : Pool) : Prop :=
  ∀ n ∈ p.undo.baseNbytes,
    (∀ k < p.undo.capacity / 8, n ≤ k * 8 → p.undo.data k = 0) ∧
    ∀ l ∈ p.chain, ∀ x ∈ l, ∀ k < x.2.capacity / 8, x.2.data k = 0

instance (p : Pool) : Decidable (CleanPast p) :=
  inferInstanceAs (Decidable (∀ n ∈ p.undo.baseNbytes, _ ∧ _))

theorem crash_ok (hp : HeapOk s.pool) (hclean : CleanPast s.pool) (hs : s.crash = some t) :
    Inv t := by
  obtain ⟨ctx, hnew, hs⟩ := Option.bind_eq_some_iff.mp hs
  obtain ⟨n, hn, hs⟩ := Option.bind_eq_some_iff.mp hs
  obtain ⟨-, -, hs⟩ := Option.bind_eq_some_iff.mp hs
  obtain ⟨todo, htodo, rfl⟩ := Option.map_eq_some_iff.mp hs
  obtain ⟨l, hchain, hl, hnext⟩ := operationNew_eq hnew
  obtain ⟨hbase, hext⟩ := hclean n hn
  have hc : Chained s.pool ctx.next l := ⟨hl, [], by rw [hnext, append_nil], nofun⟩
  have hcap := hp.base
  have hundo : ∀ k, n ≤ k * 8 → k * 8 < s.pool.undo.capacity → s.pool.undo.data k = 0 :=
    fun k hle hk => hbase k (by rw [hcap, laneUndoSize] at hk ⊢; omega) hle
  have hblock : ∀ x ∈ l, Clean x.2 := fun x hx k hk =>
    hext l hchain x hx k (by have := (hp.block (hl.mem hx).2).2; omega)
  have hd : Dirty s.pool l n :=
    ⟨hundo, fun x hx k _ hk => hblock x (mem_of_mem_head? hx) k hk⟩
  have hz : n = 0 → AllClean (logsOf s.pool l) := by
    intro hz x hx
    rcases mem_cons.mp hx with rfl | hx
    · exact fun k hk => hundo k (by omega) hk
    · obtain ⟨y, hy, rfl⟩ := mem_map.mp hx
      exact hblock y hy
  have hfin := finishWrites_clean { ctx with totalLogged := n } hp hc rfl hd hz htodo
  exact ⟨hp, hfin⟩

def CrashesClean (a : Act) (s : State) : Prop := a = .crash → CleanPast s.pool

instance (a : Act) (s : State) : Decidable (CrashesClean a s) :=
  inferInstanceAs (Decidable (a = .crash → CleanPast s.pool))

theorem inv_step {a : Act} (h : Inv s) (hG : CrashesClean a s) (hs : step a s = some t) :
    Inv t := by
  have hp := h.heap
  have hphase := h.phase
  unfold step at hs
  split at hs
  · rename_i hidle
    rw [hidle] at hphase
    obtain ⟨l, hc, hclean⟩ := hphase
    cases hs
    exact ⟨hp, l, hc, .inl ⟨⟨rfl, rfl, rfl, hclean⟩, rfl⟩⟩
  · rename_i hwork
    rw [hwork] at hphase
    obtain ⟨l, hc, hw⟩ := hphase
    split at hs
    · rename_i hjob
      cases hs
      exact ⟨hp, l, hc, hw, hjob.2⟩
    · cases hs
  · rename_i hwork
    rw [hwork] at hphase
    obtain ⟨l, hc, hw, hjob⟩ := hphase
    obtain ⟨l', hp', hc', hready, hphase'⟩ := extend_ready hp hc hw hs
    refine ⟨hp', ?_⟩
    rw [hphase', hwork]
    exact ⟨l', hc', hready, hjob⟩
  · rename_i hwork
    rw [hwork] at hphase
    obtain ⟨l, hc, hw⟩ := hphase
    exact copyData_ok hp hc hw hs
  · rename_i hwork
    rw [hwork] at hphase
    obtain ⟨l, hc, hw⟩ := hphase
    exact copyHead_ok hp hc hw hs
  · rename_i hwork
    rw [hwork] at hphase
    obtain ⟨l, hc, hw⟩ := hphase
    obtain ⟨todo, htodo, rfl⟩ := Option.map_eq_some_iff.mp hs
    obtain ⟨hp', hc', hd, hz⟩ := publish_ok hp hc hw
    exact ⟨hp', finishWrites_clean s.ctx hp' hc' rfl hd hz htodo⟩
  · rename_i hwork
    rw [hwork] at hphase
    obtain ⟨l, hc, hw⟩ := hphase
    obtain ⟨todo, htodo, rfl⟩ := Option.map_eq_some_iff.mp hs
    exact ⟨hp, finishWrites_clean s.ctx hp hc rfl (hw.dirty hp) (hw.allClean hp) htodo⟩
  · rename_i hwork
    rw [hwork] at hphase
    obtain ⟨l, hc, hw, -⟩ := hphase
    obtain ⟨todo, htodo, rfl⟩ := Option.map_eq_some_iff.mp hs
    exact ⟨hp, finishWrites_clean s.ctx hp hc rfl (hw.dirty hp) (hw.allClean hp) htodo⟩
  · rename_i w todo recovering hfinish
    rw [hfinish] at hphase
    obtain ⟨p, l, happly, hc, hclean⟩ := hphase
    obtain ⟨pool, hpool, rfl⟩ := Option.map_eq_some_iff.mp hs
    rw [applyAll, hpool] at happly
    exact ⟨hp.apply hpool, p, l, happly, hc, hclean⟩
  · rename_i hfinish
    rw [hfinish] at hphase
    obtain ⟨p, l, happly, hc, hclean⟩ := hphase
    cases happly
    cases hs
    exact ⟨hp, l, hc, hclean⟩
  · rename_i hfinish
    rw [hfinish] at hphase
    obtain ⟨p, l, happly, hc, hclean⟩ := hphase
    cases happly
    split at hs
    · cases hs
      exact ⟨hp, l, hc, hclean⟩
    · obtain ⟨ctx, hnew, rfl⟩ := Option.map_eq_some_iff.mp hs
      obtain ⟨l', -, hl', hnext⟩ := operationNew_eq hnew
      obtain rfl := hl'.unique hc.chain
      exact ⟨hp, l', ⟨hl', [], by rw [append_nil]; exact hnext, disjoint_nil_left _⟩, hclean⟩
  · exact crash_ok hp (hG rfl) hs
  · cases hs

end Steps

/-- At every point inside a transaction, `ulog_foreach_entry` enumerates exactly the entries that
the transaction has appended so far, in order. -/
theorem foreachEntry_run {size : Nat} {as : List Act} {t : State}
    (has : Transition.Guarded step CrashesClean as (State.init size))
    (hrun : Transition.run step as (State.init size) = some t) {job : Option Job}
    (hwork : t.phase = .work job) : t.pool.foreachEntry = some t.appended := by
  have hinv : Inv t :=
    Transition.run_invariant (fun a _ s t hs hG hstep => inv_step hs hG hstep) has
      (inv_init size) hrun
  exact hinv.foreachEntry_eq hwork

def crashInside : List Act :=
  [.begin, .addBuffer 1000 [1, 2, 3], .copyData, .copyHead, .crash, .finish, .finish,
    .begin, .addBuffer 3000 [9], .copyData, .copyHead]

theorem foreachEntry_run_crashInside :
    ∃ t, Transition.run step crashInside (State.init 4096) = some t ∧ t.phase = .work none ∧
      t.pool.foreachEntry = some t.appended := by
  have has : Transition.Guarded step CrashesClean crashInside (State.init 4096) := by
    decide +kernel
  have hphase : (Transition.run step crashInside (State.init 4096)).map State.phase =
      some (.work none) := by decide +kernel
  obtain ⟨t, hrun, hwork⟩ := Option.map_eq_some_iff.mp hphase
  exact ⟨t, hrun, hwork, foreachEntry_run has hrun hwork⟩

/-- A crash between the two steps of a commit with two snapshots: the first entry has no offset
any more, and the recovery takes the log for empty. The first entry of the next transaction is
as long as the one it replaces. -/
def crashInCommit : List Act :=
  [.begin, .addBuffer 1000 [1, 2, 3], .copyData, .copyHead, .addBuffer 2000 [5, 6, 7], .copyData,
    .copyHead, .commit, .crash, .finish, .begin, .addBuffer 3000 [9], .copyData, .copyHead]

/-- The second entry of the committed transaction is enumerated again. -/
theorem not_foreachEntry_crashInCommit :
    ¬ ∀ (size : Nat) (as : List Act) (t : State) (job : Option Job),
      Transition.run step as (State.init size) = some t → t.phase = .work job →
      t.pool.foreachEntry = some t.appended := by
  intro h
  have hend : (Transition.run step crashInCommit (State.init 4096)).map
      (fun t => (t.phase, t.appended.length, t.pool.foreachEntry.map List.length)) =
      some (.work none, 1, some 2) := by decide +kernel
  obtain ⟨t, hrun, ht⟩ := Option.map_eq_some_iff.mp hend
  obtain ⟨hwork, hrest⟩ := Prod.mk.inj ht
  obtain ⟨happended, hentries⟩ := Prod.mk.inj hrest
  rw [h 4096 crashInCommit t none hrun hwork, Option.map_some, happended] at hentries
  exact absurd hentries (by decide)

end Pmdk.Undo
