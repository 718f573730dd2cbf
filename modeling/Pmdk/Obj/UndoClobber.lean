import Pmdk.Obj.UndoLogs

/-!
# Emptying and extending the undo log

`ulog_clobber_data` leaves a chain of clean ulogs behind if nothing but zeroes lay behind the
bytes that it was told to zero. `ulog_reserve` adds a clean ulog at the end.
-/

namespace Pmdk.Undo

open Ulog Function List

def applyAll : List Write → Pool → Option Pool
  | [], p => some p
  | w :: ws, p => (w.apply p).bind (applyAll ws)

theorem applyAll_append (ws ws' : List Write) (p : Pool) :
    applyAll (ws ++ ws') p = (applyAll ws p).bind (applyAll ws') := by
  induction ws generalizing p with
  | nil => rfl
  | cons w ws ih =>
    rw [cons_append, applyAll, applyAll, Option.bind_assoc]
    congr 1
    exact funext ih

section Clobber

variable {p p' : Pool} {next : List Nat} {l : List (Nat × Ulog)} {n : Nat}

theorem HeapOk.freed (h : HeapOk p) (o : Nat) :
    HeapOk { p with blocks := update p.blocks o none } := by
  refine ⟨h.base, fun {o' v} hv => ?_⟩
  have hv' : update p.blocks o none o' = some v := hv
  rw [update_apply] at hv'
  split at hv'
  · cases hv'
  · exact h.block hv'

theorem HeapOk.apply (h : HeapOk p) {w : Write} (hw : w.apply p = some p') : HeapOk p' := by
  cases w with
  | zero loc nbytes =>
    obtain ⟨u, hu, rfl⟩ := Option.map_eq_some_iff.mp hw
    exact h.set hu rfl
  | freeNext loc =>
    obtain ⟨u, hu, rfl⟩ := Option.map_eq_some_iff.mp hw
    cases loc with
    | base =>
      cases hu
      exact (h.freed _).set rfl rfl
    | ext o =>
      refine ⟨h.base, fun {o' v} hv => ?_⟩
      have hv' : update (update p.blocks u.next none) o
          (some { u with next := 0 }) o' = some v := hv
      rw [update_apply] at hv'
      split at hv'
      · rename_i heq
        cases hv'
        have hblock := h.block (show p.blocks o = some u from hu)
        rw [heq]
        exact hblock
      · exact (h.freed u.next).block hv'

theorem freeWrites_concat (l : List (Nat × Ulog)) (x : Nat × Ulog) :
    freeWrites (l ++ [x]) = (l.map fun y => .freeNext (.ext y.1)).reverse := by
  rw [freeWrites, dropLast_concat]

/-- Freeing the ulogs from the last one on leaves the first one of the chain. -/
theorem applyAll_freeWrites (h : Linked.Chain Ulog.next p.blocks p.undo.next l) :
    ∃ p' l', applyAll (freeWrites l) p = some p' ∧ p'.undo = p.undo ∧
      Linked.Chain Ulog.next p'.blocks p'.undo.next l' ∧
      l'.map Prod.fst = (l.map Prod.fst).take 1 ∧
      ∀ x ∈ l', ∃ y ∈ l.head?, x.2.data = y.2.data ∧ x.2.capacity = y.2.capacity := by
  induction hlen : l.length generalizing l p with
  | zero =>
    obtain rfl := length_eq_zero_iff.mp hlen
    exact ⟨p, [], rfl, rfl, h, rfl, nofun⟩
  | succ m ih =>
    obtain ⟨l₀, y, rfl⟩ := eq_nil_or_concat l |>.resolve_left (by
      rintro rfl
      cases hlen)
    rcases eq_nil_or_concat l₀ with rfl | ⟨l₁, ⟨o, u⟩, rfl⟩
    · refine ⟨p, [y], rfl, rfl, h, rfl, fun x hx => ⟨y, rfl, ?_⟩⟩
      rw [mem_singleton.mp hx]
      exact ⟨rfl, rfl⟩
    · rw [concat_eq_append, concat_eq_append] at h hlen ⊢
      rw [append_assoc] at h
      have hget : p.blocks o = some u := (h.mem (show (o, u) ∈ _ by simp)).2
      have hnext : u.next = y.1 := by
        obtain ⟨b, hb⟩ := h.drop
        exact hb.2.2.2.1
      have hfree : (Write.freeNext (.ext o)).apply p =
          some (({ p with blocks := update p.blocks u.next none }).set
            { u with next := 0 } (.ext o)) := by
        rw [Write.apply, Pool.get, hget, Option.map_some]
      have hchain₁ : Linked.Chain Ulog.next
          (update (update p.blocks u.next none) o (some { u with next := 0 }))
          p.undo.next (l₁ ++ [(o, { u with next := 0 })]) := by
        rw [hnext]
        exact h.free_last rfl
      obtain ⟨p', l', happly, hundo, hchain, hmap, hdata⟩ :=
        @ih (({ p with blocks := update p.blocks u.next none }).set
          { u with next := 0 } (.ext o)) _ hchain₁ (by simp at hlen ⊢; omega)
      refine ⟨p', l', ?_, hundo, hchain, ?_, ?_⟩
      · rw [freeWrites_concat] at happly
        rw [freeWrites_concat, map_append, reverse_append]
        show ((Write.freeNext (.ext o)).apply p).bind _ = _
        rw [hfree]
        exact happly
      · rw [hmap]
        cases l₁ <;> simp
      · intro x hx
        obtain ⟨z, hz, hzx⟩ := hdata x hx
        cases l₁ with
        | nil =>
          refine ⟨(o, u), by simp, ?_⟩
          obtain rfl : (o, { u with next := 0 }) = z := by simpa using hz
          exact hzx
        | cons w l₁ => exact ⟨z, by simpa using hz, hzx⟩

/-- Behind `n` bytes, counted through the first ulog and the next one, there are only zeroes
in these two. -/
structure Dirty (p : Pool) (l : List (Nat × Ulog)) (n : Nat) : Prop where
  base : ∀ k, n ≤ k * 8 → k * 8 < p.undo.capacity → p.undo.data k = 0
  head : ∀ x ∈ l.head?, ∀ k, n - laneUndoSize ≤ k * 8 → k * 8 < x.2.capacity →
    x.2.data k = 0

theorem zero_next (u : Ulog) (nbytes : Nat) : (u.zero nbytes).next = u.next := rfl

theorem clean_zero {u : Ulog} (h : ∀ k, n ≤ k * 8 → k * 8 < u.capacity → u.data k = 0) :
    Clean (u.zero (min n u.capacity)) := by
  intro k hk
  show (if k * 8 < min n u.capacity then 0 else u.data k) = 0
  have hk' : k * 8 < u.capacity := hk
  split
  · rfl
  · exact h k (by omega) hk'

theorem clobber_clean (hp : HeapOk p) (hc : Chained p next l) (hd : Dirty p l n)
    {ws : List Write} (hw : ulogClobberData p n next = some ws) :
    ∃ p' l', applyAll ws p = some p' ∧ Chained p' next l' ∧ AllClean (logsOf p' l') := by
  obtain ⟨zs, hzs, hw⟩ := Option.bind_eq_some_iff.mp hw
  obtain ⟨l₀, hl₀, rfl⟩ := Option.map_eq_some_iff.mp hw
  obtain rfl : l = l₀ := Option.some.inj ((hp.chain_eq hc.chain).symm.trans hl₀)
  -- the two ulogs that stay are zeroed first
  have hzero : ∃ q m, applyAll zs p = some q ∧ Linked.Chain Ulog.next q.blocks q.undo.next m ∧
      m.map Prod.fst = l.map Prod.fst ∧ Clean q.undo ∧ ∀ x ∈ m.head?, Clean x.2 := by
    have hbase := clean_zero hd.base
    rw [hp.base] at hbase
    unfold zeroWrites at hzs
    split at hzs
    · rename_i hn
      cases hzs
      refine ⟨_, l, rfl, hc.chain, rfl, hbase, fun x hx k hk => ?_⟩
      exact hd.head x hx k (by omega) hk
    · obtain ⟨o, ho, hzs⟩ := Option.bind_eq_some_iff.mp hzs
      obtain ⟨u, hu, rfl⟩ := Option.map_eq_some_iff.mp hzs
      have happly : applyAll [.zero .base (min n laneUndoSize),
          .zero (.ext o) (min (n - laneUndoSize) u.capacity)] p =
          some { p with
            undo := p.undo.zero (min n laneUndoSize)
            blocks := update p.blocks o (some (u.zero (min (n - laneUndoSize) u.capacity))) } := by
        show (((p.set (p.undo.zero (min n laneUndoSize)) .base).blocks o).map _).bind _ = _
        rw [show (p.set (p.undo.zero (min n laneUndoSize)) .base).blocks o = some u from hu]
        rfl
      cases l with
      | nil => exact ⟨_, [], happly, hc.chain, rfl, hbase, nofun⟩
      | cons x l =>
        obtain ⟨junk, rfl, -⟩ := hc.next_eq
        obtain rfl : x.1 = o := by simpa using ho
        obtain rfl : x.2 = u := Option.some.inj ((hc.chain.2.2.1).symm.trans hu)
        generalize hv : x.2.zero (min (n - laneUndoSize) x.2.capacity) = v at happly
        have hnext : v.next = x.2.next := hv ▸ zero_next x.2 _
        have hchain := Linked.Chain.update_mid (l := []) hc.chain hnext
        refine ⟨_, (x.1, v) :: l, happly, hchain, rfl, hbase, fun y hy => ?_⟩
        obtain rfl : (x.1, v) = y := by simpa using hy
        rw [← hv]
        exact clean_zero (hd.head x rfl)
  obtain ⟨q, m, hq, hchain, hm, hclean, hhead⟩ := hzero
  obtain ⟨p', l', happly, hundo, hchain', hl', hdata⟩ := applyAll_freeWrites hchain
  have hfree : freeWrites l = freeWrites m := by
    have hmap : ∀ l : List (Nat × Ulog), freeWrites l =
        ((l.map Prod.fst).dropLast.map fun o => Write.freeNext (.ext o)).reverse := by
      intro l
      rw [freeWrites, ← map_dropLast, map_map]
      rfl
    rw [hmap, hmap, hm]
  refine ⟨p', l', ?_, ⟨hchain', ?_⟩, ?_⟩
  · rw [applyAll_append, hq, hfree]
    exact happly
  · obtain ⟨junk, rfl, hjunk⟩ := hc.next_eq
    refine ⟨(l.map Prod.fst).drop 1 ++ junk, ?_, fun o ho ho' => ?_⟩
    · rw [hl', hm, ← append_assoc, take_append_drop]
    · rw [hl', hm] at ho'
      rcases mem_append.mp ho with ho | ho
      · have hnodup := hc.chain.nodup
        rw [← take_append_drop 1 (l.map Prod.fst), nodup_append] at hnodup
        exact hnodup.2.2 o ho' o ho rfl
      · exact hjunk o ho (mem_of_mem_take ho')
  · intro x hx
    rcases mem_cons.mp hx with rfl | hx
    · rw [hundo]
      exact hclean
    · obtain ⟨y, hy, rfl⟩ := mem_map.mp hx
      obtain ⟨z, hz, hdz, hcz⟩ := hdata y hy
      intro k hk
      rw [hdz]
      exact hhead z hz k (hcz ▸ hk)

end Clobber

/-! ## When a transaction is over -/

section Total

variable {p : Pool} {next : List Nat} {l : List (Nat × Ulog)} {ctx : Ctx}
  {es : List (List UInt64)}

theorem At.zero_of_le {pre post : List (Loc × Ulog)} {loc : Loc} {u : Ulog}
    {ess : List (List (List UInt64))} {es₁ : List (List UInt64)}
    (h : At ctx pre loc u post ess es₁ []) :
    ∀ k, ctx.currOffset ≤ k * 8 → k * 8 < u.capacity → u.data k = 0 := by
  intro k hle hk
  have haligned := h.aligned
  rcases Nat.lt_or_ge k (ctx.currOffset / 8 + 8) with hlt | hge
  · exact h.head k (by omega) hlt hk
  · exact h.behind k hge hk

theorem Ready.dirty (hp : HeapOk p) (h : Ready ctx (logsOf p l) es) :
    Dirty p l ctx.totalLogged := by
  have hclean : AllClean (logsOf p l) → Dirty p l ctx.totalLogged := fun hclean =>
    ⟨fun k _ hk => hclean _ mem_cons_self k hk, fun x hx k _ hk =>
      hclean (.ext x.1, x.2) (mem_cons_of_mem _ (mem_map.mpr ⟨x, mem_of_mem_head? hx, rfl⟩)) k hk⟩
  rcases h with ⟨hfresh, -⟩ | ⟨pre, loc, u, post, ess, es₁, hlogs, -, hat⟩
  · exact hclean hfresh.clean
  · have htotal := hat.total
    have hzero := hat.zero_of_le
    rcases logsOf_eq_append hlogs with ⟨rfl, -, rfl, rfl⟩ | ⟨l₁, o, l₂, rfl, -, rfl, -⟩
    · rw [map_nil, sum_nil, Nat.zero_add] at htotal
      rw [htotal]
      refine ⟨hzero, fun x hx k _ hk => ?_⟩
      exact hat.clean (.ext x.1, x.2) (mem_map.mpr ⟨x, mem_of_mem_head? hx, rfl⟩) k hk
    · rw [map_cons, sum_cons, hp.base] at htotal
      refine ⟨fun k hle hk => ?_, fun x hx k hle hk => ?_⟩
      · rw [hp.base] at hk
        omega
      · cases l₁ with
        | nil =>
          obtain rfl : (o, u) = x := by simpa using hx
          rw [map_nil, map_nil, sum_nil] at htotal
          exact hzero k (by omega) hk
        | cons y l₁ =>
          obtain rfl : y = x := by simpa using hx
          rw [map_cons, map_cons, sum_cons] at htotal
          dsimp only at htotal
          omega

theorem Ready.allClean (hp : HeapOk p) (h : Ready ctx (logsOf p l) es)
    (hzero : ctx.totalLogged = 0) : AllClean (logsOf p l) := by
  rcases h with ⟨hfresh, -⟩ | ⟨pre, loc, u, post, ess, es₁, hlogs, -, hat⟩
  · exact hfresh.clean
  · have htotal := hat.total
    have hle := hat.zero_of_le
    rcases logsOf_eq_append hlogs with ⟨rfl, -, rfl, rfl⟩ | ⟨l₁, o, l₂, rfl, -, rfl, -⟩
    · intro x hx
      rcases mem_cons.mp hx with rfl | hx
      · exact fun k hk => hle k (by omega) hk
      · exact hat.clean x hx
    · rw [map_cons, sum_cons, hp.base] at htotal
      exact absurd htotal (by rw [hzero, laneUndoSize]; omega)

end Total

/-! ## Extending the log -/

section Extend

variable {p : Pool} {next : List Nat} {l : List (Nat × Ulog)} {ctx : Ctx}
  {es : List (List UInt64)}

theorem Ready.extend_last {logs : List (Loc × Ulog)} {loc : Loc} {u v : Ulog}
    (h : Ready ctx (logs ++ [(loc, u)]) es) (u' : Ulog) (hdata : u'.data = u.data)
    (hcap : u'.capacity = u.capacity) (loc' : Loc) (hv : Clean v) :
    Ready ctx (logs ++ [(loc, u'), (loc', v)]) es := by
  have hclean : Clean u → Clean u' := fun hu k hk => by
    rw [hdata]
    exact hu k (hcap ▸ hk)
  rcases h with ⟨hfresh, hes⟩ | ⟨pre, loc₀, w, post, ess, es₁, hlogs, hes, hat⟩
  · refine .inl ⟨{ hfresh with clean := fun x hx => ?_ }, hes⟩
    rcases mem_append.mp hx with hx | hx
    · exact hfresh.clean x (mem_append_left _ hx)
    · rcases mem_cons.mp hx with rfl | hx
      · exact hclean (hfresh.clean (loc, u) (by simp))
      · rw [mem_singleton.mp hx]
        exact hv
  · rcases eq_nil_or_concat post with rfl | ⟨post, y, rfl⟩
    · obtain ⟨rfl, heq⟩ := List.append_inj' hlogs rfl
      obtain ⟨rfl, rfl⟩ := Prod.mk.inj (List.cons.inj heq).1
      refine .inr ⟨logs, loc, u', [(loc', v)], ess, es₁, rfl, hes, { hat with
        holds := hdata ▸ hat.holds
        le := hcap ▸ hat.le
        head := fun k h₁ h₂ hk => by rw [hdata]; exact hat.head k h₁ h₂ (hcap ▸ hk)
        behind := fun k h₁ hk => by rw [hdata]; exact hat.behind k h₁ (hcap ▸ hk)
        clean := fun x hx => by rw [mem_singleton.mp hx]; exact hv
        capacity := hcap ▸ hat.capacity }⟩
    · rw [concat_eq_append, ← cons_append, ← append_assoc] at hlogs
      obtain ⟨rfl, heq⟩ := List.append_inj' hlogs rfl
      obtain rfl : (loc, u) = y := (List.cons.inj heq).1
      refine .inr ⟨pre, loc₀, w, post ++ [(loc, u'), (loc', v)], ess, es₁, by simp, hes,
        { hat with clean := fun x hx => ?_ }⟩
      rw [concat_eq_append] at hat
      rcases mem_append.mp hx with hx | hx
      · exact hat.clean x (mem_append_left _ hx)
      · rcases mem_cons.mp hx with rfl | hx
        · exact hclean (hat.clean (loc, u) (by simp))
        · rw [mem_singleton.mp hx]
          exact hv

theorem Ready.with_next (h : Ready ctx (logsOf p l) es) (next : List Nat) :
    Ready { ctx with next } (logsOf p l) es := by
  rcases h with ⟨hfresh, hes⟩ | ⟨pre, loc, u, post, ess, es₁, hlogs, hes, hat⟩
  · exact .inl ⟨⟨hfresh.curr, hfresh.capacity, hfresh.total, hfresh.clean⟩, hes⟩
  · exact .inr ⟨pre, loc, u, post, ess, es₁, hlogs, hes, ⟨hat.full, hat.holds, hat.aligned, hat.le,
      hat.head, hat.behind, hat.clean, hat.curr, hat.capacity, hat.total⟩⟩

/-- `ulog_reserve` adds a clean ulog. When the vector of the context names ulogs that are not on
the chain, the new one is not on the chain either. -/
theorem extend_ready {s t : State} {size offset capacity : Nat} (hp : HeapOk s.pool)
    (hc : Chained s.pool s.ctx.next l) (h : Ready s.ctx (logsOf s.pool l) s.appended)
    (hs : s.extend size offset capacity = some t) :
    ∃ l', HeapOk t.pool ∧ Chained t.pool t.ctx.next l' ∧
      Ready t.ctx (logsOf t.pool l') t.appended ∧ t.phase = s.phase := by
  unfold State.extend at hs
  split at hs
  · rename_i hguard
    obtain ⟨-, -, -, hne, hlt, hnone, hcap⟩ := hguard
    rw [Option.isNone_iff_eq_none] at hnone
    obtain ⟨u, hu, rfl⟩ := Option.map_eq_some_iff.mp hs
    have hclean : Clean (Ulog.construct capacity) := fun _ _ => rfl
    have hnew : ∀ x ∈ l, x.1 ≠ offset := fun x hx hxo => by
      rw [← hxo, (hc.chain.mem hx).2] at hnone
      cases hnone
    have hset : HeapOk (s.pool.set { u with next := offset } s.ctx.last) := hp.set hu rfl
    have hheap : HeapOk { s.pool.set { u with next := offset } s.ctx.last with
        blocks := update (s.pool.set { u with next := offset } s.ctx.last).blocks offset
          (some (Ulog.construct capacity)) } := by
      refine ⟨hset.base, fun {o v} hv => ?_⟩
      have hv' : update (s.pool.set { u with next := offset } s.ctx.last).blocks offset
        (some (Ulog.construct capacity)) o = some v := hv
      rw [update_apply] at hv'
      split at hv'
      · rename_i heq
        cases hv'
        have hsize : (s.pool.set { u with next := offset } s.ctx.last).size = s.pool.size := by
          cases s.ctx.last <;> rfl
        rw [heq]
        exact ⟨hsize ▸ hlt, hcap⟩
      · exact hset.block hv'
    obtain ⟨junk, hnext, hjunk⟩ := hc.next_eq
    rcases eq_nil_or_concat junk with rfl | ⟨junk, j, rfl⟩
    · rw [append_nil] at hnext
      rcases eq_nil_or_concat l with rfl | ⟨l, ⟨o, n⟩, rfl⟩
      · have hlast : s.ctx.last = .base := by rw [Ctx.last, hnext]; rfl
        rw [hlast] at hu hheap ⊢
        cases hu
        refine ⟨[(offset, Ulog.construct capacity)], hheap, ⟨?_, [], ?_, nofun⟩, ?_, rfl⟩
        · exact ⟨rfl, hne, update_self .., rfl⟩
        · rw [hnext]
          rfl
        · have hready : Ready { s.ctx with next := s.ctx.next ++ [offset] }
              ([] ++ [(.base, s.pool.undo)]) s.appended := h.with_next _
          exact hready.extend_last { s.pool.undo with next := offset } rfl rfl (.ext offset) hclean
      · rw [concat_eq_append] at hc hnext h hnew
        have hlast : s.ctx.last = .ext o := by
          rw [Ctx.last, hnext, map_append, map_singleton, getLast?_concat]
        rw [hlast] at hu hheap ⊢
        have hget : s.pool.blocks o = some u := hu
        obtain rfl : n = u := Option.some.inj
          ((hc.chain.mem (show (o, n) ∈ _ by simp)).2.symm.trans hget)
        refine ⟨l ++ [(o, { n with next := offset }), (offset, Ulog.construct capacity)], hheap,
          ⟨hc.chain.extend hnone hne rfl rfl, [], ?_, nofun⟩, ?_, rfl⟩
        · simp [hnext]
        · have hready := h.with_next (s.ctx.next ++ [offset])
          have hlogs : logsOf s.pool (l ++ [(o, n)]) =
              (Loc.base, s.pool.undo) :: l.map (fun x => (Loc.ext x.1, x.2)) ++
                [(.ext o, n)] := by simp [logsOf]
          rw [hlogs] at hready
          have hext := hready.extend_last { n with next := offset } rfl rfl (.ext offset) hclean
          simpa [logsOf, Pool.set] using hext
    · rw [concat_eq_append] at hnext hjunk
      have hlast : s.ctx.last = .ext j := by
        rw [Ctx.last, hnext, ← append_assoc, getLast?_concat]
      rw [hlast] at hheap ⊢
      refine ⟨l, hheap, ⟨?_, junk ++ [j, offset], ?_, fun o ho => ?_⟩, ?_, rfl⟩
      · refine (hc.chain.update_of_notMem fun x hx hxj => ?_).update_of_notMem hnew
        exact hjunk j (by simp) (mem_map.mpr ⟨x, hx, hxj⟩)
      · simp [hnext]
      · rcases mem_append.mp ho with ho | ho
        · exact hjunk o (mem_append_left _ ho)
        · rcases mem_cons.mp ho with rfl | ho
          · exact hjunk o (by simp)
          · rw [mem_singleton.mp ho]
            intro hmem
            obtain ⟨x, hx, hxo⟩ := mem_map.mp hmem
            exact hnew x hx hxo
      · exact h.with_next _
  · cases hs

end Extend

end Pmdk.Undo
