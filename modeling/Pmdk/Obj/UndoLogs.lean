import Pmdk.Obj.Undo
import Mathlib.Data.List.GetD

/-!
# Where the entries of a transaction lie

The ulogs of a lane in the order of the chain, and how the context of the lane describes how
far they are filled: the ulogs before the current one are full, the current one is filled up to
`ulog_curr_offset`, and behind that there are only zeroes.
-/

namespace Pmdk.Undo

open Ulog List

/-! ## The ulogs of a pool -/

def logsOf (p : Pool) (l : List (Nat × Ulog)) : List (Loc × Ulog) :=
  (.base, p.undo) :: l.map fun x => (.ext x.1, x.2)

/-- The ulogs of the heap have capacities that `lane_ulog_constructor` gives them. -/
structure HeapOk (p : Pool) : Prop where
  base : p.undo.capacity = laneUndoSize
  block : ∀ {o u}, p.blocks o = some u → o < p.size ∧ 64 ≤ u.capacity ∧ u.capacity % 64 = 0

/-- The chain behind the first ulog is `l`. The vector of the context begins with its offsets;
after a recovery that freed ulogs, offsets may follow that are no longer on the chain. -/
structure Chained (p : Pool) (next : List Nat) (l : List (Nat × Ulog)) : Prop where
  chain : Linked.Chain Ulog.next p.blocks p.undo.next l
  next_eq : ∃ junk, next = l.map Prod.fst ++ junk ∧ ∀ o ∈ junk, o ∉ l.map Prod.fst

def Clean (u : Ulog) : Prop := ∀ k, k * 8 < u.capacity → u.data k = 0

def AllClean (logs : List (Loc × Ulog)) : Prop := ∀ x ∈ logs, Clean x.2

section Logs

variable {p : Pool} {next : List Nat} {l : List (Nat × Ulog)} {pre post : List (Loc × Ulog)}
  {loc : Loc} {u u' : Ulog}

theorem HeapOk.length_le (h : HeapOk p) (hl : Linked.Chain Ulog.next p.blocks p.undo.next l) :
    l.length ≤ p.size :=
  hl.length_le fun _ hx => (h.block (hl.mem hx).2).1

theorem HeapOk.chain_eq (h : HeapOk p) (hl : Linked.Chain Ulog.next p.blocks p.undo.next l) :
    p.chain = some l :=
  hl.walk_eq (Nat.lt_succ_of_le (h.length_le hl))

theorem Chained.get_eq (h : Chained p next l) (hx : (loc, u) ∈ logsOf p l) :
    p.get loc = some u := by
  rcases mem_cons.mp hx with heq | hx
  · obtain ⟨rfl, rfl⟩ := Prod.mk.inj heq
    rfl
  · obtain ⟨x, hxl, heq⟩ := mem_map.mp hx
    obtain ⟨rfl, rfl⟩ := Prod.mk.inj heq
    exact (h.chain.mem hxl).2

theorem HeapOk.capacity (h : HeapOk p) (hc : Chained p next l) (hx : (loc, u) ∈ logsOf p l) :
    64 ≤ u.capacity ∧ u.capacity % 64 = 0 := by
  have hget := hc.get_eq hx
  cases loc with
  | base =>
    cases hget
    rw [h.base]
    decide
  | ext o => exact (h.block hget).2

theorem logsOf_eq_append (h : logsOf p l = pre ++ (loc, u) :: post) :
    (pre = [] ∧ loc = .base ∧ u = p.undo ∧ post = l.map fun x => (.ext x.1, x.2)) ∨
    ∃ l₁ o l₂, l = l₁ ++ (o, u) :: l₂ ∧ loc = .ext o ∧
      pre = (.base, p.undo) :: l₁.map (fun x => (.ext x.1, x.2)) ∧
      post = l₂.map fun x => (.ext x.1, x.2) := by
  cases pre with
  | nil =>
    obtain ⟨heq, hpost⟩ := List.cons.inj h
    obtain ⟨rfl, rfl⟩ := Prod.mk.inj heq
    exact .inl ⟨rfl, rfl, rfl, hpost.symm⟩
  | cons y pre =>
    obtain ⟨rfl, hmap⟩ := List.cons.inj h
    obtain ⟨l₁, l', rfl, rfl, hl'⟩ := map_eq_append_iff.mp hmap
    obtain ⟨x, l₂, rfl, hx, hpost⟩ := map_eq_cons_iff.mp hl'
    obtain ⟨rfl, rfl⟩ := Prod.mk.inj hx
    exact .inr ⟨l₁, x.1, l₂, rfl, rfl, rfl, hpost.symm⟩

theorem Chained.next_of_append (h : Chained p next l) (hl : logsOf p l = pre ++ (loc, u) :: post)
    (hne : u.next ≠ 0) : ∃ v rest, post = (.ext u.next, v) :: rest := by
  have htail : ∃ l₂, post = l₂.map (fun x => (Loc.ext x.1, x.2)) ∧
      Linked.Chain Ulog.next p.blocks u.next l₂ := by
    rcases logsOf_eq_append hl with ⟨-, -, rfl, hpost⟩ | ⟨l₁, o, l₂, rfl, -, -, hpost⟩
    · exact ⟨l, hpost, h.chain⟩
    · obtain ⟨b, hb⟩ := h.chain.drop
      exact ⟨l₂, hpost, hb.2.2.2⟩
  obtain ⟨l₂, rfl, hchain⟩ := htail
  cases l₂ with
  | nil => exact absurd hchain hne
  | cons x l₂ =>
    rw [hchain.1]
    exact ⟨x.2, _, rfl⟩

theorem Chained.set (h : Chained p next l) (hl : logsOf p l = pre ++ (loc, u) :: post)
    (u' : Ulog) (hnext : u'.next = u.next) :
    ∃ l', Chained (p.set u' loc) next l' ∧ logsOf (p.set u' loc) l' = pre ++ (loc, u') :: post := by
  rcases logsOf_eq_append hl with ⟨rfl, rfl, rfl, rfl⟩ | ⟨l₁, o, l₂, rfl, rfl, rfl, rfl⟩
  · refine ⟨l, ⟨?_, h.next_eq⟩, rfl⟩
    show Linked.Chain Ulog.next p.blocks u'.next l
    rw [hnext]
    exact h.chain
  · refine ⟨l₁ ++ (o, u') :: l₂, ⟨h.chain.update_mid hnext, ?_⟩, ?_⟩
    · have hnext_eq := h.next_eq
      simp only [map_append, map_cons] at hnext_eq ⊢
      exact hnext_eq
    · simp only [logsOf, Pool.set, map_append, map_cons, cons_append]

theorem HeapOk.set (h : HeapOk p) (hget : p.get loc = some u)
    (hcap : u'.capacity = u.capacity) : HeapOk (p.set u' loc) := by
  cases loc with
  | base =>
    cases hget
    exact ⟨hcap.trans h.base, h.block⟩
  | ext o =>
    refine ⟨h.base, fun {o' v} hv => ?_⟩
    have hv' : Function.update p.blocks o (some u') o' = some v := hv
    rw [Function.update_apply] at hv'
    split at hv'
    · rename_i heq
      obtain rfl : u' = v := Option.some.inj hv'
      rw [heq, hcap]
      exact h.block hget
    · exact h.block hv'

end Logs

/-! ## How far the ulogs are filled -/

/-- The entries `es₁` are in the current ulog `u` and the entries `ess` fill the ulogs before
it. Of the entry in progress, the words `staged` behind its first cache line are stored. -/
structure At (ctx : Ctx) (pre : List (Loc × Ulog)) (loc : Loc) (u : Ulog)
    (post : List (Loc × Ulog)) (ess : List (List (List UInt64))) (es₁ : List (List UInt64))
    (staged : List UInt64) : Prop where
  full : List.Forall₂ (fun x es => Holds x.2.data 0 es (x.2.capacity / 8)) pre ess
  holds : Holds u.data 0 es₁ (ctx.currOffset / 8)
  aligned : ctx.currOffset % 64 = 0
  le : ctx.currOffset ≤ u.capacity
  head : ∀ k, ctx.currOffset / 8 ≤ k → k < ctx.currOffset / 8 + 8 → k * 8 < u.capacity →
    u.data k = 0
  behind : ∀ k, ctx.currOffset / 8 + 8 ≤ k → k * 8 < u.capacity →
    u.data k = staged.getD (k - (ctx.currOffset / 8 + 8)) 0
  clean : AllClean post
  curr : ctx.curr = some loc
  capacity : ctx.currCapacity = u.capacity - ctx.currOffset
  total : ctx.totalLogged = (pre.map fun x => x.2.capacity).sum + ctx.currOffset

/-- The transaction has appended `es`. -/
def Writing (ctx : Ctx) (logs : List (Loc × Ulog)) (staged : List UInt64)
    (es : List (List UInt64)) : Prop :=
  ∃ pre loc u post ess es₁, logs = pre ++ (loc, u) :: post ∧ es = ess.flatten ++ es₁ ∧
    At ctx pre loc u post ess es₁ staged

structure Fresh (ctx : Ctx) (logs : List (Loc × Ulog)) : Prop where
  curr : ctx.curr = none
  capacity : ctx.currCapacity = 0
  total : ctx.totalLogged = 0
  clean : AllClean logs

def Ready (ctx : Ctx) (logs : List (Loc × Ulog)) (es : List (List UInt64)) : Prop :=
  Fresh ctx logs ∧ es = [] ∨ Writing ctx logs [] es

variable {ess : List (List (List UInt64))} {es₁ : List (List UInt64)}

section Filled

variable {p : Pool} {next : List Nat} {l : List (Nat × Ulog)} {ctx : Ctx}
  {es : List (List UInt64)} {staged : List UInt64}

theorem logged_of_allClean {us : List (Loc × Ulog)} (h : AllClean us)
    (hpos : ∀ x ∈ us, 0 < x.2.capacity) : Logged (us.map Prod.snd) [] := by
  cases us with
  | nil => rfl
  | cons x us =>
    have hx := hpos x mem_cons_self
    exact .inr ⟨0, rfl, by omega, h x mem_cons_self 0 (by omega)⟩

theorem logged_append {pre : List (Loc × Ulog)} {us : List Ulog}
    (hfull : List.Forall₂ (fun x es => Holds x.2.data 0 es (x.2.capacity / 8)) pre ess)
    (hcap : ∀ x ∈ pre, x.2.capacity % 64 = 0) (h : Logged us es) :
    Logged (pre.map Prod.snd ++ us) (ess.flatten ++ es) := by
  induction hfull with
  | nil => exact h
  | @cons x es₁ pre ess hx hrest ih =>
    rw [forall_mem_cons] at hcap
    have := hcap.1
    exact .inl ⟨es₁, ess.flatten ++ es, by simp, hx, by omega, ih hcap.2⟩

variable {loc : Loc} {u : Ulog} {job : Job}

theorem At.logged {pre post : List (Loc × Ulog)} (h : At ctx pre loc u post ess es₁ staged)
    (hcap : ∀ x ∈ pre ++ (loc, u) :: post, 64 ≤ x.2.capacity ∧ x.2.capacity % 64 = 0) :
    Logged ((pre ++ (loc, u) :: post).map Prod.snd) (ess.flatten ++ es₁) := by
  rw [map_append]
  refine logged_append h.full (fun x hx => (hcap x (mem_append_left _ hx)).2) ?_
  have hu : 64 ≤ u.capacity ∧ u.capacity % 64 = 0 := hcap (loc, u) (by simp)
  have haligned := h.aligned
  have hle := h.le
  by_cases hend : ctx.currOffset = u.capacity
  · refine .inl ⟨es₁, [], (append_nil _).symm, hend ▸ h.holds,
      show u.capacity % 8 = 0 by omega, ?_⟩
    exact logged_of_allClean h.clean fun x hx => by have := hcap x (by simp [hx]); omega
  · have hlt : ctx.currOffset / 8 * 8 < u.capacity := by omega
    exact .inr ⟨_, h.holds, hlt, h.head _ (Nat.le_refl _) (by omega) hlt⟩

theorem Writing.foreachEntry_eq (hp : HeapOk p) (hc : Chained p next l)
    (h : Writing ctx (logsOf p l) staged es) : p.foreachEntry = some es := by
  obtain ⟨pre, loc, u, post, ess, es₁, hlogs, rfl, hat⟩ := h
  have hcap : ∀ x ∈ logsOf p l, 64 ≤ x.2.capacity ∧ x.2.capacity % 64 = 0 := fun x hx =>
    hp.capacity hc hx
  have hlogged := hat.logged (hlogs ▸ hcap)
  rw [← hlogs, logsOf, map_cons, map_map] at hlogged
  exact hlogged.foreachEntry_eq hc.chain (Nat.lt_succ_of_le (hp.length_le hc.chain))

theorem Ready.foreachEntry_eq (hp : HeapOk p) (hc : Chained p next l)
    (h : Ready ctx (logsOf p l) es) : p.foreachEntry = some es := by
  rcases h with ⟨hfresh, rfl⟩ | hw
  · have hlogged := logged_of_allClean hfresh.clean fun x hx => by
      have := hp.capacity hc hx
      omega
    rw [logsOf, map_cons, map_map] at hlogged
    exact hlogged.foreachEntry_eq hc.chain (Nat.lt_succ_of_le (hp.length_le hc.chain))
  · exact hw.foreachEntry_eq hp hc

/-! ## Choosing the current ulog -/

/-- `operation_add_buffer` goes on in the current ulog, or begins with the next one when it is
full. -/
theorem select_writing {size : Nat} {ctx' : Ctx} (hp : HeapOk p) (hc : Chained p next l)
    (h : Ready ctx (logsOf p l) es) (hsel : ctx.select p size = some ctx') :
    Writing ctx' (logsOf p l) [] es ∧ 64 ≤ ctx'.currCapacity ∧ ctx'.next = ctx.next := by
  unfold Ctx.select at hsel
  split at hsel
  · rename_i hne
    cases hsel
    rcases h with ⟨hfresh, -⟩ | hw
    · exact absurd hfresh.capacity hne
    · refine ⟨hw, ?_, rfl⟩
      obtain ⟨pre, loc, u, post, ess, es₁, hlogs, -, hat⟩ := hw
      have hu := hp.capacity hc (hlogs ▸ mem_append_right pre mem_cons_self)
      have haligned := hat.aligned
      have hcapacity := hat.capacity
      omega
  · rename_i hzero
    rw [not_not] at hzero
    obtain ⟨ulogCapacity, -, hsel⟩ := Option.bind_eq_some_iff.mp hsel
    obtain ⟨loc', hloc', hsel⟩ := Option.bind_eq_some_iff.mp hsel
    obtain ⟨v, hv, rfl⟩ := Option.map_eq_some_iff.mp hsel
    rcases h with ⟨hfresh, rfl⟩ | ⟨pre, loc, u, post, ess, es₁, hlogs, rfl, hat⟩
    · rw [hfresh.curr] at hloc'
      cases hloc'
      cases hv
      refine ⟨⟨[], .base, p.undo, _, [], [], rfl, rfl, ?_⟩, ?_, rfl⟩
      · have hclean := hfresh.clean (.base, p.undo) mem_cons_self
        exact {
          full := .nil
          holds := by simp [holds_nil]
          aligned := rfl
          le := Nat.zero_le _
          head := fun k _ _ hk => hclean k hk
          behind := fun k _ hk => hclean k hk
          clean := fun x hx => hfresh.clean x (mem_cons_of_mem _ hx)
          curr := rfl
          capacity := rfl
          total := hfresh.total }
      · exact (hp.capacity hc mem_cons_self).1
    · have hu := hp.capacity hc (hlogs ▸ mem_append_right pre mem_cons_self)
      have hget := hc.get_eq (hlogs ▸ mem_append_right pre mem_cons_self)
      rw [hat.curr] at hloc'
      dsimp only at hloc'
      rw [hget, Option.bind_some] at hloc'
      split at hloc'
      · cases hloc'
      · rename_i hnext
        cases hloc'
        obtain ⟨w, rest, rfl⟩ := hc.next_of_append hlogs hnext
        have hmem : (Loc.ext u.next, w) ∈ logsOf p l := hlogs ▸ (by simp)
        obtain rfl : w = v := Option.some.inj ((hc.get_eq hmem).symm.trans hv)
        have hclean := hat.clean _ mem_cons_self
        have hend : ctx.currOffset = u.capacity := by
          have := hat.capacity
          have := hat.le
          omega
        refine ⟨⟨pre ++ [(loc, u)], .ext u.next, w, rest, ess ++ [es₁], [], ?_, ?_, ?_⟩, ?_, rfl⟩
        · rw [hlogs, append_assoc]
          rfl
        · simp
        · exact {
            full := rel_append hat.full (.cons (hend ▸ hat.holds) .nil)
            holds := by simp [holds_nil]
            aligned := rfl
            le := Nat.zero_le _
            head := fun k _ _ hk => hclean k hk
            behind := fun k _ hk => hclean k hk
            clean := fun x hx => hat.clean x (mem_cons_of_mem _ hx)
            curr := rfl
            capacity := rfl
            total := by
              rw [map_append, sum_append, map_singleton, sum_singleton, Nat.add_zero, ← hend]
              exact hat.total }
        · exact (hp.capacity hc hmem).1

/-! ## Storing an entry -/

theorem store_data (u : Ulog) (i k : Nat) (ws : List UInt64) :
    (u.store i ws).data k =
      if i ≤ k ∧ k < i + ws.length then ws.getD (k - i) 0 else u.data k := rfl

theorem At.stage {pre post : List (Loc × Ulog)}
    (h : At ctx pre loc u post ess es₁ []) (staged : List UInt64) :
    At ctx pre loc (u.store (ctx.currOffset / 8 + 8) staged) post ess es₁ staged :=
  { h with
    holds := h.holds.congr fun k _ hk => by rw [store_data, if_neg (by omega)]
    head := fun k hle hlt hk => by
      rw [store_data, if_neg (by omega)]
      exact h.head k hle hlt hk
    behind := fun k hle hk => by
      rw [store_data]
      split
      · rfl
      · rename_i hout
        rw [getD_eq_default _ _ (by omega)]
        exact h.behind k hle hk }

theorem length_entryWords (ctx : Ctx) (hbytes : job.bytes.length < 2 ^ 61)
    (hcap : 64 ≤ ctx.currCapacity) :
    (entryWords ctx job).length = (min (job.bytes.length + 24) ctx.currCapacity + 63) / 64 * 8 := by
  have htake : (job.bytes.take (ctx.dataSize job.bytes.length)).length =
      ctx.dataSize job.bytes.length := by
    rw [length_take, Ctx.dataSize]
    omega
  rw [entryWords, length_bufCreate (by rw [htake, Ctx.dataSize]; omega), htake, Ctx.dataSize]
  omega

theorem isEntry_entryWords (hjob : job.dest + job.bytes.length < 2 ^ 61) :
    IsEntry (entryWords ctx job) := by
  refine bufCreate_isEntry ?_
  have := length_take_le (ctx.dataSize job.bytes.length) job.bytes
  rw [length_take] at this ⊢
  omega

theorem At.finish {pre post : List (Loc × Ulog)} (hjob : job.dest + job.bytes.length < 2 ^ 61)
    (h : At ctx pre loc u post ess es₁ ((entryWords ctx job).drop 8)) (hcap : 64 ≤ ctx.currCapacity)
    (hmod : u.capacity % 64 = 0) :
    At (ctx.advance ((entryWords ctx job).length * 8)) pre loc
      (u.store (ctx.currOffset / 8) ((entryWords ctx job).take 8)) post ess
      (es₁ ++ [entryWords ctx job]) [] := by
  have hentry : IsEntry (entryWords ctx job) := isEntry_entryWords hjob
  have hlen := length_entryWords ctx (show job.bytes.length < 2 ^ 61 by omega) hcap
  generalize hwords : entryWords ctx job = words at *
  have height := hentry.eight_le
  have htake : (words.take 8).length = 8 := by
    rw [length_take]
    omega
  have haligned := h.aligned
  have hle := h.le
  have hcapacity := h.capacity
  have hoffset : (ctx.advance (words.length * 8)).currOffset / 8 =
      ctx.currOffset / 8 + words.length := by
    show (ctx.currOffset + words.length * 8) / 8 = _
    omega
  have hdata : ∀ k, ctx.currOffset / 8 ≤ k → k * 8 < u.capacity →
      (u.store (ctx.currOffset / 8) (words.take 8)).data k =
        words.getD (k - ctx.currOffset / 8) 0 := by
    intro k hk hlt
    rw [store_data, htake]
    split
    · rw [getD_eq_getElem?_getD, getElem?_take_of_lt (by omega), ← getD_eq_getElem?_getD]
    · rw [h.behind k (by omega) hlt, getD_eq_getElem?_getD, getElem?_drop, ← getD_eq_getElem?_getD]
      congr 1
      omega
  have hend : (ctx.currOffset / 8 + words.length) * 8 ≤ u.capacity := by omega
  exact {
    full := h.full
    holds := by
      rw [hoffset]
      refine (h.holds.congr fun k _ hk => ?_).concat hentry ?_
      · rw [store_data, if_neg (by omega)]
      · apply ext_getElem?
        intro k
        by_cases hk : k < words.length
        · rw [getElem?_slice hk, hdata _ (by omega) (by omega), Nat.add_sub_cancel_left,
            getD_eq_getElem _ _ hk, getElem?_eq_getElem hk]
        · simp [hk]
    aligned := by
      show (ctx.currOffset + words.length * 8) % 64 = 0
      omega
    le := by
      show ctx.currOffset + words.length * 8 ≤ u.capacity
      omega
    head := by
      intro k hle' _ hk
      rw [hoffset] at hle'
      rw [hdata k (by omega) hk, getD_eq_default _ _ (by omega)]
    behind := by
      intro k hle' hk
      rw [hoffset] at hle'
      rw [hdata k (by omega) hk, getD_eq_default _ _ (by omega)]
      rfl
    clean := h.clean
    curr := h.curr
    capacity := by
      show ctx.currCapacity - words.length * 8 = u.capacity - (ctx.currOffset + words.length * 8)
      omega
    total := by
      show ctx.totalLogged + words.length * 8 = _ + (ctx.currOffset + words.length * 8)
      rw [h.total]
      omega }

end Filled

end Pmdk.Undo
