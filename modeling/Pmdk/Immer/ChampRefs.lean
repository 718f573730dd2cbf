import Pmdk.Immer.ChampHeapRuns

/-!
# Reference counts over runs

After any calls on maps each count is that of the parents, or of the nodes that share the values,
and of the maps, and what is freed is what cannot be reached. The values of a node are destroyed
once; those of a collision node are destroyed once by `delete_collision` and once more by
`deallocate_collision`, so that every stored value dies once as long as no call frees a collision
node (`champ_refs`).
-/

namespace Pmdk.Hamts

open RefCount Packed List

variable {T K V : Type} {a b d : Nat}

/-! ## What the counts are -/

def Mem.headers (m : Mem T) : List Header :=
  m.heap.filterMap fun c => if c.freed then none else
    match c.obj with
    | .inner node => some node
    | _ => none

def Mem.parents (m : Mem T) (a : Nat) : Nat := (m.headers.flatMap Header.children).count a

def Mem.sharers (m : Mem T) (a : Nat) : Nat :=
  m.headers.countP fun node => decide (node.values = some a)

namespace Store

structure Exact (s : Store T) : Prop where
  node_refs : ∀ (a : Nat) (c : Cell (Obj T)), s.mem.heap[a]? = some c → c.freed = false →
    (∀ values, c.obj ≠ .array values) → c.refs = s.mem.parents a + s.roots.count a
  array_refs : ∀ (a : Nat) (c : Cell (Obj T)) (values : List T), s.mem.heap[a]? = some c →
    c.freed = false → c.obj = .array values → c.refs = s.mem.sharers a
  freed_iff : ∀ (a : Nat) (c : Cell (Obj T)), s.mem.heap[a]? = some c →
    (c.freed = true ↔ ¬ ∃ r ∈ s.roots, Reaches Obj.out s.mem.heap r a)

def DestroyedOnce (s : Store T) : Prop :=
  ∀ (a : Nat) (c : Cell (Obj T)), s.mem.heap[a]? = some c → ∀ i < c.obj.stored.length,
    s.mem.destroyed a i = if c.freed then 1 else 0

end Store

/-! ## Counting by cells -/

section Count

variable {m : Mem T} {owned : List Nat}

theorem count_edges (h : m.Inv owned []) :
    (edges Obj.out m.heap).count a = m.parents a + m.sharers a := by
  have hfreed : ∀ c ∈ m.heap, (c.freed = true ↔ c.refs = 0) := by
    intro c hc
    obtain ⟨i, hi⟩ := mem_iff_getElem?.mp hc
    simpa using h.freed i c hi
  rw [Mem.parents, Mem.sharers, Mem.headers]
  generalize m.heap = l at hfreed
  induction l with
  | nil => rfl
  | cons c l ih =>
    have hc := hfreed c mem_cons_self
    have hrest := ih fun c' hc' => hfreed c' (mem_cons_of_mem c hc')
    rw [edges, flatMap_cons, List.count_append, Cell.outs]
    rw [edges] at hrest
    by_cases hzero : c.refs = 0
    · rw [if_pos hzero, filterMap_cons_none (by rw [if_pos (hc.mpr hzero)]), hrest]
      simp
    · have hlive : ¬ c.freed = true := fun hf => hzero (hc.mp hf)
      rw [if_neg hzero]
      cases hobj : c.obj with
      | collision values =>
        rw [filterMap_cons_none (by rw [if_neg hlive, hobj]), hrest]
        simp [Obj.out]
      | array values =>
        rw [filterMap_cons_none (by rw [if_neg hlive, hobj]), hrest]
        simp [Obj.out]
      | inner node =>
        rw [filterMap_cons_some (by rw [if_neg hlive, hobj]), flatMap_cons,
          List.count_append, countP_cons, hrest, Obj.out, List.count_append]
        have hvalues : node.values.toList.count a =
            if decide (node.values = some a) = true then 1 else 0 := by
          cases node.values with
          | none => rfl
          | some p =>
            by_cases hp : p = a
            · simp [hp]
            · simp [hp]
        omega

theorem Mem.Denotes.reaches {n : Node T} (h : m.Denotes d a n) (hr : Reaches Obj.out m.heap a b) :
    (∃ d' n', m.Denotes d' b n') ∨ ∃ values, obj b m.heap = some (.array values) := by
  induction hr generalizing d n with
  | self a => exact .inl ⟨d, n, h⟩
  | step hx hb hr ih =>
    rename_i a b c x
    cases d with
    | zero =>
      cases n with
      | inner node => exact h.elim
      | collision values =>
        rw [show obj a m.heap = _ from h, Option.some.injEq] at hx
        rw [← hx] at hb
        cases hb
    | succ d =>
      cases n with
      | collision values => exact h.elim
      | inner node =>
        obtain ⟨node', ⟨p, hobj, hp⟩, halike⟩ := h
        rw [hobj, Option.some.injEq] at hx
        rw [← hx] at hb
        rcases mem_append.mp hb with hb | hb
        · obtain ⟨i, hi⟩ := mem_iff_getElem?.mp hb
          obtain ⟨n', -, hn'⟩ := forall₂_getElem?' halike.children hi
          exact ih hn'
        · have hpb : p = some b := by simpa using hb
          subst hpb
          cases hr with
          | self => exact .inr ⟨_, hp⟩
          | step hx' hb' =>
            rw [show obj b m.heap = _ from hp, Option.some.injEq] at hx'
            rw [← hx'] at hb'
            cases hb'

theorem Mem.Denotes.not_array {n : Node T} {values : List T} (h : m.Denotes d a n) :
    obj a m.heap ≠ some (.array values) := by
  intro hx
  cases d with
  | zero =>
    cases n with
    | inner node => exact h.elim
    | collision values' =>
      rw [show obj a m.heap = _ from h] at hx
      cases hx
  | succ d =>
    cases n with
    | collision values' => exact h.elim
    | inner node =>
      obtain ⟨node', ⟨p, hobj, -⟩, -⟩ := h
      rw [hobj] at hx
      cases hx

end Count

namespace Store

section Counts

variable {B : Nat} {hashOf : K → Hash} {s : Store (K × V)}

theorem Good.root_denotes (h : s.Good B hashOf) {r : Nat} (hr : r ∈ s.roots) :
    ∃ d n, s.mem.Denotes d r n := by
  rcases mem_cons.mp hr with rfl | hr
  · exact ⟨1, _, h.empty.denotes⟩
  · obtain ⟨c, hc, rfl⟩ := mem_map.mp hr
    obtain ⟨n, m, hn, -⟩ := h.maps c hc
    exact ⟨_, n, hn⟩

theorem Good.header (h : s.Good B hashOf) {node : Header} (hnode : node ∈ s.mem.headers) :
    (∀ c ∈ node.children, ∃ d n, s.mem.Denotes d c n) ∧
      ∀ p, node.values = some p → ∃ values, obj p s.mem.heap = some (.array values) := by
  obtain ⟨c, hc, hmatch⟩ := mem_filterMap.mp hnode
  obtain ⟨b, hb⟩ := mem_iff_getElem?.mp hc
  by_cases hfreed : c.freed = true
  · rw [if_pos hfreed] at hmatch
    cases hmatch
  · rw [if_neg hfreed] at hmatch
    have hobj : c.obj = .inner node := by
      cases hx : c.obj with
      | inner node' =>
        rw [hx] at hmatch
        rw [Option.some.inj hmatch]
      | collision values =>
        rw [hx] at hmatch
        cases hmatch
      | array values =>
        rw [hx] at hmatch
        cases hmatch
    have hx := obj_of_getElem? hb
    rw [hobj] at hx
    rw [h.freed_iff hb, not_not] at hfreed
    obtain ⟨r, hr, hreaches⟩ := hfreed
    obtain ⟨d, n, hn⟩ := h.root_denotes hr
    have hreach : ∀ p ∈ (Obj.inner node : Obj (K × V)).out,
        (∃ d n, s.mem.Denotes d p n) ∨ ∃ values, obj p s.mem.heap = some (.array values) :=
      fun p hp => hn.reaches (hreaches.trans (.step hx hp (.self p)))
    rcases hn.reaches hreaches with ⟨d', n', hn'⟩ | ⟨values, harray⟩
    · cases d' with
      | zero =>
        cases n' with
        | inner node' => exact hn'.elim
        | collision values =>
          rw [show obj b _ = _ from hn'] at hx
          cases hx
      | succ d' =>
        cases n' with
        | collision values => exact hn'.elim
        | inner node' =>
          obtain ⟨view, ⟨p, hview, hp⟩, halike⟩ := hn'
          rw [hview, Option.some.injEq, Obj.inner.injEq] at hx
          subst hx
          constructor
          · intro c' hc'
            obtain ⟨i, hi⟩ := mem_iff_getElem?.mp hc'
            obtain ⟨n'', -, hn''⟩ := forall₂_getElem?' halike.children hi
            exact ⟨_, _, hn''⟩
          · rintro q rfl
            exact ⟨_, hp⟩
    · rw [harray] at hx
      cases hx

theorem Good.exact (h : s.Good B hashOf) : s.Exact := by
  refine ⟨fun a c hc _ hnode => ?_, fun a c values hc _ hobj => ?_, fun a c hc => h.freed_iff hc⟩
  · have hcount := h.inv.counted a
    have hsharers : s.mem.sharers a = 0 := by
      refine countP_eq_zero.mpr fun node hmem hvalues => ?_
      obtain ⟨values, harray⟩ := (h.header hmem).2 a (of_decide_eq_true hvalues)
      rw [obj_of_getElem? hc, Option.some.injEq] at harray
      exact hnode values harray
    rw [refs_of_getElem? hc, count_edges h.inv, hsharers] at hcount
    exact hcount
  · have hcount := h.inv.counted a
    have harray := obj_of_getElem? hc
    rw [hobj] at harray
    have hparents : s.mem.parents a = 0 := by
      refine count_eq_zero.mpr fun hmem => ?_
      obtain ⟨node, hnode, hchild⟩ := mem_flatMap.mp hmem
      obtain ⟨d, n, hn⟩ := (h.header hnode).1 a hchild
      exact hn.not_array harray
    have hroots : s.roots.count a = 0 := by
      refine count_eq_zero.mpr fun hmem => ?_
      obtain ⟨d, n, hn⟩ := h.root_denotes hmem
      exact hn.not_array harray
    rw [refs_of_getElem? hc, count_edges h.inv, hparents, hroots] at hcount
    omega

theorem Good.destroyedOnce (h : s.Good B hashOf) (halive : s.Alive) : s.DestroyedOnce := by
  intro a c hc i hi
  rw [h.inv.destroyed a i, hc, Option.map_some, Option.getD_some, Cell.deaths]
  cases hfreed : c.freed with
  | false => simp
  | true =>
    cases hobj : c.obj with
    | inner node => simp [Obj.stored, hobj] at hi
    | array values =>
      rw [hobj] at hi
      simp [hi, Obj.deaths]
    | collision values =>
      rw [halive a c values hc hobj] at hfreed
      cases hfreed

end Counts

end Store

/-! ## Runs -/

section Runs

variable [DecidableEq K] {B : Nat} {hashOf : K → Hash} {dflt : V} {s : Store (K × V)}
  {ok : Store (K × V) → Call K V → Prop}

theorem Store.Good.not_faults (h : s.Good B hashOf) (hB : B ≤ 5) {op : Call K V}
    {s' : Store (K × V)} (hs : s.step B hashOf dflt op = some s') : ¬ op.Faults B s := by
  intro hfaults
  rw [h.step_eq_none hB dflt hfaults] at hs
  cases hs

theorem Reached.good (h : Reached B hashOf dflt ok s) (hB0 : 0 < B) (hB : B ≤ 5) :
    s.Good B hashOf := by
  induction h with
  | init => exact Store.good_init
  | step _ op hvalid hroom _ hs ih =>
    obtain ⟨s', hs', hgood, -⟩ := ih.step hB0 hB dflt hvalid hroom (ih.not_faults hB hs)
    rw [hs, Option.some.injEq] at hs'
    exact hs' ▸ hgood

theorem Reached.alive (h : Reached B hashOf dflt ok s) (hB0 : 0 < B) (hB : B ≤ 5)
    (hok : ∀ s op, ok s op → op.Spares s) : s.Alive := by
  induction h with
  | init =>
    intro a c values hc hobj
    cases a with
    | zero =>
      rw [← Option.some.inj hc] at hobj
      cases hobj
    | succ a => cases hc
  | step hreached op hvalid hroom hstep hs ih =>
    have hgood := hreached.good hB0 hB
    obtain ⟨s', hs', -, halive⟩ :=
      hgood.step hB0 hB dflt hvalid hroom (hgood.not_faults hB hs)
    rw [hs, Option.some.injEq] at hs'
    exact hs' ▸ halive (hok _ op hstep) ih

/-- In every run the counts are exact, what is freed is what cannot be reached, and the next call
succeeds unless it is a `sub` that faults. If no call lets go of the last map of a collision node,
every stored value is destroyed once, when its object is freed. -/
theorem champ_refs (hB0 : 0 < B) (hB : B ≤ 5) (h : Reached B hashOf dflt ok s) :
    s.Exact ∧
      (∀ op : Call K V, op.Valid s → op.Room B hashOf s →
        ((∃ s', s.step B hashOf dflt op = some s') ↔ ¬ op.Faults B s)) ∧
      ((∀ s op, ok s op → op.Spares s) → s.DestroyedOnce) := by
  have hgood := h.good hB0 hB
  refine ⟨hgood.exact, fun op hvalid hroom => ⟨?_, fun hnot => ?_⟩, fun hok => ?_⟩
  · rintro ⟨s', hs'⟩
    exact hgood.not_faults hB hs'
  · obtain ⟨s', hs', -⟩ := hgood.step hB0 hB dflt hvalid hroom hnot
    exact ⟨s', hs'⟩
  · exact hgood.destroyedOnce (h.alive hB0 hB hok)

/-! ## Calls in sequence -/

theorem Call.valid_of_step {s' : Store (K × V)} {op : Call K V}
    (h : s.step B hashOf dflt op = some s') : op.Valid s := by
  have hlt : ∀ {i : Nat} {f : MapRef → Option (Store (K × V))},
      s.maps[i]?.bind f = some s' → i < s.maps.length := fun hb => by
    obtain ⟨c, hc, -⟩ := Option.bind_eq_some_iff.mp hb
    exact (List.getElem?_eq_some_iff.mp hc).1
  cases op with
  | empty => trivial
  | add i v => exact hlt h
  | update i k fn => exact hlt h
  | sub i k => exact hlt h
  | copy i => exact hlt h
  | destroy i => exact hlt h
  | assign i j =>
    refine ⟨?_, hlt h⟩
    obtain ⟨other, -, h⟩ := Option.bind_eq_some_iff.mp h
    obtain ⟨m, -, h⟩ := Option.bind_eq_some_iff.mp h
    exact hlt h

theorem Reached.foldlM {s' : Store (K × V)} {ops : List (Call K V)} (h : Reached B hashOf dflt ok s)
    (hroom : ∀ s, ∀ op ∈ ops, op.Room B hashOf s) (hok : ∀ s, ∀ op ∈ ops, ok s op)
    (hs : ops.foldlM (Store.step B hashOf dflt) s = some s') : Reached B hashOf dflt ok s' := by
  induction ops generalizing s with
  | nil => exact Option.some.inj hs ▸ h
  | cons op ops ih =>
    obtain ⟨s₁, hs₁, hs⟩ := Option.bind_eq_some_iff.mp hs
    exact ih (h.step op (Call.valid_of_step hs₁) (hroom _ op mem_cons_self)
        (hok _ op mem_cons_self) hs₁)
      (fun s op hop => hroom s op (mem_cons_of_mem _ hop))
      (fun s op hop => hok s op (mem_cons_of_mem _ hop)) hs

theorem Call.room_bool (hB : 0 < B) {hashOf : Bool → Hash} (s : Store (Bool × V))
    (op : Call Bool V) : op.Room B hashOf s := by
  have hatMost : ∀ l : List Bool, AtMostIn hashOf (2 ^ B) l := fun l ks hks _ _ =>
    hks.length_le_card.trans (Nat.le_self_pow hB.ne' 2)
  cases op with
  | add i v => exact fun c n _ _ => hatMost _
  | update i k fn => exact fun c n _ _ => hatMost _
  | _ => trivial

/-- Two keys with the same hash are in one collision node. -/
theorem champ_refs_two_keys :
    ∃ s : Store (Bool × Nat), s.maps.map MapRef.size = [2, 1, 0] ∧ s.Exact ∧
      (∀ op : Call Bool Nat, op.Valid s → op.Room 5 (fun _ => 0) s →
        ((∃ s', s.step 5 (fun _ => 0) 0 op = some s') ↔ ¬ op.Faults 5 s)) ∧
      s.DestroyedOnce := by
  have hrun : (([.empty, .add 0 (false, 1), .add 0 (true, 2)] : List (Call Bool Nat)).foldlM
      (Store.step 5 (fun _ => 0) 0) .init).any
        (fun s => s.maps.map MapRef.size == [2, 1, 0]) = true := by
    decide +kernel
  obtain ⟨s, hs, hsizes⟩ := (Option.any_eq_true _ _).mp hrun
  have hspares : ∀ s : Store (Bool × Nat),
      ∀ op ∈ ([.empty, .add 0 (false, 1), .add 0 (true, 2)] : List (Call Bool Nat)),
        op.Spares s := by
    intro s op hop
    simp only [List.mem_cons, List.not_mem_nil, or_false] at hop
    rcases hop with rfl | rfl | rfl
    · trivial
    · trivial
    · trivial
  have hreached : Reached 5 (fun _ => 0) 0 (fun s op => op.Spares s) s :=
    Reached.foldlM .init (fun s op _ => op.room_bool (by decide) s) hspares hs
  obtain ⟨hexact, hsteps, honce⟩ := champ_refs (by decide) (by decide) hreached
  exact ⟨s, eq_of_beq hsizes, hexact, hsteps, honce fun _ _ h => h⟩

/-- When the only map of a collision node goes, its values are destroyed twice. -/
theorem not_destroyedOnce_collision :
    ∃ s : Store (Bool × Nat), Reached 5 (fun _ => 0) 0 (fun _ _ => True) s ∧ ¬ s.DestroyedOnce := by
  have hrun : (([.empty, .add 0 (false, 1), .add 0 (true, 2), .destroy 0] :
      List (Call Bool Nat)).foldlM (Store.step 5 (fun _ => 0) 0) .init).any
        (fun s => s.mem.destroyed 3 0 == 2 &&
          s.mem.heap[3]?.any fun c => decide (0 < c.obj.stored.length)) = true := by
    decide +kernel
  obtain ⟨s, hs, hdestroyed⟩ := (Option.any_eq_true _ _).mp hrun
  rw [Bool.and_eq_true, beq_iff_eq] at hdestroyed
  obtain ⟨c, hc, hstored⟩ := (Option.any_eq_true _ _).mp hdestroyed.2
  refine ⟨s, Reached.foldlM .init (fun s op _ => op.room_bool (by decide) s)
    (fun _ _ _ => trivial) hs, fun honce => ?_⟩
  have htwice := honce 3 c hc 0 (of_decide_eq_true hstored)
  rw [hdestroyed.1] at htwice
  split at htwice
  · cases htwice
  · cases htwice

end Runs

end Pmdk.Hamts
