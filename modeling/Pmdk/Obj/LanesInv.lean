import Pmdk.Obj.LanesShape
import Pmdk.Obj.UndoLogs

/-!
# The contexts of the lanes

What the contexts of a lane are meant to say about its logs, when they do so, and what holds of
them in the middle of an operation.
-/

namespace Pmdk.Lanes

open Undo (Loc Ctx Job Write laneUndoSize)

/-! ## The property -/

structure Mirrors (p : Pool) (k : Log) (ctx : Ctx) : Prop where
  chain : ∃ l ∈ (p.view k).chain, ctx.next = l.map Prod.fst ∧
    ctx.ulogCapacity = k.slot.size + (l.map fun x => x.2.capacity).sum
  allocated : ∀ o ∈ ctx.next, (p.blocks o).isSome

/-- `operation_add_buffer` finds the ulogs that it follows and writes to, and `ulog_reserve` those
of the vector. -/
structure Follows (p : Pool) (i : Nat) (lane : Lane) : Prop where
  vector : ∀ slot, ((∃ todo, lane.phase = .finish todo) → slot ≠ .undo) →
    ∀ o ∈ (lane.ctx slot).next, (p.blocks o).isSome
  curr : ∀ job, lane.phase = .open true (.addBuffer job) → ∀ loc ∈ (lane.ctx .undo).curr,
    ((p.view ⟨i, .undo⟩).get loc).isSome
  next : ∀ dest bytes, lane.phase = .open true (.addBuffer ⟨dest, bytes, false⟩) →
    (lane.ctx .undo).currCapacity = 0 →
    ∀ c ∈ Undo.reserved Slot.undo.size (p.view ⟨i, .undo⟩) (lane.ctx .undo).next,
      (lane.ctx .undo).totalLogged + (bytes.length + 24) ≤ c →
      ∀ loc ∈ (lane.ctx .undo).curr, ∃ u ∈ (p.view ⟨i, .undo⟩).get loc,
        u.next ≠ 0 ∧ (p.blocks u.next).isSome

def Mirrored (s : State) : Prop :=
  s.mode = .run → ∀ i < s.pool.nlanes,
    ((s.lanes i).phase = .idle → ∀ slot, Mirrors s.pool ⟨i, slot⟩ ((s.lanes i).ctx slot)) ∧
    Follows s.pool i (s.lanes i)

def Redo.waiting : Redo → Bool
  | .stored _ => true
  | _ => false

/-- When a pool is opened, no change to a chain waits in a redo log, and an undo log that has
entries has at most one further ulog; and `ulog_reserve` does not fail after it has extended the
log, unless the log is an undo log with entries. -/
def Undisturbed (a : Act) (s : State) : Prop :=
  match a with
  | .reopen => ∀ i < s.pool.nlanes, (s.pool.redo ⟨i, .internal⟩).waiting = false
  | .recover _ _ =>
    match s.mode with
    | .recover i none =>
      (s.pool.ulog ⟨i, .undo⟩).baseNbytes = some 0 ∨
        ∃ l ∈ (s.pool.view ⟨i, .undo⟩).chain, l.length ≤ 1
    | _ => True
  | .fail i => ∀ slot ∈ s.short i, let ctx := (s.lanes i).ctx slot
      slot = .undo ∧ ctx.totalLogged ≠ 0 ∨
        Undo.reserved slot.size (s.pool.view ⟨i, slot⟩) ctx.next = some ctx.ulogCapacity
  | _ => True

instance (a : Act) (s : State) : Decidable (Undisturbed a s) := by
  unfold Undisturbed
  split
  · infer_instance
  · split <;> infer_instance
  · infer_instance
  · infer_instance

/-! ## The invariant -/

section Inv

variable (l : Log → List (Nat × Nat × Nat))

structure Agrees (ctx : Ctx) (size : Nat) (m : List (Nat × Nat × Nat)) : Prop where
  next : ctx.next = m.map Prod.fst
  capacity : ctx.ulogCapacity = size + capacities m

def logs (m : List (Nat × Nat × Nat)) : List (Loc × Nat) :=
  (.base, laneUndoSize) :: m.map fun x => (.ext x.1, x.2.2)

/-- The ulogs before the current one are full, and `ulog_curr_capacity` is what is left of it. -/
def Placed (ctx : Ctx) (m : List (Nat × Nat × Nat)) : Prop :=
  ctx.curr = none ∧ ctx.currCapacity = 0 ∧ ctx.totalLogged = 0 ∨
  ∃ pre loc c post, logs m = pre ++ (loc, c) :: post ∧ ctx.curr = some loc ∧
    ctx.currCapacity % 64 = 0 ∧
    ctx.totalLogged + ctx.currCapacity = (pre.map Prod.snd).sum + c

def TaskOk (ctx : Ctx) (m : List (Nat × Nat × Nat)) : Task → Prop
  | .addBuffer ⟨dest, bytes, false⟩ => dest + bytes.length < 2 ^ 61 ∧
      (ctx.ulogCapacity = laneUndoSize + capacities m ∨
        ctx.currCapacity = 0 ∧ ctx.ulogCapacity < ctx.totalLogged + (bytes.length + 24))
  | .addBuffer ⟨dest, bytes, true⟩ => dest + bytes.length < 2 ^ 61 ∧ ctx.currCapacity ≠ 0 ∧
      ctx.ulogCapacity = laneUndoSize + capacities m
  | _ => ctx.ulogCapacity = laneUndoSize + capacities m

def frees (m : List (Nat × Nat × Nat)) : List Write :=
  (m.dropLast.map fun x => .freeNext (.ext x.1)).reverse

def UndoOk (ctx : Ctx) (m : List (Nat × Nat × Nat)) : Phase → Prop
  | .open true task => ctx.next = m.map Prod.fst ∧ Placed ctx m ∧ TaskOk ctx m task
  | .finish todo => if ctx.totalLogged = 0 then todo = [] ∧ Agrees ctx laneUndoSize m
      else ∃ zs, (∀ w ∈ zs, ∃ loc nbytes, w = .zero loc nbytes) ∧ todo = zs ++ frees m
  | _ => Agrees ctx laneUndoSize m

def ExternalOk (ctx : Ctx) (m : List (Nat × Nat × Nat)) (phase : Phase) : Prop :=
  ctx.next = m.map Prod.fst ∧ (ctx.ulogCapacity = Slot.external.size + capacities m ∨
    ∃ tx n, phase = .open tx (.reserve n) ∧ ctx.ulogCapacity < n)

/-- What the redo log of the allocator says of the lane `i`. -/
def RedoOk (p : Pool) (i : Nat) (lane : Lane) : Redo → Prop
  | .empty => True
  | .stored (.link k loc offset capacity) => k.lane = i ∧
      (∃ n, lane.asked = some (k.slot, n) ∧ (lane.ctx k.slot).ulogCapacity < n) ∧
      loc = lastLoc (l k) ∧ p.heap offset = none ∧ offset ≠ 0 ∧ offset < p.size ∧
      64 ≤ capacity ∧ capacity % 64 = 0
  | .stored (.unlink k loc offset) => k = ⟨i, .undo⟩ ∧
      ∃ l₀ a n n', l k = l₀ ++ [(a, n), (offset, n')] ∧ loc = .ext a ∧
        lane.phase = .finish (frees (l k)) ∧ (lane.ctx .undo).totalLogged ≠ 0
  | .processed (.link k loc offset _) => k.lane = i ∧
      ∃ l₀ x, l k = l₀ ++ [(offset, x)] ∧ loc = lastLoc l₀
  | .processed (.unlink k loc offset) => k = ⟨i, .undo⟩ ∧
      ∃ l₀ a n, l k = l₀ ++ [(a, n)] ∧ loc = .ext a ∧ p.heap offset = none
  | .stored (.publish _ _) | .processed (.publish _ _) => False

def PublishOk : Redo → Prop
  | .stored c | .processed c => ∃ i first, c = .publish i first
  | .empty => True

structure LaneOk (p : Pool) (i : Nat) (lane : Lane) : Prop where
  internal : Agrees (lane.ctx .internal) Slot.internal.size []
  external : ExternalOk (lane.ctx .external) (l ⟨i, .external⟩) lane.phase
  undo : UndoOk (lane.ctx .undo) (l ⟨i, .undo⟩) lane.phase
  redo : RedoOk l p i lane (p.redo ⟨i, .internal⟩)
  publish : PublishOk (p.redo ⟨i, .external⟩)
  noRedo : p.redo ⟨i, .undo⟩ = .empty

def ModeOk (s : State) : Mode → Prop
  | .run => True
  | .replay _ | .recover _ none => ∀ i < s.pool.nlanes, (s.lanes i).phase = .idle
  | .recover _ (some todo) => (∀ i < s.pool.nlanes, (s.lanes i).phase = .idle) ∧
      ∀ w ∈ todo, ∃ loc nbytes, w = .zero loc nbytes

structure Inv (s : State) : Prop where
  chains : Chains s.pool l
  lane : ∀ i < s.pool.nlanes, LaneOk l s.pool i (s.lanes i)
  fresh : ∀ i < s.pool.nlanes, ∀ j < s.pool.nlanes, ∀ o,
    (s.pool.redo ⟨i, .internal⟩).offset = some o →
    (s.pool.redo ⟨j, .internal⟩).offset = some o → i = j
  mode : ModeOk s s.mode

end Inv

variable {l' : Log → List (Nat × Nat × Nat)}

section Basic

variable {l : Log → List (Nat × Nat × Nat)} {p q : Pool} {i : Nat} {lane : Lane} {s : State}

theorem inv_init (nlanes size : Nat) : Inv (fun _ => []) (State.init nlanes size) where
  chains :=
    { forest := ⟨fun _ => rfl, fun _ => nofun⟩
      block := nofun
      undo := fun _ => rfl
      internal := fun _ => rfl }
  lane _ _ :=
    { internal := ⟨rfl, rfl⟩
      external := ⟨rfl, .inl rfl⟩
      undo := ⟨rfl, rfl⟩
      redo := trivial
      publish := trivial
      noRedo := rfl }
  fresh _ _ _ _ _ := nofun
  mode := trivial

/-- What is true of a lane depends on its own chains and redo logs, and on the block that these
speak of being free. -/
theorem LaneOk.congr (h : LaneOk l p i lane) (hl : ∀ slot, l' ⟨i, slot⟩ = l ⟨i, slot⟩)
    (hheap : ∀ o, (p.redo ⟨i, .internal⟩).offset = some o → p.heap o = none → q.heap o = none)
    (hsize : q.size = p.size) (hredo : ∀ slot, q.redo ⟨i, slot⟩ = p.redo ⟨i, slot⟩) :
    LaneOk l' q i lane where
  internal := h.internal
  external := by
    rw [hl]
    exact h.external
  undo := by
    rw [hl]
    exact h.undo
  redo := by
    have hr := h.redo
    rw [hredo]
    generalize p.redo ⟨i, .internal⟩ = r at hr hheap
    match r, hr with
    | .empty, _ => trivial
    | .stored (.link ⟨_, slot⟩ _ _ _), ⟨rfl, hasked, hloc, hfree, hne, hlt, hcap⟩ =>
      exact ⟨rfl, hasked, (hl slot).symm ▸ hloc, hheap _ rfl hfree, hne, hsize ▸ hlt, hcap⟩
    | .stored (.unlink _ _ _), ⟨rfl, hr⟩ =>
      refine ⟨rfl, ?_⟩
      rw [hl]
      exact hr
    | .processed (.link ⟨_, slot⟩ _ _ _), ⟨rfl, hr⟩ =>
      refine ⟨rfl, ?_⟩
      rw [hl slot]
      exact hr
    | .processed (.unlink _ _ _), ⟨rfl, l₀, a, n, hl₀, hloc, hfree⟩ =>
      exact ⟨rfl, l₀, a, n, (hl .undo).trans hl₀, hloc, hheap _ rfl hfree⟩
  publish := hredo .external ▸ h.publish
  noRedo := (hredo .undo).trans h.noRedo

/-- A step of lane `i`, which changes no chains but its own. -/
theorem Inv.update (h : Inv l s) (hchains : Chains q l')
    (hl : ∀ j, j ≠ i → ∀ slot, l' ⟨j, slot⟩ = l ⟨j, slot⟩)
    (hheap : ∀ j < s.pool.nlanes, j ≠ i → ∀ o, (s.pool.redo ⟨j, .internal⟩).offset = some o →
      s.pool.heap o = none → q.heap o = none)
    (hsize : q.size = s.pool.size) (hnlanes : q.nlanes = s.pool.nlanes)
    (hredo : ∀ j, j ≠ i → ∀ slot, q.redo ⟨j, slot⟩ = s.pool.redo ⟨j, slot⟩)
    (hlane : LaneOk l' q i lane)
    (hfresh : ∀ o, (q.redo ⟨i, .internal⟩).offset = some o → ∀ j < s.pool.nlanes, j ≠ i →
      (s.pool.redo ⟨j, .internal⟩).offset ≠ some o)
    (hrun : s.mode = .run) : Inv l' (s.put i q lane) where
  chains := hchains
  lane j hj := by
    have hj' : j < s.pool.nlanes := hnlanes ▸ hj
    show LaneOk l' q j (Function.update s.lanes i lane j)
    rcases eq_or_ne j i with rfl | hne
    · rw [Function.update_self]
      exact hlane
    · rw [Function.update_of_ne hne]
      exact (h.lane j hj').congr (hl j hne) (hheap j hj' hne) hsize (hredo j hne)
  fresh := by
    intro j hj j' hj' o ho ho'
    have hjn : j < s.pool.nlanes := hnlanes ▸ hj
    have hjn' : j' < s.pool.nlanes := hnlanes ▸ hj'
    have ho₀ : (q.redo ⟨j, .internal⟩).offset = some o := ho
    have ho₁ : (q.redo ⟨j', .internal⟩).offset = some o := ho'
    rcases eq_or_ne j i with rfl | hne
    · by_contra hne'
      rw [hredo j' (Ne.symm hne')] at ho₁
      exact hfresh o ho₀ j' hjn' (Ne.symm hne') ho₁
    · rw [hredo j hne] at ho₀
      rcases eq_or_ne j' i with rfl | hne'
      · exact absurd ho₀ (hfresh o ho₁ j hjn hne)
      · rw [hredo j' hne'] at ho₁
        exact h.fresh j hjn j' hjn' o ho₀ ho₁
  mode := by
    show ModeOk _ s.mode
    rw [hrun]
    trivial

theorem Inv.put (h : Inv l s) (hpq : SameShape s.pool q)
    (hredo : ∀ j, j ≠ i → ∀ slot, q.redo ⟨j, slot⟩ = s.pool.redo ⟨j, slot⟩)
    (hlane : LaneOk l q i lane)
    (hfresh : ∀ o, (q.redo ⟨i, .internal⟩).offset = some o → ∀ j < s.pool.nlanes, j ≠ i →
      (s.pool.redo ⟨j, .internal⟩).offset ≠ some o)
    (hrun : s.mode = .run) : Inv l (s.put i q lane) :=
  h.update (h.chains.congr hpq) (fun _ _ _ => rfl) (fun _ _ _ o _ ho => by rw [hpq.heap, ho])
    hpq.size hpq.nlanes hredo hlane hfresh hrun

theorem Inv.put_quiet (h : Inv l s) (hi : i < s.pool.nlanes) (hrun : s.mode = .run)
    (hquiet : (s.pool.redo ⟨i, .internal⟩).waiting = false) (hpq : SameShape s.pool q)
    (hredo : ∀ k, k ≠ ⟨i, .external⟩ → q.redo k = s.pool.redo k)
    (hpublish : PublishOk (q.redo ⟨i, .external⟩))
    (hinternal : lane.ctx .internal = (s.lanes i).ctx .internal)
    (hexternal : ExternalOk (lane.ctx .external) (l ⟨i, .external⟩) lane.phase)
    (hundo : UndoOk (lane.ctx .undo) (l ⟨i, .undo⟩) lane.phase) : Inv l (s.put i q lane) := by
  have hsame : q.redo ⟨i, .internal⟩ = s.pool.redo ⟨i, .internal⟩ := hredo _ (by simp)
  refine h.put hpq (fun j hj slot => hredo _ (by simp [hj])) ?_ (fun o ho j hj hji hoff => ?_) hrun
  · exact {
      internal := hinternal ▸ (h.lane i hi).internal
      external := hexternal
      undo := hundo
      redo := by
        have hr := (h.lane i hi).redo
        rw [hsame]
        generalize s.pool.redo ⟨i, .internal⟩ = r at hr hquiet
        match r, hquiet, hr with
        | .empty, _, _ => trivial
        | .processed (.link _ _ _ _), _, hr => exact hr
        | .processed (.unlink _ _ _), _, ⟨hk, l₀, a, n, hl₀, hloc, hfree⟩ =>
          exact ⟨hk, l₀, a, n, hl₀, hloc, (congrFun hpq.heap _).trans hfree⟩
      publish := hpublish
      noRedo := (hredo _ (by simp)).trans (h.lane i hi).noRedo }
  · rw [hsame] at ho
    exact hji (h.fresh j hj i hi o hoff ho)

theorem Inv.put_lane (h : Inv l s) (hi : i < s.pool.nlanes) (hrun : s.mode = .run)
    (hquiet : (s.pool.redo ⟨i, .internal⟩).waiting = false)
    (hinternal : lane.ctx .internal = (s.lanes i).ctx .internal)
    (hexternal : ExternalOk (lane.ctx .external) (l ⟨i, .external⟩) lane.phase)
    (hundo : UndoOk (lane.ctx .undo) (l ⟨i, .undo⟩) lane.phase) : Inv l (s.put i s.pool lane) :=
  h.put_quiet hi hrun hquiet (SameShape.refl _) (fun _ _ => rfl) (h.lane i hi).publish hinternal
    hexternal hundo

end Basic

end Pmdk.Lanes
