import Pmdk.Lib.Run
import Pmdk.Reorder.Replay

/-!
# The state machine over the operations of a log

Stores are collected until a fence comes after a flush; the flushed ones are then replayed. A store
that was collected and is not flushed at that fence is dropped, although a later flush and a later
fence may make it persistent.
-/

namespace Pmdk.Reorder

open Transition List

variable {ν : Type}

/-! ## Operations -/

/-- The subclasses of `ReorderBase`. -/
inductive ReorderMarker
  | reorderFull
  | reorderPartial
  | reorderAccumulative
  | reorderReverseAccumulative
  | noReorderDoCheck
  | noReorderNoCheck
  | reorderDefault

inductive Operation (ν : Type)
  | store (s : Store)
  | flush (address size : Nat)
  | fence
  | registerFile (r : RegisterFile ν)
  | reorder (marker : ReorderMarker)

def isInFlush (address size : Nat) (s : Store) : Bool :=
  rangeCmp s.range ⟨address, address + size⟩ = 0

def Operation.isFence : Operation ν → Bool
  | fence => true
  | _ => false

def Operation.register (regs : List (RegisterFile ν)) : Operation ν → List (RegisterFile ν)
  | registerFile r => regs ++ [r]
  | _ => regs

def substituteReorder (ctx : Context ν) : ReorderMarker → Context ν
  | .reorderFull => { ctx with
      reorderEngine := .full, testOnBarrier := Engine.full.testOnBarrier }
  | .reorderPartial => { ctx with
      reorderEngine := .randomPartial 3, testOnBarrier := (Engine.randomPartial 3).testOnBarrier }
  | .reorderAccumulative => { ctx with
      reorderEngine := .accumulative, testOnBarrier := Engine.accumulative.testOnBarrier }
  | .reorderReverseAccumulative => { ctx with
      reorderEngine := .accumulativeReverse
      testOnBarrier := Engine.accumulativeReverse.testOnBarrier }
  | .noReorderDoCheck => { ctx with
      reorderEngine := .noReorder, testOnBarrier := Engine.noReorder.testOnBarrier }
  | .noReorderNoCheck => { ctx with
      reorderEngine := .noChecker, testOnBarrier := Engine.noChecker.testOnBarrier }
  | .reorderDefault => { ctx with
      reorderEngine := ctx.defaultEngine, testOnBarrier := ctx.defaultBarrier }

/-! ## States -/

inductive InnerState
  | init
  | dirty
  | flush
  | fence
  deriving DecidableEq

def moveInnerState : Operation ν → InnerState → InnerState
  | .store _, .init => .dirty
  | .flush _ _, .dirty => .flush
  | .fence, .flush => .fence
  | _, inner => inner

def collect (opsList : List Collected) : Operation ν → List Collected
  | .store s => opsList ++ [⟨s, false⟩]
  | .flush address size =>
    opsList.map fun c => if isInFlush address size c.store then { c with flushed := true } else c
  | _ => opsList

inductive State
  | init
  | collecting (opsList : List Collected) (inner : InnerState)
  | replaying (opsList : List Collected)

def State.next (op : Operation ν) : State → State
  | init => collecting [] .init
  | collecting opsList inner =>
    if op.isFence ∧ inner = .flush then replaying opsList else collecting opsList inner
  | replaying _ => collecting [] .init

/-- The state machine, with its context and the files. `batch` counts the replays, of which each
draws its random numbers anew. -/
structure Machine (ν : Type) where
  state : State
  ctx : Context ν
  image : Image ν
  batch : Nat
  allConsistent : Bool

def Machine.init (engine : Engine) (image : Image ν) : Machine ν where
  state := .init
  ctx := .init engine
  image := image
  batch := 0
  allConsistent := true

section Run

variable [DecidableEq ν] (size : ν → Nat) (checker : ν → Image ν → Bool)
  (choice : Nat → Sampling)

def collectContext (ctx : Context ν) : Operation ν → Option (Context ν)
  | .reorder marker => some (substituteReorder ctx marker)
  | .registerFile r => (regFile size ctx.files r).map fun files => { ctx with files }
  | _ => some ctx

def Machine.run (op : Operation ν) (m : Machine ν) : Option (Machine ν) :=
  match m.state with
  | .init => some m
  | .collecting opsList inner => do
    let ctx ← collectContext size m.ctx op
    some { m with ctx, state := .collecting (collect opsList op) (moveInnerState op inner) }
  | .replaying opsList => do
    let out ← ReplayingState.run size checker m.ctx (choice m.batch) opsList m.image
    some { m with
      image := out.trial.1, batch := m.batch + 1
      allConsistent := m.allConsistent && out.consistency }

/-- One turn of the loop of `StateMachine.run_all`. -/
def Machine.step (op : Operation ν) (m : Machine ν) : Option (Machine ν) :=
  Machine.run size checker choice op { m with state := m.state.next op }

def runAll (operations : List (Operation ν)) (m : Machine ν) : Option (Machine ν) :=
  Transition.run (Machine.step size checker choice) operations m

end Run

/-! ## Persisted stores -/

def persists (s : Store) : List (Operation ν) → Bool
  | [] => false
  | .flush address size :: ops =>
    (isInFlush address size s && ops.any Operation.isFence) || persists s ops
  | _ :: ops => persists s ops

def persisted : List (Operation ν) → List Store
  | [] => []
  | .store s :: ops => if persists s ops then s :: persisted ops else persisted ops
  | _ :: ops => persisted ops

def stores : List (Operation ν) → List Store
  | [] => []
  | .store s :: ops => s :: stores ops
  | _ :: ops => stores ops

def registered (operations : List (Operation ν)) : List (RegisterFile ν) :=
  operations.foldl Operation.register []

def stored [DecidableEq ν] (regs : List (RegisterFile ν)) (image : Image ν) (l : List Store) :
    Image ν :=
  applied regs image (l.map fun s => (s, 0))

def InsideOne (size : ν → Nat) (regs : List (RegisterFile ν)) (s : Store) : Prop :=
  ∃ r, regs.filter (fun r => r.address ≤ s.range.base ∧ s.range.max ≤ r.address + r.size) = [r] ∧
    r.offset + (s.range.max - r.address) ≤ size r.name

/-- At every fence that ends a batch, the collected stores that were flushed are in a registered
mapping and clean, and the other ones are not persisted by the operations that follow. -/
def Replayable (size : ν → Nat) : List (Operation ν) → List (RegisterFile ν) → List Collected →
    InnerState → Prop
  | [], _, _, _ => True
  | op :: ops, regs, opsList, inner =>
    if op.isFence ∧ inner = .flush then
      (∀ c ∈ opsList,
        if c.flushed then mostRecent regs c.store.range ≠ none ∧ Clean size regs c.store.range
        else persists c.store ops = false) ∧
      Replayable size ops regs [] .init
    else
      Replayable size ops (op.register regs) (collect opsList op) (moveInnerState op inner)

/-! ## What is left to be stored -/

def isKept (ops : List (Operation ν)) (c : Collected) : Bool :=
  (c.flushed && ops.any Operation.isFence) || persists c.store ops

def remaining (opsList : List Collected) (ops : List (Operation ν)) : List Store :=
  (opsList.filter (isKept ops)).map (·.store) ++ persisted ops

variable {size : ν → Nat} {op : Operation ν} {ops : List (Operation ν)}
  {opsList : List Collected} {inner : InnerState} {regs all : List (RegisterFile ν)}

theorem isKept_flush (address size : Nat) (c : Collected) :
    isKept (.flush address size :: ops) c =
      isKept ops (if isInFlush address size c.store then { c with flushed := true } else c) := by
  unfold isKept
  rw [persists]
  cases isInFlush address size c.store with
  | false => rfl
  | true =>
    change (c.flushed && ops.any Operation.isFence ||
      (true && ops.any Operation.isFence || persists c.store ops)) =
        (true && ops.any Operation.isFence || persists c.store ops)
    rw [Bool.true_and, ← Bool.or_assoc, Bool.or_eq_right_iff_imp.mpr fun h =>
      (Bool.and_eq_true_iff.mp h).2]

theorem remaining_collect (h : op.isFence = true → ∀ c ∈ opsList, c.flushed = false) :
    remaining (collect opsList op) ops = remaining opsList (op :: ops) := by
  cases op with
  | store s =>
    have hkept : isKept ops ⟨s, false⟩ = persists s ops := rfl
    have hsame : isKept (.store s :: ops) = isKept ops := rfl
    unfold remaining
    rw [collect, persisted, filter_append, filter_singleton, hkept, hsame]
    cases persists s ops with
    | false => simp
    | true => simp
  | flush address size =>
    have hrest : persisted (.flush address size :: ops) = persisted ops := rfl
    unfold remaining
    rw [collect, hrest, filter_map, map_map]
    congr 1
    have hkept : isKept (.flush address size :: ops) = isKept ops ∘ fun c =>
        if isInFlush address size c.store then { c with flushed := true } else c :=
      funext (isKept_flush address size)
    rw [hkept]
    refine map_congr_left fun c _ => ?_
    rw [Function.comp_apply]
    split
    · rfl
    · rfl
  | fence =>
    refine congrArg (List.map _ · ++ persisted ops) (filter_congr fun c hc => ?_)
    change (c.flushed && _ || persists c.store ops) = (c.flushed && _ || persists c.store ops)
    rw [h rfl c hc, Bool.false_and, Bool.false_and]
  | registerFile r => rfl
  | reorder marker => rfl

theorem remaining_fence (h : ∀ c ∈ opsList, c.flushed = false → persists c.store ops = false) :
    remaining opsList (.fence :: ops) = flushedStores opsList ++ remaining [] ops := by
  refine congrArg (List.map _ · ++ persisted ops) (filter_congr fun c hc => ?_)
  change (c.flushed && true || persists c.store ops) = c.flushed
  cases hflushed : c.flushed with
  | false => exact h c hc hflushed
  | true => rfl

/-! ## The states -/

def State.collected : State → List Collected × InnerState
  | init => ([], .init)
  | collecting opsList inner => (opsList, inner)
  | replaying _ => ([], .init)

theorem State.next_eq (op : Operation ν) (st : State) :
    st.next op = if op.isFence ∧ st.collected.2 = .flush then replaying st.collected.1
      else collecting st.collected.1 st.collected.2 := by
  cases st with
  | init => exact (if_neg fun h => absurd h.2 (by decide)).symm
  | collecting opsList inner => rfl
  | replaying opsList => exact (if_neg fun h => InnerState.noConfusion h.2).symm

structure Marked (opsList : List Collected) (inner : InnerState) : Prop where
  ne_fence : inner ≠ .fence
  ne_init : opsList ≠ [] → inner ≠ .init
  flush : ∀ c ∈ opsList, c.flushed = true → inner = .flush

theorem marked_nil : Marked [] .init :=
  ⟨nofun, fun h => absurd rfl h, fun _ hc => absurd hc not_mem_nil⟩

theorem Marked.unflushed (h : Marked opsList inner) (hinner : inner ≠ .flush) :
    ∀ c ∈ opsList, c.flushed = false := by
  intro c hc
  by_contra hflushed
  exact hinner (h.flush c hc (Bool.not_eq_false _ ▸ hflushed))

theorem Marked.step (h : Marked opsList inner) (hop : ¬(op.isFence = true ∧ inner = .flush)) :
    Marked (collect opsList op) (moveInnerState op inner) := by
  cases op with
  | store s =>
    have hmove : (inner = .init → moveInnerState (.store s : Operation ν) inner = .dirty) ∧
        (inner ≠ .init → moveInnerState (.store s : Operation ν) inner = inner) := by
      cases inner <;> simp [moveInnerState]
    by_cases hinit : inner = .init
    · rw [hmove.1 hinit]
      refine ⟨nofun, fun _ => nofun, fun c hc hflushed => ?_⟩
      rcases mem_append.mp hc with hc | hc
      · exact absurd (hinit ▸ h.flush c hc hflushed) nofun
      · rw [mem_singleton.mp hc] at hflushed
        exact absurd hflushed nofun
    · rw [hmove.2 hinit]
      refine ⟨h.ne_fence, fun _ => hinit, fun c hc hflushed => ?_⟩
      rcases mem_append.mp hc with hc | hc
      · exact h.flush c hc hflushed
      · rw [mem_singleton.mp hc] at hflushed
        exact absurd hflushed nofun
  | flush address size =>
    cases opsList with
    | nil =>
      refine ⟨?_, fun hne => absurd rfl hne, fun c hc => absurd hc not_mem_nil⟩
      have := h.ne_fence
      cases inner <;> simp_all [moveInnerState]
    | cons c opsList =>
      have hmove : moveInnerState (.flush address size : Operation ν) inner = .flush := by
        have hne := h.ne_init (cons_ne_nil _ _)
        have := h.ne_fence
        cases inner <;> simp_all [moveInnerState]
      rw [hmove]
      exact ⟨nofun, fun _ => nofun, fun _ _ _ => rfl⟩
  | fence =>
    have hmove : moveInnerState (.fence : Operation ν) inner = inner := by
      cases inner <;> simp_all [moveInnerState, Operation.isFence]
    rw [hmove]
    exact h
  | registerFile r => cases inner <;> exact h
  | reorder marker => cases inner <;> exact h

/-! ## Where the stores are -/

theorem subset_register (op : Operation ν) (regs : List (RegisterFile ν)) :
    regs ⊆ op.register regs := by
  cases op with
  | registerFile r => exact subset_append_left regs [r]
  | _ => exact List.Subset.refl regs

theorem subset_foldl_register (ops : List (Operation ν)) (regs : List (RegisterFile ν)) :
    regs ⊆ ops.foldl Operation.register regs := by
  induction ops generalizing regs with
  | nil => exact List.Subset.refl regs
  | cons op ops ih => exact List.Subset.trans (subset_register op regs) (ih _)

theorem InsideOne.mostRecent_eq {s : Store} (h : InsideOne size all s) (hsub : regs ⊆ all)
    (hne : mostRecent regs s.range ≠ none) :
    mostRecent regs s.range = mostRecent all s.range ∧ Located size regs s.range := by
  obtain ⟨r, hone, hfile⟩ := h
  have honly : ∀ l : List (RegisterFile ν), l ⊆ all → ∀ r', mostRecent l s.range = some r' → r' =
      r := by
    intro l hl r' hr'
    obtain ⟨hmem, hcontains⟩ := mostRecent_eq_some hr'
    have : r' ∈ all.filter fun r => r.address ≤ s.range.base ∧ s.range.max ≤ r.address + r.size :=
      mem_filter.mpr ⟨hl hmem, decide_eq_true hcontains⟩
    rw [hone] at this
    exact mem_singleton.mp this
  obtain ⟨r', hr'⟩ := Option.ne_none_iff_exists'.mp hne
  obtain rfl := honly regs hsub r' hr'
  refine ⟨?_, r', hr', hfile⟩
  obtain ⟨hmem, hcontains⟩ := mostRecent_eq_some hr'
  cases hall : mostRecent all s.range with
  | none =>
    have hnot := find?_eq_none.mp hall r' (mem_reverse.mpr (hsub hmem))
    exact absurd (decide_eq_true hcontains) hnot
  | some r'' => rw [hr', honly all (List.Subset.refl all) r'' hall]

section Stored

variable [DecidableEq ν] {image : Image ν} {l l' : List Store}

theorem stored_append : stored regs image (l ++ l') = stored regs (stored regs image l) l' := by
  rw [stored, applied, map_append, foldl_append]
  rfl

theorem applied_zipIdx : applied regs image l.zipIdx = stored regs image l := by
  have hnumber : l.zipIdx.foldl (access regs).put image =
      (l.zipIdx.map Prod.fst).foldl (fun image s => (access regs).put image (s, 0)) image := by
    rw [foldl_map]
    rfl
  rw [applied, hnumber, zipIdx_map_fst, stored, applied, foldl_map]

theorem stored_congr (h : ∀ s ∈ l, mostRecent regs s.range = mostRecent all s.range) :
    stored regs image l = stored all image l := by
  induction l generalizing image with
  | nil => rfl
  | cons s l ih =>
    rw [forall_mem_cons] at h
    have hput : (access regs).put image (s, 0) = (access all).put image (s, 0) := by
      simp only [SavedValues.Access.put, access, h.1]
    change stored regs ((access regs).put image (s, 0)) l =
      stored all ((access all).put image (s, 0)) l
    rw [hput, ih h.2]

end Stored

/-! ## The run -/

theorem mem_collect {c : Collected} (h : c ∈ collect opsList op) :
    c.store ∈ stores [op] ∨ ∃ c' ∈ opsList, c'.store = c.store := by
  cases op with
  | store s =>
    rcases mem_append.mp h with h | h
    · exact .inr ⟨c, h, rfl⟩
    · rw [mem_singleton.mp h]
      exact .inl (mem_singleton_self s)
  | flush address size =>
    obtain ⟨c', hc', rfl⟩ := mem_map.mp h
    refine .inr ⟨c', hc', ?_⟩
    split
    · rfl
    · rfl
  | fence => exact .inr ⟨c, h, rfl⟩
  | registerFile r => exact .inr ⟨c, h, rfl⟩
  | reorder marker => exact .inr ⟨c, h, rfl⟩

theorem mem_stores_cons {s : Store} :
    s ∈ stores (op :: ops) ↔ s ∈ stores [op] ∨ s ∈ stores ops := by
  cases op with
  | store s' => simp [stores]
  | _ => simp [stores]

theorem collectContext_eq {ctx : Context ν} (hfiles : ctx.files = regs.map RegisterFile.file)
    (hreg : ∀ r ∈ op.register regs, size r.name ≠ 0) :
    ∃ ctx', collectContext size ctx op = some ctx' ∧
      ctx'.files = (op.register regs).map RegisterFile.file := by
  cases op with
  | registerFile r =>
    have hadd : regFile size ctx.files r = some (ctx.files ++ [r.file]) :=
      if_neg (hreg r (mem_append_right regs (mem_singleton_self r)))
    refine ⟨{ ctx with files := ctx.files ++ [r.file] }, ?_, ?_⟩
    · rw [collectContext, hadd]
      rfl
    · rw [Operation.register, map_append, hfiles]
      rfl
  | reorder marker => exact ⟨_, rfl, by cases marker <;> exact hfiles⟩
  | _ => exact ⟨ctx, rfl, hfiles⟩

variable [DecidableEq ν] {checker : ν → Image ν → Bool} {choice : Nat → Sampling}

theorem step_replaying {m : Machine ν} {out : Replayed ν} (hnext : m.state.next op =
    .replaying opsList)
    (hrun : ReplayingState.run size checker m.ctx (choice m.batch) opsList m.image = some out) :
    Machine.step size checker choice op m = some { m with
      state := .replaying opsList, image := out.trial.1, batch := m.batch + 1
      allConsistent := m.allConsistent && out.consistency } := by
  unfold Machine.step
  rw [hnext]
  change (ReplayingState.run size checker m.ctx (choice m.batch) opsList m.image).bind _ = _
  rw [hrun]
  rfl

theorem step_collecting {m : Machine ν} {ctx' : Context ν}
    (hnext : m.state.next op = .collecting opsList inner)
    (hctx : collectContext size m.ctx op = some ctx') :
    Machine.step size checker choice op m = some { m with
      ctx := ctx', state := .collecting (collect opsList op) (moveInnerState op inner) } := by
  unfold Machine.step
  rw [hnext]
  change (collectContext size m.ctx op).bind _ = _
  rw [hctx]
  rfl

variable (checker) in
theorem replay_batch (image : Image ν) {ctx : Context ν} (number : Sampling) (hsub : regs ⊆ all)
    (hctx : ctx.files = regs.map RegisterFile.file)
    (hcollected : ∀ c ∈ opsList, InsideOne size all c.store)
    (hbatch : ∀ c ∈ opsList, c.flushed = true →
      mostRecent regs c.store.range ≠ none ∧ Clean size regs c.store.range) :
    ∃ out, ReplayingState.run size checker ctx number opsList image = some out ∧
      out.trial.1 = stored all image (flushedStores opsList) := by
  have hflushed : ∀ s ∈ flushedStores opsList, Clean size regs s.range ∧
      mostRecent regs s.range = mostRecent all s.range ∧ Located size regs s.range := by
    intro s hs
    obtain ⟨c, hc, rfl⟩ := mem_map.mp hs
    obtain ⟨hc, hmark⟩ := mem_filter.mp hc
    obtain ⟨hne, hclean⟩ := hbatch c hc hmark
    exact ⟨hclean, (hcollected c hc).mostRecent_eq hsub hne⟩
  obtain ⟨out, hrun, -, himage⟩ := replay_exact checker ctx number opsList image hctx
    fun s hs => ⟨(hflushed s hs).1, (hflushed s hs).2.2⟩
  rw [applied_zipIdx, stored_congr fun s hs => (hflushed s hs).2.1] at himage
  exact ⟨out, hrun, himage⟩

/-- From any state, what is collected or comes, and is persisted, is stored in order. -/
theorem runAll_from (all : List (RegisterFile ν)) (hfiles : ∀ r ∈ all, size r.name ≠ 0)
    (ops : List (Operation ν)) (regs : List (RegisterFile ν)) (opsList : List Collected)
    (inner : InnerState) (m : Machine ν) (hall : ops.foldl Operation.register regs = all)
    (hstate : m.state.collected = (opsList, inner))
    (hctx : m.ctx.files = regs.map RegisterFile.file) (hmarked : Marked opsList inner)
    (hops : ∀ s ∈ stores ops, InsideOne size all s)
    (hcollected : ∀ c ∈ opsList, InsideOne size all c.store)
    (hreplay : Replayable size ops regs opsList inner) :
    ∃ m', runAll size checker choice ops m = some m' ∧
      m'.image = stored all m.image (remaining opsList ops) := by
  induction ops generalizing regs opsList inner m with
  | nil =>
    have hnone : opsList.filter (isKept ([] : List (Operation ν))) = [] :=
      filter_eq_nil_iff.mpr fun c _ => by simp [isKept, persists]
    refine ⟨m, rfl, ?_⟩
    rw [remaining, hnone]
    rfl
  | cons op ops ih =>
    have hnext := m.state.next_eq op
    rw [hstate] at hnext
    have hsub : op.register regs ⊆ all := hall ▸ subset_foldl_register ops _
    rw [Replayable] at hreplay
    by_cases hbarrier : op.isFence = true ∧ inner = .flush
    · rw [if_pos hbarrier] at hnext hreplay
      cases op with
      | fence =>
        obtain ⟨hbatch, hreplay⟩ := hreplay
        obtain ⟨out, hrun, himage⟩ := replay_batch checker m.image
          (choice m.batch) hsub hctx hcollected fun c hc hmark => by
            have := hbatch c hc
            rwa [if_pos hmark] at this
        obtain ⟨m', hm', hm'image⟩ := ih regs [] .init
          { m with
            state := .replaying opsList, image := out.trial.1, batch := m.batch + 1
            allConsistent := m.allConsistent && out.consistency }
          hall rfl hctx marked_nil hops (fun _ hc => absurd hc not_mem_nil) hreplay
        refine ⟨m', ?_, ?_⟩
        · rw [runAll, Transition.run_cons, step_replaying hnext hrun]
          exact hm'
        · rw [hm'image, himage, ← stored_append, remaining_fence fun c hc hmark => ?_]
          have := hbatch c hc
          rwa [if_neg (hmark ▸ Bool.false_ne_true)] at this
      | _ => exact absurd hbarrier.1 nofun
    · rw [if_neg hbarrier] at hnext hreplay
      obtain ⟨ctx', hctx', hfiles'⟩ := collectContext_eq hctx fun r hr => hfiles r (hsub hr)
      obtain ⟨m', hm', hm'image⟩ := ih (op.register regs) (collect opsList op)
        (moveInnerState op inner)
        { m with
          ctx := ctx', state := .collecting (collect opsList op) (moveInnerState op inner) }
        hall rfl hfiles' (hmarked.step hbarrier)
        (fun s hs => hops s (mem_stores_cons.mpr (.inr hs)))
        (fun c hc => (mem_collect hc).elim (fun hs => hops _ (mem_stores_cons.mpr (.inl hs)))
          fun ⟨c', hc', heq⟩ => heq ▸ hcollected c' hc') hreplay
      refine ⟨m', ?_, ?_⟩
      · rw [runAll, Transition.run_cons, step_collecting hnext hctx']
        exact hm'
      · rw [hm'image, remaining_collect fun hfence => hmarked.unflushed fun hflush =>
          hbarrier ⟨hfence, hflush⟩]

/-- If every batch can be replayed and drops no store that is persisted later, the files have
exactly the persisted stores, in program order. -/
theorem runAll_persisted (size : ν → Nat) (checker : ν → Image ν → Bool) (choice : Nat → Sampling)
    (engine : Engine) (image : Image ν) (ops : List (Operation ν))
    (hfiles : ∀ r ∈ registered ops, size r.name ≠ 0)
    (hinside : ∀ s ∈ stores ops, InsideOne size (registered ops) s)
    (hreplay : Replayable size ops [] [] .init) :
    ∃ m, runAll size checker choice ops (.init engine image) = some m ∧
      m.image = stored (registered ops) image (persisted ops) :=
  runAll_from (registered ops) hfiles ops [] [] .init (.init engine image) rfl rfl rfl marked_nil
    hinside (fun _ hc => absurd hc List.not_mem_nil) hreplay

def ordered : List (Operation Unit) :=
  [.registerFile page, .store (store 8192 1), .flush 8192 64, .fence, .store (store 8256 2),
    .flush 8256 64, .fence]

theorem runAll_persisted_ordered :
    ∃ m, runAll (fun _ => 4096) (fun _ _ => true) (fun _ => .first) ordered
        (.init .full fun _ _ => 0) = some m ∧
      m.image = stored (registered ordered) (fun _ _ => 0) (persisted ordered) := by
  refine runAll_persisted (fun _ => 4096) (fun _ _ => true) (fun _ => .first) .full (fun _ _ => 0)
    ordered (fun _ _ => by decide) (fun s hs => ?_) ?_
  · rcases List.mem_cons.mp hs with rfl | hs
    · exact ⟨page, rfl, by decide⟩
    · obtain rfl := List.mem_singleton.mp hs
      exact ⟨page, rfl, by decide⟩
  · refine ⟨fun c hc => ?_, fun c hc => ?_, trivial⟩
    · obtain rfl := List.mem_singleton.mp hc
      exact ⟨nofun, page, rfl, rfl, by decide⟩
    · obtain rfl := List.mem_singleton.mp hc
      exact ⟨nofun, page, rfl, rfl, by decide⟩

def flushedLate : List (Operation Unit) :=
  [.registerFile page, .store (store 8192 1), .store (store 8256 2), .flush 8192 64, .fence,
    .flush 8256 64, .fence]

/-- The second store is persisted, and it is lost. -/
theorem not_persisted_flushedLate :
    (∀ r ∈ registered flushedLate, (4096 : Nat) ≠ 0) ∧
      (∀ s ∈ stores flushedLate, InsideOne (fun _ => 4096) (registered flushedLate) s) ∧
      ¬∃ m, runAll (fun _ => 4096) (fun _ _ => true) (fun _ => .first) flushedLate
          (.init .full fun _ _ => 0) = some m ∧
        m.image = stored (registered flushedLate) (fun _ _ => 0) (persisted flushedLate) := by
  refine ⟨fun _ _ => by decide, fun s hs => ?_, ?_⟩
  · rcases List.mem_cons.mp hs with rfl | hs
    · exact ⟨page, rfl, by decide⟩
    · obtain rfl := List.mem_singleton.mp hs
      exact ⟨page, rfl, by decide⟩
  · rintro ⟨m, hm, himage⟩
    have hbyte : m.image () 64 = 0 := by
      have := congrArg (Option.map fun m => m.image () 64) hm
      exact (Option.some_inj.mp this).symm
    rw [himage] at hbyte
    exact absurd hbyte (by decide)

end Pmdk.Reorder
