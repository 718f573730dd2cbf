import Pmdk.Obj.Extend

/-!
# Reservations in the volatile state of the heap

`palloc_reserve` takes a block out of the volatile state of the heap, and `palloc_cancel` undoes
that. A block in a run is counted in the `nresv` of the run; a huge block leaves the default bucket
and comes back to it.

The neighbours that `heap_coalesce_huge` merges with are looked up in the bucket, since
`get_rm_exact` has to find them there. Which chunks the heap finds while it looks for memory, and
which ones it turns into runs, comes as a list of `Search` steps.
-/

namespace Pmdk.Palloc

open Extend (Block)
open List

structure Heap where
  nresv : Nat → Int
  bucket : List Block

/-! ## The default bucket -/

/-- `container_compare_memblocks`: the order by size and then by place. -/
def Block.before (b b' : Block) : Bool :=
  b.size < b'.size || (b.size = b'.size &&
    (b.zone < b'.zone || (b.zone = b'.zone && b.chunk < b'.chunk)))

/-- The block that `get_rm_bestfit` finds. -/
def bestfit (units : Nat) : List Block → Option Block
  | [] => none
  | b :: bs =>
    if b.size < units then bestfit units bs
    else
      match bestfit units bs with
      | none => some b
      | some b' => some (if Block.before b' b then b' else b)

/-- `heap_coalesce_huge`: the merged block and what is left in the bucket. -/
def heapCoalesceHuge (m : Block) (bucket : List Block) : Block × List Block :=
  let prev := bucket.find? fun b => b.zone = m.zone && b.chunk + b.size = m.chunk
  let bucket := prev.elim bucket bucket.erase
  let next := bucket.find? fun b => b.zone = m.zone && b.chunk = m.chunk + m.size
  let bucket := next.elim bucket bucket.erase
  (⟨m.zone, prev.elim m.chunk (·.chunk),
    prev.elim 0 (·.size) + m.size + next.elim 0 (·.size)⟩, bucket)

inductive Inserted
  | ok
  | enomem
  | eexist
  deriving DecidableEq

/-- `bucket_insert_block` for the default bucket. `malloc` tells whether there is memory for the
node of the tree. -/
def bucketInsertBlock (malloc : Bool) (m : Block) (bucket : List Block) :
    Inserted × List Block :=
  if malloc = false then (.enomem, bucket)
  else if m ∈ bucket then (.eexist, bucket)
  else (.ok, m :: bucket)

def heapFreeChunkReuse (malloc : Bool) (m : Block) (bucket : List Block) :
    Inserted × List Block :=
  let nm := heapCoalesceHuge m bucket
  bucketInsertBlock malloc nm.1 nm.2

/-- `heap_get_bestfit_block` for the default bucket once it holds a block that is large enough.
The rest of a larger block is put back. -/
def getBestfitBlock (units : Nat) (malloc : Bool) (bucket : List Block) :
    Option Block × List Block :=
  match bestfit units bucket with
  | none => (none, bucket)
  | some b =>
    let bucket := bucket.erase b
    if b.size = units then (some b, bucket)
    else
      (some ⟨b.zone, b.chunk, units⟩,
        (bucketInsertBlock malloc ⟨b.zone, b.chunk + units, b.size - units⟩ bucket).2)

inductive Search
  | reuse (m : Block) (malloc : Bool)
  | newRun (units : Nat) (malloc : Bool)
  deriving DecidableEq

def Search.exec : Search → List Block → List Block
  | .reuse m malloc, bucket => (heapFreeChunkReuse malloc m bucket).2
  | .newRun units malloc, bucket => (getBestfitBlock units malloc bucket).2

/-! ## Actions -/

inductive MemblockState
  | allocated
  | free
  deriving DecidableEq

/-- A `struct pobj_action_internal` of the type `POBJ_ACTION_TYPE_HEAP`. `huge` is the block of a
reservation if it is huge; of a block in a run, and of a block to be freed, nothing is read by
`palloc_cancel`. `resvp` is the run whose counter it holds. -/
structure Action where
  offset : Nat
  newState : MemblockState
  huge : Option Block
  resvp : Option Nat
  deriving DecidableEq

/-- What `palloc_reserve` comes to. A huge block is the best fit in the default bucket, of which
the rest may have to be put back; the default bucket has no counter. -/
inductive Outcome
  | fails
  | huge (units offset : Nat) (malloc : Bool)
  | run (offset : Nat) (resvp : Option Nat)
  deriving DecidableEq

def Heap.count (heap : Heap) (resvp : Option Nat) (d : Int) : Heap :=
  match resvp with
  | none => heap
  | some r => { heap with nresv := Function.update heap.nresv r (heap.nresv r + d) }

def pallocReserve (search : List Search) (outcome : Outcome) (heap : Heap) :
    Option Action × Heap :=
  let heap := { heap with bucket := search.foldl (fun bucket s => s.exec bucket) heap.bucket }
  match outcome with
  | .fails => (none, heap)
  | .huge units offset malloc =>
    let r := getBestfitBlock units malloc heap.bucket
    (r.1.map fun b => ⟨offset, .allocated, some b, none⟩, { heap with bucket := r.2 })
  | .run offset resvp => (some ⟨offset, .allocated, none, resvp⟩, heap.count resvp 1)

def pallocDeferFree (offset : Nat) : Action := ⟨offset, .free, none, none⟩

/-- `palloc_restore_free_chunk_state`, which is fatal when the chunks are in the bucket already.
A block for which there is no memory is not tracked. -/
def pallocRestoreFreeChunkState (malloc : Bool) (m : Block) (heap : Heap) : Option Heap :=
  match heapFreeChunkReuse malloc m heap.bucket with
  | (.eexist, _) => none
  | (_, bucket) => some { heap with bucket }

def pallocHeapActionOnCancel (malloc : Bool) (act : Action) (heap : Heap) : Option Heap :=
  let restored :=
    match act.newState, act.huge with
    | .allocated, some m => pallocRestoreFreeChunkState malloc m heap
    | _, _ => some heap
  restored.map fun heap => heap.count act.resvp (-1)

/-- `palloc_cancel`. `mallocs` are the answers for the actions, in order; where there is none,
there is memory. -/
def pallocCancel : List Bool → List Action → Heap → Option Heap
  | _, [], heap => some heap
  | mallocs, act :: actv, heap =>
    (pallocHeapActionOnCancel (mallocs.headD true) act heap).bind
      (pallocCancel mallocs.tail actv)

/-! ## What the operations do -/

def Tracked (bucket : List Block) (m : Block) : Prop :=
  ∃ b ∈ bucket, b.zone = m.zone ∧ b.chunk ≤ m.chunk ∧ m.chunk + m.size ≤ b.chunk + b.size

instance (bucket : List Block) (m : Block) : Decidable (Tracked bucket m) :=
  inferInstanceAs (Decidable (∃ b ∈ bucket, _ ∧ _))

variable {b : Block}

theorem mem_merged {bucket : List Block} {p : Block → Bool} (hb : b ∈ bucket) :
    b ∈ (bucket.find? p).elim bucket bucket.erase ∨ bucket.find? p = some b := by
  cases hfind : bucket.find? p with
  | none => exact .inl hb
  | some c =>
    by_cases hbc : b = c
    · exact .inr (congrArg some hbc.symm)
    · exact .inl ((mem_erase_of_ne hbc).mpr hb)

variable {m : Block} {heap : Heap}

theorem tracked_coalesce {bucket : List Block} (hb : b = m ∨ Tracked bucket b) :
    Tracked ((heapCoalesceHuge m bucket).1 :: (heapCoalesceHuge m bucket).2) b := by
  unfold heapCoalesceHuge
  dsimp only
  generalize hprev : bucket.find? (fun b => b.zone = m.zone && b.chunk + b.size = m.chunk) = prev
  generalize hrest : prev.elim bucket bucket.erase = rest
  generalize hnext : rest.find? (fun b => b.zone = m.zone && b.chunk = m.chunk + m.size) = next
  have hp : ∀ c, prev = some c → c.zone = m.zone ∧ c.chunk + c.size = m.chunk := by
    intro c hc
    rw [hc] at hprev
    simpa using find?_some hprev
  have hn : ∀ c, next = some c → c.zone = m.zone ∧ c.chunk = m.chunk + m.size := by
    intro c hc
    rw [hc] at hnext
    simpa using find?_some hnext
  have hlo : prev.elim m.chunk (·.chunk) + prev.elim 0 (·.size) = m.chunk := by
    cases prev with
    | none => rfl
    | some c => exact (hp c rfl).2
  rcases hb with rfl | ⟨c, hc, hzone, hlo', hhi'⟩
  · exact ⟨_, mem_cons_self, rfl, by dsimp only; omega, by dsimp only; omega⟩
  · have hc₁ : c ∈ rest ∨ prev = some c := by
      have := mem_merged (p := fun b => b.zone = m.zone && b.chunk + b.size = m.chunk) hc
      rwa [hprev, hrest] at this
    rcases hc₁ with hc₁ | rfl
    · have hc₂ := mem_merged (p := fun b => b.zone = m.zone && b.chunk = m.chunk + m.size) hc₁
      rw [hnext] at hc₂
      rcases hc₂ with hc₂ | rfl
      · exact ⟨c, mem_cons_of_mem _ hc₂, hzone, hlo', hhi'⟩
      · obtain ⟨hz, hch⟩ := hn c rfl
        refine ⟨_, mem_cons_self, hz ▸ hzone, ?_, ?_⟩
        · dsimp only
          omega
        · dsimp only [Option.elim_some]
          omega
    · obtain ⟨hz, hch⟩ := hp c rfl
      refine ⟨_, mem_cons_self, hz ▸ hzone, ?_, ?_⟩
      · dsimp only [Option.elim_some]
        omega
      · dsimp only [Option.elim_some]
        omega

variable {heap' : Heap}

theorem restore_tracked (h : pallocRestoreFreeChunkState true m heap = some heap')
    (hb : b = m ∨ Tracked heap.bucket b) : Tracked heap'.bucket b := by
  have hmerged := tracked_coalesce hb
  unfold pallocRestoreFreeChunkState heapFreeChunkReuse bucketInsertBlock at h
  dsimp only at h
  rw [if_neg (by decide)] at h
  split at h
  · cases h
  · rename_i hout
    rw [← Option.some.inj h]
    split at hout
    · rename_i hdup
      cases hout
      contradiction
    · obtain rfl := (Prod.mk.inj hout).2
      exact hmerged

theorem restore_nresv {malloc : Bool}
    (h : pallocRestoreFreeChunkState malloc m heap = some heap') : heap'.nresv = heap.nresv := by
  unfold pallocRestoreFreeChunkState at h
  split at h
  · cases h
  · rw [← Option.some.inj h]

def Action.reserved (act : Action) : Option Block :=
  match act.newState with
  | .allocated => act.huge
  | .free => none

def held (actv : List Action) (r : Nat) : Int := ((actv.filterMap Action.resvp).count r : Nat)

@[simp] theorem held_nil (r : Nat) : held [] r = 0 := rfl

theorem held_append (actv actv' : List Action) (r : Nat) :
    held (actv ++ actv') r = held actv r + held actv' r := by
  simp [held]

variable {actv : List Action}

theorem held_perm {actv' : List Action} (h : actv.Perm actv') (r : Nat) :
    held actv r = held actv' r := by
  rw [held, (h.filterMap _).count_eq, held]

theorem held_cons (act : Action) (actv : List Action) (r : Nat) :
    held (act :: actv) r = (if act.resvp = some r then 1 else 0) + held actv r := by
  unfold held
  cases hact : act.resvp with
  | none => simp [hact]
  | some r' =>
    rw [filterMap_cons_some hact, List.count_cons]
    simp only [beq_iff_eq, Option.some.injEq]
    split
    · rw [Int.natCast_add]
      exact Int.add_comm _ _
    · rw [Nat.add_zero, Int.zero_add]

theorem count_nresv (heap : Heap) (resvp : Option Nat) (d : Int) (r : Nat) :
    (heap.count resvp d).nresv r = heap.nresv r + if resvp = some r then d else 0 := by
  cases resvp with
  | none => simp [Heap.count]
  | some r' =>
    by_cases hr : r' = r
    · subst hr
      simp [Heap.count]
    · have hne : ¬ (some r' = some r) := fun h => hr (Option.some.inj h)
      rw [if_neg hne, Int.add_zero]
      exact Function.update_of_ne (Ne.symm hr) _ _

@[simp] theorem count_bucket (heap : Heap) (resvp : Option Nat) (d : Int) :
    (heap.count resvp d).bucket = heap.bucket := by
  cases resvp <;> rfl

theorem cancel_nresv {malloc : Bool} {act : Action}
    (h : pallocHeapActionOnCancel malloc act heap = some heap') (r : Nat) :
    heap'.nresv r = heap.nresv r - if act.resvp = some r then 1 else 0 := by
  unfold pallocHeapActionOnCancel at h
  dsimp only at h
  obtain ⟨heap₁, h₁, rfl⟩ := Option.map_eq_some_iff.mp h
  have hsame : heap₁.nresv = heap.nresv := by
    split at h₁
    · exact restore_nresv h₁
    · rw [Option.some.inj h₁]
  rw [count_nresv, hsame]
  split <;> omega

theorem cancel_tracked {act : Action} (h : pallocHeapActionOnCancel true act heap = some heap')
    (hb : act.reserved = some b ∨ Tracked heap.bucket b) : Tracked heap'.bucket b := by
  unfold pallocHeapActionOnCancel at h
  dsimp only at h
  obtain ⟨heap₁, h₁, rfl⟩ := Option.map_eq_some_iff.mp h
  rw [count_bucket]
  unfold Action.reserved at hb
  split at h₁
  · rename_i hstate hhuge
    rw [hstate, hhuge] at hb
    exact restore_tracked h₁ (hb.imp_left fun hm => (Option.some.inj hm).symm)
  · rename_i hother
    rw [← Option.some.inj h₁]
    refine hb.resolve_left fun hhuge => ?_
    split at hhuge
    · exact hother _ ‹_› hhuge
    · cases hhuge

theorem pallocCancel_nresv {mallocs : List Bool}
    (h : pallocCancel mallocs actv heap = some heap') (r : Nat) :
    heap'.nresv r = heap.nresv r - held actv r := by
  induction actv generalizing mallocs heap with
  | nil =>
    rw [pallocCancel, Option.some.injEq] at h
    rw [h, held_nil, Int.sub_zero]
  | cons act actv ih =>
    rw [pallocCancel] at h
    obtain ⟨heap₁, h₁, h₂⟩ := Option.bind_eq_some_iff.mp h
    rw [ih h₂, cancel_nresv h₁, held_cons]
    omega

theorem pallocCancel_tracked {mallocs : List Bool}
    (h : pallocCancel mallocs actv heap = some heap') (hmallocs : false ∉ mallocs)
    (hb : b ∈ actv.filterMap Action.reserved ∨ Tracked heap.bucket b) : Tracked heap'.bucket b := by
  induction actv generalizing mallocs heap with
  | nil =>
    rw [pallocCancel, Option.some.injEq] at h
    rw [← h]
    exact hb.resolve_left not_mem_nil
  | cons act actv ih =>
    rw [pallocCancel] at h
    obtain ⟨heap₁, h₁, h₂⟩ := Option.bind_eq_some_iff.mp h
    have hhead : mallocs.headD true = true := by
      cases mallocs with
      | nil => rfl
      | cons m ms =>
        cases m with
        | true => rfl
        | false => exact absurd mem_cons_self hmallocs
    rw [hhead] at h₁
    refine ih h₂ (fun hmem => hmallocs (mem_of_mem_tail hmem)) ?_
    rcases hb with hb | hb
    · obtain ⟨act', hact', hres⟩ := mem_filterMap.mp hb
      rcases mem_cons.mp hact' with rfl | hact'
      · exact .inr (cancel_tracked h₁ (.inl hres))
      · exact .inl (mem_filterMap.mpr ⟨act', hact', hres⟩)
    · exact .inr (cancel_tracked h₁ (.inr hb))

theorem pallocReserve_nresv {search : List Search} {outcome : Outcome}
    {act : Option Action} (h : pallocReserve search outcome heap = (act, heap')) (r : Nat) :
    heap'.nresv r = heap.nresv r + held act.toList r := by
  unfold pallocReserve at h
  dsimp only at h
  split at h
  · obtain ⟨rfl, rfl⟩ := Prod.mk.inj h
    exact (Int.add_zero _).symm
  · obtain ⟨rfl, rfl⟩ := Prod.mk.inj h
    cases (getBestfitBlock _ _ _).1 with
    | none => exact (Int.add_zero _).symm
    | some b => exact (Int.add_zero _).symm
  · obtain ⟨rfl, rfl⟩ := Prod.mk.inj h
    rw [count_nresv, Option.toList_some, held_cons, held_nil, Int.add_zero]

end Pmdk.Palloc
