import Pmdk.Pool.HeapExtend

/-!
# The heap within the mapped region

While the pool is open, `poolsize` is the size of the smallest replica, and every replica grows by
the same number of whole pages. The heap grows by the size that was asked for.
-/

namespace Pmdk.Poolset

open Sync (alignDown)
open List
open Extend (pmemobjMinPart)

variable {align size : Nat} {os : ExtendAnswers} {set set' : PoolSet} {rep : Replica}

/-! ## Open pool sets -/

def Replica.pages (align : Nat) (rep : Replica) : Nat :=
  (rep.part.map fun p => alignDown p.filesize align).sum

structure Replica.Open (align : Nat) (set : PoolSet) (rep : Replica) : Prop where
  remote : rep.remote = false
  repsize : rep.repsize = rep.pages align
  resvsize : rep.resvsize ≠ 0
  bound : rep.repsize < set.poolsize + 2 ^ 63

structure PoolSet.Open (align : Nat) (set : PoolSet) : Prop where
  singlehdr : set.singlehdr = true
  nonempty : set.replica ≠ []
  replica : ∀ rep ∈ set.replica, rep.Open align set
  poolsize : set.poolsize = smallest Replica.repsize set.replica
  resvsize : set.resvsize = smallest Replica.resvsize set.replica
  fits : set.poolsize ≤ set.resvsize
  reserved : set.resvsize < 2 ^ 63

/-! ## The smallest replica -/

theorem smallest_of_map_eq {f g : Replica → Nat} {l l' : List Replica}
    (h : (l'.map fun rep => (rep.remote, f rep)) = l.map fun rep => (rep.remote, g rep)) :
    smallest f l' = smallest g l := by
  have hfold : ∀ (f : Replica → Nat) (l : List Replica), smallest f l =
      (l.map fun rep => (rep.remote, f rep)).foldl
        (fun n p => if !p.1 && p.2 < n then p.2 else n) sizeMax := by
    intro f l
    rw [foldl_map]
    rfl
  rw [hfold, hfold, h]

/-- When every local replica grows by the same, so does the smallest one. -/
theorem smallest_add {f : Replica → Nat} {l : List Replica} {k : Nat} (hne : l ≠ [])
    (hlocal : ∀ rep ∈ l, rep.remote = false) (hmax : ∀ rep ∈ l, f rep + k ≤ sizeMax) :
    smallest (fun rep => f rep + k) l = smallest f l + k := by
  have hfold : ∀ (l : List Replica) (n : Nat), (∀ rep ∈ l, rep.remote = false) →
      l.foldl (fun n rep => if !rep.remote && f rep + k < n then f rep + k else n) (n + k) =
        l.foldl (fun n rep => if !rep.remote && f rep < n then f rep else n) n + k := by
    intro l
    induction l with
    | nil => exact fun n _ => rfl
    | cons rep l ih =>
      intro n hlocal
      rw [foldl_cons, foldl_cons, ← ih _ fun rep' hrep' =>
        hlocal rep' (mem_cons_of_mem rep hrep'), hlocal rep mem_cons_self]
      congr 1
      by_cases hlt : f rep < n
      · simp [hlt]
      · simp [hlt]
  obtain ⟨rep, l, rfl⟩ := exists_cons_of_ne_nil hne
  have hle := hmax rep mem_cons_self
  have hfirst : ∀ g : Nat, g ≤ sizeMax →
      (if !rep.remote && g < sizeMax then g else sizeMax) = g := by
    intro g hg
    rw [hlocal rep mem_cons_self]
    by_cases hlt : g < sizeMax
    · simp [hlt]
    · simp only [Bool.not_false, Bool.true_and, decide_eq_true_eq, if_neg hlt]
      exact Nat.le_antisymm (Nat.not_lt.mp hlt) hg
  rw [smallest, smallest, foldl_cons, foldl_cons, hfirst _ hle,
    hfirst _ (Nat.le_trans (Nat.le_add_right _ _) hle)]
  exact hfold l _ fun rep' hrep' => hlocal rep' (mem_cons_of_mem rep hrep')

/-! ## Growing by a part -/

def Replica.summary (align : Nat) (rep : Replica) : Nat × Nat × Nat × Bool :=
  (rep.pages align, rep.repsize, rep.resvsize, rep.remote)

variable {r oldPoolsize : Nat} {effects : List Effect}

theorem addParts_summary {malloc : Nat → Bool} {replica replica' : List Replica}
    (h : addParts align malloc set size r replica = some (none, replica', effects)) :
    replica'.map (fun rep => (rep.pages align, rep.resvsize, rep.remote)) = replica.map fun rep =>
        (rep.pages align + alignDown size align, rep.resvsize, rep.remote) := by
  induction replica generalizing r replica' effects with
  | nil =>
    obtain ⟨-, heq⟩ := Prod.mk.inj (Option.some.inj h)
    obtain ⟨rfl, -⟩ := Prod.mk.inj heq
    rfl
  | cons rep rest ih =>
    rw [addParts] at h
    cases hdir : rep.directory[set.nextDirectoryId % rep.directory.length]? with
    | none =>
      rw [hdir] at h
      cases h
    | some d =>
      rw [hdir] at h
      dsimp only at h
      split at h
      · cases hrest : addParts align malloc set size (r + 1) rest with
        | none =>
          rw [hrest] at h
          cases h
        | some added =>
          obtain ⟨failed, rest', effects'⟩ := added
          rw [hrest] at h
          obtain ⟨rfl, heq⟩ := Prod.mk.inj (Option.some.inj h)
          obtain ⟨rfl, -⟩ := Prod.mk.inj heq
          rw [map_cons, map_cons, ih hrest]
          congr 2
          rw [Replica.pages, map_append, sum_append]
          rfl
      · cases h

def Part.file (part : Part) : Part :=
  { part with fd := 0, created := false, addr := 0, size := 0, mapSync := false }

def Replica.files (rep : Replica) : Replica := { rep with part := rep.part.map Part.file }

theorem utilPartOpen_file (os : ExtendAnswers) (r : Nat) (part : Part) :
    (utilPartOpen os r part).2.1.file = part.file := by
  rw [utilPartOpen]
  cases os.fileExists r with
  | none => rfl
  | some found =>
    cases found with
    | true => cases os.fileOpen r <;> rfl
    | false => cases os.fileCreate r <;> rfl

theorem utilMapPart_file {mmap : Nat → Nat → Nat → MmapResult} {part part' : Part}
    {addr size offset : Nat} {fixed : Bool}
    (h : utilMapPart align mmap part addr size offset fixed = .ok part') :
    part'.file = part.file := by
  rw [utilMapPart] at h
  split at h
  · cases h
  · dsimp only at h
    split at h
    · cases h
    · split at h
      · cases h
      · cases h
        rfl

theorem Replica.files_replace_last {part part' : Part} (hlast : rep.part.getLast? = some part)
    (hfile : part'.file = part.file) :
    Replica.files { rep with part := rep.part.dropLast ++ [part'] } = rep.files := by
  obtain ⟨parts, hparts⟩ := getLast?_eq_some_iff.mp hlast
  rw [Replica.files, Replica.files, hparts, dropLast_concat, map_append, map_append,
    map_singleton, map_singleton, hfile]

theorem openPart_files {hdrsize : Nat} {ok : Bool} {rep' : Replica}
    (h : openPart align hdrsize os oldPoolsize r rep = some (ok, rep', effects)) :
    rep'.files = rep.files := by
  rw [openPart] at h
  cases hfirst : rep.part.head? with
  | none =>
    rw [hfirst] at h
    cases h
  | some first =>
    cases hlast : rep.part.getLast? with
    | none =>
      rw [hfirst, hlast] at h
      cases h
    | some part =>
      have hfile := utilPartOpen_file os r part
      rw [hfirst, hlast] at h
      dsimp only at h
      cases hopen : utilPartOpen os r part with
      | mk opened rest =>
        obtain ⟨part', effects'⟩ := rest
        rw [hopen] at h hfile
        cases opened with
        | false =>
          cases h
          exact Replica.files_replace_last hlast hfile
        | true =>
          dsimp only at h
          split at h
          · cases h
          · cases h
            exact Replica.files_replace_last hlast hfile
          · rename_i part'' hmap
            cases h
            exact Replica.files_replace_last hlast ((utilMapPart_file hmap).trans hfile)

theorem openParts_files {hdrsize : Nat} {replica replica' : List Replica} {failed : Option Nat}
    (h : openParts align hdrsize os oldPoolsize r replica = some (failed, replica', effects)) :
    replica'.map Replica.files = replica.map Replica.files := by
  induction replica generalizing r replica' effects with
  | nil =>
    obtain ⟨-, heq⟩ := Prod.mk.inj (Option.some.inj h)
    obtain ⟨rfl, -⟩ := Prod.mk.inj heq
    rfl
  | cons rep rest ih =>
    rw [openParts] at h
    cases hopen : openPart align hdrsize os oldPoolsize r rep with
    | none =>
      rw [hopen] at h
      cases h
    | some opened =>
      obtain ⟨ok, rep', effects'⟩ := opened
      have hfiles := openPart_files hopen
      rw [hopen] at h
      cases ok with
      | false =>
        cases h
        rw [map_cons, map_cons, hfiles]
      | true =>
        dsimp only at h
        cases hrest : openParts align hdrsize os oldPoolsize (r + 1) rest with
        | none =>
          rw [hrest] at h
          cases h
        | some added =>
          obtain ⟨failed', rest', effects''⟩ := added
          rw [hrest] at h
          cases h
          rw [map_cons, map_cons, hfiles, ih hrest]

theorem Replica.files_fdclose (rep : Replica) : rep.fdclose.files = rep.files := by
  rw [Replica.files, Replica.files, Replica.fdclose, map_map]
  rfl

theorem summary_files (rep : Replica) : rep.files.summary align = rep.summary align := by
  rw [Replica.summary, Replica.summary, Replica.pages, Replica.files, map_map]
  rfl

/-! ## The sizes after a call -/

theorem PoolSet.Open.adjusted (h : set.Open align) (hsize : size < 2 ^ 63) :
    set.partSize size = set.adjusted size ∧ set.poolsize + set.adjusted size ≤ set.resvsize := by
  have hfits := h.fits
  have hreserved := h.reserved
  have hexceeds : set.exceeds size = decide (set.resvsize < set.poolsize + size) := by
    rw [PoolSet.exceeds, Nat.mod_eq_of_lt (by omega)]
  have hleft : (set.resvsize + 2 ^ 64 - set.poolsize) % 2 ^ 64 = set.resvsize - set.poolsize := by
    rw [Nat.sub_add_comm hfits, Nat.add_mod_right, Nat.mod_eq_of_lt (by omega)]
  rw [PoolSet.partSize, PoolSet.adjusted, hexceeds, hleft]
  by_cases hlt : set.resvsize < set.poolsize + size
  · rw [if_pos hlt, if_pos (decide_eq_true hlt)]
    exact ⟨rfl, by omega⟩
  · rw [if_neg hlt, if_neg (by simpa using hlt)]
    exact ⟨rfl, by omega⟩

theorem sizedReplica_summary (hsingle : set.singlehdr = true) (hresv : rep.resvsize ≠ 0)
    (hbound : rep.pages align < 2 ^ 64) :
    (set.sizedReplica align rep).summary align =
      (rep.pages align, rep.pages align, rep.resvsize, rep.remote) := by
  have hsum : sumParts align rep.part = rep.pages align := by
    have heq := @sumParts_eq align rep.part 0
    rw [Nat.zero_add] at heq
    exact heq hbound
  have hnhdrs : set.nhdrs rep = 1 := by
    rw [PoolSet.nhdrs, hsingle]
    rfl
  rw [PoolSet.sizedReplica, hnhdrs, hsum, if_pos Nat.one_pos, Nat.sub_self, Nat.zero_mul,
    Nat.zero_mod, Nat.sub_zero, Nat.add_mod_right, Nat.mod_eq_of_lt hbound, if_neg hresv]
  rfl

/-- Every replica has grown by a part of `k` bytes, and its size is up to date. -/
def Grows (align k : Nat) (old new : List Replica) : Prop :=
  new.map (Replica.summary align) = old.map fun rep =>
    (rep.pages align + alignDown k align, rep.pages align + alignDown k align, rep.resvsize,
      rep.remote)

section Grows

variable {k : Nat} {new : List Replica} (h : set.Open align) (hk : set.poolsize + k ≤ set.resvsize)
include h hk

theorem PoolSet.Open.pages_lt (hrep : rep ∈ set.replica) :
    rep.pages align + alignDown k align < 2 ^ 64 := by
  have hbound := (h.replica rep hrep).bound
  rw [(h.replica rep hrep).repsize] at hbound
  have hdown := alignDown_le k align
  have hreserved := h.reserved
  omega

theorem PoolSet.Open.grows_sized
    (hadded : new.map (fun rep => (rep.pages align, rep.resvsize, rep.remote)) =
      set.replica.map fun rep => (rep.pages align + alignDown k align, rep.resvsize, rep.remote)) :
    Grows align k set.replica (new.map (set.sizedReplica align)) := by
  have hsummary : new.map (fun rep => (set.sizedReplica align rep).summary align) =
      (new.map fun rep => (rep.pages align, rep.resvsize, rep.remote)).map
        fun p => (p.1, p.1, p.2.1, p.2.2) := by
    rw [map_map]
    refine map_congr_left fun rep hrep => ?_
    have hmem : (rep.pages align, rep.resvsize, rep.remote) ∈ set.replica.map fun rep =>
        (rep.pages align + alignDown k align, rep.resvsize, rep.remote) :=
      hadded ▸ mem_map_of_mem hrep
    obtain ⟨old, hold, heq⟩ := mem_map.mp hmem
    obtain ⟨hpages, heq⟩ := Prod.mk.inj heq
    obtain ⟨hresv, -⟩ := Prod.mk.inj heq
    exact sizedReplica_summary h.singlehdr (hresv ▸ (h.replica old hold).resvsize)
      (hpages ▸ h.pages_lt hk hold)
  rw [Grows, map_map]
  refine hsummary.trans ?_
  rw [hadded, map_map]
  rfl

theorem Grows.repsize (hg : Grows align k set.replica new) :
    smallest Replica.repsize new = set.poolsize + alignDown k align := by
  have hrepsize := congrArg (List.map fun p => (p.2.2.2, p.2.1)) hg
  rw [map_map, map_map] at hrepsize
  rw [h.poolsize, ← smallest_add h.nonempty (fun rep hrep => (h.replica rep hrep).remote)
    fun rep hrep => ?_]
  · refine smallest_of_map_eq (hrepsize.trans (map_congr_left fun rep hrep => ?_))
    rw [(h.replica rep hrep).repsize]
    rfl
  · rw [(h.replica rep hrep).repsize]
    exact Nat.le_sub_one_of_lt (h.pages_lt hk hrep)

omit hk in
theorem Grows.resvsize (hg : Grows align k set.replica new) :
    smallest Replica.resvsize new = set.resvsize := by
  have hresvsize := congrArg (List.map fun p => (p.2.2.2, p.2.2.1)) hg
  rw [map_map, map_map] at hresvsize
  rw [h.resvsize]
  exact smallest_of_map_eq hresvsize

theorem Grows.open (hg : Grows align k set.replica set'.replica)
    (hsingle : set'.singlehdr = set.singlehdr)
    (hpoolsize : set'.poolsize = smallest Replica.repsize set'.replica)
    (hresvsize : set'.resvsize = smallest Replica.resvsize set'.replica) : set'.Open align := by
  have hdown := alignDown_le k align
  have hpool := hpoolsize.trans (hg.repsize h hk)
  have hresv := hresvsize.trans (hg.resvsize h)
  refine ⟨hsingle.trans h.singlehdr, fun hnil => ?_, fun rep hrep => ?_, hpoolsize, hresvsize, ?_,
    hresv ▸ h.reserved⟩
  · rw [Grows, hnil] at hg
    exact h.nonempty (map_eq_nil_iff.mp hg.symm)
  · have hmem : rep.summary align ∈ set.replica.map fun rep =>
        (rep.pages align + alignDown k align, rep.pages align + alignDown k align, rep.resvsize,
          rep.remote) := hg ▸ mem_map_of_mem hrep
    obtain ⟨old, hold, heq⟩ := mem_map.mp hmem
    obtain ⟨hpages, heq⟩ := Prod.mk.inj heq
    obtain ⟨hrepsize, heq⟩ := Prod.mk.inj heq
    obtain ⟨hresv, hremote⟩ := Prod.mk.inj heq
    have ho := h.replica old hold
    have hbound := ho.bound
    rw [ho.repsize] at hbound
    exact ⟨hremote ▸ ho.remote, hrepsize.symm.trans hpages, hresv ▸ ho.resvsize, by omega⟩
  · rw [hpool, hresv]
    omega

end Grows

theorem Grows.opened {k : Nat} {old new opened : List Replica} (hg : Grows align k old new)
    (h : openParts align 0 os oldPoolsize 0 new = some (none, opened, effects)) :
    Grows align k old (opened.map Replica.fdclose) := by
  have hfiles := congrArg (List.map (Replica.summary align)) (openParts_files h)
  rw [map_map, map_map] at hfiles
  have hclosed : (opened.map Replica.fdclose).map (Replica.summary align) =
      opened.map (Replica.summary align ∘ Replica.files) := by
    rw [map_map]
    refine map_congr_left fun rep _ => ?_
    rw [Function.comp, Function.comp, ← summary_files rep.fdclose, Replica.files_fdclose]
  have hsame : new.map (Replica.summary align ∘ Replica.files) = new.map (Replica.summary align) :=
    map_congr_left fun rep _ => summary_files rep
  rw [Grows, hclosed, hfiles, hsame]
  exact hg

theorem PoolSet.Open.extendStep {call : Call} {heap heap' : Heap} (h : heap.set.Open align)
    (hstep : extendStep align call heap = some heap') :
    heap'.set.Open align ∧ heap'.heapOffset = heap.heapOffset ∧
      heap'.set.poolsize = heap.set.poolsize + alignDown (heap.set.adjusted call.size) align ∧
      heap'.sizep = (heap.sizep + heap.set.adjusted call.size) % 2 ^ 64 := by
  obtain ⟨added, opened, effects, effects', hadd, hopened, rfl⟩ := extendStep_inv hstep
  have hk := (h.adjusted call.size_lt).2
  have hsized := h.grows_sized hk (addParts_summary hadd)
  have hgrows := hsized.opened hopened
  have hpoolsize := (hsized.repsize h hk).trans (hgrows.repsize h hk).symm
  have hresvsize := (hsized.resvsize h).trans (hgrows.resvsize h).symm
  exact ⟨hgrows.open h hk rfl hpoolsize hresvsize, rfl, hsized.repsize h hk, rfl⟩

/-! ## Runs -/

variable {call : Call} {heap heap' : Heap}

structure Heap.Open (align : Nat) (heap : Heap) : Prop where
  set : heap.set.Open align
  within : heap.heapOffset + heap.sizep ≤ heap.set.poolsize

/-- The heap is within the pool after a call if and only if what exceeds whole pages fits behind
the heap. -/
theorem Heap.Open.within_iff (h : heap.Open align) (hstep : extendStep align call heap =
    some heap') :
    heap'.heapOffset + heap'.sizep ≤ heap'.set.poolsize ↔
      heap.set.partSize call.size % align ≤ heap.set.poolsize - (heap.heapOffset + heap.sizep) := by
  obtain ⟨-, hoffset, hpoolsize, hsizep⟩ := h.set.extendStep hstep
  obtain ⟨hadjusted, hfit⟩ := h.set.adjusted call.size_lt
  have hwithin := h.within
  have hreserved := h.set.reserved
  have hrest := Nat.div_add_mod' (heap.set.adjusted call.size) align
  rw [hadjusted, hoffset, hsizep, hpoolsize, Nat.mod_eq_of_lt (by omega), alignDown]
  omega

theorem Heap.within_of_le (h : heap.heapOffset + heap.sizep ≤ heap.set.poolsize) : heap.Within := by
  refine ⟨h, if heap.sizep = 0 then heap.set.poolsize - heap.heapOffset else heap.sizep, ?_⟩
  rw [heapBootSize, if_neg]
  split <;> omega

/-- The heap stays within the mapped region if and only if with every call that succeeds what
exceeds whole pages fits behind the heap. -/
theorem staysWithin_iff_restFits (calls : List Call) (h : heap.Open align) :
    Transition.Guarded (extendStep align) (StaysWithin align) calls heap ↔
      Transition.Guarded (extendStep align) (RestFits align) calls heap := by
  refine Transition.guarded_congr (fun call heap hopen => ?_)
    (fun call heap heap' hopen hstays hstep =>
      ⟨(hopen.set.extendStep hstep).1, (hstays heap' hstep).1⟩) calls h
  constructor
  · intro hstays hsome
    obtain ⟨heap', hstep⟩ := Option.isSome_iff_exists.mp hsome
    exact (hopen.within_iff hstep).mp (hstays heap' hstep).1
  · intro hfits heap' hstep
    exact Heap.within_of_le ((hopen.within_iff hstep).mpr (hfits (hstep ▸ rfl)))

/-! ## A pool of one directory -/

def allSucceed : ExtendAnswers :=
  { malloc := fun _ => true
    fileExists := fun _ => some false
    fileCreate := fun r => some (r + 3)
    fileOpen := fun _ => none
    mmap := fun _ addr _ _ => ⟨some addr, false, false⟩
    chmod := true }

def newHeap : Heap :=
  { set :=
      { replica := [
          { part := [{ newPart 4096 "x/000000.pmem".toList 8388608 with
              addr := 1073741824, size := 8388608 }]
            directory := [⟨['x'], 67108864⟩]
            nhdrs := 1
            repsize := 8388608
            resvsize := 67108864
            remote := false }]
        poolsize := 8388608
        resvsize := 67108864
        singlehdr := true
        nohdrs := false
        directoryBased := true
        nextId := 1
        nextDirectoryId := 1
        zeroed := false }
    heapOffset := 3940352
    sizep := 4448256 }

theorem newHeap_open : newHeap.Open 4096 := by
  refine ⟨⟨rfl, cons_ne_nil _ _, fun rep hrep => ?_,
      by decide, by decide, by decide, by decide⟩,
    by decide⟩
  obtain rfl := mem_singleton.mp hrep
  exact ⟨rfl, by decide, by decide, by decide⟩

theorem admitted_natCast {size : Nat} (h : pmemobjMinPart ≤ size ∧ size < 2 ^ 63) :
    ∃ argIn : Int, argIn < 2 ^ 63 ∧
      (ctlExtend argIn = some size ∨ ctlGranularity argIn = some size) :=
  ⟨size, by omega, Or.inl (by rw [ctlExtend, if_neg (by omega), Int.toNat_natCast])⟩

def extendBy (size : Nat) (h : pmemobjMinPart ≤ size ∧ size < 2 ^ 63) : Call :=
  ⟨allSucceed, size, admitted_natCast h⟩

/-- Twice 4 MiB are whole pages. -/
theorem staysWithin_newHeap : Transition.Guarded (extendStep 4096) (StaysWithin 4096)
    [extendBy 4194304 (by decide), extendBy 4194304 (by decide)] newHeap := by
  refine (staysWithin_iff_restFits _ newHeap_open).mpr ?_
  decide +kernel

/-- After 4 MiB and a byte the heap ends behind the pool, and is not booted again. -/
theorem not_staysWithin_unaligned :
    ¬∀ (align : Nat) (heap : Heap) (calls : List Call), heap.Open align →
      Transition.Guarded (extendStep align) (StaysWithin align) calls heap := by
  intro hall
  have hfirst := (hall 4096 newHeap [extendBy 4194305 (by decide)] newHeap_open).1
  have hends : (extendStep 4096 (extendBy 4194305 (by decide)) newHeap).any
      (fun heap => heap.set.poolsize < heap.heapOffset + heap.sizep) = true := by decide +kernel
  obtain ⟨heap', hstep, hlt⟩ := (Option.any_eq_true _ _).mp hends
  exact Nat.not_le_of_lt (of_decide_eq_true hlt) (hfirst heap' hstep).1

end Pmdk.Poolset
