import Pmdk.Lib.Run
import Pmdk.Obj.Bytes

/-!
# The operations of a replicated pool

`obj_replica_init` gives a master with replicas the functions `obj_rep_*`. Each of them does its
work on the master, and then on every local replica at the same offset. `obj_rep_memmove` reads its
source again for each replica, when the move in the master may have changed it.

The memory has one address space. When a write becomes durable is not modelled: the flags, and
whether a replica is in persistent memory, decide that and nothing else.
-/

namespace Pmdk.RepOps

open Transition List

/-- A mapped replica, which is its own `PMEMobjpool`. -/
structure Rep where
  addr : Nat
  isPmem : Bool

/-- A master of `size` bytes and its local replicas, mapped at different places. -/
structure Pool where
  size : Nat
  master : Rep
  replicas : List Rep
  apart : (master :: replicas).Pairwise fun a b =>
    a.addr + size ≤ b.addr ∨ b.addr + size ≤ a.addr

def PMEM_F_MEM_NODRAIN : Nat := 1

def PMEM_F_MEM_NOFLUSH : Nat := 32

def PMEM_F_MEM_VALID_FLAGS : Nat := 63

/-- The `len` bytes at `dest` get the values of `v`. -/
def put (dest len : Nat) (v : Nat → UInt8) (m : Bytes) : Bytes :=
  fun x => if dest ≤ x ∧ x < dest + len then v (x - dest) else m x

/-! ## The functions of a replica -/

/-- `pmem_memmove`, which `pmem_memcpy` is too. -/
def pmemMemmove (dest src len _flags : Nat) (m : Bytes) : Bytes :=
  put dest len (fun i => m (src + i)) m

def pmemMemset (dest : Nat) (c : UInt8) (len _flags : Nat) (m : Bytes) : Bytes :=
  put dest len (fun _ => c) m

/-- `memcpy_local` and `memmove_local`. -/
def memmoveLocal (rep : Rep) (dest src len flags : Nat) : Bytes → Bytes :=
  pmemMemmove dest src len (if rep.isPmem then flags else PMEM_F_MEM_NOFLUSH)

def memsetLocal (rep : Rep) (dest : Nat) (c : UInt8) (len flags : Nat) : Bytes → Bytes :=
  pmemMemset dest c len (if rep.isPmem then flags else PMEM_F_MEM_NOFLUSH)

/-! ## The functions of the master -/

variable (pop : Pool)

/-- The loop over the local replicas, with the address of `dest` in each of them. -/
def eachReplica (dest : Nat) (f : Rep → Nat → Bytes → Bytes) (m : Bytes) : Bytes :=
  pop.replicas.foldl (fun m rep => f rep (rep.addr + dest - pop.master.addr) m) m

/-- `obj_rep_memcpy` and `obj_rep_memmove`. -/
def objRepMemmove (dest src len flags : Nat) (m : Bytes) : Bytes :=
  eachReplica pop dest (fun rep rdest =>
    memmoveLocal rep rdest src len (flags &&& PMEM_F_MEM_VALID_FLAGS))
    (memmoveLocal pop.master dest src len flags m)

def objRepMemset (dest : Nat) (c : UInt8) (len flags : Nat) (m : Bytes) : Bytes :=
  eachReplica pop dest (fun rep rdest =>
    memsetLocal rep rdest c len (flags &&& PMEM_F_MEM_VALID_FLAGS))
    (memsetLocal pop.master dest c len flags m)

/-- `obj_rep_persist` and `obj_rep_flush`, which pass different flags to the replicas. -/
def objRepPersist (addr len flags : Nat) : Bytes → Bytes :=
  eachReplica pop addr fun rep raddr => memmoveLocal rep raddr addr len flags

inductive Op
  | store (addr : Nat) (value : UInt8)
  | persist (addr len flags : Nat)
  | flush (addr len flags : Nat)
  | memcpy (dest src len flags : Nat)
  | memmove (dest src len flags : Nat)
  | memset (dest : Nat) (c : UInt8) (len flags : Nat)

structure State where
  mem : Bytes
  stale : Nat → Bool

def exec : Op → Bytes → Bytes
  | .store addr value, m => Function.update m addr value
  | .persist addr len _, m => objRepPersist pop addr len 0 m
  | .flush addr len _, m => objRepPersist pop addr len PMEM_F_MEM_NODRAIN m
  | .memcpy dest src len flags, m => objRepMemmove pop dest src len flags m
  | .memmove dest src len flags, m => objRepMemmove pop dest src len flags m
  | .memset dest c len flags, m => objRepMemset pop dest c len flags m

def Op.range : Op → Nat × Nat
  | .store addr _ => (addr, 1)
  | .persist addr len _ => (addr, len)
  | .flush addr len _ => (addr, len)
  | .memcpy dest _ len _ => (dest, len)
  | .memmove dest _ len _ => (dest, len)
  | .memset dest _ len _ => (dest, len)

def Op.src? : Op → Option Nat
  | .memcpy _ src _ _ => some src
  | .memmove _ src _ _ => some src
  | _ => none

def InReplica (x : Nat) : Prop := ∃ rep ∈ pop.replicas, rep.addr ≤ x ∧ x < rep.addr + pop.size

/-- Ranges inside of the pool, sources anywhere but in the replicas, and apart from the destination
for `memcpy`. -/
def Op.Valid (op : Op) : Prop :=
  pop.master.addr ≤ op.range.1 ∧ op.range.1 + op.range.2 ≤ pop.master.addr + pop.size ∧
    (∀ src, op.src? = some src → ∀ i < op.range.2, ¬ InReplica pop (src + i)) ∧
    ∀ dest src len flags, op = .memcpy dest src len flags → dest + len ≤ src ∨ src + len ≤ dest

def Op.Covers (op : Op) (x : Nat) : Bool := op.range.1 ≤ x && x < op.range.1 + op.range.2

def step (op : Op) (s : State) : Option State :=
  some {
    mem := exec pop op s.mem
    stale := fun x => match op with
      | .store _ _ => op.Covers x || s.stale x
      | op => s.stale x && !op.Covers x }

def Synced (s : State) : Prop :=
  ∀ rep ∈ pop.replicas, ∀ off < pop.size, s.stale (pop.master.addr + off) = false →
    s.mem (rep.addr + off) = s.mem (pop.master.addr + off)

/-- A move with replicas leaves the bytes that it reads as they were: what is written over a byte of
the source is the byte itself. -/
def SourceKept (op : Op) (s : State) : Prop :=
  ∀ dest src len flags, op = .memmove dest src len flags → pop.replicas ≠ [] →
    ∀ i < len, dest ≤ src + i → src + i < dest + len →
      s.mem (src + (src + i - dest)) = s.mem (src + i)

/-! ## What a call does to the replicas -/

variable {f : Rep → Nat → Bytes → Bytes} {v : Bytes → Nat → UInt8} {dest : Nat}

variable {len : Nat}

section Loop

variable {pop}

theorem put_mem {x : Nat} {v : Nat → UInt8} {m : Bytes} (h : dest ≤ x ∧ x < dest + len) :
    put dest len v m x = v (x - dest) := if_pos h

theorem put_not_mem {x : Nat} {v : Nat → UInt8} {m : Bytes}
    (h : ¬ (dest ≤ x ∧ x < dest + len)) : put dest len v m x = m x := if_neg h

/-- In every replica the bytes at the offset get the values, if these do not depend on the bytes of
the replicas; all others stay. -/
theorem eachReplica_spec {m : Bytes} (hf : ∀ rep rdest m, f rep rdest m = put rdest len (v m) m)
    (hlo : pop.master.addr ≤ dest) (hhi : dest + len ≤ pop.master.addr + pop.size)
    (hv : ∀ m', (∀ x, ¬ InReplica pop x → m' x = m x) → ∀ i < len, v m' i = v m i) :
    (∀ x, ¬ InReplica pop x → eachReplica pop dest f m x = m x) ∧
      ∀ rep ∈ pop.replicas, ∀ off < pop.size, eachReplica pop dest f m (rep.addr + off) =
        if dest ≤ pop.master.addr + off ∧ pop.master.addr + off < dest + len then
          v m (pop.master.addr + off - dest)
        else m (rep.addr + off) := by
  have hapart := (pairwise_cons.mp pop.apart).2
  -- the loop over any part of the replicas
  suffices hpart : ∀ reps ⊆ pop.replicas, reps.Pairwise (fun a b =>
      a.addr + pop.size ≤ b.addr ∨ b.addr + pop.size ≤ a.addr) → ∀ m' : Bytes,
      (∀ x, ¬ InReplica pop x → m' x = m x) →
      (∀ x, (∀ rep ∈ reps, ¬ (rep.addr ≤ x ∧ x < rep.addr + pop.size)) →
        reps.foldl (fun m rep => f rep (rep.addr + dest - pop.master.addr) m) m' x = m' x) ∧
      ∀ rep ∈ reps, ∀ off < pop.size,
        reps.foldl (fun m rep => f rep (rep.addr + dest - pop.master.addr) m) m' (rep.addr + off) =
          if dest ≤ pop.master.addr + off ∧ pop.master.addr + off < dest + len then
            v m (pop.master.addr + off - dest)
          else m' (rep.addr + off) by
    obtain ⟨hout, hin⟩ := hpart _ (List.Subset.refl _) hapart m fun _ _ => rfl
    exact ⟨fun x hx => hout x fun rep hrep h => hx ⟨rep, hrep, h⟩, hin⟩
  intro reps
  induction reps with
  | nil => exact fun _ _ m' _ => ⟨fun _ _ => rfl, fun _ h => absurd h not_mem_nil⟩
  | cons rep reps ih =>
    intro hsub hpair m' hm'
    obtain ⟨hfar, hpair⟩ := pairwise_cons.mp hpair
    obtain ⟨hrep, hsub⟩ := cons_subset.mp hsub
    have hother : ∀ x, ¬ (rep.addr ≤ x ∧ x < rep.addr + pop.size) →
        f rep (rep.addr + dest - pop.master.addr) m' x = m' x := fun x hx => by
      rw [hf, put_not_mem (by omega)]
    obtain ⟨hout, hin⟩ := ih hsub hpair (f rep (rep.addr + dest - pop.master.addr) m') fun x hx =>
      (hother x fun h => hx ⟨rep, hrep, h⟩).trans (hm' x hx)
    refine ⟨fun x hx => ?_, fun rep' hmem off hoff => ?_⟩
    · rw [foldl_cons, hout x fun rep' h => hx rep' (mem_cons_of_mem _ h)]
      exact hother x (hx rep mem_cons_self)
    · rcases mem_cons.mp hmem with rfl | hmem
      · rw [foldl_cons, hout _ fun rep'' h => by have := hfar rep'' h; omega, hf]
        split
        · rw [put_mem (by omega), hv m' hm' _ (by omega)]
          congr 1
          omega
        · exact put_not_mem (by omega)
      · have := hfar rep' hmem
        rw [foldl_cons, hin rep' hmem off hoff, hother _ (by omega)]

theorem not_inReplica {off : Nat} (hoff : off < pop.size) :
    ¬ InReplica pop (pop.master.addr + off) := by
  rintro ⟨rep, hrep, hlo, hhi⟩
  have := (pairwise_cons.mp pop.apart).1 rep hrep
  omega

/-- After a call the replicas are equal to the master if and only if they got what the master has in
the range that is covered. -/
theorem synced_call_iff {s : State} {u : Bytes} {stale : Nat → Bool} (hs : Synced pop s)
    (hf : ∀ rep rdest m, f rep rdest m = put rdest len (v m) m) (hlo : pop.master.addr ≤ dest)
    (hhi : dest + len ≤ pop.master.addr + pop.size)
    (hv : ∀ m', (∀ x, ¬ InReplica pop x → m' x = u x) → ∀ i < len, v m' i = v u i)
    (hu : ∀ x, ¬ (dest ≤ x ∧ x < dest + len) → u x = s.mem x)
    (hstale : ∀ x, stale x = (s.stale x && !(dest ≤ x && x < dest + len))) :
    Synced pop ⟨eachReplica pop dest f u, stale⟩ ↔
      (pop.replicas ≠ [] → ∀ i < len, v u i = u (dest + i)) := by
  obtain ⟨hout, hrep⟩ := eachReplica_spec hf hlo hhi hv
  have happ := (pairwise_cons.mp pop.apart).1
  constructor
  · intro h hne i hi
    obtain ⟨rep, rest, hcons⟩ := exists_cons_of_ne_nil hne
    have hmem : rep ∈ pop.replicas := hcons ▸ mem_cons_self
    have hsame := h rep hmem (dest + i - pop.master.addr) (by omega) (by
      dsimp only
      rw [hstale, show pop.master.addr + (dest + i - pop.master.addr) = dest + i by omega]
      simp [hi])
    dsimp only at hsame
    rw [hrep rep hmem _ (by omega), hout _ (not_inReplica (by omega)),
      show pop.master.addr + (dest + i - pop.master.addr) = dest + i by omega,
      if_pos ⟨by omega, by omega⟩, Nat.add_sub_cancel_left] at hsame
    exact hsame
  · intro h rep hmem off hoff hfresh
    dsimp only at hfresh ⊢
    rw [hrep rep hmem off hoff, hout _ (not_inReplica hoff)]
    rw [hstale] at hfresh
    split
    · rename_i hin
      rw [h (ne_nil_of_mem hmem) _ (by omega)]
      congr 1
      omega
    · rename_i hnot
      have hold : s.stale (pop.master.addr + off) = false := by
        rw [Bool.and_eq_false_iff, Bool.not_eq_false', Bool.and_eq_true, decide_eq_true_eq,
          decide_eq_true_eq] at hfresh
        exact hfresh.resolve_right hnot
      have hfar := happ rep hmem
      rw [hu _ hnot, hu _ (by omega), hs rep hmem off hoff hold]

end Loop

theorem synced_step_iff {pop : Pool} {op : Op} {s t : State} (hs : Synced pop s)
    (hvalid : op.Valid pop) (hstep : step pop op s = some t) :
    Synced pop t ↔ SourceKept pop op s := by
  obtain rfl := Option.some.inj hstep
  obtain ⟨hlo, hhi, hsrc, hcpy⟩ := hvalid
  have hmove : ∀ dest src len flags, pop.master.addr ≤ dest →
      dest + len ≤ pop.master.addr + pop.size → (∀ i < len, ¬ InReplica pop (src + i)) →
      (Synced pop ⟨objRepMemmove pop dest src len flags s.mem,
          fun x => s.stale x && !(dest ≤ x && x < dest + len)⟩ ↔
        (pop.replicas ≠ [] → ∀ i < len, dest ≤ src + i → src + i < dest + len →
          s.mem (src + (src + i - dest)) = s.mem (src + i))) := by
    intro dest src len flags hlo hhi hsrc
    refine (synced_call_iff (v := fun m i => m (src + i))
      (u := put dest len (fun i => s.mem (src + i)) s.mem) hs (fun _ _ _ => rfl) hlo hhi
      (fun m' hm' i hi => hm' _ (hsrc i hi)) (fun x hx => put_not_mem hx) fun _ => rfl).trans
      (imp_congr_right fun _ => forall_congr' fun i => imp_congr_right fun hi => ?_)
    rw [put_mem (show dest ≤ dest + i ∧ dest + i < dest + len by omega), Nat.add_sub_cancel_left]
    by_cases hin : dest ≤ src + i ∧ src + i < dest + len
    · rw [put_mem hin]
      exact ⟨fun h _ _ => h, fun h => h hin.1 hin.2⟩
    · rw [put_not_mem hin]
      exact ⟨fun _ h h' => absurd ⟨h, h'⟩ hin, fun _ => rfl⟩
  have hpersist : ∀ addr len flags, pop.master.addr ≤ addr →
      addr + len ≤ pop.master.addr + pop.size →
      (Synced pop ⟨objRepPersist pop addr len flags s.mem,
        fun x => s.stale x && !(addr ≤ x && x < addr + len)⟩ ↔ True) := by
    intro addr len flags hlo hhi
    refine iff_true_intro ((synced_call_iff (v := fun m i => m (addr + i)) hs (fun _ _ _ => rfl) hlo
      hhi (fun m' hm' i hi => ?_) (fun _ _ => rfl) fun _ => rfl).mpr fun _ _ _ => rfl)
    have hmaster := @not_inReplica pop (addr + i - pop.master.addr) (by omega)
    rw [show pop.master.addr + (addr + i - pop.master.addr) = addr + i by omega] at hmaster
    exact hm' _ hmaster
  cases op with
  | store addr value =>
    refine ⟨fun _ => nofun, fun _ rep hmem off hoff hfresh => ?_⟩
    have hfar := (pairwise_cons.mp pop.apart).1 rep hmem
    simp only [Op.range] at hlo hhi
    obtain ⟨hcovers, hold⟩ := Bool.or_eq_false_iff.mp hfresh
    have hne : pop.master.addr + off ≠ addr := fun heq => by
      simp [Op.Covers, Op.range, heq] at hcovers
    exact (Function.update_of_ne (by omega) _ _).trans ((hs rep hmem off hoff hold).trans
      (Function.update_of_ne hne _ _).symm)
  | persist addr len flags =>
    exact (hpersist addr len 0 hlo hhi).trans ⟨fun _ => nofun, fun _ => trivial⟩
  | flush addr len flags =>
    exact (hpersist addr len _ hlo hhi).trans ⟨fun _ => nofun, fun _ => trivial⟩
  | memcpy dest src len flags =>
    refine (hmove dest src len flags hlo hhi (hsrc src rfl)).trans ⟨fun _ => nofun,
      fun _ _ i hi h h' => ?_⟩
    have := hcpy dest src len flags rfl
    omega
  | memmove dest src len flags =>
    refine (hmove dest src len flags hlo hhi (hsrc src rfl)).trans ⟨fun h => ?_, fun h =>
      h dest src len flags rfl⟩
    rintro _ _ _ _ heq
    obtain ⟨rfl, rfl, rfl, rfl⟩ := Op.memmove.inj heq
    exact h
  | memset dest c len flags =>
    refine (synced_call_iff (v := fun _ _ => c) (u := put dest len (fun _ => c) s.mem) hs
      (fun _ _ _ => rfl) hlo hhi (fun _ _ _ _ => rfl) (fun _ hx => put_not_mem hx)
      fun _ => rfl).trans ⟨fun _ => nofun, fun _ _ i hi => ?_⟩
    exact (put_mem (v := fun _ => c) ⟨Nat.le_add_right _ _, Nat.add_lt_add_left hi _⟩).symm

def State.Equal (pop : Pool) (s : State) : Prop :=
  (∀ x, s.stale x = false) ∧ ∀ rep ∈ pop.replicas, ∀ off < pop.size,
    s.mem (rep.addr + off) = s.mem (pop.master.addr + off)

/-- The replicas are equal to the master after every call of a run if and only if every move finds
its source as it was. -/
theorem synced_run_iff {pop : Pool} {ops : List Op} {s : State} (hequal : s.Equal pop)
    (hvalid : ∀ op ∈ ops, op.Valid pop) :
    (∀ before, before <+: ops → ∀ t, run (step pop) before s = some t → Synced pop t) ↔
      Guarded (step pop) (SourceKept pop) ops s := by
  have hs : Synced pop s := fun rep hrep off hoff _ => hequal.2 rep hrep off hoff
  clear hequal
  induction ops generalizing s with
  | nil =>
    refine iff_of_true (fun before hbefore t ht => ?_) trivial
    rw [List.prefix_nil.mp hbefore] at ht
    exact Option.some.inj ht ▸ hs
  | cons op ops ih =>
    obtain ⟨u, hu⟩ : ∃ u, step pop op s = some u := ⟨_, rfl⟩
    have hstep := synced_step_iff hs (hvalid op List.mem_cons_self) hu
    have htail := @ih u fun o ho => hvalid o (List.mem_cons_of_mem _ ho)
    constructor
    · intro h
      have hnext := h [op] (List.cons_prefix_cons.mpr ⟨rfl, List.nil_prefix⟩) u
        (by rw [run_cons, hu]; rfl)
      refine ⟨hstep.mp hnext, ?_⟩
      rw [hu]
      exact (htail hnext).mp fun before hbefore t ht =>
        h (op :: before) (List.cons_prefix_cons.mpr ⟨rfl, hbefore⟩) t (by rwa [run_cons, hu])
    · rintro ⟨hkept, hrest⟩ before hbefore t ht
      cases before with
      | nil => exact Option.some.inj ht ▸ hs
      | cons o before =>
        obtain ⟨rfl, hpre⟩ := List.cons_prefix_cons.mp hbefore
        rw [hu] at hrest
        rw [run_cons, hu] at ht
        exact (htail (hstep.mpr hkept)).mpr hrest before hpre t ht

def onePool : Pool := ⟨8, ⟨0, true⟩, [⟨8, false⟩], by decide⟩

def counting : State := ⟨fun x => UInt8.ofNat (x % 8), fun _ => false⟩

theorem counting_equal : counting.Equal onePool :=
  ⟨fun _ => rfl, by decide⟩

theorem valid_move {src : Nat} (hdest : dest + 2 ≤ 8) (hsrc : src + 2 ≤ 8) :
    (Op.memmove dest src 2 0).Valid onePool := by
  refine ⟨Nat.zero_le _, by simpa [Op.range, onePool] using hdest, ?_, fun _ _ _ _ h => by cases h⟩
  rintro src' hsrc' i hi ⟨rep, hrep, hlo, -⟩
  obtain rfl : src = src' := Option.some.inj hsrc'
  obtain rfl := mem_singleton.mp hrep
  have hi : i < 2 := hi
  have hlo : 8 ≤ src + i := hlo
  omega

theorem synced_run_disjoint : counting.Equal onePool ∧ ∀ before, before <+: [Op.memmove 4 0 2 0] →
    ∀ t, run (step onePool) before counting = some t → Synced onePool t :=
  ⟨counting_equal, (synced_run_iff counting_equal fun op hop => List.mem_singleton.mp hop ▸
    valid_move (by decide) (by decide)).mpr ⟨by
      rintro _ _ _ _ heq - i hi hlo
      obtain ⟨rfl, rfl, rfl, rfl⟩ := Op.memmove.inj heq
      omega, trivial⟩⟩

/-- The replica gets the second byte of the source as the move in the master has left it. -/
theorem overlap_not_synced : counting.Equal onePool ∧ (Op.memmove 1 0 2 0).Valid onePool ∧
    ∃ t, run (step onePool) [.memmove 1 0 2 0] counting = some t ∧ ¬ Synced onePool t :=
  ⟨counting_equal, valid_move (by decide) (by decide), _, rfl, fun h =>
    absurd (h ⟨8, false⟩ (List.mem_singleton.mpr rfl) 2 (by decide) rfl) (by decide)⟩

end Pmdk.RepOps
