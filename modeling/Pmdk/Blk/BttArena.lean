import Pmdk.Blk.Btt

/-!
# Blocks of an arena

Every LBA of an arena owns a block through its map entry, and every lane owns a free one through the
old entry of its current flog. In a settled arena no two of these are the same, so that a write to a
free block disturbs nobody.
-/

namespace Pmdk.Btt

variable {lbasize : Nat}

/-! ## Map entries and sequence numbers -/

theorem and_or_distrib_right (x y z : UInt32) :
    (x ||| y) &&& z = (x &&& z) ||| (y &&& z) := by
  apply UInt32.toBitVec_inj.mp
  simp only [UInt32.toBitVec_and, UInt32.toBitVec_or, BitVec.and_or_distrib_right]

theorem setFlags_and_mask {f : UInt32} (x : UInt32) (hf : f &&& mapEntryLbaMask = 0) :
    ((x &&& mapEntryLbaMask) ||| f) &&& mapEntryLbaMask = x &&& mapEntryLbaMask := by
  rw [and_or_distrib_right, hf, UInt32.and_assoc, UInt32.and_self, UInt32.or_zero]

theorem setFlags_and_not_mask {f : UInt32} (x : UInt32) (hf : f &&& ~~~mapEntryLbaMask = f) :
    ((x &&& mapEntryLbaMask) ||| f) &&& ~~~mapEntryLbaMask = f := by
  have hmask : mapEntryLbaMask &&& ~~~mapEntryLbaMask = 0 := by decide
  rw [and_or_distrib_right, hf, UInt32.and_assoc, hmask, UInt32.and_zero, UInt32.zero_or]

theorem seq_cases {s : UInt32} (h : s < 4) : s = 0 ∨ s = 1 ∨ s = 2 ∨ s = 3 := by
  have hlt : s.toNat < 4 := h
  simp only [← UInt32.toNat_inj, UInt32.reduceToNat]
  omega

/-- The index that `btt_flog_get_valid` stores in `next`, from the sequence numbers alone. -/
def nextOf (s₀ s₁ : UInt32) : Option Bool :=
  if s₀ = s₁ then none
  else if s₀ = 0 then some false
  else if s₁ = 0 then some true
  else if nseq s₀ = s₁ then some false
  else some true

theorem flogGetValid_eq (pair : Bool → Flog) :
    flogGetValid pair =
      (nextOf (pair false).seq (pair true).seq).map fun next => (pair !next, next) := by
  unfold flogGetValid nextOf
  split_ifs <;> rfl

structure SeqOk (pair : Bool → Flog) : Prop where
  lt : ∀ e, (pair e).seq < 4
  ne : (pair false).seq ≠ (pair true).seq

theorem SeqOk.next {pair : Bool → Flog} (h : SeqOk pair) :
    ∃ next, nextOf (pair false).seq (pair true).seq = some next ∧ (pair !next).seq ≠ 0 := by
  have hne := h.ne
  rcases seq_cases (h.lt false) with h₀ | h₀ | h₀ | h₀ <;>
  rcases seq_cases (h.lt true) with h₁ | h₁ | h₁ | h₁ <;>
  first
  | exact absurd (h₀.trans h₁.symm) hne
  | exact ⟨false, by rw [h₀, h₁]; rfl, by rw [Bool.not_false, h₁]; decide⟩
  | exact ⟨true, by rw [h₀, h₁]; rfl, by rw [Bool.not_true, h₀]; decide⟩

theorem nseq_spec {s : UInt32} (h : s < 4) (hne : s ≠ 0) :
    nseq s < 4 ∧ nseq s ≠ s ∧ nextOf s (nseq s) = some false ∧
      nextOf (nseq s) s = some true := by
  rcases seq_cases h with rfl | rfl | rfl | rfl
  · exact absurd rfl hne
  all_goals exact ⟨by decide, by decide, rfl, rfl⟩

variable {f : Flog}

/-- Writing the next sequence number over the older entry makes it the current one. -/
theorem SeqOk.update {pair : Bool → Flog} (h : SeqOk pair) {next : Bool}
    (hnext : nextOf (pair false).seq (pair true).seq = some next)
    (hf : f.seq = nseq (pair !next).seq) :
    SeqOk (Function.update pair next f) ∧
      nextOf (Function.update pair next f false).seq (Function.update pair next f true).seq =
        some !next := by
  obtain ⟨next', hnext', hne⟩ := h.next
  obtain rfl : next' = next := Option.some.inj (hnext'.symm.trans hnext)
  obtain ⟨hlt, hne', hfirst, hsecond⟩ := nseq_spec (h.lt !next') hne
  have hkeep : Function.update pair next' f (!next') = pair !next' :=
    Function.update_of_ne (by cases next' <;> decide) f pair
  rw [← hf] at hlt hne' hfirst hsecond
  have hlt' : ∀ e, (Function.update pair next' f e).seq < 4 := by
    intro e
    by_cases he : e = next'
    · rw [he, Function.update_self]
      exact hlt
    · rw [Function.update_of_ne he]
      exact h.lt e
  cases next' with
  | false =>
    rw [Bool.not_false] at *
    refine ⟨⟨hlt', ?_⟩, ?_⟩
    · rw [Function.update_self, hkeep]
      exact hne'
    · rw [Function.update_self, hkeep]
      exact hsecond
  | true =>
    rw [Bool.not_true] at *
    refine ⟨⟨hlt', ?_⟩, ?_⟩
    · rw [Function.update_self, hkeep]
      exact hne'.symm
    · rw [Function.update_self, hkeep]
      exact hfirst

/-! ## Arenas -/

def current (m : ArenaMedia lbasize) (lane : Nat) : FlogRuntime :=
  match flogGetValid (m.flog lane) with
  | none => .zeroed
  | some (flog, next) => ⟨flog, next⟩

def block (m : ArenaMedia lbasize) : Nat ⊕ UInt32 → UInt32
  | .inl lane => (current m lane).flog.oldMap &&& mapEntryLbaMask
  | .inr premapLba => mapEntry m premapLba &&& mapEntryLbaMask

def owners (nfree : Nat) (info : Info) : Set (Nat ⊕ UInt32)
  | .inl lane => lane < nfree
  | .inr premapLba => premapLba < info.externalNlba

structure Settled (nfree nlba : Nat) (m : ArenaMedia lbasize) : Prop where
  seq : ∀ lane < nfree, SeqOk (m.flog lane)
  lba : ∀ lane < nfree, ∀ e, (m.flog lane e).lba.toNat < nlba
  premapLba : ∀ lane < nfree,
    (current m lane).flog.oldMap ≠ (current m lane).flog.newMap →
      (current m lane).flog.lba < m.info.externalNlba
  injOn : Set.InjOn (block m) (owners nfree m.info)
  range : ∀ o ∈ owners nfree m.info, block m o < m.info.internalNlba

/-- The current flog of `lane` has not reached the map; with it the arena is settled. -/
structure Pending (nfree nlba : Nat) (m : ArenaMedia lbasize) (lane : Nat) : Prop where
  lane_lt : lane < nfree
  ne : (current m lane).flog.oldMap ≠ (current m lane).flog.newMap
  old : mapEntry m (current m lane).flog.lba = (current m lane).flog.oldMap
  settled : Settled nfree nlba
    (m.setMap (current m lane).flog.lba (current m lane).flog.newMap)

theorem current_eq {m : ArenaMedia lbasize} {lane : Nat} {next : Bool}
    (h : nextOf (m.flog lane false).seq (m.flog lane true).seq = some next) :
    current m lane = ⟨m.flog lane !next, next⟩ := by
  unfold current
  rw [flogGetValid_eq, h]
  rfl

theorem nextOf_current {m : ArenaMedia lbasize} {lane : Nat} (h : SeqOk (m.flog lane)) :
    nextOf (m.flog lane false).seq (m.flog lane true).seq = some (current m lane).next := by
  obtain ⟨next, hnext, -⟩ := h.next
  rw [current_eq hnext, hnext]

theorem current_flog {m : ArenaMedia lbasize} {lane : Nat} (h : SeqOk (m.flog lane)) :
    (current m lane).flog = m.flog lane !(current m lane).next :=
  congrArg FlogRuntime.flog (current_eq (nextOf_current h))

theorem flogGetValid_current {m : ArenaMedia lbasize} {lane : Nat} (h : SeqOk (m.flog lane)) :
    flogGetValid (m.flog lane) = some ((current m lane).flog, (current m lane).next) := by
  rw [flogGetValid_eq, nextOf_current h, current_flog h]
  rfl

@[simp] theorem current_setMap (m : ArenaMedia lbasize) (i entry : UInt32) (lane : Nat) :
    current (m.setMap i entry) lane = current m lane := rfl

theorem mapEntry_setMap (m : ArenaMedia lbasize) (i j entry : UInt32) :
    mapEntry (m.setMap i entry) j =
      if j = i then (if mapEntryIsInitial entry then i ||| mapEntryNormal else entry)
      else mapEntry m j := by
  unfold mapEntry ArenaMedia.setMap
  by_cases h : j = i
  · simp [h]
  · simp [h]

theorem Settled.mapEntry_ne {nfree nlba : Nat} {m : ArenaMedia lbasize}
    (h : Settled nfree nlba m) {lane : Nat} (hlane : lane < nfree)
    (hne : (current m lane).flog.oldMap ≠ (current m lane).flog.newMap) :
    (current m lane).flog.oldMap ≠ mapEntry m (current m lane).flog.lba := by
  intro heq
  have hblock : block m (.inl lane) = block m (.inr (current m lane).flog.lba) :=
    congrArg (· &&& mapEntryLbaMask) heq
  have howner := h.injOn (show Sum.inl lane ∈ owners nfree m.info from hlane)
    (show Sum.inr _ ∈ owners nfree m.info from h.premapLba lane hlane hne) hblock
  cases howner

theorem Pending.mapEntry_ne {nfree nlba : Nat} {m : ArenaMedia lbasize} {p : Nat}
    (h : Pending nfree nlba m p) {lane : Nat} (hlane : lane < nfree) (hp : lane ≠ p)
    (hne : (current m lane).flog.oldMap ≠ (current m lane).flog.newMap) :
    (current m lane).flog.oldMap ≠ mapEntry m (current m lane).flog.lba := by
  by_cases hlba : (current m lane).flog.lba = (current m p).flog.lba
  · intro heq
    rw [hlba, h.old] at heq
    have howner := h.settled.injOn (show Sum.inl lane ∈ owners nfree m.info from hlane)
      (show Sum.inl p ∈ owners nfree m.info from h.lane_lt)
      (congrArg (· &&& mapEntryLbaMask) heq)
    exact hp (Sum.inl.inj howner)
  · have hother := h.settled.mapEntry_ne hlane hne
    rw [current_setMap, mapEntry_setMap, if_neg hlba] at hother
    exact hother

theorem setFlog_flog (m : ArenaMedia lbasize) (lane : Nat) (e : Bool) (f : Flog) (lane' : Nat) :
    (m.setFlog lane e f).flog lane' =
      if lane' = lane then Function.update (m.flog lane) e f else m.flog lane' := by
  unfold ArenaMedia.setFlog
  by_cases h : lane' = lane
  · simp [h]
  · simp [h]

theorem current_congr {m m' : ArenaMedia lbasize} {lane : Nat}
    (h : m'.flog lane = m.flog lane) : current m' lane = current m lane := by
  unfold current
  rw [h]

section Write

variable {nfree nlba : Nat} {m : ArenaMedia lbasize} {lane : Nat}

theorem current_setHead (h : SeqOk (m.flog lane))
    (hf : f.seq = (m.flog lane (current m lane).next).seq) :
    SeqOk (Function.update (m.flog lane) (current m lane).next f) ∧
      ∀ lane', current (m.setFlog lane (current m lane).next f) lane' = current m lane' := by
  have hseq : ∀ e, (Function.update (m.flog lane) (current m lane).next f e).seq =
      (m.flog lane e).seq := by
    intro e
    by_cases he : e = (current m lane).next
    · rw [he, Function.update_self, hf]
    · rw [Function.update_of_ne he]
  refine ⟨⟨fun e => hseq e ▸ h.lt e, ?_⟩, fun lane' => ?_⟩
  · rw [hseq, hseq]
    exact h.ne
  · by_cases hlane : lane' = lane
    · subst hlane
      have hnext := nextOf_current h
      rw [current_eq hnext]
      have hflog := setFlog_flog m lane' (current m lane').next f lane'
      rw [if_pos rfl] at hflog
      rw [← hseq, ← hseq, ← hflog] at hnext
      rw [current_eq hnext, hflog, Function.update_of_ne]
      cases (current m lane').next <;> decide
    · apply current_congr
      rw [setFlog_flog, if_neg hlane]

theorem current_setTail (h : SeqOk (m.flog lane)) (hf : f.seq = nseq (current m lane).flog.seq) :
    SeqOk (Function.update (m.flog lane) (current m lane).next f) ∧
      ∀ lane', current (m.setFlog lane (current m lane).next f) lane' =
        if lane' = lane then ⟨f, !(current m lane).next⟩ else current m lane' := by
  rw [current_flog h] at hf
  obtain ⟨hok, hnext⟩ := h.update (nextOf_current h) hf
  refine ⟨hok, fun lane' => ?_⟩
  by_cases hlane : lane' = lane
  · subst hlane
    have hflog := setFlog_flog m lane' (current m lane').next f lane'
    rw [if_pos rfl] at hflog
    rw [← hflog] at hnext
    rw [current_eq hnext, hflog, Bool.not_not, Function.update_self, if_pos rfl]
  · rw [if_neg hlane]
    apply current_congr
    rw [setFlog_flog, if_neg hlane]

theorem pairs_setFlog (hseq : ∀ lane' < nfree, SeqOk (m.flog lane'))
    (hlbas : ∀ lane' < nfree, ∀ e', (m.flog lane' e').lba.toNat < nlba) {e : Bool}
    (hok : SeqOk (Function.update (m.flog lane) e f)) (hlba : f.lba.toNat < nlba) :
    (∀ lane' < nfree, SeqOk ((m.setFlog lane e f).flog lane')) ∧
      ∀ lane' < nfree, ∀ e', ((m.setFlog lane e f).flog lane' e').lba.toNat < nlba := by
  refine ⟨fun lane' hlane' => ?_, fun lane' hlane' e' => ?_⟩
  · rw [setFlog_flog]
    split
    · exact hok
    · exact hseq lane' hlane'
  · rw [setFlog_flog]
    split
    · rename_i heq
      by_cases he : e' = e
      · rw [he, Function.update_self]
        exact hlba
      · rw [Function.update_of_ne he, ← heq]
        exact hlbas lane' hlane' e'
    · exact hlbas lane' hlane' e'

theorem Settled.setData (h : Settled nfree nlba m) (b : UInt32) (buf : Block lbasize) :
    Settled nfree nlba (m.setData b buf) :=
  ⟨h.seq, h.lba, h.premapLba, h.injOn, h.range⟩

theorem block_setHead (h : SeqOk (m.flog lane))
    (hf : f.seq = (m.flog lane (current m lane).next).seq) :
    block (m.setFlog lane (current m lane).next f) = block m := by
  funext o
  cases o with
  | inl lane' =>
    exact congrArg (·.flog.oldMap &&& mapEntryLbaMask) ((current_setHead h hf).2 lane')
  | inr i => rfl

theorem Settled.setHead (h : Settled nfree nlba m) (hlane : lane < nfree)
    (hf : f.seq = (m.flog lane (current m lane).next).seq) (hlba : f.lba.toNat < nlba) :
    Settled nfree nlba (m.setFlog lane (current m lane).next f) := by
  obtain ⟨hok, hcurrent⟩ := current_setHead (h.seq lane hlane) hf
  have hblock := block_setHead (h.seq lane hlane) hf
  obtain ⟨hseq, hlbas⟩ := pairs_setFlog h.seq h.lba hok hlba
  refine ⟨hseq, hlbas, fun lane' hlane' => ?_, ?_, ?_⟩
  · rw [hcurrent]
    exact h.premapLba lane' hlane'
  · rw [hblock]
    exact h.injOn
  · rw [hblock]
    exact h.range

/-- The entry that `btt_write` maps the LBA to. -/
def freeEntry (m : ArenaMedia lbasize) (lane : Nat) : UInt32 :=
  ((current m lane).flog.oldMap &&& mapEntryLbaMask) ||| mapEntryNormal

def newFlog (m : ArenaMedia lbasize) (lane : Nat) (i : UInt32) : Flog :=
  ⟨i, mapEntry m i, freeEntry m lane, nseq (current m lane).flog.seq⟩

theorem freeEntry_and_mask (m : ArenaMedia lbasize) (lane : Nat) :
    freeEntry m lane &&& mapEntryLbaMask = block m (.inl lane) :=
  setFlags_and_mask _ (by decide)

theorem freeEntry_and_not_mask (m : ArenaMedia lbasize) (lane : Nat) :
    freeEntry m lane &&& ~~~mapEntryLbaMask = mapEntryNormal :=
  setFlags_and_not_mask _ (by decide)

theorem not_initial_of_flags {entry f : UInt32} (h : entry &&& ~~~mapEntryLbaMask = f)
    (hf : f ≠ 0) : mapEntryIsInitial entry = false := by
  unfold mapEntryIsInitial
  rw [h]
  exact decide_eq_false hf

theorem injOn_comp_swap {f g : Nat ⊕ UInt32 → UInt32} {s : Set (Nat ⊕ UInt32)}
    {o o' : Nat ⊕ UInt32} (ho : o ∈ s) (ho' : o' ∈ s) (hf : Set.InjOn f s)
    (hg : ∀ x, g x = f (Equiv.swap o o' x)) :
    Set.InjOn g s ∧ ∀ x ∈ s, ∃ y ∈ s, g x = f y := by
  have hmaps : ∀ x ∈ s, Equiv.swap o o' x ∈ s := by
    intro x hx
    rw [Equiv.swap_apply_def]
    split_ifs
    · exact ho'
    · exact ho
    · exact hx
  refine ⟨fun x hx y hy hxy => ?_, fun x hx => ⟨_, hmaps x hx, hg x⟩⟩
  rw [hg, hg] at hxy
  exact (Equiv.swap o o').injective (hf (hmaps x hx) (hmaps y hy) hxy)

/-- After the map entry is written, the LBA and the lane have exchanged their blocks. -/
theorem Settled.exchange (h : Settled nfree nlba m) (hlane : lane < nfree) {i : UInt32}
    (hi : i < m.info.externalNlba) (hlba : i.toNat < nlba) :
    Settled nfree nlba ((m.setFlog lane (current m lane).next (newFlog m lane i)).setMap i
      (freeEntry m lane)) := by
  obtain ⟨hok, hcurrent⟩ := current_setTail (h.seq lane hlane) (f := newFlog m lane i) rfl
  obtain ⟨hseq, hlbas⟩ := pairs_setFlog h.seq h.lba hok hlba
  have hfree : mapEntryIsInitial (freeEntry m lane) = false :=
    not_initial_of_flags (freeEntry_and_not_mask m lane) (by decide)
  have hblock : ∀ o, block ((m.setFlog lane (current m lane).next (newFlog m lane i)).setMap i
      (freeEntry m lane)) o = block m (Equiv.swap (.inl lane) (.inr i) o) := by
    intro o
    cases o with
    | inl lane' =>
      rw [block, current_setMap, hcurrent]
      by_cases heq : lane' = lane
      · rw [if_pos heq, heq, Equiv.swap_apply_left]
        rfl
      · rw [if_neg heq, Equiv.swap_apply_of_ne_of_ne (by simpa using heq) (by simp)]
        rfl
    | inr j =>
      rw [block, mapEntry_setMap, hfree]
      by_cases heq : j = i
      · rw [if_pos heq, heq, Equiv.swap_apply_right]
        exact freeEntry_and_mask m lane
      · rw [if_neg heq, Equiv.swap_apply_of_ne_of_ne (by simp) (by simpa using heq)]
        rfl
  obtain ⟨hinj, hrange⟩ := injOn_comp_swap (s := owners nfree m.info) hlane hi h.injOn hblock
  refine ⟨hseq, hlbas, fun lane' hlane' => ?_, hinj, fun o ho => ?_⟩
  · rw [current_setMap, hcurrent]
    split
    · exact fun _ => hi
    · exact h.premapLba lane' hlane'
  · obtain ⟨o', ho', heq⟩ := hrange o ho
    rw [heq]
    exact h.range o' ho'

/-- Between the second half of the flog entry and the map entry the write is pending. -/
theorem Settled.pending (h : Settled nfree nlba m) (hlane : lane < nfree) {i : UInt32}
    (hi : i < m.info.externalNlba) (hlba : i.toNat < nlba) :
    Pending nfree nlba (m.setFlog lane (current m lane).next (newFlog m lane i)) lane ∧
      (current (m.setFlog lane (current m lane).next (newFlog m lane i)) lane).flog =
        newFlog m lane i := by
  obtain ⟨-, hcurrent⟩ := current_setTail (h.seq lane hlane) (f := newFlog m lane i) rfl
  have hflog := hcurrent lane
  rw [if_pos rfl] at hflog
  refine ⟨⟨hlane, ?_, ?_, ?_⟩, by rw [hflog]⟩
  · rw [hflog]
    intro heq
    have hblock : block m (.inr i) = block m (.inl lane) := by
      rw [← freeEntry_and_mask]
      exact congrArg (· &&& mapEntryLbaMask) heq
    cases h.injOn (show Sum.inr i ∈ owners nfree m.info from hi)
      (show Sum.inl lane ∈ owners nfree m.info from hlane) hblock
  · rw [hflog]
    rfl
  · rw [hflog]
    exact h.exchange hlane hi hlba

theorem block_setFlags (m : ArenaMedia lbasize) (i : UInt32) {f : UInt32}
    (hmask : f &&& mapEntryLbaMask = 0) (hflags : f &&& ~~~mapEntryLbaMask = f) (hf : f ≠ 0) :
    block (m.setMap i ((mapEntry m i &&& mapEntryLbaMask) ||| f)) = block m := by
  have hinitial := not_initial_of_flags (setFlags_and_not_mask (mapEntry m i) hflags) hf
  funext o
  cases o with
  | inl lane => rfl
  | inr j =>
    rw [block, mapEntry_setMap, hinitial]
    by_cases heq : j = i
    · rw [if_pos heq, heq]
      exact setFlags_and_mask _ hmask
    · rw [if_neg heq]
      rfl

theorem Settled.setFlags (h : Settled nfree nlba m) (i : UInt32) {f : UInt32}
    (hmask : f &&& mapEntryLbaMask = 0) (hflags : f &&& ~~~mapEntryLbaMask = f) (hf : f ≠ 0) :
    Settled nfree nlba (m.setMap i ((mapEntry m i &&& mapEntryLbaMask) ||| f)) := by
  have hblock := block_setFlags m i hmask hflags hf
  refine ⟨h.seq, h.lba, h.premapLba, ?_, ?_⟩
  · rw [hblock]
    exact h.injOn
  · rw [hblock]
    exact h.range

end Write

/-! ## The initial layout -/

theorem setFlags_and_mask_of_lt {x f : UInt32} (hf : f &&& mapEntryLbaMask = 0)
    (hx : x.toNat < 2 ^ 30) : (x ||| f) &&& mapEntryLbaMask = x := by
  rw [and_or_distrib_right, hf, UInt32.or_zero, ← UInt32.toNat_inj, UInt32.toNat_and]
  exact (Nat.and_two_pow_sub_one_eq_mod x.toNat 30).trans (Nat.mod_eq_of_lt hx)

/-- The flogs that `write_layout` writes: the blocks behind those of the LBAs are free. -/
def freshFlog (info : Info) (lane : Nat) (e : Bool) : Flog :=
  let free := (info.externalNlba + UInt32.ofNat lane) ||| mapEntryZero
  if e then ⟨0, 0, 0, 0⟩ else ⟨UInt32.ofNat lane, free, free, 1⟩

theorem settled_of_fresh {nfree nlba : Nat} {m : ArenaMedia lbasize}
    (hflog : ∀ lane < nfree, m.flog lane = freshFlog m.info lane) (hnfree : nfree ≤ nlba)
    (hsize : m.info.externalNlba.toNat + nfree ≤ m.info.internalNlba.toNat)
    (hmax : m.info.internalNlba.toNat ≤ 2 ^ 30)
    (hinj : ∀ i < m.info.externalNlba, ∀ j < m.info.externalNlba,
      block m (.inr i) = block m (.inr j) → i = j)
    (hrange : ∀ i < m.info.externalNlba, block m (.inr i) < m.info.externalNlba) :
    Settled nfree nlba m := by
  have hcurrent : ∀ lane < nfree, current m lane = ⟨freshFlog m.info lane false, true⟩ := by
    intro lane hlt
    have hnext : nextOf (m.flog lane false).seq (m.flog lane true).seq = some true := by
      rw [hflog lane hlt]
      rfl
    rw [current_eq hnext, hflog lane hlt]
    rfl
  have htoNat : ∀ lane < nfree, (UInt32.ofNat lane).toNat = lane := by
    intro lane hlt
    have hsize : lane < UInt32.size := Nat.lt_of_lt_of_le hlt (by
      have hle : 2 ^ 30 ≤ UInt32.size := by decide
      omega)
    exact UInt32.toNat_ofNat_of_lt' hsize
  -- the number of the free block of a lane
  have hlane : ∀ lane < nfree, (block m (.inl lane)).toNat = m.info.externalNlba.toNat + lane := by
    intro lane hlt
    have hadd : (m.info.externalNlba + UInt32.ofNat lane).toNat =
        m.info.externalNlba.toNat + lane := by
      rw [UInt32.toNat_add, htoNat lane hlt, Nat.mod_eq_of_lt (by omega)]
    rw [block, hcurrent lane hlt]
    exact (congrArg UInt32.toNat (setFlags_and_mask_of_lt (by decide) (by omega))).trans hadd
  have hlba : ∀ i < m.info.externalNlba,
      (block m (.inr i)).toNat < m.info.externalNlba.toNat := hrange
  refine ⟨fun lane hlt => ?_, fun lane hlt e => ?_, fun lane hlt hne => ?_,
    fun o ho o' ho' heq => ?_, fun o ho => ?_⟩
  · rw [hflog lane hlt]
    refine ⟨fun e => ?_, (by decide : (1 : UInt32) ≠ 0)⟩
    cases e with
    | false => exact (by decide : (1 : UInt32) < 4)
    | true => exact (by decide : (0 : UInt32) < 4)
  · rw [hflog lane hlt]
    cases e with
    | false => exact (htoNat lane hlt).symm ▸ (by omega : lane < nlba)
    | true => exact (by omega : 0 < nlba)
  · rw [hcurrent lane hlt] at hne
    exact absurd rfl hne
  · have hnat := congrArg UInt32.toNat heq
    cases o with
    | inl lane =>
      rw [hlane lane ho] at hnat
      cases o' with
      | inl lane' =>
        rw [hlane lane' ho'] at hnat
        exact congrArg Sum.inl (by omega)
      | inr i =>
        have hi := hlba i ho'
        omega
    | inr i =>
      have hi := hlba i ho
      cases o' with
      | inl lane =>
        rw [hlane lane ho'] at hnat
        omega
      | inr i' => exact congrArg Sum.inr (hinj i ho i' ho' heq)
  · rw [UInt32.lt_iff_toNat_lt]
    cases o with
    | inl lane =>
      have hlt : lane < nfree := ho
      rw [hlane lane ho]
      exact Nat.lt_of_lt_of_le (Nat.add_lt_add_left hlt _) hsize
    | inr i =>
      have hi := hlba i ho
      omega

theorem block_of_initial {m : ArenaMedia lbasize} {i : UInt32}
    (hinitial : mapEntryIsInitial (m.map i) = true) (hi : i.toNat < 2 ^ 30) :
    block m (.inr i) = i := by
  rw [block, mapEntry, if_pos hinitial]
  exact setFlags_and_mask_of_lt (by decide) hi

end Pmdk.Btt
