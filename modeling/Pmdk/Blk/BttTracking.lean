import Pmdk.Blk.BttPermute

/-!
# Readers and writers

A reader publishes the block of its LBA in the read tracking table and reads the map entry again; a
writer looks at each entry of the table before it writes to its free block. So once a reader copies
a block no writer is past the entry of that reader with the same block (`Protected`).
-/

namespace Pmdk.Btt

open Function

variable {lbasize : Nat} {nfree nlba : Nat}

/-! ## The specification -/

/-- The contents of all LBAs, what the calls that write are about to store, and for the calls of
`btt_read` the contents of their LBA since they began. -/
structure Registers (lbasize : Nat) where
  content : Nat → Content lbasize
  writing : Nat → Option (Nat × Content lbasize)
  reading : Nat → Option (Nat × Set (Content lbasize))

def Call.stores : Call lbasize → Option (Nat × Content lbasize)
  | .read _ => none
  | .write lba buf => some (lba, .block buf)
  | .setZero lba => some (lba, .block zeroBlock)
  | .setError lba => some (lba, .eio)

def Registers.call (nlba : Nat) (x : Registers lbasize) (lane : Nat) :
    Call lbasize → Registers lbasize
  | .read lba =>
    if lba < nlba then
      { x with reading := update x.reading lane (some (lba, {x.content lba})) }
    else x
  | c => { x with writing := update x.writing lane c.stores }

def Registers.store (x : Registers lbasize) (lba : Nat) (c : Content lbasize) :
    Registers lbasize where
  content := update x.content lba c
  writing := x.writing
  reading := fun lane => (x.reading lane).map fun r =>
    (r.1, if r.1 = lba then insert c r.2 else r.2)

def StepEvent.Outcome (nlba : Nat) :
    StepEvent lbasize → Registers lbasize → Registers lbasize → Prop
  | .call lane c, x, y => y = x.call nlba lane c
  | .commit lane, x, y => ∃ lba c, x.writing lane = some (lba, c) ∧ y = x.store lba c
  | .ret lane c, x, y => ∃ lba seen, x.reading lane = some (lba, seen) ∧ c ∈ seen ∧
      y = { x with reading := update x.reading lane none }
  | _, x, y => y = x

def Shared.Undisturbed (s : Shared lbasize) : Prop :=
  ∀ r w a i j e f buf buf' copied copied', s.pc r = .readData a i e buf copied →
    s.pc w = .writeData a j f buf' copied' → f &&& mapEntryLbaMask ≠ e &&& mapEntryLbaMask

structure Shared.Still (nfree nlba : Nat) (A : Nat → Content lbasize) (s : Shared lbasize) :
    Prop where
  handle : s.handle = some (handleOf nfree nlba s.ns)
  shows : Shows nfree nlba s.ns A
  idle : ∀ lane, s.pc lane = .idle

/-! ## The invariant -/

def Registers.Reads (look : Nat → Option (Nat × UInt32)) (x : Registers lbasize) (lane a : Nat)
    (i : UInt32) : Prop :=
  ∃ lba seen, look lba = some (a, i) ∧ x.reading lane = some (lba, seen) ∧ x.content lba ∈ seen

def Registers.Saw (x : Registers lbasize) (lane : Nat) (c : Content lbasize) : Prop :=
  ∃ lba seen, x.reading lane = some (lba, seen) ∧ c ∈ seen

def Registers.Writes (look : Nat → Option (Nat × UInt32)) (x : Registers lbasize) (lane a : Nat)
    (i : UInt32) (c : Content lbasize) : Prop :=
  ∃ lba, look lba = some (a, i) ∧ x.writing lane = some (lba, c)

def IsNormal (entry : UInt32) : Prop := entry &&& ~~~mapEntryLbaMask = mapEntryNormal

def flagContent (f : UInt32) : Content lbasize :=
  if f = mapEntryZero then .block zeroBlock else .eio

/-- What a call of `job` stores, when the free block of `btt_write` has been written. -/
def Job.content (m : ArenaMedia lbasize) : Job → Content lbasize
  | .write f => .block (m.data (f &&& mapEntryLbaMask))
  | .setf f => flagContent f

def Pc.Tracks (look : Nat → Option (Nat × UInt32)) (s : Shared lbasize) (x : Registers lbasize)
    (lane : Nat) : Pc lbasize → Prop
  | .idle => True
  | .readMap a i => x.Reads look lane a i
  | .readLoop a i e => x.Reads look lane a i ∧
      (mapEntryIsError e = true → x.Saw lane .eio) ∧
      (mapEntryIsError e ≠ true → mapEntryIsZeroOrInitial e = true →
        x.Saw lane (.block zeroBlock))
  | .readLatest a i e => x.Reads look lane a i ∧ s.rtt a lane = e ∧ IsNormal e
  | .readData a i e buf copied => x.Reads look lane a i ∧ s.rtt a lane = e ∧ IsNormal e ∧
      x.Saw lane (.block ((s.ns.arena a).data (e &&& mapEntryLbaMask))) ∧
      ∀ j, copied j = true → buf j = (s.ns.arena a).data (e &&& mapEntryLbaMask) j
  | .scan a i _ buf _ => x.Writes look lane a i (.block buf)
  | .writeData a i f buf copied => x.Writes look lane a i (.block buf) ∧
      ∀ j, copied j = true → (s.ns.arena a).data (f &&& mapEntryLbaMask) j = buf j
  | .mapLock a i job => x.Writes look lane a i (job.content (s.ns.arena a))
  | .mapRead a i job => x.Writes look lane a i (job.content (s.ns.arena a))
  | .flogHead a i f _ => x.Writes look lane a i ((Job.write f).content (s.ns.arena a))
  | .flogTail a i f _ => x.Writes look lane a i ((Job.write f).content (s.ns.arena a))
  | .mapWrite a i (.write _) e =>
    x.Writes look lane a i (.block ((s.ns.arena a).data (e &&& mapEntryLbaMask))) ∧ IsNormal e
  | .mapWrite a i (.setf f) e =>
    x.Writes look lane a i (flagContent f) ∧ e &&& ~~~mapEntryLbaMask = f
  | .mapUnlock _ _ => True

/-- A writer that uses its free block in arena `a` has looked at the entry of lane `r` in the
read tracking table. -/
def Pc.PastScan (a r : Nat) : Pc lbasize → Prop
  | .scan a' _ _ _ n => a' = a ∧ r < n
  | .writeData a' _ _ _ _ => a' = a
  | .mapLock a' _ (.write _) => a' = a
  | .mapRead a' _ (.write _) => a' = a
  | .flogHead a' _ _ _ => a' = a
  | .flogTail a' _ _ _ => a' = a
  | _ => False

def Shared.Protected (s : Shared lbasize) : Prop :=
  ∀ r a i e buf copied, s.pc r = .readData a i e buf copied →
    ∀ l, (s.pc l).PastScan a r → block (s.ns.arena a) (.inl l) ≠ e &&& mapEntryLbaMask

def Shared.Contents (look : Nat → Option (Nat × UInt32)) (s : Shared lbasize)
    (x : Registers lbasize) : Prop :=
  ∀ lba a i, look lba = some (a, i) → contentAt (s.ns.arena a) i = x.content lba

structure Shared.Tracked (nfree nlba : Nat) (look : Nat → Option (Nat × UInt32))
    (own : Nat → Nat ⊕ UInt32 → UInt32) (s : Shared lbasize) (x : Registers lbasize) : Prop where
  up : s.Up nfree nlba own
  lookup : ∀ lba, (handleOf nfree nlba s.ns).lookup lba = look lba
  contents : s.Contents look x
  protect : s.Protected
  pc : ∀ lane, (s.pc lane).Tracks look s x lane

/-! ## Other lanes -/

def Pc.Uses (a : Nat) (b : UInt32) : Pc lbasize → Prop
  | .readData a' _ e _ _ => a' = a ∧ e &&& mapEntryLbaMask = b
  | .writeData a' _ f _ _ => a' = a ∧ f &&& mapEntryLbaMask = b
  | .mapLock a' _ (.write f) => a' = a ∧ f &&& mapEntryLbaMask = b
  | .mapRead a' _ (.write f) => a' = a ∧ f &&& mapEntryLbaMask = b
  | .flogHead a' _ f _ => a' = a ∧ f &&& mapEntryLbaMask = b
  | .flogTail a' _ f _ => a' = a ∧ f &&& mapEntryLbaMask = b
  | .mapWrite a' _ (.write _) e => a' = a ∧ e &&& mapEntryLbaMask = b
  | _ => False

structure Registers.Later (look : Nat → Option (Nat × UInt32)) (l : Nat)
    (x x' : Registers lbasize) : Prop where
  reads : ∀ a i, x.Reads look l a i → x'.Reads look l a i
  saw : ∀ c, x.Saw l c → x'.Saw l c
  writing : x'.writing l = x.writing l

theorem Registers.Later.refl (look : Nat → Option (Nat × UInt32)) (l : Nat)
    (x : Registers lbasize) : x.Later look l x :=
  ⟨fun _ _ h => h, fun _ h => h, rfl⟩

variable {i : UInt32} {a : Nat}

theorem Registers.Later.writes {look : Nat → Option (Nat × UInt32)} {l : Nat}
    {x x' : Registers lbasize} (h : x.Later look l x')
    {c : Content lbasize} (hx : x.Writes look l a i c) : x'.Writes look l a i c := by
  obtain ⟨lba, hlook, hwriting⟩ := hx
  exact ⟨lba, hlook, h.writing.trans hwriting⟩

variable {pc : Pc lbasize}

theorem Pc.Tracks.frame {look : Nat → Option (Nat × UInt32)} {s s' : Shared lbasize}
    {x x' : Registers lbasize} {l : Nat} (h : pc.Tracks look s x l)
    (hx : x.Later look l x') (hrtt : ∀ a, s'.rtt a l = s.rtt a l)
    (hdata : ∀ a b, pc.Uses a b → (s'.ns.arena a).data b = (s.ns.arena a).data b) :
    pc.Tracks look s' x' l := by
  have hjob : ∀ {a : Nat} {f : UInt32},
      (s'.ns.arena a).data (f &&& mapEntryLbaMask) = (s.ns.arena a).data (f &&& mapEntryLbaMask) →
      (Job.write f).content (s'.ns.arena a) = (Job.write f).content (s.ns.arena a) :=
    fun heq => congrArg Content.block heq
  cases pc with
  | idle => trivial
  | readMap a i => exact hx.reads a i h
  | readLoop a i e =>
    exact ⟨hx.reads a i h.1, fun he => hx.saw _ (h.2.1 he), fun he he' => hx.saw _ (h.2.2 he he')⟩
  | readLatest a i e => exact ⟨hx.reads a i h.1, (hrtt a).trans h.2.1, h.2.2⟩
  | readData a i e buf copied =>
    obtain ⟨hreads, hlane, hnormal, hsaw, hbuf⟩ := h
    have heq := hdata a _ ⟨rfl, rfl⟩
    refine ⟨hx.reads a i hreads, (hrtt a).trans hlane, hnormal, ?_, fun j hj => ?_⟩
    · rw [heq]
      exact hx.saw _ hsaw
    · rw [heq]
      exact hbuf j hj
  | scan a i f buf n => exact hx.writes h
  | writeData a i f buf copied =>
    refine ⟨hx.writes h.1, fun j hj => ?_⟩
    rw [hdata a _ ⟨rfl, rfl⟩]
    exact h.2 j hj
  | mapLock a i job =>
    cases job with
    | write f =>
      have hwrites := hx.writes h
      rw [← hjob (hdata a _ ⟨rfl, rfl⟩)] at hwrites
      exact hwrites
    | setf f => exact hx.writes h
  | mapRead a i job =>
    cases job with
    | write f =>
      have hwrites := hx.writes h
      rw [← hjob (hdata a _ ⟨rfl, rfl⟩)] at hwrites
      exact hwrites
    | setf f => exact hx.writes h
  | flogHead a i f old =>
    have hwrites := hx.writes h
    rw [← hjob (hdata a _ ⟨rfl, rfl⟩)] at hwrites
    exact hwrites
  | flogTail a i f old =>
    have hwrites := hx.writes h
    rw [← hjob (hdata a _ ⟨rfl, rfl⟩)] at hwrites
    exact hwrites
  | mapWrite a i job e =>
    cases job with
    | write f =>
      refine ⟨?_, h.2⟩
      rw [hdata a _ ⟨rfl, rfl⟩]
      exact hx.writes h.1
    | setf f => exact ⟨hx.writes h.1, h.2⟩
  | mapUnlock a i => trivial

/-! ## Steps -/

variable {e : UInt32}

theorem isNormal_of_not
    (h : ¬ (mapEntryIsError e = true ∨ mapEntryIsZeroOrInitial e = true)) : IsNormal e := by
  have hmask : ~~~mapEntryLbaMask = 3221225472 := by decide
  have htoNat : (e &&& ~~~mapEntryLbaMask).toNat = e.toNat &&& 3221225472 := by
    rw [hmask, UInt32.toNat_and]
    rfl
  have hlow : (e.toNat &&& 3221225472) % 2 ^ 30 = 0 := by
    rw [Nat.and_mod_two_pow]
    exact Nat.and_zero _
  have hhigh : (e.toNat &&& 3221225472) / 2 ^ 30 ≤ 3 := by
    rw [← Nat.shiftRight_eq_div_pow, Nat.shiftRight_and_distrib]
    exact Nat.and_le_right
  have hnat := Nat.div_add_mod (e.toNat &&& 3221225472) (2 ^ 30)
  rw [hlow, Nat.add_zero] at hnat
  rw [mapEntryIsError, mapEntryIsZeroOrInitial, Bool.or_eq_true, decide_eq_true_eq,
    decide_eq_true_eq, decide_eq_true_eq, ← UInt32.toNat_inj, ← UInt32.toNat_inj,
    ← UInt32.toNat_inj, htoNat] at h
  rw [IsNormal, ← UInt32.toNat_inj, htoNat]
  have herror : mapEntryError.toNat = 1 * 2 ^ 30 := by decide
  have hzero : mapEntryZero.toNat = 2 * 2 ^ 30 := by decide
  have hnormal : mapEntryNormal.toNat = 3 * 2 ^ 30 := by decide
  have hinitial : (0 : UInt32).toNat = 0 := rfl
  omega

theorem IsNormal.eq_or (h : IsNormal e) :
    e = (e &&& mapEntryLbaMask) ||| mapEntryNormal := by
  have hmask : mapEntryLbaMask ||| ~~~mapEntryLbaMask = -1 := by decide
  rw [← h, UInt32.and_comm e, UInt32.and_comm e, ← and_or_distrib_right, hmask, UInt32.and_comm,
    UInt32.and_neg_one]

section Steps

variable {look : Nat → Option (Nat × UInt32)} {s s' : Shared lbasize} {x x' : Registers lbasize}
  {own own' : Nat → Nat ⊕ UInt32 → UInt32} {lane : Nat}

theorem Shared.Protected.step (h : s.Protected) (hpcs : ∀ l, l ≠ lane → s'.pc l = s.pc l)
    (hblock : ∀ a l, l ≠ lane → block (s'.ns.arena a) (.inl l) = block (s.ns.arena a) (.inl l))
    (hreader : ∀ a i e buf copied, s'.pc lane = .readData a i e buf copied →
      ∀ l, l ≠ lane → (s.pc l).PastScan a lane →
        block (s.ns.arena a) (.inl l) ≠ e &&& mapEntryLbaMask)
    (hwriter : ∀ r a i e buf copied, r ≠ lane → s.pc r = .readData a i e buf copied →
      (s'.pc lane).PastScan a r →
        block (s'.ns.arena a) (.inl lane) ≠ e &&& mapEntryLbaMask) : s'.Protected := by
  intro r a i e buf copied hr l hl
  by_cases hr' : r = lane
  · subst hr'
    by_cases hl' : l = r
    · rw [hl', hr] at hl
      exact hl.elim
    · rw [hpcs l hl'] at hl
      rw [hblock a l hl']
      exact hreader a i e buf copied hr l hl' hl
  · rw [hpcs r hr'] at hr
    by_cases hl' : l = lane
    · subst hl'
      exact hwriter r a i e buf copied hr' hr hl
    · rw [hpcs l hl'] at hl
      rw [hblock a l hl']
      exact h r a i e buf copied hr l hl

section

variable (h : s.Tracked nfree nlba look own x)

include h

theorem Shared.Tracked.step (hup : s'.Up nfree nlba own') (hframe : Frame nfree lane s s')
    (hlater : ∀ l, l ≠ lane → x.Later look l x') (hrtt : ∀ a l, l ≠ lane → s'.rtt a l = s.rtt a l)
    (hdata : ∀ a b l, l ≠ lane → (s.pc l).Uses a b →
      (s'.ns.arena a).data b = (s.ns.arena a).data b)
    (hcontents : s'.Contents look x') (hprotect : s'.Protected)
    (hpc : (s'.pc lane).Tracks look s' x' lane) : s'.Tracked nfree nlba look own' x' := by
  refine ⟨hup, fun lba => ?_, hcontents, hprotect, fun l => ?_⟩
  · rw [hframe.info.lookup]
    exact h.lookup lba
  · by_cases hl : l = lane
    · rw [hl]
      exact hpc
    · rw [hframe.pc l hl]
      exact (h.pc l).frame (hlater l hl) (fun a => hrtt a l hl) fun a b => hdata a b l hl

section

variable (hup : (s.setPc lane pc).Up nfree nlba own)

include hup

theorem Shared.Tracked.setPc (hpc : pc.Tracks look s x lane)
    (hreader : ∀ a i e buf copied, pc = .readData a i e buf copied →
      ∀ l, l ≠ lane → (s.pc l).PastScan a lane →
        block (s.ns.arena a) (.inl l) ≠ e &&& mapEntryLbaMask)
    (hwriter : ∀ r a i e buf copied, r ≠ lane → s.pc r = .readData a i e buf copied →
      pc.PastScan a r → block (s.ns.arena a) (.inl lane) ≠ e &&& mapEntryLbaMask) :
    (s.setPc lane pc).Tracked nfree nlba look own x := by
  have hframe : Frame nfree lane s (s.setPc lane pc) := Frame.setPc s lane pc
  refine h.step hup hframe (fun l _ => .refl look l x) (fun _ _ _ => rfl) (fun _ _ _ _ _ => rfl)
    h.contents (h.protect.step hframe.pc (fun _ _ _ => rfl) ?_ ?_) ?_
  · rw [setPc_pc_self]
    exact hreader
  · rw [setPc_pc_self]
    exact hwriter
  · rw [setPc_pc_self]
    exact hpc.frame (.refl look lane x) (fun _ => rfl) fun _ _ _ => rfl

theorem Shared.Tracked.leave (hpc : pc.Tracks look s x lane)
    (hread : ∀ a i e buf copied, pc ≠ .readData a i e buf copied)
    (hwrite : ∀ a r, ¬ pc.PastScan a r) : (s.setPc lane pc).Tracked nfree nlba look own x :=
  h.setPc hup hpc (fun a i e buf copied heq => absurd heq (hread a i e buf copied))
    fun r a _ _ _ _ _ _ hpast => absurd hpast (hwrite a r)

theorem Shared.Tracked.keep (hpc : pc.Tracks look s x lane)
    (hread : ∀ a i e buf copied, pc ≠ .readData a i e buf copied)
    (hwrite : ∀ a r, pc.PastScan a r → (s.pc lane).PastScan a r) :
    (s.setPc lane pc).Tracked nfree nlba look own x :=
  h.setPc hup hpc (fun a i e buf copied heq => absurd heq (hread a i e buf copied))
    fun r a i e buf copied _ hr hpast => h.protect r a i e buf copied hr lane (hwrite a r hpast)

end

theorem Shared.Tracked.saw (hreads : x.Reads look lane a i) :
    x.Saw lane (readEntry (s.ns.arena a) ((s.ns.arena a).map i)) := by
  obtain ⟨lba, seen, hlook, hreading, hmem⟩ := hreads
  rw [← h.contents lba a i hlook] at hmem
  exact ⟨lba, seen, hreading, hmem⟩

end

theorem readEntry_of_error (m : ArenaMedia lbasize) (h : mapEntryIsError e = true) :
    readEntry m e = .eio := if_pos h

theorem readEntry_of_zeroOrInitial (m : ArenaMedia lbasize)
    (h : mapEntryIsError e ≠ true) (h' : mapEntryIsZeroOrInitial e = true) :
    readEntry m e = .block zeroBlock := by
  rw [readEntry, if_neg h, if_pos h']

theorem Shared.Tracked.readLoop (h : s.Tracked nfree nlba look own x)
    (hreads : x.Reads look lane a i) :
    (Pc.readLoop a i ((s.ns.arena a).map i)).Tracks look s x lane := by
  refine ⟨hreads, fun he => ?_, fun he he' => ?_⟩
  · rw [← readEntry_of_error (s.ns.arena a) he]
    exact h.saw hreads
  · rw [← readEntry_of_zeroOrInitial (s.ns.arena a) he he']
    exact h.saw hreads

/-- Once the map entry is found unchanged, no writer has the block and is past the reader. -/
theorem Shared.Tracked.protects (h : s.Tracked nfree nlba look own x)
    (hat : s.At nfree nlba lane a i) (hnormal : IsNormal e) (hmap : e = (s.ns.arena a).map i)
    {l : Nat} (hpast : (s.pc l).PastScan a lane) :
    block (s.ns.arena a) (.inl l) ≠ e &&& mapEntryLbaMask := by
  have hentry : mapEntry (s.ns.arena a) i = e := by
    rw [mapEntry, ← hmap, if_neg]
    rw [not_initial_of_flags hnormal (by decide)]
    exact Bool.false_ne_true
  have hok := h.up.pc l
  have hl : l < nfree ∧ l ∉ s.ahead a := by
    have hmem : l ∈ s.ahead a ↔ (s.pc l).aheadIn = some a := Iff.rfl
    rw [hmem]
    cases hpc : s.pc l with
    | scan a' i' f buf n =>
      rw [hpc] at hok
      exact ⟨AtLba.lane_lt_nfree hok.1, fun hnone => by cases hnone⟩
    | writeData a' i' f buf copied =>
      rw [hpc] at hok
      exact ⟨AtLba.lane_lt_nfree hok.1, fun hnone => by cases hnone⟩
    | mapLock a' i' job =>
      rw [hpc] at hok
      exact ⟨AtLba.lane_lt_nfree hok.1, fun hnone => by cases hnone⟩
    | mapRead a' i' job =>
      rw [hpc] at hok
      exact ⟨AtLba.lane_lt_nfree hok.1, fun hnone => by cases hnone⟩
    | flogHead a' i' f old =>
      rw [hpc] at hok
      exact ⟨AtLba.lane_lt_nfree hok.1, fun hnone => by cases hnone⟩
    | flogTail a' i' f old =>
      rw [hpc] at hok
      exact ⟨AtLba.lane_lt_nfree hok.1, fun hnone => by cases hnone⟩
    | _ =>
      rw [hpc] at hpast
      exact hpast.elim
  have hne := (h.up.owned a hat.arena).mapEntry_ne_lane hl.1 hl.2 hat.external
  rw [hentry] at hne
  exact hne.symm

end Steps

end Pmdk.Btt
