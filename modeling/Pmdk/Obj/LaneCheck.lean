import Mathlib.Data.UInt
import Pmdk.Obj.UlogEntry

/-!
# The check of the lanes

`lane_check` walks over the redo logs of the lanes before a pool is opened, and
`lane_recover_and_section_boot` applies the entries of those that need recovery. The check looks at
the internal redo logs only, and when it finds a bad entry it returns a variable that is still zero.

Offsets into the pool stand for pointers. The loops over the entries may not end, so they take fuel.
-/

namespace Pmdk.LaneCheck

open Bytes Checksum List
open UlogEntry (entryType entryOffset)

structure Pool where
  lanesOffset : Nat
  nlanes : Nat
  heapOffset : Nat
  heapSize : Nat
  rootOffset : Nat
  rootSize : Nat
  lanes_pos : 0 < lanesOffset
  heap_pos : 0 < heapOffset
  root_pos : 0 < rootOffset ∧ 0 < rootSize

def sizeofLaneLayout : Nat := 3072

/-- `OBJ_OFF_IS_VALID_FROM_CTX`. -/
def Pool.offIsValid (pop : Pool) (off : Nat) : Bool :=
  (off ≥ pop.heapOffset && off < pop.heapOffset + pop.heapSize) || pop.rootOffset == off ||
    pop.rootSize == off ||
    (off ≥ pop.lanesOffset && off < pop.lanesOffset + pop.nlanes * sizeofLaneLayout)

/-! ## Entries -/

section Entries

variable (m : Bytes) (e : Nat)

def isBuf : Bool := entryType m e = 5 || entryType m e = 6

/-- `ulog_entry_size`; types that are not known have the size zero. -/
def entrySize : Nat :=
  if isBuf m e then UlogEntry.entrySize m e else if entryType m e ≤ 2 then 16 else 0

def entryValid : Bool :=
  if m.loadWord e = 0 then false
  else if isBuf m e then UlogEntry.entryValid m e
  else true

def dstSize : Nat := if isBuf m e then (m.loadWord (e + 16)).toNat else 8

def apply : Bytes :=
  let off := entryOffset m e
  match entryType m e with
  | 0 => m.storeWord off (m.loadWord (e + 8))
  | 1 => m.storeWord off (m.loadWord off &&& m.loadWord (e + 8))
  | 2 => m.storeWord off (m.loadWord off ||| m.loadWord (e + 8))
  | 5 => m.writeBytes off (List.replicate (dstSize m e) (m (e + 24)))
  | 6 => m.writeBytes off (m.readBytes (e + 24) (dstSize m e))
  | _ => m

theorem apply_of_not_mem {x : Nat}
    (h : ¬ (entryOffset m e ≤ x ∧ x < entryOffset m e + dstSize m e)) : apply m e x = m x := by
  have hword : ¬ isBuf m e → ∀ w, m.storeWord (entryOffset m e) w x = m x := fun hbuf w => by
    rw [dstSize, if_neg hbuf] at h
    exact if_neg h
  have hbytes : ∀ bs : List UInt8, bs.length = dstSize m e →
      m.writeBytes (entryOffset m e) bs x = m x := fun bs hlen =>
    writeBytes_of_not_mem m (by omega)
  generalize hm : apply m e = m'
  unfold apply at hm
  split at hm
  case h_1 htype => exact hm ▸ hword (by simp [isBuf, htype]) _
  case h_2 htype => exact hm ▸ hword (by simp [isBuf, htype]) _
  case h_3 htype => exact hm ▸ hword (by simp [isBuf, htype]) _
  case h_4 => exact hm ▸ hbytes _ length_replicate
  case h_5 => exact hm ▸ hbytes _ (length_readBytes _ _ _)
  case h_6 => rw [hm]

end Entries

/-! ## The loops -/

def capacity (m : Bytes) (r : Nat) : Nat := (m.loadWord (r + 16)).toNat

def ulogNext (m : Bytes) (r : Nat) : Option Nat :=
  if m.loadWord (r + 8) = 0 then none
  else some (((m.loadWord (r + 8)).toNat + 63) % 2 ^ 64 / 64 * 64)

/-- What the loops of `ulog_foreach_entry` find at an offset of a log. -/
inductive Turn
  | stop
  | entry (e : Nat)
  | next (r : Nat)
  deriving DecidableEq

def turn (m : Bytes) (r off : Nat) : Turn :=
  if off < capacity m r then
    if entryValid m (r + 64 + off) then .entry (r + 64 + off) else .stop
  else match ulogNext m r with
    | none => .stop
    | some r' => .next r'

/-- `ulog_foreach_entry`: the state that the callback leaves, and whether it returned zero each
time, if the loops end. -/
def foreachEntry {σ : Type} (mem : σ → Bytes) (cb : Nat → σ → σ × Bool) :
    Nat → Nat → Nat → σ → σ × Option Bool
  | 0, _, _, s => (s, none)
  | fuel + 1, r, off, s =>
    match turn (mem s) r off with
    | .stop => (s, some true)
    | .next r' => foreachEntry mem cb fuel r' 0 s
    | .entry e =>
      match cb e s with
      | (s, false) => (s, some false)
      | (s, true) => foreachEntry mem cb fuel r ((off + entrySize (mem s) e) % 2 ^ 64) s

def ulogCheckEntry (pop : Pool) (e : Nat) (m : Bytes) : Bytes × Bool :=
  (m, pop.offIsValid (entryOffset m e) && entryOffset m e != 0)

def ulogCheck (pop : Pool) (fuel : Nat) (m : Bytes) (r : Nat) : Option Bool :=
  (foreachEntry id (ulogCheckEntry pop) fuel r 0 m).2

structure Recovery where
  mem : Bytes
  applied : List Nat

def ulogProcessEntry (e : Nat) (s : Recovery) : Recovery × Bool :=
  (⟨apply s.mem e, s.applied ++ [entryOffset s.mem e]⟩, true)

def ulogBaseNbytes (m : Bytes) (r : Nat) : Nat → Nat → Option Nat
  | 0, _ => none
  | fuel + 1, off =>
    if off < capacity m r ∧ entryValid m (r + 64 + off) then
      ulogBaseNbytes m r fuel ((off + entrySize m (r + 64 + off)) % 2 ^ 64)
    else some off

/-- `ulog_recovery_needed` with the checksum. -/
def ulogRecoveryNeeded (fuel : Nat) (m : Bytes) (r : Nat) : Option Bool :=
  (ulogBaseNbytes m r fuel 0).map fun nbytes =>
    let nbytes := min nbytes (capacity m r)
    nbytes ≠ 0 && utilChecksum (m.readBytes r (64 + nbytes)) 0 = m.loadWord r

/-- `ulog_clobber`, which keeps the `next` of the log. -/
def ulogClobber (m : Bytes) (r : Nat) : Bytes :=
  (m.writeBytes r (List.replicate 8 0)).writeBytes (r + 16) (List.replicate 48 0)

/-- `ulog_recover`, and whether it returns. -/
def ulogRecover (fuel r : Nat) (s : Recovery) : Recovery × Bool :=
  match ulogRecoveryNeeded fuel s.mem r with
  | none => (s, false)
  | some false => (s, true)
  | some true =>
    match foreachEntry Recovery.mem ulogProcessEntry fuel r 0 s with
    | (s, none) => (s, false)
    | (s, some _) => ({ s with mem := ulogClobber s.mem r }, true)

def Pool.internal (pop : Pool) (i : Nat) : Nat := pop.lanesOffset + sizeofLaneLayout * i

def Pool.external (pop : Pool) (i : Nat) : Nat := pop.internal i + 256

def Pool.redoLogs (pop : Pool) : List Nat :=
  (List.range pop.nlanes).flatMap fun i => [pop.internal i, pop.external i]

def recoverLoop (fuel : Nat) : List Nat → Recovery → Recovery × Bool
  | [], s => (s, true)
  | r :: rs, s =>
    match ulogRecover fuel r s with
    | (s, false) => (s, false)
    | (s, true) => recoverLoop fuel rs s

/-- `lane_check`. When `ulog_check` fails it returns `err`, which nobody has set. -/
def laneCheck (fuel : Nat) (pop : Pool) (m : Bytes) : Option Int :=
  let err := 0
  ((List.range pop.nlanes).foldr (fun i rest =>
    match ulogCheck pop fuel m (pop.internal i) with
    | none => none
    | some false => some err
    | some true => rest) (some 0))

variable {fuel : Nat}

theorem laneCheck_eq_zero {pop : Pool} {m : Bytes} {ret : Int}
    (h : laneCheck fuel pop m = some ret) : ret = 0 := by
  unfold laneCheck at h
  dsimp only at h
  generalize List.range pop.nlanes = lanes at h
  induction lanes with
  | nil => exact (Option.some.inj h).symm
  | cons i is ih =>
    rw [foldr_cons] at h
    split at h
    · cases h
    · exact (Option.some.inj h).symm
    · exact ih h

/-! ## What the loops read -/

/-- The places that the loops of `ulog_foreach_entry` come to in a memory that does not change. -/
inductive Visits (m : Bytes) (r₀ : Nat) : Nat → Nat → Prop
  | start : Visits m r₀ r₀ 0
  | next {r off r' : Nat} : Visits m r₀ r off → turn m r off = .next r' → Visits m r₀ r' 0
  | entry {r off e : Nat} : Visits m r₀ r off → turn m r off = .entry e →
      Visits m r₀ r ((off + entrySize m e) % 2 ^ 64)

def Reads (m : Bytes) (r off x : Nat) : Prop :=
  (r + 8 ≤ x ∧ x < r + 24) ∨ (off < capacity m r ∧ r + 64 + off ≤ x ∧
    x < r + 64 + off + if isBuf m (r + 64 + off) then max 24 (entrySize m (r + 64 + off)) else 16)

variable {m' : Bytes} {r off : Nat}

theorem loadWord_congr {m : Bytes} {a : Nat} (h : ∀ x, a ≤ x → x < a + 8 → m' x = m x) :
    m'.loadWord a = m.loadWord a := by
  unfold loadWord
  rw [h (a + 7) (by omega) (by omega), h (a + 6) (by omega) (by omega),
    h (a + 5) (by omega) (by omega), h (a + 4) (by omega) (by omega),
    h (a + 3) (by omega) (by omega), h (a + 2) (by omega) (by omega),
    h (a + 1) (by omega) (by omega), h a (by omega) (by omega)]

theorem readBytes_congr {m : Bytes} {a n : Nat} (h : ∀ x, a ≤ x → x < a + n → m' x = m x) :
    m'.readBytes a n = m.readBytes a n := by
  refine map_congr_left fun i hi => h _ (by omega) ?_
  have := mem_range.mp hi
  omega

theorem turn_congr {m : Bytes} (h : ∀ x, Reads m r off x → m' x = m x) :
    turn m' r off = turn m r off ∧ ∀ e, turn m r off = .entry e →
      entrySize m' e = entrySize m e ∧ entryOffset m' e = entryOffset m e ∧
        dstSize m' e = dstSize m e := by
  have hnext : ulogNext m' r = ulogNext m r := by
    rw [ulogNext, loadWord_congr fun x hx hx' => h x (.inl ⟨by omega, by omega⟩)]
    rfl
  have hcap : capacity m' r = capacity m r :=
    congrArg UInt64.toNat (loadWord_congr fun x hx hx' => h x (.inl ⟨by omega, by omega⟩))
  unfold turn
  rw [hnext, hcap]
  by_cases hoff : off < capacity m r
  · rw [if_pos hoff, if_pos hoff]
    generalize hentry : r + 64 + off = e at h
    have hread : ∀ x, e ≤ x → x < e + (if isBuf m e then max 24 (entrySize m e) else 16) →
        m' x = m x := fun x hx hx' => h x (.inr (by rw [hentry]; exact ⟨hoff, hx, hx'⟩))
    have hfirst : m'.loadWord e = m.loadWord e :=
      loadWord_congr fun x hx hx' => hread x hx (by split <;> omega)
    have htype : entryType m' e = entryType m e := by rw [entryType, hfirst, entryType]
    have hbuf : isBuf m' e = isBuf m e := by rw [isBuf, htype, isBuf]
    have hoffset : entryOffset m' e = entryOffset m e := by rw [entryOffset, hfirst, entryOffset]
    cases hisBuf : isBuf m e with
    | false =>
      have hvalid : entryValid m' e = entryValid m e := by
        rw [entryValid, entryValid, hfirst, hbuf, hisBuf]
        rfl
      have hsize : entrySize m' e = entrySize m e := by
        rw [entrySize, entrySize, hbuf, hisBuf, htype]
        rfl
      rw [hvalid]
      refine ⟨rfl, fun e' he' => ?_⟩
      split at he'
      · obtain rfl := Turn.entry.inj he'
        exact ⟨hsize, hoffset, by rw [dstSize, dstSize, hbuf, hisBuf]; rfl⟩
      · cases he'
    | true =>
      rw [hisBuf, if_pos rfl] at hread
      have hsize' : UlogEntry.entrySize m' e = UlogEntry.entrySize m e := by
        rw [UlogEntry.entrySize, loadWord_congr fun x hx hx' => hread x (by omega) (by omega)]
        rfl
      have hsize : entrySize m e = UlogEntry.entrySize m e := by rw [entrySize, if_pos hisBuf]
      have hvalid : entryValid m' e = entryValid m e := by
        rw [entryValid, entryValid, hfirst, hbuf, hisBuf, UlogEntry.entryValid,
          UlogEntry.entryValid, hfirst, hsize',
          readBytes_congr fun x hx hx' => hread x hx (by omega),
          loadWord_congr (a := e + 8) fun x hx hx' => hread x (by omega) (by omega)]
      rw [hvalid]
      refine ⟨rfl, fun e' he' => ?_⟩
      split at he'
      · obtain rfl := Turn.entry.inj he'
        rw [entrySize, hbuf, hisBuf, if_pos rfl, hsize', ← hsize]
        refine ⟨rfl, hoffset, ?_⟩
        rw [dstSize, dstSize, hbuf, loadWord_congr (a := e + 16) fun x hx hx' =>
          hread x (by omega) (by omega)]
      · cases he'
  · rw [if_neg hoff, if_neg hoff]
    refine ⟨rfl, fun e he => ?_⟩
    split at he <;> cases he

def Apart (m : Bytes) (r₀ : Nat) : Prop :=
  ∀ r off e, Visits m r₀ r off → turn m r off = .entry e →
    ∀ x, entryOffset m e ≤ x → x < entryOffset m e + dstSize m e →
      ∀ r' off', Visits m r₀ r' off' → ¬ Reads m r' off' x

/-! ## The loops on a memory that changes -/

variable {s' : Recovery}

section Follow

variable {σ : Type} {mem : σ → Bytes} {cb : Nat → σ → σ × Bool}

theorem foreachEntry_mono {s s' : σ} {ok : Bool}
    (h : foreachEntry mem cb fuel r off s = (s', some ok)) (k : Nat) :
    foreachEntry mem cb (fuel + k) r off s = (s', some ok) := by
  induction fuel generalizing r off s with
  | zero => cases h
  | succ fuel ih =>
    rw [Nat.add_right_comm, foreachEntry]
    rw [foreachEntry] at h
    cases hturn : turn (mem s) r off with
    | stop => rwa [hturn] at h
    | next r' =>
      rw [hturn] at h
      exact ih h
    | entry e =>
      rw [hturn] at h
      dsimp only at h ⊢
      rcases hcb : cb e s with ⟨s₁, _ | _⟩
      · rwa [hcb] at h
      · rw [hcb] at h
        exact ih h

def Agrees (m : Bytes) (r₀ : Nat) (m' : Bytes) : Prop :=
  ∀ r off, Visits m r₀ r off → ∀ x, Reads m r off x → m' x = m x

variable {m : Bytes} {r₀ : Nat} {I : σ → Prop} (hagree : ∀ s, I s → Agrees m r₀ (mem s))
  (hcb : ∀ s r off e, I s → Visits m r₀ r off → turn m r off = .entry e → I (cb e s).1)
include hagree hcb

theorem foreachEntry_follows {s₀ : σ} (hs₀ : I s₀) (hv : Visits m r₀ r off) :
    (∃ k s, foreachEntry mem cb k r₀ 0 s₀ = (s, some false)) ∨
      ∃ k s, I s ∧ ∀ fuel, foreachEntry mem cb (fuel + k) r₀ 0 s₀ =
        foreachEntry mem cb fuel r off s := by
  induction hv with
  | start => exact .inr ⟨0, s₀, hs₀, fun _ => rfl⟩
  | @next r off r' hv hturn ih =>
    refine ih.imp_right fun ⟨k, s, hs, heq⟩ => ⟨k + 1, s, hs, fun fuel => ?_⟩
    rw [← Nat.add_assoc, Nat.add_right_comm, heq, foreachEntry,
      (turn_congr (hagree s hs r off hv)).1, hturn]
  | @entry r off e hv hturn ih =>
    rcases ih with hfail | ⟨k, s, hs, heq⟩
    · exact .inl hfail
    · have hsame := turn_congr (hagree s hs r off hv)
      rcases hres : cb e s with ⟨s₁, _ | _⟩
      · refine .inl ⟨1 + k, s₁, ?_⟩
        rw [heq, foreachEntry, hsame.1, hturn]
        dsimp only
        rw [hres]
      · have hs₁ : I s₁ := by
          have hkeep := hcb s r off e hs hv hturn
          rwa [hres] at hkeep
        refine .inr ⟨k + 1, s₁, hs₁, fun fuel => ?_⟩
        rw [← Nat.add_assoc, Nat.add_right_comm, heq, foreachEntry, hsame.1, hturn]
        dsimp only
        rw [hres, ← ((turn_congr (hagree s₁ hs₁ r off hv)).2 e hturn).1]

theorem foreachEntry_inv (fuel : Nat) (hv : Visits m r₀ r off) {s : σ} (hs : I s) :
    I (foreachEntry mem cb fuel r off s).1 ∧
      ((foreachEntry mem cb fuel r off s).2 = some false →
        ∃ r' off' e s', Visits m r₀ r' off' ∧ turn m r' off' = .entry e ∧ I s' ∧
          (cb e s').2 = false) := by
  induction fuel generalizing r off s with
  | zero => exact ⟨hs, nofun⟩
  | succ fuel ih =>
    rw [foreachEntry, (turn_congr (hagree s hs r off hv)).1]
    cases hturn : turn m r off with
    | stop => exact ⟨hs, nofun⟩
    | next r' => exact ih (.next hv hturn) hs
    | entry e =>
      have hkeep := hcb s r off e hs hv hturn
      dsimp only
      rcases hres : cb e s with ⟨s₁, _ | _⟩
      · rw [hres] at hkeep
        exact ⟨hkeep, fun _ => ⟨r, off, e, s, hv, hturn, hs, by rw [hres]⟩⟩
      · rw [hres] at hkeep
        dsimp only
        rw [((turn_congr (hagree s₁ hkeep r off hv)).2 e hturn).1]
        exact ih (.entry hv hturn) hkeep

end Follow

def Accepted (pop : Pool) (m : Bytes) (r₀ : Nat) : Prop :=
  ∀ r off e, Visits m r₀ r off → turn m r off = .entry e → pop.offIsValid (entryOffset m e) = true

theorem Pool.offIsValid_pos {pop : Pool} (h : pop.offIsValid off = true) : off ≠ 0 := by
  rintro rfl
  have hlanes := pop.lanes_pos
  have hheap := pop.heap_pos
  have hroot := pop.root_pos
  simp [Pool.offIsValid] at h
  omega

theorem ulogCheck_iff {pop : Pool} {m : Bytes} {r₀ : Nat} :
    (∀ fuel, ulogCheck pop fuel m r₀ ≠ some false) ↔ Accepted pop m r₀ := by
  have hagree : ∀ s : Bytes, s = m → Agrees m r₀ (id s) := fun s hs _ _ _ _ _ => by rw [hs]; rfl
  have hcb : ∀ (s : Bytes) (r off e : Nat), s = m → Visits m r₀ r off → turn m r off = .entry e →
      (ulogCheckEntry pop e s).1 = m := fun s _ _ _ hs _ _ => hs
  constructor
  · intro h r off e hv hturn
    rcases foreachEntry_follows hagree hcb rfl hv with ⟨k, s, hfail⟩ | ⟨k, s, rfl, heq⟩
    · exact absurd (congrArg Prod.snd hfail) (h k)
    · by_contra hbad
      refine h (1 + k) ?_
      rw [ulogCheck, heq, foreachEntry, id, hturn]
      dsimp only [ulogCheckEntry]
      rw [Bool.eq_false_iff.mpr hbad]
      rfl
  · intro h fuel hfail
    obtain ⟨r, off, e, s, hv, hturn, rfl, hbad⟩ :=
      (foreachEntry_inv hagree hcb fuel .start rfl).2 hfail
    have haccepted := h r off e hv hturn
    rw [ulogCheckEntry, haccepted, Bool.true_and, bne_eq_false_iff_eq] at hbad
    exact Pool.offIsValid_pos haccepted hbad

section Process

variable {pop : Pool} {s : Recovery} {r₀ : Nat} (hapart : Apart s.mem r₀)
include hapart

theorem agrees_apply (h : Agrees s.mem r₀ m') {e : Nat}
    (hv : Visits s.mem r₀ r off) (hturn : turn s.mem r off = .entry e) :
    Agrees s.mem r₀ (apply m' e) := by
  intro r' off' hv' x hx
  obtain ⟨-, hoffset, hsize⟩ := (turn_congr (h r off hv)).2 e hturn
  rw [apply_of_not_mem, h r' off' hv' x hx]
  rw [hoffset, hsize]
  exact fun hmem => hapart r off e hv hturn x hmem.1 hmem.2 r' off' hv' hx

/-- `ulog_process` of a chain that is not changed applies the entries that `ulog_check` looks at. -/
theorem process_accepted (hacc : Accepted pop s.mem r₀) (fuel : Nat) :
    ∀ off ∈ (foreachEntry Recovery.mem ulogProcessEntry fuel r₀ 0 s).1.applied,
      off ∈ s.applied ∨ pop.offIsValid off = true := by
  refine (foreachEntry_inv (I := fun t : Recovery => Agrees s.mem r₀ t.mem ∧
    ∀ off ∈ t.applied, off ∈ s.applied ∨ pop.offIsValid off = true) (fun _ h => h.1)
    (fun t r off e ht hv hturn => ⟨agrees_apply hapart ht.1 hv hturn, fun off' hoff' => ?_⟩)
    fuel .start ⟨fun _ _ _ _ _ => rfl, fun _ => .inl⟩).1.2
  rcases mem_append.mp hoff' with hold | hnew
  · exact ht.2 off' hold
  · rw [mem_singleton.mp hnew, ((turn_congr (ht.1 r off hv)).2 e hturn).2.1]
    exact .inr (hacc r off e hv hturn)

theorem accepted_of_process (h : ∀ fuel,
    ∀ off ∈ (foreachEntry Recovery.mem ulogProcessEntry fuel r₀ 0 s).1.applied,
      pop.offIsValid off = true) : Accepted pop s.mem r₀ := by
  intro r off e hv hturn
  have hagree : ∀ t : Recovery, Agrees s.mem r₀ t.mem → Agrees s.mem r₀ t.mem := fun _ => id
  have hcb : ∀ (t : Recovery) (r off e : Nat), Agrees s.mem r₀ t.mem → Visits s.mem r₀ r off →
      turn s.mem r off = .entry e → Agrees s.mem r₀ (ulogProcessEntry e t).1.mem :=
    fun t r off e ht hv hturn => agrees_apply hapart ht hv hturn
  have hself : Agrees s.mem r₀ s.mem := fun _ _ _ _ _ => rfl
  rcases foreachEntry_follows (I := fun t : Recovery => Agrees s.mem r₀ t.mem) hagree hcb hself hv
    with ⟨k, t, hfail⟩ | ⟨k, t, ht, heq⟩
  · obtain ⟨_, _, _, _, _, _, _, hbad⟩ :=
      (foreachEntry_inv (I := fun t : Recovery => Agrees s.mem r₀ t.mem) hagree hcb k .start
        hself).2 (congrArg Prod.snd hfail)
    cases hbad
  · have hsame := turn_congr (ht r off hv)
    refine h (1 + k) _ ?_
    rw [heq, foreachEntry, hsame.1, hturn]
    exact mem_append_right _ (mem_singleton.mpr ((hsame.2 e hturn).2.1).symm)

end Process

/-! ## Recovery -/

theorem ulogBaseNbytes_mono {m : Bytes} {n : Nat} (h : ulogBaseNbytes m r fuel off = some n)
    (k : Nat) : ulogBaseNbytes m r (fuel + k) off = some n := by
  induction fuel generalizing off with
  | zero => cases h
  | succ fuel ih =>
    rw [Nat.add_right_comm, ulogBaseNbytes]
    rw [ulogBaseNbytes] at h
    split at h
    · rw [if_pos ‹_›]
      exact ih h
    · rwa [if_neg ‹_›]

theorem ulogRecoveryNeeded_mono {m : Bytes} {b : Bool}
    (h : ulogRecoveryNeeded fuel m r = some b) (k : Nat) :
    ulogRecoveryNeeded (fuel + k) m r = some b := by
  obtain ⟨n, hn, rfl⟩ := Option.map_eq_some_iff.mp h
  rw [ulogRecoveryNeeded, ulogBaseNbytes_mono hn]
  rfl

theorem ulogRecover_mono {s : Recovery} (h : ulogRecover fuel r s = (s', true))
    (k : Nat) : ulogRecover (fuel + k) r s = (s', true) := by
  unfold ulogRecover at h ⊢
  cases hneeded : ulogRecoveryNeeded fuel s.mem r with
  | none =>
    rw [hneeded] at h
    cases h
  | some b =>
    rw [hneeded] at h
    rw [ulogRecoveryNeeded_mono hneeded]
    cases b with
    | false => exact h
    | true =>
      dsimp only at h ⊢
      rcases hloop : foreachEntry Recovery.mem ulogProcessEntry fuel r 0 s with ⟨t, _ | ok⟩
      · rw [hloop] at h
        cases h
      · rw [hloop] at h
        rwa [foreachEntry_mono hloop]

variable {rs : List Nat}

theorem recoverLoop_mono {s : Recovery} (h : recoverLoop fuel rs s = (s', true)) (k : Nat) :
    recoverLoop (fuel + k) rs s = (s', true) := by
  induction rs generalizing s with
  | nil => exact h
  | cons r rs ih =>
    rw [recoverLoop] at h ⊢
    rcases hlog : ulogRecover fuel r s with ⟨t, _ | _⟩
    · rw [hlog] at h
      cases h
    · rw [hlog] at h
      rw [ulogRecover_mono hlog]
      exact ih h

theorem foreachEntry_applied (fuel r off : Nat) (s : Recovery) :
    s.applied ⊆ (foreachEntry Recovery.mem ulogProcessEntry fuel r off s).1.applied := by
  induction fuel generalizing r off s with
  | zero => exact List.Subset.refl _
  | succ fuel ih =>
    rw [foreachEntry]
    split
    · exact List.Subset.refl _
    · exact ih _ _ _
    · exact List.Subset.trans (subset_append_left _ _) (ih r _ (ulogProcessEntry _ s).1)

theorem foreachEntry_applied_mono (fuel k r off : Nat) (s : Recovery) :
    (foreachEntry Recovery.mem ulogProcessEntry fuel r off s).1.applied ⊆
      (foreachEntry Recovery.mem ulogProcessEntry (fuel + k) r off s).1.applied := by
  induction fuel generalizing r off s with
  | zero => exact foreachEntry_applied _ r off s
  | succ fuel ih =>
    rw [Nat.add_right_comm, foreachEntry, foreachEntry]
    split
    · exact List.Subset.refl _
    · exact ih _ _ _
    · exact ih _ _ _

theorem ulogRecover_applied (fuel r : Nat) (s : Recovery) :
    s.applied ⊆ (ulogRecover fuel r s).1.applied := by
  unfold ulogRecover
  split
  · exact List.Subset.refl _
  · exact List.Subset.refl _
  · have hloop := foreachEntry_applied fuel r 0 s
    split <;> rename_i heq <;> rw [heq] at hloop <;> exact hloop

theorem recoverLoop_applied (fuel : Nat) (rs : List Nat) (s : Recovery) :
    s.applied ⊆ (recoverLoop fuel rs s).1.applied := by
  induction rs generalizing s with
  | nil => exact List.Subset.refl _
  | cons r rs ih =>
    rw [recoverLoop]
    have hlog := ulogRecover_applied fuel r s
    split <;> rename_i heq <;> rw [heq] at hlog
    · exact hlog
    · exact List.Subset.trans hlog (ih _)

/-- Recovery comes to the log `r` in the state `s'` and processes it. -/
def Processes (rs : List Nat) (s : Recovery) (r : Nat) (s' : Recovery) : Prop :=
  ∃ fuel before after, rs = before ++ r :: after ∧ recoverLoop fuel before s = (s', true) ∧
    ulogRecoveryNeeded fuel s'.mem r = some true

theorem Processes.cons {s t : Recovery} (ht : ulogRecover fuel r s = (t, true)) {r' : Nat}
    (h : Processes rs t r' s') : Processes (r :: rs) s r' s' := by
  obtain ⟨fuel', before, after, rfl, hrun, hneeded⟩ := h
  refine ⟨fuel + fuel', r :: before, after, rfl, ?_, ?_⟩
  · rw [recoverLoop, ulogRecover_mono ht]
    dsimp only
    rw [Nat.add_comm]
    exact recoverLoop_mono hrun fuel
  · rw [Nat.add_comm]
    exact ulogRecoveryNeeded_mono hneeded fuel

/-- If the logs that are processed are accepted, so is all that is applied. -/
theorem recoverLoop_accepted {pop : Pool} {s : Recovery}
    (h : ∀ r s', Processes rs s r s' → Apart s'.mem r ∧ Accepted pop s'.mem r) :
    ∀ off ∈ (recoverLoop fuel rs s).1.applied, off ∈ s.applied ∨ pop.offIsValid off = true := by
  induction rs generalizing s with
  | nil => exact fun _ => .inl
  | cons r rs ih =>
    have hlog : ∀ off ∈ (ulogRecover fuel r s).1.applied,
        off ∈ s.applied ∨ pop.offIsValid off = true := by
      unfold ulogRecover
      split
      · exact fun _ => .inl
      · exact fun _ => .inl
      · rename_i hneeded
        obtain ⟨hapart, hacc⟩ := h r s ⟨fuel, [], rs, rfl, rfl, hneeded⟩
        have hloop := process_accepted hapart hacc fuel
        split <;> rename_i heq <;> rw [heq] at hloop <;> exact hloop
    intro off hoff
    rw [recoverLoop] at hoff
    rcases heq : ulogRecover fuel r s with ⟨t, _ | _⟩
    · rw [heq] at hoff hlog
      exact hlog off hoff
    · rw [heq] at hoff hlog
      rcases ih (fun r' s' hs' => h r' s' (hs'.cons heq)) off hoff with hold | hnew
      · exact hlog off hold
      · exact .inr hnew

theorem Processes.applied {s : Recovery} (h : Processes rs s r s')
    (k : Nat) : ∃ fuel, (foreachEntry Recovery.mem ulogProcessEntry k r 0 s').1.applied ⊆
      (recoverLoop fuel rs s).1.applied := by
  obtain ⟨fuel, before, after, rfl, hrun, hneeded⟩ := h
  refine ⟨fuel + k, ?_⟩
  have hlast : recoverLoop (fuel + k) (before ++ r :: after) s =
      recoverLoop (fuel + k) (r :: after) s' := by
    have hrun' := recoverLoop_mono hrun k
    clear hrun hneeded
    induction before generalizing s with
    | nil => rw [nil_append, (Prod.mk.inj hrun').1]
    | cons r' before ih =>
      rw [cons_append, recoverLoop]
      rw [recoverLoop] at hrun'
      rcases hlog : ulogRecover (fuel + k) r' s with ⟨t, _ | _⟩
      · rw [hlog] at hrun'
        cases hrun'
      · rw [hlog] at hrun'
        exact ih hrun'
  rw [hlast, recoverLoop]
  have hlog : (foreachEntry Recovery.mem ulogProcessEntry k r 0 s').1.applied ⊆
      (ulogRecover (fuel + k) r s').1.applied := by
    rw [ulogRecover, ulogRecoveryNeeded_mono hneeded]
    have hmore := foreachEntry_applied_mono k fuel r 0 s'
    rw [Nat.add_comm] at hmore
    dsimp only
    split <;> rename_i heq <;> rw [heq] at hmore <;> exact hmore
  split <;> rename_i heq <;> rw [heq] at hlog
  · exact hlog
  · exact List.Subset.trans hlog (recoverLoop_applied _ _ _)

/-! ## The check and recovery -/

/-- If `lane_check` returns zero, recovery applies entries for offsets of the pool only. -/
def Covered (pop : Pool) (m : Bytes) : Prop :=
  (∃ fuel, laneCheck fuel pop m = some 0) →
    ∀ fuel, ∀ off ∈ (recoverLoop fuel pop.redoLogs ⟨m, []⟩).1.applied, pop.offIsValid off = true

/-- The check covers recovery if `ulog_check` would accept each log that is processed, and the
entries of the log do not change its chain. Where they do not, and the check returns, it has to. -/
theorem laneCheck_covers (pop : Pool) (m : Bytes) :
    ((∀ r s, Processes pop.redoLogs ⟨m, []⟩ r s →
        Apart s.mem r ∧ ∀ fuel, ulogCheck pop fuel s.mem r ≠ some false) → Covered pop m) ∧
    ((∃ fuel ret, laneCheck fuel pop m = some ret) →
      (∀ r s, Processes pop.redoLogs ⟨m, []⟩ r s → Apart s.mem r) →
      (Covered pop m ↔ ∀ r s, Processes pop.redoLogs ⟨m, []⟩ r s →
        ∀ fuel, ulogCheck pop fuel s.mem r ≠ some false)) := by
  have hcovered : (∀ r s, Processes pop.redoLogs ⟨m, []⟩ r s →
      Apart s.mem r ∧ ∀ fuel, ulogCheck pop fuel s.mem r ≠ some false) → Covered pop m :=
    fun h _ fuel off hoff =>
      (recoverLoop_accepted (fun r s hs => (h r s hs).imp_right ulogCheck_iff.mp) off
        hoff).resolve_left List.not_mem_nil
  refine ⟨hcovered, fun ⟨fuel, ret, hret⟩ hapart => ⟨fun h r s hs => ulogCheck_iff.mpr ?_,
    fun h => hcovered fun r s hs => ⟨hapart r s hs, h r s hs⟩⟩⟩
  refine accepted_of_process (hapart r s hs) fun k off hoff => ?_
  obtain ⟨fuel', hsub⟩ := hs.applied k
  exact h ⟨fuel, laneCheck_eq_zero hret ▸ hret⟩ fuel' off (hsub hoff)

def smallPool : Pool := ⟨8192, 1, 16384, 2 ^ 20, 5152, 5160, by decide, by decide, by decide⟩

def farEntry : Bytes :=
  let m := ((storeWord (fun _ => 0) 8208 192).storeWord 8464 640).storeWord 8256 (2 ^ 40)
  m.storeWord 8192 (utilChecksum (m.readBytes 8192 80) 0)

/-- The check of the internal log fails, `lane_check` returns zero, and the word is written. -/
theorem farEntry_not_covered :
    ulogCheck smallPool 8 farEntry (smallPool.internal 0) = some false ∧
      ¬ Covered smallPool farEntry := by
  refine ⟨by decide +kernel, fun h => ?_⟩
  have happlied : 2 ^ 40 ∈ (recoverLoop 8 smallPool.redoLogs ⟨farEntry, []⟩).1.applied := by
    decide +kernel
  have hvalid := h ⟨8, by decide +kernel⟩ 8 _ happlied
  exact absurd hvalid (by decide +kernel)

end Pmdk.LaneCheck
