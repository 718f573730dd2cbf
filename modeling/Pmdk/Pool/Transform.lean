import Pmdk.Lib.Assign
import Pmdk.Pool.ReplicaTiles
import Mathlib.Algebra.Order.BigOperators.Group.List
import Mathlib.Algebra.BigOperators.Ring.List
import Mathlib.Data.Nat.Find

/-!
# Adding and removing part headers

`replica_transform` turns a local pool set with a header in each part into one with a single header
in each replica, or the other way round. The parts of a replica are mapped twice, and the blocks
behind the first part are moved from one mapping to the other.

`copy_part_fds` gives the descriptors of the input files to the parts of the output set. An
assertion that does not hold, and an access to a page that is not in a file, end the operation
without a result.
-/

namespace Pmdk.Poolset

open Function List

namespace Transform

open Assign (copyAll)
open Sync (alignDown alignUp poolHdrSize)

variable {α : Type*}

/-! ## The operation -/

/-- `compare_replicas`, for local replicas. -/
def compareReplicas (r1 r2 : Replica) : Bool :=
  decide (r1.part.map (fun p => (p.path, p.filesize)) ≠
    r2.part.map fun p => (p.path, p.filesize))

structure CompareStatus where
  inReplica : Nat → Option Nat
  outReplica : Nat → Option Nat

def compareStep (setIn setOut : PoolSet) (s : CompareStatus) (k : Nat × Nat) :
    Option CompareStatus :=
  match setIn.replica[k.1]?, setOut.replica[k.2]? with
  | some repIn, some repOut =>
    if compareReplicas repIn repOut then some s
    else if s.inReplica k.1 ≠ none ∨ s.outReplica k.2 ≠ none then none
    else some ⟨update s.inReplica k.1 (some k.2),
      update s.outReplica k.2 (some k.1)⟩
  | _, _ => some s

def checkComparePoolsetsStatus (setIn setOut : PoolSet) : Option CompareStatus :=
  ((List.range setIn.replica.length).product (List.range setOut.replica.length)).foldlM
    (compareStep setIn setOut) ⟨fun _ => none, fun _ => none⟩

inductive TransformOp
  | notTransformable
  | addReplicas
  | rmReplicas
  | addHdrs
  | rmHdrs
  deriving DecidableEq

def identifyTransformOperation (setIn setOut : PoolSet) (s : CompareStatus) : TransformOp :=
  let isRemoving := (List.range setIn.replica.length).any fun r => (s.inReplica r).isNone
  let isAdding := (List.range setOut.replica.length).any fun r => (s.outReplica r).isNone
  if !(List.range setIn.replica.length).any fun r => (s.inReplica r).isSome then .notTransformable
  else if isAdding && isRemoving then .notTransformable
  else if !isRemoving && !isAdding && setIn.singlehdr == setOut.singlehdr then .notTransformable
  else if (isRemoving || isAdding) && setIn.singlehdr != setOut.singlehdr then .notTransformable
  else if isRemoving then .rmReplicas
  else if isAdding then .addReplicas
  else if setOut.singlehdr then .rmHdrs
  else if setIn.singlehdr then .addHdrs
  else .notTransformable

def transformOperation (setIn setOut : PoolSet) : TransformOp :=
  if setIn.nohdrs || setOut.nohdrs then .notTransformable
  else match checkComparePoolsetsStatus setIn setOut with
    | none => .notTransformable
    | some s => identifyTransformOperation setIn setOut s

/-! ## Two mappings of the same files -/

abbrev Media (α : Type*) := Nat × Nat → α

/-- Where the mapping of the parts from number `p` on has what lies `off` bytes behind its
beginning: the part, and the offset in its file. -/
def locate (align hdrsize : Nat) : Nat → List Part → Nat → Option (Nat × Nat)
  | _, [], _ => none
  | p, part :: rest, off =>
    if off < dataSize align hdrsize part then some (p, hdrsize + off)
    else locate align hdrsize (p + 1) rest (off - dataSize align hdrsize part)

/-- The block that lies `off` bytes behind the beginning of the second part. It must be in the file
that the descriptor of the part stands for. -/
def blockAt (align hdrsize : Nat) (fds : List Part) (rep : Replica) (off : Nat) :
    Option (Nat × Nat) :=
  (locate align hdrsize 1 rep.part.tail off).filter fun l =>
    fds[l.1]?.any fun part => l.2 < alignUp part.filesize align

def readPool (align hdrsize : Nat) (rep : Replica) (m : Media α) (x : Nat) : Option α :=
  match rep.part with
  | [] => none
  | first :: rest =>
    if x < alignDown first.filesize align then some (m (0, x))
    else (locate align hdrsize 1 rest (x - alignDown first.filesize align)).map m

/-! ## Moving the blocks -/

/-- `replica_get_part_data_len` of the first part. -/
def firstDataLen (rep : Replica) : Nat :=
  match rep.part with
  | [] => 0
  | first :: _ => alignDown first.filesize first.alignment - poolHdrSize

def copyLen (poolSize : Nat) (src : Replica) : Nat :=
  (poolSize + 2 ^ 65 - poolHdrSize - firstDataLen src) % 2 ^ 64

def fwOffsets (len : Nat) : List Nat := (List.range (len / poolHdrSize)).map (· * poolHdrSize)

def bwOffsets (len : Nat) : List Nat :=
  (List.range (len / poolHdrSize)).map fun i => len - (i + 1) * poolHdrSize

def copyBlocks (dst src : Nat → Option (Nat × Nat)) (offs : List Nat) (m : Media α) :
    Option (Media α) :=
  offs.foldlM (fun m off => (src off).bind fun s => (dst off).map fun d =>
    update m d (m s)) m

variable (align : Nat) (size : α → Nat)

/-- `copy_replica_data_fw`, where `size` reads the size of the pool from the block behind the first
header. -/
def copyReplicaDataFw (fds : List Part) (setDst setSrc : PoolSet) (dst src : Replica)
    (m : Media α) :
    Option (Media α) :=
  copyBlocks (blockAt align (setDst.hdrsize align) fds dst)
    (blockAt align (setSrc.hdrsize align) fds src)
    (fwOffsets (copyLen (size (m (0, poolHdrSize))) src)) m

def copyReplicaDataBw (fds : List Part) (setDst setSrc : PoolSet) (dst src : Replica)
    (m : Media α) :
    Option (Media α) :=
  copyBlocks (blockAt align (setDst.hdrsize align) fds dst)
    (blockAt align (setSrc.hdrsize align) fds src)
    (bwOffsets (copyLen (size (m (0, poolHdrSize))) src)) m

def storeHdrs (hdr : Nat → α) (ps : List Nat) (m : Media α) : Media α :=
  ps.foldl (fun m p => update m (p, 0) (hdr p)) m

/-- `create_missing_headers`, which fails at the first part in question with `fails`. -/
def createMissingHeaders (hdr : Nat → α) (fails : Nat → Bool) (nhdrs : Nat) (m : Media α) :
    Media α × Bool :=
  match (List.range' 1 (nhdrs - 1)).find? fails with
  | none => (storeHdrs hdr (List.range' 1 (nhdrs - 1)) m, true)
  | some p => (storeHdrs hdr (List.range' 1 p) m, false)

/-- The assertions of `copy_part_fds`. -/
def partCounts (set : PoolSet) : List Nat := set.replica.map fun rep => rep.part.length

def removeHdrsReplica (hdr : Replica → Nat → α) (setIn setOut : PoolSet) (rin rout : Replica)
    (m : Media α) :
    Option (Media α × Bool) :=
  if partCounts setIn ≠ partCounts setOut then none
  else
    (if 1 < rin.part.length then copyReplicaDataFw align size rin.part setOut setIn rout rin m
      else some m).map fun m => (storeHdrs (hdr rout) [0] m, true)

def addHdrsReplica (hdr : Replica → Nat → α) (fails : Replica → Nat → Bool)
    (setIn setOut : PoolSet) (rin rout : Replica) (m : Media α) : Option (Media α × Bool) :=
  if partCounts setIn ≠ partCounts setOut then none
  else
    (if 1 < rin.part.length then copyReplicaDataBw align size rin.part setOut setIn rout rin m
      else some m).bind fun m =>
      let created := createMissingHeaders (hdr rout) (fails rout) (setOut.nhdrs rout) m
      if created.2 then
        some (storeHdrs (hdr rout) (List.range (setOut.nhdrs rout)) created.1, true)
      else
        (if 1 < rin.part.length then
          copyReplicaDataFw align size rin.part setIn setOut rin rout created.1
        else some created.1).map fun m => (m, false)

def eachReplica (step : Replica → Replica → Media α → Option (Media α × Bool)) :
    List Replica → List Replica → List (Media α) → Option (List (Media α) × Bool)
  | rin :: rins, rout :: routs, m :: ms =>
    (step rin rout m).bind fun r =>
      if r.2 then (eachReplica step rins routs ms).map fun rs => (r.1 :: rs.1, rs.2)
      else some (r.1 :: ms, false)
  | _, _, ms => some (ms, true)

def removeHdrs (hdr : Replica → Nat → α) (setIn setOut : PoolSet) (files : List (Media α)) :
    Option (List (Media α) × Bool) :=
  eachReplica (removeHdrsReplica align size hdr setIn setOut) setIn.replica setOut.replica files

def addHdrs (hdr : Replica → Nat → α) (fails : Replica → Nat → Bool) (setIn setOut : PoolSet)
    (files : List (Media α)) : Option (List (Media α) × Bool) :=
  eachReplica (addHdrsReplica align size hdr fails setIn setOut) setIn.replica setOut.replica files

/-! ## Where the blocks are -/

section Locate

variable {align} {parts parts' : List Part} {h h' p off off' : Nat} {l l' : Nat × Nat}

def Before (l l' : Nat × Nat) : Prop := l.1 < l'.1 ∨ l.1 = l'.1 ∧ l.2 < l'.2

theorem Before.ne (hl : Before l l') : l ≠ l' := by
  rintro rfl
  rcases hl with hl | hl <;> omega

theorem Before.trans {l'' : Nat × Nat} (hl : Before l l') (hl' : Before l' l'') : Before l l'' := by
  unfold Before at *
  omega

theorem locate_part (hl : locate align h p parts off = some l) :
    p ≤ l.1 ∧ ∃ part, parts[l.1 - p]? = some part ∧ h ≤ l.2 ∧ l.2 < h + dataSize align h part := by
  induction parts generalizing p off with
  | nil => exact absurd hl nofun
  | cons part parts ih =>
    rw [locate] at hl
    by_cases hoff : off < dataSize align h part
    · rw [if_pos hoff, Option.some_inj] at hl
      subst hl
      refine ⟨Nat.le_refl p, part, ?_, Nat.le_add_right _ _, Nat.add_lt_add_left hoff h⟩
      rw [Nat.sub_self, getElem?_cons_zero]
    · rw [if_neg hoff] at hl
      obtain ⟨hle, part', hpart', hdata⟩ := ih hl
      refine ⟨by omega, part', ?_, hdata⟩
      rw [show l.1 - p = l.1 - (p + 1) + 1 by omega, getElem?_cons_succ]
      exact hpart'

theorem locate_isSome_iff :
    (locate align h p parts off).isSome = true ↔ off < (parts.map (dataSize align h)).sum := by
  induction parts generalizing p off with
  | nil => simp [locate]
  | cons part parts ih =>
    rw [locate, map_cons, sum_cons]
    by_cases hoff : off < dataSize align h part
    · rw [if_pos hoff, Option.isSome_some]
      exact ⟨fun _ => by omega, fun _ => rfl⟩
    · rw [if_neg hoff, ih]
      omega

theorem locate_congr (hsize : parts.map (·.filesize) = parts'.map (·.filesize)) :
    locate align h p parts off = locate align h p parts' off := by
  induction parts generalizing parts' p off with
  | nil =>
    rw [map_nil, eq_comm, map_eq_nil_iff] at hsize
    rw [hsize]
  | cons part parts ih =>
    obtain ⟨part', parts', rfl⟩ : ∃ part' rest, parts' = part' :: rest := by
      cases parts' with
      | nil => exact absurd hsize nofun
      | cons part' rest => exact ⟨part', rest, rfl⟩
    obtain ⟨hpart, hparts⟩ := cons_eq_cons.mp hsize
    have hdata : dataSize align h part = dataSize align h part' :=
      congrArg (alignDown · align - h) hpart
    rw [locate, locate, ih hparts, hdata]

/-- Headers move the blocks up, without a change of their order. -/
theorem locate_before (hle : h ≤ h') (hfit : ∀ part ∈ parts, h' ≤ alignDown part.filesize align)
    (hl : locate align h p parts off = some l) (hl' : locate align h' p parts off' = some l')
    (hlt : off + h < off' + h') : Before l l' := by
  induction parts generalizing p off off' with
  | nil => exact absurd hl nofun
  | cons part parts ih =>
    obtain ⟨hpart, hfit⟩ := forall_mem_cons.mp hfit
    rw [locate, dataSize] at hl hl'
    by_cases hoff : off < alignDown part.filesize align - h <;>
      by_cases hoff' : off' < alignDown part.filesize align - h'
    · rw [if_pos hoff, Option.some_inj] at hl
      rw [if_pos hoff', Option.some_inj] at hl'
      subst hl hl'
      exact .inr ⟨rfl, by dsimp only; omega⟩
    · rw [if_pos hoff, Option.some_inj] at hl
      rw [if_neg hoff'] at hl'
      subst hl
      exact .inl (Nat.lt_of_succ_le (locate_part hl').1)
    · omega
    · rw [if_neg hoff] at hl
      rw [if_neg hoff'] at hl'
      exact ih hfit hl hl' (by omega)

/-- Where two lists of parts first place a block differently, the second one has it at the end of a
part of the first one, or at the beginning of a part that comes later. -/
theorem locate_differs {u : Nat} (hu : ∀ part ∈ parts ++ parts', u ∣ dataSize align h part ∧
      0 < dataSize align h part) (hoff : u ∣ off)
    (hbelow : ∀ x < off, u ∣ x → locate align h p parts x = locate align h p parts' x)
    (hne : locate align h p parts off ≠ locate align h p parts' off)
    (hl : locate align h p parts' off = some l) :
    (∃ part, parts[l.1 - p]? = some part ∧ p ≤ l.1 ∧ l.2 = h + dataSize align h part) ∨
      l.2 = h ∧ ∀ w, locate align h p parts off = some w → Before w l := by
  induction parts generalizing parts' p off with
  | nil =>
    cases parts' with
    | nil => exact absurd rfl hne
    | cons part' parts' =>
      have hpos := (hu part' mem_cons_self).2
      have hzero : off = 0 := by
        by_contra hoff
        have := hbelow 0 (Nat.pos_of_ne_zero hoff) (Nat.dvd_zero u)
        rw [locate, locate, if_pos hpos] at this
        exact absurd this nofun
      rw [locate, hzero, if_pos hpos, Option.some_inj] at hl
      subst hl
      exact .inr ⟨rfl, fun _ hw => absurd hw nofun⟩
  | cons part parts ih =>
    have hpart := hu part mem_cons_self
    cases parts' with
    | nil => exact absurd hl nofun
    | cons part' parts' =>
      have hpart' := hu part' (mem_append_right _ mem_cons_self)
      -- the two lists differ where the smaller of the first parts ends
      have hsize : ∀ x, u ∣ x → x ≤ off → x = dataSize align h part ∨ x = dataSize align h part' →
          (x < dataSize align h part ∨ x < dataSize align h part') → x = off := by
        intro x hx hxoff hends hlt
        by_contra hxne
        have hsame := hbelow x (Nat.lt_of_le_of_ne hxoff hxne) hx
        rw [locate, locate] at hsame
        rcases hlt with hlt | hlt
        · have hnot : ¬x < dataSize align h part' := by omega
          rw [if_pos hlt, if_neg hnot] at hsame
          exact Nat.not_succ_le_self p (locate_part hsame.symm).1
        · have hnot : ¬x < dataSize align h part := by omega
          rw [if_pos hlt, if_neg hnot] at hsame
          exact Nat.not_succ_le_self p (locate_part hsame).1
      rw [locate] at hl hne ⊢
      rw [locate.eq_2 align h p _ part'] at hne
      by_cases hlt : off < dataSize align h part <;> by_cases hlt' : off < dataSize align h part'
      · rw [if_pos hlt, if_pos hlt'] at hne
        exact absurd rfl hne
      · obtain rfl : dataSize align h part' = off :=
          hsize _ hpart'.1 (by omega) (.inr rfl) (.inl (by omega))
        rw [if_neg hlt', Nat.sub_self] at hl
        refine .inr ⟨?_, fun w hw => ?_⟩
        · cases parts' with
          | nil => exact absurd hl nofun
          | cons next parts' =>
            rw [locate, if_pos (hu next (mem_append_right _
              (mem_cons_of_mem _ mem_cons_self))).2, Option.some_inj] at hl
            rw [← hl]
            rfl
        · rw [if_pos hlt, Option.some_inj] at hw
          subst hw
          exact .inl (Nat.lt_of_succ_le (locate_part hl).1)
      · obtain rfl : dataSize align h part = off :=
          hsize _ hpart.1 (by omega) (.inl rfl) (.inr (by omega))
        rw [if_pos hlt', Option.some_inj] at hl
        subst hl
        refine .inl ⟨part, ?_, Nat.le_refl p, rfl⟩
        rw [Nat.sub_self, getElem?_cons_zero]
      · have heq : dataSize align h part = dataSize align h part' := by
          rcases Nat.lt_trichotomy (dataSize align h part)
              (dataSize align h part') with hc | hc | hc
          · have := hsize _ hpart.1 (by omega) (.inl rfl) (.inr hc)
            omega
          · exact hc
          · have := hsize _ hpart'.1 (by omega) (.inr rfl) (.inl hc)
            omega
        rw [if_neg hlt'] at hl
        rw [if_neg hlt, if_neg hlt', ← heq] at hne
        rw [← heq] at hl
        have hrest := ih (fun q hq => hu q ((mem_append.mp hq).elim
            (fun hq => mem_append_left _ (mem_cons_of_mem _ hq))
            fun hq => mem_append_right _ (mem_cons_of_mem _ hq)))
          ((Nat.dvd_sub hoff hpart.1)) (fun x hx hdvd => ?_) hne hl
        · rcases hrest with ⟨q, hq, hle, hend⟩ | hstart
          · refine .inl ⟨q, ?_, by omega, hend⟩
            rw [show l.1 - p = l.1 - (p + 1) + 1 by omega, getElem?_cons_succ]
            exact hq
          · rw [if_neg hlt]
            exact .inr hstart
        · have hsame := hbelow (x + dataSize align h part) (by omega) (Nat.dvd_add hdvd hpart.1)
          rw [locate, locate, if_neg (by omega), if_neg (by omega), ← heq,
            Nat.add_sub_cancel] at hsame
          exact hsame

end Locate

/-! ## The order of the copies -/

section Offsets

variable {len : Nat} {offs : List Nat} {bw : Bool}

/-- All blocks below `len`, in ascending order or, with `bw`, in descending order. -/
structure Ordered (bw : Bool) (len : Nat) (offs : List Nat) : Prop where
  mem : ∀ off, off ∈ offs ↔ poolHdrSize ∣ off ∧ off < len
  sorted : offs.Pairwise fun a b => if bw then b < a else a < b

theorem ordered_fwOffsets (hlen : poolHdrSize ∣ len) : Ordered false len (fwOffsets len) := by
  obtain ⟨n, rfl⟩ := hlen
  have hn : poolHdrSize * n / poolHdrSize = n := Nat.mul_div_cancel_left n (by decide)
  rw [fwOffsets, hn]
  refine ⟨fun off => ?_, ?_⟩
  · rw [mem_map]
    constructor
    · rintro ⟨i, hi, rfl⟩
      have := mem_range.mp hi
      rw [poolHdrSize] at *
      omega
    · rintro ⟨⟨i, rfl⟩, hi⟩
      exact ⟨i, mem_range.mpr (Nat.lt_of_mul_lt_mul_left hi), Nat.mul_comm _ _⟩
  · rw [pairwise_map]
    refine List.Pairwise.imp (fun hlt => ?_) pairwise_lt_range
    rw [if_neg Bool.false_ne_true, poolHdrSize]
    omega

theorem bwOffsets_eq (hlen : poolHdrSize ∣ len) : bwOffsets len = (fwOffsets len).reverse := by
  obtain ⟨n, rfl⟩ := hlen
  have hn : poolHdrSize * n / poolHdrSize = n := Nat.mul_div_cancel_left n (by decide)
  rw [bwOffsets, fwOffsets, hn, ← map_reverse, List.range_eq_range', List.reverse_range',
    map_map, ← List.range_eq_range']
  refine map_congr_left fun i hi => ?_
  have := mem_range.mp hi
  rw [comp_apply, poolHdrSize]
  omega

theorem ordered_bwOffsets (hlen : poolHdrSize ∣ len) : Ordered true len (bwOffsets len) := by
  have h := ordered_fwOffsets hlen
  rw [bwOffsets_eq hlen]
  refine ⟨fun off => mem_reverse.trans (h.mem off), pairwise_reverse.mpr ?_⟩
  exact h.sorted.imp fun hlt => hlt

variable {dst src : Nat → Option (Nat × Nat)} {m m' : Media α}

theorem copyBlocks_eq {d s : Nat → Nat × Nat}
    (h : ∀ off ∈ offs, src off = some (s off) ∧ dst off = some (d off)) (m : Media α) :
    copyBlocks dst src offs m = some (copyAll (offs.map fun off => (d off, s off)) m) := by
  induction offs generalizing m with
  | nil => rfl
  | cons off offs ih =>
    obtain ⟨⟨hsrc, hdst⟩, h⟩ := forall_mem_cons.mp h
    have ih := ih h
    unfold copyBlocks at ih ⊢
    rw [foldlM_cons, hsrc, hdst, Option.bind_some, Option.map_some, Option.bind_eq_bind,
      Option.bind_some, ih]
    rfl

theorem located_of_copyBlocks (h : (copyBlocks dst src offs m).isSome = true) :
    ∀ off ∈ offs, (src off).isSome = true ∧ (dst off).isSome = true := by
  induction offs generalizing m with
  | nil => exact fun off hoff => absurd hoff not_mem_nil
  | cons off offs ih =>
    rw [copyBlocks, foldlM_cons, Option.bind_eq_bind] at h
    cases hsrc : src off with
    | none => rw [hsrc] at h; exact absurd h nofun
    | some s =>
      cases hdst : dst off with
      | none => rw [hsrc, hdst] at h; exact absurd h nofun
      | some d =>
        rw [hsrc, hdst] at h
        exact forall_mem_cons.mpr ⟨⟨hsrc ▸ rfl, hdst ▸ rfl⟩, ih h⟩

theorem copyBlocks_other {l : Nat × Nat} (h : copyBlocks dst src offs m = some m')
    (hl : ∀ off ∈ offs, dst off ≠ some l) : m' l = m l := by
  induction offs generalizing m with
  | nil => exact Option.some_inj.mp h ▸ rfl
  | cons off offs ih =>
    rw [copyBlocks, foldlM_cons, Option.bind_eq_bind, Option.bind_eq_some_iff] at h
    obtain ⟨m₁, hstep, hrest⟩ := h
    obtain ⟨s, -, hstep⟩ := Option.bind_eq_some_iff.mp hstep
    obtain ⟨d, hd, rfl⟩ := Option.map_eq_some_iff.mp hstep
    obtain ⟨hoff, hl⟩ := forall_mem_cons.mp hl
    rw [ih hrest hl, update_of_ne]
    rintro rfl
    exact hoff hd

theorem copyBlocks_first {align hdrsize : Nat} {fds : List Part} {rep : Replica}
    (h : copyBlocks (blockAt align hdrsize fds rep) src offs m = some m') (x : Nat) :
    m' (0, x) = m (0, x) :=
  copyBlocks_other h fun _ _ hl =>
    Nat.not_succ_le_zero 0 (locate_part (Option.filter_eq_some_iff.mp hl).1).1

def srcHdr (align : Nat) (bw : Bool) : Nat := if bw then 0 else align

def dstHdr (align : Nat) (bw : Bool) : Nat := if bw then align else 0

theorem hdr_le (align : Nat) (bw : Bool) : srcHdr align bw ≤ align ∧ dstHdr align bw ≤ align := by
  cases bw
  · exact ⟨Nat.le_refl _, Nat.zero_le _⟩
  · exact ⟨Nat.zero_le _, Nat.le_refl _⟩

variable {align} {parts : List Part} {p a b : Nat} {s w : Nat × Nat} (hpos : 0 < align)
  (hfit : ∀ part ∈ parts, align ≤ alignDown part.filesize align)
include hpos hfit

/-- A block is written below those that are still to be read. -/
theorem locate_ne (hs : locate align (srcHdr align bw) p parts b = some s)
    (hw : locate align (dstHdr align bw) p parts a = some w)
    (hab : a = b ∨ if bw then b < a else a < b) : w ≠ s := by
  cases bw with
  | false =>
    have hab : a = b ∨ a < b := hab
    exact (locate_before (Nat.zero_le align) hfit hw hs (by omega)).ne
  | true =>
    have hab : a = b ∨ b < a := hab
    exact (locate_before (Nat.zero_le align) hfit hs hw (by omega)).ne.symm

omit hpos in
theorem locate_inj {h : Nat} (hh : h ≤ align) (ha : locate align h p parts a = some s)
    (hb : locate align h p parts b = some s) : a = b := by
  have hfit : ∀ part ∈ parts, h ≤ alignDown part.filesize align := fun q hq => hh.trans (hfit q hq)
  rcases Nat.lt_trichotomy a b with hlt | heq | hlt
  · exact absurd rfl (locate_before (Nat.le_refl h) hfit ha hb (by omega)).ne
  · exact heq
  · exact absurd rfl (locate_before (Nat.le_refl h) hfit hb ha (by omega)).ne

theorem copyAll_moves (hord : Ordered bw len offs) {s d : Nat → Nat × Nat}
    (hd : ∀ off ∈ offs, locate align (dstHdr align bw) p parts off = some (d off)) (ha : a ∈ offs)
    (hs : locate align (srcHdr align bw) p parts a = some (s a)) (m : Media α) :
    copyAll (offs.map fun off => (d off, s off)) m (d a) = m (s a) := by
  obtain ⟨pre, post, rfl⟩ := append_of_mem ha
  obtain ⟨-, hsorted, hcross⟩ := pairwise_append.mp hord.sorted
  rw [map_append, map_cons]
  refine Assign.copyAll_at (m := (d a, s a)) (fun mv hmv => ?_) (fun mv hmv heq => ?_) m
  · obtain ⟨b, hb, rfl⟩ := mem_map.mp hmv
    exact locate_ne hpos hfit hs (hd b (mem_append_left _ hb)) (.inr (hcross b hb a mem_cons_self))
  · obtain ⟨b, hb, rfl⟩ := mem_map.mp hmv
    have heq : d b = d a := heq
    have hba := locate_inj hfit (hdr_le align bw).2 (heq ▸ hd b (mem_append_right _
      (mem_cons_of_mem a hb))) (hd a ha)
    have horder := (pairwise_cons.mp hsorted).1 b hb
    rw [hba] at horder
    cases bw <;> exact absurd horder (Nat.lt_irrefl a)

end Offsets

/-! ## Moving the blocks of a replica -/

section Replica

variable {align} {rin rout : Replica} {bw : Bool} {len off : Nat} {offs : List Nat} {l : Nat × Nat}
  (hpos : 0 < align) (hin : rin.FileBased align)
include hpos hin

theorem le_alignDown : ∀ part ∈ rin.part.tail, align ≤ alignDown part.filesize align := by
  intro part hpart
  have := (hin.paged part (mem_of_mem_tail hpart)).le_alignDown hpos
  omega

theorem filter_located {h : Nat} (hh : h ≤ align)
    (hl : locate align h 1 rin.part.tail off = some l) :
    (rin.part[l.1]?.any fun part => l.2 < alignUp part.filesize align) = true := by
  obtain ⟨hle, part, hpart, -, hlt⟩ := locate_part hl
  have hfit := le_alignDown hpos hin part (mem_of_getElem? hpart)
  have hup : part.filesize ≤ alignUp part.filesize align := by
    have hdiv := Nat.div_add_mod (part.filesize + align - 1) align
    have hmod := Nat.mod_lt (part.filesize + align - 1) hpos
    rw [alignUp, Nat.mul_comm]
    omega
  have hdown := alignDown_le part.filesize align
  rw [dataSize] at hlt
  rw [getElem?_tail, Nat.sub_add_cancel hle] at hpart
  rw [hpart, Option.any_some, decide_eq_true_eq]
  omega

theorem blockAt_self {h : Nat} (hh : h ≤ align) :
    blockAt align h rin.part rin off = locate align h 1 rin.part.tail off := by
  rw [blockAt]
  cases hl : locate align h 1 rin.part.tail off with
  | none => rfl
  | some l => rw [Option.filter_some, if_pos (filter_located hpos hin hh hl)]

omit hpos hin in
theorem locate_isSome (hcap : len ≤ (rin.part.tail.map (dataSize align align)).sum) {h : Nat}
    (hh : h ≤ align) (hoff : off < len) : (locate align h 1 rin.part.tail off).isSome = true := by
  rw [locate_isSome_iff]
  exact Nat.lt_of_lt_of_le hoff (hcap.trans (sum_le_sum fun part _ =>
    Nat.sub_le_sub_left hh (alignDown part.filesize align)))

def Alike (align hdrsize len : Nat) (rin rout : Replica) : Prop :=
  ∀ off < len, poolHdrSize ∣ off →
    locate align hdrsize 1 rout.part.tail off = locate align hdrsize 1 rin.part.tail off

variable (hcap : len ≤ (rin.part.tail.map (dataSize align align)).sum)
include hcap

/-- If the two replicas are alike, all blocks get to where they belong. -/
theorem copyBlocks_of_alike (hord : Ordered bw len offs)
    (halike : Alike align (dstHdr align bw) len rin rout) (m : Media α) :
    ∃ m', copyBlocks (blockAt align (dstHdr align bw) rin.part rout)
        (blockAt align (srcHdr align bw) rin.part rin) offs m = some m' ∧
      (∀ off < len, poolHdrSize ∣ off → ∀ w s,
        locate align (dstHdr align bw) 1 rin.part.tail off = some w →
        locate align (srcHdr align bw) 1 rin.part.tail off = some s → m' w = m s) ∧
      ∀ l, (∀ off < len, poolHdrSize ∣ off →
        locate align (dstHdr align bw) 1 rin.part.tail off ≠ some l) → m' l = m l := by
  obtain ⟨hsrc, hdst⟩ := hdr_le align bw
  have hsome := fun h (hh : h ≤ align) off hoff =>
    Option.isSome_iff_exists.mp (locate_isSome hcap hh ((hord.mem off).mp hoff).2)
  have hs : ∀ off ∈ offs, locate align (srcHdr align bw) 1 rin.part.tail off =
      some ((locate align (srcHdr align bw) 1 rin.part.tail off).getD (0, 0)) := by
    intro off hoff
    obtain ⟨s, hs⟩ := hsome _ hsrc off hoff
    rw [hs, Option.getD_some]
  have hd : ∀ off ∈ offs, locate align (dstHdr align bw) 1 rin.part.tail off =
      some ((locate align (dstHdr align bw) 1 rin.part.tail off).getD (0, 0)) := by
    intro off hoff
    obtain ⟨d, hd⟩ := hsome _ hdst off hoff
    rw [hd, Option.getD_some]
  have hblocks : ∀ off ∈ offs, blockAt align (srcHdr align bw) rin.part rin off =
        some ((locate align (srcHdr align bw) 1 rin.part.tail off).getD (0, 0)) ∧
      blockAt align (dstHdr align bw) rin.part rout off =
        some ((locate align (dstHdr align bw) 1 rin.part.tail off).getD (0, 0)) := by
    intro off hoff
    obtain ⟨hdvd, hlt⟩ := (hord.mem off).mp hoff
    have hblock : blockAt align (dstHdr align bw) rin.part rout off =
        blockAt align (dstHdr align bw) rin.part rin off := by
      rw [blockAt, blockAt, halike off hlt hdvd]
    rw [hblock, blockAt_self hpos hin hsrc, blockAt_self hpos hin hdst]
    exact ⟨hs off hoff, hd off hoff⟩
  refine ⟨_, copyBlocks_eq hblocks m, fun off hlt hdvd w s hw hsl => ?_, fun l hl => ?_⟩
  · have hoff := (hord.mem off).mpr ⟨hdvd, hlt⟩
    have hmove := copyAll_moves (s := fun off =>
        (locate align (srcHdr align bw) 1 rin.part.tail off).getD (0, 0))
      hpos (le_alignDown hpos hin) hord hd hoff (hs off hoff) m
    rw [hw, hsl] at hmove
    exact hmove
  · refine Assign.copyAll_of_forall_ne m fun mv hmv heq => ?_
    obtain ⟨off, hoff, rfl⟩ := mem_map.mp hmv
    obtain ⟨hdvd, hlt⟩ := (hord.mem off).mp hoff
    exact hl off hlt hdvd (heq ▸ hd off hoff)

/-- If all blocks get to where they belong, whatever is in the files, the two replicas are alike. -/
theorem alike_of_copyBlocks [Nontrivial α] (hout : rout.FileBased align)
    (hlen : poolHdrSize ∣ align)
    (hord : Ordered bw len offs) (good : Media α → Prop) (m₀ : Media α) (hm₀ : good m₀)
    (hgood : ∀ m l v, good m → l.1 ≠ 0 → good (update m l v))
    (h : ∀ m, good m → ∃ m', copyBlocks (blockAt align (dstHdr align bw) rin.part rout)
        (blockAt align (srcHdr align bw) rin.part rin) offs m = some m' ∧
      ∀ off < len, poolHdrSize ∣ off → ∀ w s,
        locate align (dstHdr align bw) 1 rin.part.tail off = some w →
        locate align (srcHdr align bw) 1 rin.part.tail off = some s → m' w = m s) :
    Alike align (dstHdr align bw) len rin rout := by
  classical
  obtain ⟨hsrc, hdst⟩ := hdr_le align bw
  have hfit := le_alignDown hpos hin
  by_contra hnot
  -- the first block that the replicas place differently
  have hex : ∃ off, off < len ∧ poolHdrSize ∣ off ∧ locate align
      (dstHdr align bw) 1 rin.part.tail off ≠
      locate align (dstHdr align bw) 1 rout.part.tail off := by
    simp only [Alike, not_forall] at hnot
    obtain ⟨off, hlt, hdvd, hne⟩ := hnot
    exact ⟨off, hlt, hdvd, Ne.symm hne⟩
  obtain ⟨hlt, hdvd, hne⟩ := Nat.find_spec hex
  have hbelow : ∀ x < Nat.find hex, poolHdrSize ∣ x → locate align
      (dstHdr align bw) 1 rin.part.tail x =
      locate align (dstHdr align bw) 1 rout.part.tail x := fun x hx hxdvd =>
    not_not.mp fun hxne => Nat.find_min hex hx ⟨hx.trans hlt, hxdvd, hxne⟩
  generalize Nat.find hex = off₀ at hlt hdvd hne hbelow
  have hmem : off₀ ∈ offs := (hord.mem off₀).mpr ⟨hdvd, hlt⟩
  obtain ⟨w, hw⟩ := Option.isSome_iff_exists.mp (locate_isSome hcap hdst hlt)
  have hlocated := located_of_copyBlocks (Option.isSome_iff_exists.mpr
    ⟨_, (h m₀ hm₀).choose_spec.1⟩)
  have hs : ∀ off ∈ offs, blockAt align (srcHdr align bw) rin.part rin off =
      some ((locate align (srcHdr align bw) 1 rin.part.tail off).getD (0, 0)) := by
    intro off hoff
    obtain ⟨s, hs⟩ := Option.isSome_iff_exists.mp (hlocated off hoff).1
    rw [hs]
    rw [blockAt_self hpos hin hsrc] at hs
    rw [hs, Option.getD_some]
  obtain ⟨D, hD⟩ := Option.isSome_iff_exists.mp (hlocated off₀ hmem).2
  have hDl := (Option.filter_eq_some_iff.mp hD).1
  have hunit : ∀ part ∈ rin.part.tail ++ rout.part.tail,
      poolHdrSize ∣ dataSize align (dstHdr align bw) part ∧
        0 < dataSize align (dstHdr align bw) part := by
    intro part hpart
    have hpaged : part.Paged align := (mem_append.mp hpart).elim
      (fun hp => hin.paged part (mem_of_mem_tail hp))
      fun hp => hout.paged part (mem_of_mem_tail hp)
    have hcases : dstHdr align bw = 0 ∨ dstHdr align bw = align := by
      cases bw; exacts [.inl rfl, .inr rfl]
    exact ⟨hlen.trans (dvd_dataSize hcases), hpaged.dataSize_pos hpos hcases⟩
  have hdiffers := locate_differs hunit hdvd hbelow hne hDl
  have hsl : ∀ off ∈ offs, ∃ s, locate align (srcHdr align bw) 1 rin.part.tail off = some s ∧
      (locate align (srcHdr align bw) 1 rin.part.tail off).getD (0, 0) = s := by
    intro off hoff
    have := hs off hoff
    rw [blockAt_self hpos hin hsrc] at this
    exact ⟨_, this, rfl⟩
  obtain ⟨s₀, hs₀, hs₀'⟩ := hsl off₀ hmem
  -- the place that is written instead is not read afterwards
  have hunread : ∀ off ∈ offs, (if bw then off < off₀ else off₀ < off) → ∀ s,
      locate align (srcHdr align bw) 1 rin.part.tail off = some s → s ≠ D := by
    intro off hoff horder s hs heq
    obtain ⟨-, part, hpart, hge, hend⟩ := locate_part hs
    rcases hdiffers with ⟨part', hpart', -, hend'⟩ | ⟨hstart, hafter⟩
    · rw [heq, hpart', Option.some_inj] at hpart
      subst hpart
      have hle := hfit part' (mem_of_getElem? hpart')
      rw [heq, hend', dataSize, dataSize] at hend
      omega
    · cases bw with
      | false =>
        have hge : align ≤ s.2 := hge
        have hstart : D.2 = 0 := hstart
        rw [heq] at hge
        omega
      | true =>
        have hlt : off < off₀ := horder
        have hle : off + align < off₀ + align := Nat.add_lt_add_right hlt align
        have hsw : Before s w := locate_before (Nat.zero_le align) hfit hs hw (by omega)
        exact (hsw.trans (hafter w hw)).ne heq
  obtain ⟨pre, post, rfl⟩ := append_of_mem hmem
  obtain ⟨hsortedPre, hsortedPost, hcross⟩ := pairwise_append.mp hord.sorted
  have hdist : ∀ off ∈ pre ++ off₀ :: post, off ≠ off₀ → ∀ s,
      locate align (srcHdr align bw) 1 rin.part.tail off = some s → s ≠ s₀ :=
    fun off _ hneq s hs heq => hneq (locate_inj hfit hsrc (heq ▸ hs) hs₀)
  have hirr : ∀ a b, (if bw then b < a else a < b) → a ≠ b := fun a b hab heq => by
    subst heq
    cases bw <;> exact absurd hab (Nat.lt_irrefl a)
  have hws : w ≠ s₀ := locate_ne hpos hfit hs₀ hw (.inl rfl)
  have hwD : w ≠ D := fun heq => hne (hw.trans (heq ▸ hDl.symm))
  obtain ⟨v, hv⟩ := exists_ne (m₀ s₀)
  have hgood' := hgood m₀ s₀ v hm₀ (Nat.ne_of_gt (locate_part hs₀).1)
  obtain ⟨m₁, hrun₁, hend₁⟩ := h m₀ hm₀
  obtain ⟨m₂, hrun₂, hend₂⟩ := h _ hgood'
  have hd : ∀ off ∈ pre ++ off₀ :: post, blockAt align (dstHdr align bw) rin.part rout off =
      some ((blockAt align (dstHdr align bw) rin.part rout off).getD (0, 0)) := by
    intro off hoff
    obtain ⟨d, hd⟩ := Option.isSome_iff_exists.mp (hlocated off hoff).2
    rw [hd, Option.getD_some]
  have hmoves := fun m : Media α => copyBlocks_eq (fun off hoff => ⟨hs off hoff, hd off hoff⟩) m
  rw [hmoves, Option.some_inj] at hrun₁ hrun₂
  have hsame : m₁ w = m₂ w := by
    rw [← hrun₁, ← hrun₂, map_append, map_cons, hs₀', hD, Option.getD_some]
    refine Assign.copyAll_read_once (fun mv hmv => ?_) (fun mv hmv => ?_)
      (fun a ha => (update_of_ne ha v m₀).symm) hws hwD
    · obtain ⟨off, hoff, rfl⟩ := mem_map.mp hmv
      have hall := mem_append_left (off₀ :: post) hoff
      obtain ⟨s, hs, hs'⟩ := hsl off hall
      rw [hs']
      exact hdist off hall (hirr _ _ (hcross off hoff off₀ mem_cons_self)) s hs
    · obtain ⟨off, hoff, rfl⟩ := mem_map.mp hmv
      have hall := mem_append_right pre (mem_cons_of_mem off₀ hoff)
      obtain ⟨s, hs, hs'⟩ := hsl off hall
      have horder := (pairwise_cons.mp hsortedPost).1 off hoff
      rw [hs']
      exact ⟨hdist off hall (hirr _ _ horder).symm s hs, hunread off hall horder s hs⟩
  rw [hend₁ off₀ hlt hdvd w s₀ hw hs₀, hend₂ off₀ hlt hdvd w s₀ hw hs₀, update_self] at hsame
  exact hv hsame.symm

end Replica

end Transform

end Pmdk.Poolset
