import Pmdk.Pool.Transform

/-!
# What a pool has after its headers were added or removed

A replica is kept if its first part is not larger than the pool and if the replica at the same index
of the output set has the blocks of the pool in the same places as its counterpart
(`replicaTransform_preserves_iff`).
-/

namespace Pmdk.Poolset

open Function List

namespace Transform

open Sync (alignDown alignUp poolHdrSize)

variable {α : Type*}

/-! ## The bytes of the pool -/

variable {ps : List Nat}

section Kept

variable {align} {rin rout : Replica} {bw : Bool} {poolSize : Nat} {m m' : Media α}

def firstSize (align : Nat) (rep : Replica) : Nat :=
  match rep.part with
  | [] => 0
  | first :: _ => alignDown first.filesize align

def Kept (align hdrsizeIn hdrsizeOut poolSize : Nat) (rep : Replica) (m m' : Media α) : Prop :=
  ∀ x, poolHdrSize ≤ x → x < poolSize → poolHdrSize ∣ x →
    readPool align hdrsizeOut rep m' x = readPool align hdrsizeIn rep m x

theorem kept_congr {h h' : Nat} {m'' : Media α}
    (hfirst : ∀ x, poolHdrSize ≤ x → m'' (0, x) = m' (0, x))
    (hrest : ∀ l : Nat × Nat, 1 ≤ l.1 → h' ≤ l.2 → m'' l = m' l) :
    Kept align h h' poolSize rin m m'' ↔ Kept align h h' poolSize rin m m' := by
  refine forall_congr' fun x => forall_congr' fun hx => ?_
  suffices hsame : readPool align h' rin m'' x = readPool align h' rin m' x by rw [hsame]
  rw [readPool, readPool]
  cases rin.part with
  | nil => rfl
  | cons first rest =>
    dsimp only
    rw [hfirst x hx]
    congr 1
    cases hl : locate align h' 1 rest (x - alignDown first.filesize align) with
    | none => rfl
    | some l =>
      obtain ⟨hle, -, -, hge, -⟩ := locate_part hl
      rw [Option.map_some, Option.map_some, hrest l hle hge]

theorem storeHdrs_apply {hdr : Nat → α} {l : Nat × Nat}
    (hl : ∀ p ∈ ps, l ≠ (p, 0)) : storeHdrs hdr ps m l = m l := by
  induction ps generalizing m with
  | nil => rfl
  | cons p ps ih =>
    obtain ⟨hp, hps⟩ := forall_mem_cons.mp hl
    exact (ih hps).trans (update_of_ne hp _ _)

theorem storeHdrs_behind {hdr : Nat → α} {l : Nat × Nat} (hl : 0 < l.2) :
    storeHdrs hdr ps m l = m l :=
  storeHdrs_apply fun _ _ heq => Nat.ne_of_gt hl (congrArg Prod.snd heq)

theorem storeHdrs_const {v : α} {p : Nat} (hp : p ∈ ps) :
    storeHdrs (fun _ => v) ps m (p, 0) = v := by
  induction ps generalizing m with
  | nil => exact absurd hp not_mem_nil
  | cons q ps ih =>
    by_cases hps : p ∈ ps
    · exact ih hps
    · obtain rfl := (mem_cons.mp hp).resolve_right hps
      have happly : storeHdrs (fun _ => v) ps (update m (p, 0) v) (p, 0) = _ :=
        storeHdrs_apply fun q hq heq => hps ((show p = q from congrArg Prod.fst heq) ▸ hq)
      exact happly.trans (update_self (p, 0) v m)

theorem readPool_congr {h x : Nat} (hsame : compareReplicas rin rout = false) :
    readPool align h rout m x = readPool align h rin m x := by
  have hparts := not_not.mp (of_decide_eq_false hsame)
  have hsizes : rin.part.map (·.filesize) = rout.part.map (·.filesize) := by
    have := congrArg (List.map Prod.snd) hparts
    rwa [map_map, map_map] at this
  rw [readPool, readPool]
  cases hin : rin.part with
  | nil =>
    rw [hin, map_nil, eq_comm, map_eq_nil_iff] at hsizes
    rw [hsizes]
  | cons first rest =>
    cases hout : rout.part with
    | nil => rw [hin, hout] at hsizes; exact absurd hsizes nofun
    | cons first' rest' =>
      rw [hin, hout] at hsizes
      obtain ⟨hfirst, hrest⟩ := cons_eq_cons.mp hsizes
      dsimp only at hfirst ⊢
      rw [hfirst, locate_congr hrest]

variable (hpos : 0 < align) (hblock : poolHdrSize ∣ align) (hin : rin.FileBased align)
include hpos hblock hin

theorem firstSize_spec : poolHdrSize ∣ firstSize align rin ∧ poolHdrSize ≤ firstSize align rin ∧
    firstSize align rin < 2 ^ 63 ∧ firstDataLen rin = firstSize align rin - poolHdrSize ∧
    (rin.part.tail.map (dataSize align align)).sum < 2 ^ 63 := by
  obtain ⟨first, rest, hparts⟩ := exists_cons_of_ne_nil hin.nonempty
  have hpaged := hin.paged
  have hbound := hin.bound
  rw [hparts] at hpaged hbound
  rw [map_cons, sum_cons] at hbound
  have hfirst := hpaged first mem_cons_self
  have hle := hfirst.le_alignDown hpos
  have hdown := alignDown_le first.filesize align
  have hbig := Nat.le_of_dvd hpos hblock
  have hrest : (rest.map (dataSize align align)).sum ≤ (rest.map (·.filesize)).sum :=
    sum_le_sum fun part _ => (Nat.sub_le _ _).trans (alignDown_le _ _)
  rw [firstSize, firstDataLen, hparts, tail_cons]
  dsimp only
  rw [hfirst.alignment]
  exact ⟨hblock.trans (dvd_alignDown _ _), by omega, by omega, rfl, by omega⟩

theorem dvd_copyLen (hpage : poolHdrSize ∣ poolSize) : poolHdrSize ∣ copyLen poolSize rin := by
  obtain ⟨hdvd, hge, hlt, hlen, -⟩ := firstSize_spec hpos hblock hin
  rw [copyLen, hlen]
  rw [poolHdrSize] at *
  omega

theorem copyLen_eq (hle : firstSize align rin ≤ poolSize) (hsize : poolSize < 2 ^ 64) :
    copyLen poolSize rin = poolSize - firstSize align rin := by
  obtain ⟨-, hge, hlt, hlen, -⟩ := firstSize_spec hpos hblock hin
  rw [copyLen, hlen]
  rw [poolHdrSize] at *
  omega

variable (hcap : poolSize ≤ firstSize align rin + (rin.part.tail.map (dataSize align align)).sum)
include hcap

/-- The blocks of the first part stay where they are; the other ones have been moved. -/
theorem kept_iff {h h' : Nat} (hh : h ≤ align) (hh' : h' ≤ align)
    (hfirst : ∀ x, poolHdrSize ≤ x → m' (0, x) = m (0, x)) :
    Kept align h h' poolSize rin m m' ↔
      ∀ off < poolSize - firstSize align rin, poolHdrSize ∣ off → ∀ w s,
        locate align h' 1 rin.part.tail off = some w →
        locate align h 1 rin.part.tail off = some s → m' w = m s := by
  obtain ⟨hdvdFirst, hge, -⟩ := firstSize_spec hpos hblock hin
  have hread : ∀ (h : Nat) (m : Media α) (x : Nat), readPool align h rin m x =
      if x < firstSize align rin then some (m (0, x))
      else (locate align h 1 rin.part.tail (x - firstSize align rin)).map m := by
    intro h m x
    obtain ⟨first, rest, hparts⟩ := exists_cons_of_ne_nil hin.nonempty
    rw [readPool, firstSize, hparts]
    rfl
  constructor
  · intro hkept off hoff hdvd w s hw hs
    have hx := hkept (firstSize align rin + off) (by omega) (by omega) (Nat.dvd_add hdvdFirst hdvd)
    rw [hread, hread, if_neg (by omega), if_neg (by omega), Nat.add_sub_cancel_left, hw, hs,
      Option.map_some, Option.map_some, Option.some_inj] at hx
    exact hx
  · intro hmoved x hx hlt hdvd
    rw [hread, hread]
    by_cases hsmall : x < firstSize align rin
    · rw [if_pos hsmall, if_pos hsmall, hfirst x hx]
    · have hoff : x - firstSize align rin < poolSize - firstSize align rin := by omega
      have hcap' : poolSize - firstSize align rin ≤ (rin.part.tail.map
          (dataSize align align)).sum := by
        omega
      obtain ⟨s, hs⟩ := Option.isSome_iff_exists.mp (locate_isSome hcap' hh hoff)
      obtain ⟨w, hw⟩ := Option.isSome_iff_exists.mp (locate_isSome hcap' hh' hoff)
      rw [if_neg hsmall, if_neg hsmall, hw, hs, Option.map_some, Option.map_some,
        hmoved _ hoff (Nat.dvd_sub hdvd hdvdFirst) w s hw hs]

def Movable (align hdrsizeOut poolSize : Nat) (rin rout : Replica) : Prop :=
  1 < rin.part.length → firstSize align rin ≤ poolSize ∧
    Alike align hdrsizeOut (poolSize - firstSize align rin) rin rout

variable (bw) in
/-- The blocks of a replica are moved as they should be only if it is movable. -/
theorem copy_kept_iff [Nontrivial α] {size : α → Nat} {b : α} (hb : size b = poolSize)
    (hout : rout.FileBased align)
    (hpage : poolHdrSize ∣ poolSize) (hsize : poolSize < 2 ^ 64) {offsets : Nat → List Nat}
    (hoffsets : ∀ len, poolHdrSize ∣ len → Ordered bw len (offsets len)) :
    (∀ m, size (m (0, poolHdrSize)) = poolSize → ∃ m',
      (if 1 < rin.part.length then copyBlocks (blockAt align (dstHdr align bw) rin.part rout)
          (blockAt align (srcHdr align bw) rin.part rin)
          (offsets (copyLen (size (m (0, poolHdrSize))) rin)) m
        else some m) = some m' ∧
      Kept align (srcHdr align bw) (dstHdr align bw) poolSize rin m m') ↔
    Movable align (dstHdr align bw) poolSize rin rout := by
  obtain ⟨hdvdFirst, hge, hlt, -, hsum⟩ := firstSize_spec hpos hblock hin
  obtain ⟨hsrc, hdst⟩ := hdr_le align bw
  have hord := hoffsets _ (dvd_copyLen hpos hblock hin hpage)
  have hcap' : poolSize - firstSize align rin ≤ (rin.part.tail.map (dataSize align align)).sum := by
    omega
  constructor
  · intro h hparts
    have hfits : firstSize align rin ≤ poolSize := by
      by_contra hbig
      -- the length wraps, and the block behind the last one is read
      obtain ⟨m', hrun, -⟩ := h (fun _ => b) hb
      rw [if_pos hparts, hb] at hrun
      have hcases : srcHdr align bw = 0 ∨ srcHdr align bw = align := by
        cases bw; exacts [.inr rfl, .inl rfl]
      have hall : (rin.part.tail.map (dataSize align (srcHdr align bw))).sum < 2 ^ 63 := by
        refine Nat.lt_of_le_of_lt (sum_le_sum fun part _ => ?_) (Nat.lt_of_le_of_lt
          (((tail_sublist rin.part).map
              (·.filesize)).sum_le_sum fun _ _ => Nat.zero_le _) hin.bound)
        exact (Nat.sub_le _ _).trans (alignDown_le _ _)
      have hlen : 2 ^ 63 ≤ copyLen poolSize rin := by
        obtain ⟨-, -, -, hdata, -⟩ := firstSize_spec hpos hblock hin
        rw [copyLen, hdata]
        rw [poolHdrSize] at *
        omega
      have hend := (located_of_copyBlocks (Option.isSome_iff_exists.mpr ⟨m', hrun⟩) _
        ((hord.mem _).mpr ⟨hblock.trans (dvd_sum fun n hn => by
          obtain ⟨part, -, rfl⟩ := mem_map.mp hn
          exact dvd_dataSize hcases), Nat.lt_of_lt_of_le hall hlen⟩)).1
      rw [blockAt_self hpos hin hsrc, locate_isSome_iff] at hend
      exact Nat.lt_irrefl _ hend
    refine ⟨hfits, ?_⟩
    rw [copyLen_eq hpos hblock hin hfits hsize] at hord
    refine alike_of_copyBlocks hpos hin hcap' hout hblock hord
      (fun m => size (m (0, poolHdrSize)) = poolSize) (fun _ => b) hb (fun m l v hm hl => ?_)
      fun m hm => ?_
    · rw [update_of_ne fun heq => hl (congrArg Prod.fst heq).symm]
      exact hm
    · obtain ⟨m', hrun, hkept⟩ := h m hm
      rw [if_pos hparts, hm, copyLen_eq hpos hblock hin hfits hsize] at hrun
      refine ⟨m', hrun, (kept_iff hpos hblock hin hcap hsrc hdst fun x _ => ?_).mp hkept⟩
      exact copyBlocks_first hrun x
  · intro hmovable m hm
    by_cases hparts : 1 < rin.part.length
    · obtain ⟨hfits, halike⟩ := hmovable hparts
      rw [copyLen_eq hpos hblock hin hfits hsize] at hord
      obtain ⟨m', hrun, hmoved, hother⟩ := copyBlocks_of_alike hpos hin hcap' hord halike m
      rw [if_pos hparts, hm, copyLen_eq hpos hblock hin hfits hsize]
      refine ⟨m', hrun, (kept_iff hpos hblock hin hcap hsrc hdst fun x _ => ?_).mpr hmoved⟩
      exact copyBlocks_first hrun x
    · rw [if_neg hparts]
      refine ⟨m, rfl, (kept_iff hpos hblock hin hcap hsrc hdst fun _ _ => rfl).mpr
        fun off _ _ w s hw _ => ?_⟩
      obtain ⟨-, part, hpart, -⟩ := locate_part hw
      rw [getElem?_tail] at hpart
      have := (List.getElem?_eq_some_iff.mp hpart).1
      have := (locate_part hw).1
      omega

end Kept

/-! ## When headers cannot be created -/

section Restore

variable {align} {size : α → Nat} {rin rout : Replica} {setIn setOut : PoolSet} {poolSize : Nat}
  {m m' : Media α}

/-- What `add_hdrs_replica` needs to undo its copies. The length is computed from the first part of
the output replica: the blocks below it must be there, and the other ones must not have been
overwritten. -/
def Restorable (align poolSize : Nat) (rin rout : Replica) : Prop :=
  1 < rin.part.length →
    (∀ off < copyLen poolSize rout, poolHdrSize ∣ off →
      (blockAt align align rin.part rout off).isSome = true ∧
        (blockAt align 0 rin.part rin off).isSome = true) ∧
    ∀ off < poolSize - firstSize align rin, poolHdrSize ∣ off → copyLen poolSize rout ≤ off →
      ∀ l, locate align 0 1 rin.part.tail off = some l → l.2 ≠ 0 ∧
        ∀ off' < poolSize - firstSize align rin, poolHdrSize ∣ off' →
          locate align align 1 rin.part.tail off' ≠ some l

structure Adding (align poolSize : Nat) (setIn setOut : PoolSet) (rin rout : Replica) : Prop where
  pos : 0 < align
  block : poolHdrSize ∣ align
  fileIn : rin.FileBased align
  fileOut : rout.FileBased align
  page : poolHdrSize ∣ poolSize
  small : poolSize < 2 ^ 64
  room : poolSize ≤ firstSize align rin + (rin.part.tail.map (dataSize align align)).sum
  hdrIn : setIn.hdrsize align = 0
  hdrOut : setOut.hdrsize align = align
  nhdrs : setOut.nhdrs rout = rin.part.length
  counts : partCounts setIn = partCounts setOut

variable (hdr : Replica → Nat → α) (fails : Replica → Nat → Bool)
  (h : Adding align poolSize setIn setOut rin rout)
  (hmovable : Movable align align poolSize rin rout) (hparts : 1 < rin.part.length)
include h hmovable hparts

theorem addHdrsReplica_fails (hm : size (m (0, poolHdrSize)) = poolSize) {p : Nat}
    (hp : (List.range' 1 (rin.part.length - 1)).find? (fails rout) = some p) :
    ∃ m₁ : Media α, (∀ off < poolSize - firstSize align rin, poolHdrSize ∣ off → ∀ w s,
        locate align align 1 rin.part.tail off = some w →
        locate align 0 1 rin.part.tail off = some s → m₁ w = m s) ∧
      (∀ x, m₁ (0, x) = m (0, x)) ∧
      (∀ l, (∀ off < poolSize - firstSize align rin, poolHdrSize ∣ off →
        locate align align 1 rin.part.tail off ≠ some l) → m₁ l = m l) ∧
      addHdrsReplica align size hdr fails setIn setOut rin rout m =
        (copyBlocks (blockAt align 0 rin.part rin) (blockAt align align rin.part rout)
          (fwOffsets (copyLen poolSize rout)) (storeHdrs (hdr rout) (List.range' 1 p) m₁)).map
            fun m => (m, false) := by
  obtain ⟨hfits, halike⟩ := hmovable hparts
  obtain ⟨-, hge, -⟩ := firstSize_spec h.pos h.block h.fileIn
  have hord := ordered_bwOffsets (dvd_copyLen h.pos h.block h.fileIn h.page)
  rw [copyLen_eq h.pos h.block h.fileIn hfits h.small] at hord
  have hroom := h.room
  obtain ⟨m₁, hrun, hmoved, hother⟩ := copyBlocks_of_alike h.pos h.fileIn (by omega) hord halike m
  have hfirst := copyBlocks_first hrun
  have hsize : size (storeHdrs (hdr rout) (List.range' 1 p) m₁ (0, poolHdrSize)) = poolSize := by
    rw [storeHdrs_behind (by decide), hfirst]
    exact hm
  refine ⟨m₁, hmoved, hfirst, hother, ?_⟩
  have hbw : copyReplicaDataBw align size rin.part setOut setIn rout rin m = some m₁ := by
    rw [copyReplicaDataBw, hm, h.hdrIn, h.hdrOut, copyLen_eq h.pos h.block h.fileIn hfits h.small]
    exact hrun
  rw [addHdrsReplica, if_neg (not_not_intro h.counts), if_pos hparts, hbw, Option.bind_some,
    createMissingHeaders, h.nhdrs, hp]
  dsimp only
  rw [if_neg Bool.false_ne_true, if_pos hparts, copyReplicaDataFw, hsize, h.hdrIn, h.hdrOut]

omit hparts in
/-- The pool of the replica is as it was before, whatever it was, only if the copies can be undone.
-/
theorem restored_iff [Nontrivial α] {b : α} (hb : size b = poolSize) :
    (∀ (hdr : Replica → Nat → α) (fails : Replica → Nat → Bool) m,
      size (m (0, poolHdrSize)) = poolSize →
      (∃ p ∈ List.range' 1 (setOut.nhdrs rout - 1), fails rout p = true) →
      ∃ m', addHdrsReplica align size hdr fails setIn setOut rin rout m = some (m', false) ∧
        Kept align 0 0 poolSize rin m m') ↔ Restorable align poolSize rin rout := by
  have hfit := le_alignDown h.pos h.fileIn
  have hcap : poolSize - firstSize align rin ≤
      (rin.part.tail.map (dataSize align align)).sum := Nat.sub_le_of_le_add (by
    rw [Nat.add_comm]
    exact h.room)
  have hord := ordered_fwOffsets (dvd_copyLen h.pos h.block h.fileOut h.page)
  have hself : ∀ off, blockAt align 0 rin.part rin off = locate align 0 1 rin.part.tail off :=
    fun off => blockAt_self h.pos h.fileIn (Nat.zero_le align)
  have hkept : ∀ m m' : Media α, (∀ x, poolHdrSize ≤ x → m' (0, x) = m (0, x)) →
      (Kept align 0 0 poolSize rin m m' ↔ _) := fun m m' hfirst =>
    kept_iff h.pos h.block h.fileIn h.room (Nat.zero_le _) (Nat.zero_le _) hfirst
  constructor
  · intro hall hparts
    -- the creation fails at the last part
    obtain ⟨p, hp, hlast⟩ : ∃ p, (List.range' 1 (rin.part.length - 1)).find?
        (fun p => decide (p = rin.part.length - 1)) = some p ∧ p = rin.part.length - 1 := by
      have hmem : rin.part.length - 1 ∈ List.range' 1 (rin.part.length - 1) :=
        List.mem_range'_1.mpr (by omega)
      have hfind : ((List.range' 1 (rin.part.length - 1)).find?
          fun p => decide (p = rin.part.length - 1)).isSome = true :=
        find?_isSome.mpr ⟨_, hmem, decide_eq_true rfl⟩
      obtain ⟨p, hp⟩ := Option.isSome_iff_exists.mp hfind
      have hfound := find?_some hp
      exact ⟨p, hp, of_decide_eq_true hfound⟩
    have hrun : ∀ (hdr : Nat → α) (m : Media α), size (m (0, poolHdrSize)) = poolSize →
        ∃ m₁ m' : Media α, (∀ off < poolSize - firstSize align rin, poolHdrSize ∣ off → ∀ w s,
            locate align align 1 rin.part.tail off = some w →
            locate align 0 1 rin.part.tail off = some s → m₁ w = m s) ∧
          copyBlocks (blockAt align 0 rin.part rin) (blockAt align align rin.part rout)
            (fwOffsets (copyLen poolSize rout)) (storeHdrs hdr (List.range' 1 p) m₁) = some m' ∧
          ∀ off < poolSize - firstSize align rin, poolHdrSize ∣ off → ∀ l,
            locate align 0 1 rin.part.tail off = some l → m' l = m l := by
      intro hdr m hm
      obtain ⟨m', hadd, hkeeps⟩ := hall (fun _ => hdr) (fun _ p => decide (p = rin.part.length - 1))
        m hm (by
          rw [h.nhdrs]
          exact ⟨p, mem_of_find?_eq_some hp, decide_eq_true hlast⟩)
      obtain ⟨m₁, hmoved, hfirst, -, heq⟩ := addHdrsReplica_fails (fun _ => hdr)
        (fun _ p => decide (p = rin.part.length - 1)) h hmovable hparts hm hp
      rw [heq] at hadd
      obtain ⟨m'', hcopy, hpair⟩ := Option.map_eq_some_iff.mp hadd
      obtain rfl : m'' = m' := (Prod.mk.inj hpair).1
      refine ⟨m₁, m'', hmoved, hcopy, fun off hoff hdvd l hl => ?_⟩
      refine (hkept m m'' fun x hx => ?_).mp hkeeps off hoff hdvd l l hl hl
      rw [copyBlocks_first hcopy, storeHdrs_behind (Nat.lt_of_lt_of_le (by decide) hx), hfirst]
    refine ⟨fun off hoff hdvd => ?_, fun off hoff hdvd hbehind l hl => ?_⟩
    · obtain ⟨m₁, m', -, hcopy, -⟩ := hrun (fun _ => b) (fun _ => b) hb
      exact located_of_copyBlocks (Option.isSome_iff_exists.mpr ⟨m', hcopy⟩) off
        ((hord.mem off).mpr ⟨hdvd, hoff⟩)
    have hlast' : ∀ {hdr : Nat → α} {m₁ m' : Media α}, copyBlocks
        (blockAt align 0 rin.part rin) (blockAt align align rin.part rout)
        (fwOffsets (copyLen poolSize rout)) (storeHdrs hdr (List.range' 1 p) m₁) = some m' →
        m' l = storeHdrs hdr (List.range' 1 p) m₁ l := by
      intro hdr m₁ m' hcopy
      refine copyBlocks_other hcopy fun off' hoff' heq => ?_
      rw [hself] at heq
      have := locate_inj hfit (Nat.zero_le align) hl heq
      have := ((hord.mem off').mp hoff').2
      omega
    obtain ⟨hone, part, hpart, -⟩ := locate_part hl
    have hlt := (List.getElem?_eq_some_iff.mp hpart).1
    rw [length_tail] at hlt
    refine ⟨fun hzero => ?_, fun off' hoff' hdvd' hl' => ?_⟩
    · obtain ⟨v, hv⟩ := exists_ne b
      obtain ⟨m₁, m', -, hcopy, hsame⟩ := hrun (fun _ => v) (fun _ => b) hb
      have hstored : storeHdrs (fun _ => v) (List.range' 1 p) m₁ l = v := by
        have hmem : l.1 ∈ List.range' 1 p := List.mem_range'_1.mpr (by omega)
        have hl0 : l = (l.1, 0) := Prod.ext rfl hzero
        rw [hl0]
        exact storeHdrs_const hmem
      exact hv ((hstored.symm.trans (hlast' hcopy).symm).trans (hsame off hoff hdvd l hl))
    · -- a block that has been overwritten with another one, which can be anything
      obtain ⟨s, hs⟩ := Option.isSome_iff_exists.mp (locate_isSome hcap (Nat.zero_le align) hoff')
      have hne : s ≠ l := (locate_before (Nat.zero_le align) hfit hs hl' (by
        have := h.pos
        omega)).ne
      have hmoved : ∀ m : Media α, size (m (0, poolHdrSize)) = poolSize → m s = m l := by
        intro m hm
        obtain ⟨m₁, m', hmoved, hcopy, hsame⟩ := hrun (fun _ => b) m hm
        have hbehind : 0 < l.2 := Nat.lt_of_lt_of_le h.pos (locate_part hl').2.choose_spec.2.1
        rw [← hsame off hoff hdvd l hl, hlast' hcopy, storeHdrs_behind hbehind,
          hmoved off' hoff' hdvd' l s hl' hs]
      obtain ⟨v, hv⟩ := exists_ne b
      have hupdate := hmoved (update (fun _ => b) s v) (by
        rw [update_of_ne fun heq => Nat.ne_of_lt (locate_part hs).1 (congrArg Prod.fst heq)]
        exact hb)
      rw [update_self, update_of_ne hne.symm, ← hmoved (fun _ => b) hb] at hupdate
      exact hv hupdate
  · intro hrestorable hdr fails m hm ⟨q, hq, hqf⟩
    rw [h.nhdrs] at hq
    have hparts : 1 < rin.part.length := by
      have := List.mem_range'_1.mp hq
      omega
    obtain ⟨p, hp⟩ := Option.isSome_iff_exists.mp (find?_isSome.mpr ⟨q, hq, hqf⟩)
    obtain ⟨-, halike⟩ := hmovable hparts
    obtain ⟨hthere, hrest⟩ := hrestorable hparts
    obtain ⟨m₁, hmoved, hfirst, hother, heq⟩ :=
        addHdrsReplica_fails hdr fails h hmovable hparts hm hp
    have hblocks : ∀ off ∈ fwOffsets (copyLen poolSize rout),
        blockAt align align rin.part rout off =
          some ((blockAt align align rin.part rout off).getD (0, 0)) ∧
        blockAt align 0 rin.part rin off =
          some ((blockAt align 0 rin.part rin off).getD (0, 0)) := by
      intro off hoff
      obtain ⟨hdvd, hlt⟩ := (hord.mem off).mp hoff
      obtain ⟨hs, hd⟩ := hthere off hlt hdvd
      obtain ⟨s, hs⟩ := Option.isSome_iff_exists.mp hs
      obtain ⟨d, hd⟩ := Option.isSome_iff_exists.mp hd
      rw [hs, hd]
      exact ⟨rfl, rfl⟩
    have hcopy := copyBlocks_eq hblocks (storeHdrs (hdr rout) (List.range' 1 p) m₁)
    refine ⟨_, by rw [heq, hcopy]; rfl, (hkept m _ fun x hx => ?_).mpr ?_⟩
    · rw [copyBlocks_first hcopy, storeHdrs_behind (Nat.lt_of_lt_of_le (by decide) hx), hfirst]
    intro off hoff hdvd w s hw hs
    obtain rfl : w = s := Option.some_inj.mp (hw.symm.trans hs)
    by_cases hback : off < copyLen poolSize rout
    · have hmem := (hord.mem off).mpr ⟨hdvd, hback⟩
      obtain ⟨l, hl⟩ := Option.isSome_iff_exists.mp (locate_isSome hcap (Nat.le_refl align) hoff)
      have hout : blockAt align align rin.part rout off = some l := by
        have hsame : blockAt align align rin.part rout off =
            blockAt align align rin.part rin off := by
          rw [blockAt, blockAt, halike off hoff hdvd]
        rw [hsame, blockAt_self h.pos h.fileIn (Nat.le_refl align), hl]
      have hmove := copyAll_moves
        (s := fun off => (blockAt align align rin.part rout off).getD (0, 0))
        (d := fun off => (blockAt align 0 rin.part rin off).getD (0, 0)) h.pos hfit hord
        (fun off hoff => (hself off).symm.trans (hblocks off hoff).2) hmem (by
          rw [hout, Option.getD_some]
          exact hl) (storeHdrs (hdr rout) (List.range' 1 p) m₁)
      rw [hself, hw, hout, Option.getD_some, Option.getD_some] at hmove
      have hbehind : 0 < l.2 := Nat.lt_of_lt_of_le h.pos (locate_part hl).2.choose_spec.2.1
      rw [hmove, storeHdrs_behind hbehind, hmoved off hoff hdvd l w hl hw]
    · obtain ⟨hnot, hapart⟩ := hrest off hoff hdvd (Nat.le_of_not_lt hback) w hw
      rw [copyBlocks_other hcopy fun off' hoff' heq => ?_, storeHdrs_behind
          (Nat.pos_of_ne_zero hnot),
        hother w hapart]
      rw [hself] at heq
      have := locate_inj hfit (Nat.zero_le align) hw heq
      have := ((hord.mem off').mp hoff').2
      omega

end Restore

/-! ## All replicas -/

section Set

variable {align} {size : α → Nat} {setIn setOut : PoolSet} {poolSize : Nat} {m₀ : Media α}

theorem eachReplica_iff {step : Replica → Replica → Media α → Option (Media α × Bool)}
    {P : Replica → Media α → Media α → Prop} {rins routs : List Replica} {files : List (Media α)}
    (hr : rins.length = routs.length) :
    (∃ files', eachReplica step rins routs files = some (files', true) ∧
        ∀ q ∈ rins.zip (files.zip files'), P q.1 q.2.1 q.2.2) ↔
      ∀ q ∈ (rins.zip routs).zip files,
        ∃ m', step q.1.1 q.1.2 q.2 = some (m', true) ∧ P q.1.1 q.2 m' := by
  induction rins generalizing routs files with
  | nil =>
    exact ⟨fun _ q hq => absurd hq (by simp),
      fun _ => ⟨files, rfl, fun q hq => absurd hq (by simp)⟩⟩
  | cons rin rins ih =>
    cases routs with
    | nil => exact absurd hr (Nat.succ_ne_zero _)
    | cons rout routs =>
      cases files with
      | nil =>
        exact ⟨fun _ q hq => absurd hq (by simp),
          fun _ => ⟨[], rfl, fun q hq => absurd hq (by simp)⟩⟩
      | cons m ms =>
        have ih := @ih routs ms (Nat.succ.inj hr)
        rw [zip_cons_cons, zip_cons_cons, forall_mem_cons, ← ih, eachReplica]
        constructor
        · rintro ⟨files', hrun, hall⟩
          obtain ⟨⟨m', ok⟩, hstep, hrest⟩ := Option.bind_eq_some_iff.mp hrun
          cases ok with
          | false => exact absurd (Prod.mk.inj (Option.some_inj.mp hrest)).2 nofun
          | true =>
            rw [if_pos rfl] at hrest
            obtain ⟨⟨ms', ok⟩, hloop, hpair⟩ := Option.map_eq_some_iff.mp hrest
            obtain ⟨rfl, rfl⟩ := Prod.mk.inj hpair
            obtain ⟨hfirst, hall⟩ := forall_mem_cons.mp hall
            exact ⟨⟨m', hstep, hfirst⟩, ms', hloop, hall⟩
        · rintro ⟨⟨m', hstep, hfirst⟩, ms', hrest, hall⟩
          refine ⟨m' :: ms', ?_, forall_mem_cons.mpr ⟨hfirst, hall⟩⟩
          rw [hstep, Option.bind_some, if_pos rfl, hrest]
          rfl

/-- Local sets of part files that `validate_args` accepts, for a pool of whole blocks that has room
in the replicas of the input set. -/
structure Accepted (align poolSize : Nat) (setIn setOut : PoolSet) : Prop where
  pos : 0 < align
  block : poolHdrSize ∣ align
  fileIn : ∀ rep ∈ setIn.replica, rep.FileBased align
  fileOut : ∀ rep ∈ setOut.replica, rep.FileBased align
  page : poolHdrSize ∣ poolSize
  roomIn : poolSize ≤ (utilPoolsetSetSize align setIn).poolsize
  roomOut : ¬(utilPoolsetSetSize align setOut).poolsize < poolSize

def Healthy (size : α → Nat) (poolSize : Nat) (setIn : PoolSet) (files : List (Media α)) : Prop :=
  files.length = setIn.replica.length ∧ ∀ m ∈ files, size (m (0, poolHdrSize)) = poolSize

def Preserved (align poolSize : Nat) (setIn setOut : PoolSet) (files files' : List (Media α)) :
    Prop :=
  ∀ q ∈ setIn.replica.zip (files.zip files'), ∀ rout ∈ setOut.replica,
    compareReplicas q.1 rout = false → ∀ x, poolHdrSize ≤ x → x < poolSize → poolHdrSize ∣ x →
      readPool align (setOut.hdrsize align) rout q.2.2 x =
        readPool align (setIn.hdrsize align) q.1 q.2.1 x

theorem checkComparePoolsetsStatus_same {s : CompareStatus}
    (h : checkComparePoolsetsStatus setIn setOut = some s) {r c : Nat}
    (hrc : s.inReplica r = some c) : ∃ rin rout, setIn.replica[r]? = some rin ∧
      setOut.replica[c]? = some rout ∧ compareReplicas rin rout = false := by
  unfold checkComparePoolsetsStatus at h
  generalize ((List.range setIn.replica.length).product (List.range setOut.replica.length)) = l at h
  revert h
  suffices hall : ∀ s₀ : CompareStatus, (∀ r c, s₀.inReplica r = some c → ∃ rin rout,
      setIn.replica[r]? = some rin ∧ setOut.replica[c]? = some rout ∧
        compareReplicas rin rout = false) → l.foldlM (compareStep setIn setOut) s₀ = some s →
      ∃ rin rout, setIn.replica[r]? = some rin ∧ setOut.replica[c]? = some rout ∧
        compareReplicas rin rout = false from hall _ fun r c h => absurd h nofun
  induction l with
  | nil =>
    intro s₀ hs₀ h
    obtain rfl : s₀ = s := Option.some_inj.mp h
    exact hs₀ r c hrc
  | cons k l ih =>
    intro s₀ hs₀ h
    rw [foldlM_cons, Option.bind_eq_bind] at h
    obtain ⟨s₁, hstep, hrest⟩ := Option.bind_eq_some_iff.mp h
    refine ih s₁ (fun r c hrc => ?_) hrest
    rw [compareStep] at hstep
    cases hin : setIn.replica[k.1]? with
    | none =>
      rw [hin] at hstep
      exact hs₀ r c (Option.some_inj.mp hstep ▸ hrc)
    | some repIn =>
      cases hout : setOut.replica[k.2]? with
      | none =>
        rw [hin, hout] at hstep
        exact hs₀ r c (Option.some_inj.mp hstep ▸ hrc)
      | some repOut =>
        rw [hin, hout] at hstep
        dsimp only at hstep
        split_ifs at hstep with hdiff
        · exact hs₀ r c (Option.some_inj.mp hstep ▸ hrc)
        · obtain rfl := Option.some_inj.mp hstep
          dsimp only at hrc
          by_cases hr : r = k.1
          · subst hr
            rw [update_self, Option.some_inj] at hrc
            subst hrc
            exact ⟨repIn, repOut, hin, hout, Bool.eq_false_of_not_eq_true hdiff⟩
          · rw [update_of_ne hr] at hrc
            exact hs₀ r c hrc

theorem transformOperation_spec (align : Nat) (bw : Bool)
    (h : transformOperation setIn setOut = if bw then .addHdrs else .rmHdrs) :
    setIn.replica ≠ [] ∧ setIn.hdrsize align = srcHdr align bw ∧
      setOut.hdrsize align = dstHdr align bw ∧ (bw = true → ∀ rep, setOut.nhdrs rep =
          rep.part.length) ∧
      ∀ rin ∈ setIn.replica, ∃ rout ∈ setOut.replica, compareReplicas rin rout = false := by
  rw [transformOperation] at h
  cases hno : setIn.nohdrs || setOut.nohdrs with
  | true => rw [hno, if_pos rfl] at h; cases bw <;> exact absurd h nofun
  | false =>
    rw [hno, if_neg Bool.false_ne_true] at h
    obtain ⟨hnoIn, hnoOut⟩ := Bool.or_eq_false_iff.mp hno
    cases hcheck : checkComparePoolsetsStatus setIn setOut with
    | none => rw [hcheck] at h; cases bw <;> exact absurd h nofun
    | some s =>
      rw [hcheck] at h
      have hfacts : ∀ keep removing adding singleIn singleOut bw : Bool,
          (if !keep then TransformOp.notTransformable
          else if adding && removing then .notTransformable
          else if !removing && !adding && singleIn == singleOut then .notTransformable
          else if (removing || adding) && singleIn != singleOut then .notTransformable
          else if removing then .rmReplicas
          else if adding then .addReplicas
          else if singleOut then .rmHdrs
          else if singleIn then .addHdrs
          else .notTransformable) = (if bw then .addHdrs else .rmHdrs) →
          keep = true ∧ removing = false ∧ singleIn = bw ∧ singleOut = !bw := by
        decide
      obtain ⟨hkeep, hremoving, hsingleIn, hsingleOut⟩ := hfacts _ _ _ _ _ bw h
      refine ⟨?_, ?_, ?_, ?_, fun rin hrin => ?_⟩
      · rintro hnil
        rw [hnil] at hkeep
        exact Bool.false_ne_true hkeep
      · rw [PoolSet.hdrsize, hsingleIn, hnoIn, Bool.or_false, srcHdr]
      · rw [PoolSet.hdrsize, hsingleOut, hnoOut, Bool.or_false, dstHdr]
        cases bw <;> rfl
      · rintro rfl rep
        rw [PoolSet.nhdrs, hsingleOut, hnoOut]
        rfl
      · obtain ⟨r, hr⟩ := getElem?_of_mem hrin
        have hlt := (List.getElem?_eq_some_iff.mp hr).1
        cases hc : s.inReplica r with
        | none =>
          have hnone := any_eq_false.mp hremoving r (mem_range.mpr hlt)
          rw [hc] at hnone
          exact absurd rfl hnone
        | some c =>
          obtain ⟨rin', rout, hin, hout, hsame⟩ := checkComparePoolsetsStatus_same hcheck hc
          obtain rfl := Option.some_inj.mp (hr.symm.trans hin)
          exact ⟨rout, mem_of_getElem? hout, hsame⟩

structure Facing (align poolSize : Nat) (bw : Bool) (setIn setOut : PoolSet) (rin rout : Replica) :
    Prop where
  fileIn : rin.FileBased align
  fileOut : rout.FileBased align
  small : poolSize < 2 ^ 64
  room : poolSize ≤ firstSize align rin + (rin.part.tail.map (dataSize align align)).sum
  hdrIn : setIn.hdrsize align = srcHdr align bw
  hdrOut : setOut.hdrsize align = dstHdr align bw
  nhdrs : bw = true → setOut.nhdrs rout = rout.part.length
  length : partCounts setIn = partCounts setOut → rin.part.length = rout.part.length

theorem poolsize_le {set : PoolSet} {rep : Replica} (hpos : 0 < align) (hrep : rep ∈ set.replica)
    (hfile : rep.FileBased align) : (utilPoolsetSetSize align set).poolsize ≤
      firstSize align rep + (rep.part.tail.map (dataSize align (set.hdrsize align))).sum := by
  obtain ⟨first, rest, hparts⟩ := exists_cons_of_ne_nil hfile.nonempty
  have hsized : set.sizedReplica align rep = _ := hfile.sizedReplica hpos hparts
  have hle := (@smallest_spec Replica.repsize (set.replica.map (set.sizedReplica align)) sizeMax _
    rfl).2.2 _ (mem_map_of_mem hrep) (by rw [hsized]; exact hfile.remote)
  rw [hsized] at hle
  rw [firstSize, hparts]
  exact hle

theorem Accepted.facing (h : Accepted align poolSize setIn setOut) (bw : Bool)
    (hop : transformOperation setIn setOut = if bw then .addHdrs else .rmHdrs)
    {rin rout : Replica} (hmem : (rin, rout) ∈ setIn.replica.zip setOut.replica) :
    Facing align poolSize bw setIn setOut rin rout := by
  obtain ⟨-, hsrc, hdst, hnhdrs, hcounter⟩ := transformOperation_spec align bw hop
  obtain ⟨hin, hout⟩ := of_mem_zip hmem
  have hroom : poolSize ≤ firstSize align rin + (rin.part.tail.map (dataSize align align)).sum := by
    cases bw with
    | false =>
      have hle := poolsize_le h.pos hin (h.fileIn rin hin)
      rw [hsrc] at hle
      exact h.roomIn.trans hle
    | true =>
      obtain ⟨rout', hout', hsame⟩ := hcounter rin hin
      have hle := poolsize_le h.pos hout' (h.fileOut rout' hout')
      rw [hdst] at hle
      have hroomOut := h.roomOut
      have hsizes := congrArg (List.map Prod.snd) (not_not.mp (of_decide_eq_false hsame))
      rw [map_map, map_map] at hsizes
      have hfirst : firstSize align rout' = firstSize align rin := by
        rw [firstSize, firstSize]
        cases hparts : rin.part <;> cases hparts' : rout'.part <;> rw [hparts, hparts'] at hsizes
        · exact absurd hsizes nofun
        · exact absurd hsizes nofun
        · exact congrArg (alignDown · align) (cons_eq_cons.mp hsizes).1.symm
      have htail : rout'.part.tail.map (dataSize align align) =
          rin.part.tail.map (dataSize align align) := by
        have htail := congrArg (fun l => l.tail.map fun n => alignDown n align - align) hsizes
        rw [← map_tail, ← map_tail, map_map, map_map] at htail
        exact htail.symm
      rw [dstHdr, if_pos rfl, htail, hfirst] at hle
      omega
  obtain ⟨-, -, hlt, -, hsum⟩ := firstSize_spec h.pos h.block (h.fileIn rin hin)
  refine ⟨h.fileIn rin hin, h.fileOut rout hout, by omega, hroom, hsrc, hdst,
    fun hbw => hnhdrs hbw rout, fun hcounts => ?_⟩
  obtain ⟨r, hr⟩ := getElem?_of_mem hmem
  obtain ⟨hr, hr'⟩ := getElem?_zip_eq_some.mp hr
  have hlen := congrArg (·[r]?) hcounts
  dsimp only [partCounts] at hlen
  rw [getElem?_map, getElem?_map, hr, hr', Option.map_some, Option.map_some,
    Option.some_inj] at hlen
  exact hlen

section Step

variable [Nontrivial α] {b : α} (hb : size b = poolSize) {bw : Bool} {rin rout : Replica}
  (hpos : 0 < align) (hblock : poolHdrSize ∣ align) (hpage : poolHdrSize ∣ poolSize)
include hb hpos hblock hpage

/-- `remove_hdrs_replica` keeps the pool of a replica, whatever it is, only if it is movable. -/
theorem removeHdrsReplica_iff (h : Facing align poolSize false setIn setOut rin rout)
    (hcounts : partCounts setIn = partCounts setOut) :
    (∀ (hdr : Replica → Nat → α) m, size (m (0, poolHdrSize)) = poolSize → ∃ m',
      removeHdrsReplica align size hdr setIn setOut rin rout m = some (m', true) ∧
        Kept align (setIn.hdrsize align) (setOut.hdrsize align) poolSize rin m m') ↔
      Movable align (setOut.hdrsize align) poolSize rin rout := by
  rw [h.hdrIn, h.hdrOut,
      ← copy_kept_iff false hpos hblock h.fileIn h.room hb h.fileOut hpage h.small
    fun _ => ordered_fwOffsets]
  have hstore : ∀ (hdr : Nat → α) (m m' : Media α),
      Kept align align 0 poolSize rin m (storeHdrs hdr [0] m') ↔
          Kept align align 0 poolSize rin m m' :=
    fun hdr m m' => kept_congr (fun x hx => storeHdrs_behind (Nat.lt_of_lt_of_le (by decide) hx))
      fun l hl _ => storeHdrs_apply fun p hp heq => by
        obtain rfl := mem_singleton.mp hp
        exact absurd (congrArg Prod.fst heq) (Nat.ne_of_gt hl)
  have hrun : ∀ (hdr : Replica → Nat → α) (m : Media α),
      removeHdrsReplica align size hdr setIn setOut rin rout m =
        (if 1 < rin.part.length then copyBlocks (blockAt align (dstHdr align false) rin.part rout)
          (blockAt align (srcHdr align false) rin.part rin)
          (fwOffsets (copyLen (size (m (0, poolHdrSize))) rin)) m
        else some m).map fun m => (storeHdrs (hdr rout) [0] m, true) := by
    intro hdr m
    rw [removeHdrsReplica, if_neg (not_not_intro hcounts), copyReplicaDataFw, h.hdrIn, h.hdrOut]
  constructor
  · intro hall m hm
    obtain ⟨m', hstep, hkept⟩ := hall (fun _ _ => b) m hm
    rw [hrun] at hstep
    obtain ⟨m'', hcopy, hpair⟩ := Option.map_eq_some_iff.mp hstep
    obtain rfl := (Prod.mk.inj hpair).1
    exact ⟨m'', hcopy, (hstore _ m m'').mp hkept⟩
  · intro hall hdr m hm
    obtain ⟨m', hcopy, hkept⟩ := hall m hm
    exact ⟨_, by rw [hrun, hcopy]; rfl, (hstore _ m m').mpr hkept⟩

theorem addHdrsReplica_iff (h : Facing align poolSize true setIn setOut rin rout)
    (hcounts : partCounts setIn = partCounts setOut) :
    (∀ (hdr : Replica → Nat → α) m, size (m (0, poolHdrSize)) = poolSize → ∃ m',
      addHdrsReplica align size hdr (fun _ _ => false) setIn setOut rin rout m = some (m', true) ∧
        Kept align (setIn.hdrsize align) (setOut.hdrsize align) poolSize rin m m') ↔
      Movable align (setOut.hdrsize align) poolSize rin rout := by
  rw [h.hdrIn, h.hdrOut, ← copy_kept_iff true hpos hblock h.fileIn h.room hb h.fileOut hpage h.small
    fun _ => ordered_bwOffsets]
  have hstore : ∀ (hdr : Nat → α) (ps : List Nat) (m m' : Media α),
      Kept align 0 align poolSize rin m (storeHdrs hdr ps m') ↔
          Kept align 0 align poolSize rin m m' :=
    fun hdr ps m m' => kept_congr (fun x hx => storeHdrs_behind (Nat.lt_of_lt_of_le (by decide) hx))
      fun l _ hl => storeHdrs_behind (Nat.lt_of_lt_of_le hpos hl)
  have hrun : ∀ (hdr : Replica → Nat → α) (m : Media α),
      addHdrsReplica align size hdr (fun _ _ => false) setIn setOut rin rout m =
        (if 1 < rin.part.length then copyBlocks (blockAt align (dstHdr align true) rin.part rout)
          (blockAt align (srcHdr align true) rin.part rin)
          (bwOffsets (copyLen (size (m (0, poolHdrSize))) rin)) m
        else some m).map fun m => (storeHdrs (hdr rout) (List.range (setOut.nhdrs rout))
          (storeHdrs (hdr rout) (List.range' 1 (setOut.nhdrs rout - 1)) m), true) := by
    intro hdr m
    have hnone : (List.range' 1 (setOut.nhdrs rout - 1)).find? (fun _ => false) = none :=
      find?_eq_none.mpr fun _ _ => Bool.false_ne_true
    rw [addHdrsReplica, if_neg (not_not_intro hcounts), copyReplicaDataBw, h.hdrIn, h.hdrOut]
    simp only [createMissingHeaders, hnone, if_true]
    rw [Option.map_eq_bind]
    rfl
  constructor
  · intro hall m hm
    obtain ⟨m', hstep, hkept⟩ := hall (fun _ _ => b) m hm
    rw [hrun] at hstep
    obtain ⟨m'', hcopy, hpair⟩ := Option.map_eq_some_iff.mp hstep
    obtain rfl := (Prod.mk.inj hpair).1
    exact ⟨m'', hcopy, (hstore _ _ m m'').mp ((hstore _ _ m _).mp hkept)⟩
  · intro hall hdr m hm
    obtain ⟨m', hcopy, hkept⟩ := hall m hm
    exact ⟨_, by rw [hrun, hcopy]; rfl, (hstore _ _ m _).mpr ((hstore _ _ m m').mpr hkept)⟩

end Step

theorem eachReplica_eq_none {step : Replica → Replica → Media α → Option (Media α × Bool)}
    {rins routs : List Replica} {files : List (Media α)} (hin : rins ≠ []) (hout : routs ≠ [])
    (hfiles : files ≠ []) (hstep : ∀ rin rout m, step rin rout m = none) :
    eachReplica step rins routs files = none := by
  obtain ⟨rin, rins, rfl⟩ := exists_cons_of_ne_nil hin
  obtain ⟨rout, routs, rfl⟩ := exists_cons_of_ne_nil hout
  obtain ⟨m, files, rfl⟩ := exists_cons_of_ne_nil hfiles
  rw [eachReplica, hstep, Option.bind_none]

theorem preserved_iff {files files' : List (Media α)}
    (hcounter : ∀ rin ∈ setIn.replica, ∃ rout ∈ setOut.replica, compareReplicas rin rout = false) :
    Preserved align poolSize setIn setOut files files' ↔
      ∀ q ∈ setIn.replica.zip (files.zip files'),
        Kept align (setIn.hdrsize align) (setOut.hdrsize align) poolSize q.1 q.2.1 q.2.2 := by
  refine forall₂_congr fun q hq => ?_
  constructor
  · intro h x hx hlt hdvd
    obtain ⟨rout, hrout, hsame⟩ := hcounter q.1 (of_mem_zip hq).1
    rw [← h rout hrout hsame x hx hlt hdvd, readPool_congr hsame]
  · intro h rout _ hsame x hx hlt hdvd
    rw [readPool_congr hsame]
    exact h x hx hlt hdvd

/-- An operation preserves the pool, whatever is in the files, if it does so for each replica. -/
theorem eachReplica_preserved_iff
    {step : (Replica → Nat → α) → Replica → Replica → Media α → Option (Media α × Bool)}
    (hcounter : ∀ rin ∈ setIn.replica, ∃ rout ∈ setOut.replica, compareReplicas rin rout = false)
    (hlength : setIn.replica.length = setOut.replica.length) :
    (∀ hdr files, Healthy size poolSize setIn files → ∃ files',
        eachReplica (step hdr) setIn.replica setOut.replica files = some (files', true) ∧
          Preserved align poolSize setIn setOut files files') ↔
      ∀ q ∈ setIn.replica.zip setOut.replica, ∀ hdr m, size (m (0, poolHdrSize)) = poolSize →
        ∃ m', step hdr q.1 q.2 m = some (m', true) ∧
          Kept align (setIn.hdrsize align) (setOut.hdrsize align) poolSize q.1 m m' := by
  have heach : ∀ hdr files, (∃ files', eachReplica (step hdr) setIn.replica setOut.replica files =
      some (files', true) ∧ Preserved align poolSize setIn setOut files files') ↔ _ :=
    fun hdr files => (exists_congr fun files' => and_congr_right fun _ =>
      preserved_iff hcounter).trans (eachReplica_iff hlength)
  constructor
  · intro hall q hq hdr m hm
    obtain ⟨r, hr⟩ := getElem?_of_mem hq
    have hlt : r < setIn.replica.length :=
      (List.getElem?_eq_some_iff.mp (getElem?_zip_eq_some.mp hr).1).1
    have hmem : (q, m) ∈ (setIn.replica.zip setOut.replica).zip
        (List.replicate setIn.replica.length m) :=
      mem_of_getElem? (getElem?_zip_eq_some.mpr ⟨hr, getElem?_replicate_of_lt hlt⟩)
    exact (heach hdr _).mp (hall hdr _ ⟨length_replicate, fun m' hm' =>
      (eq_of_mem_replicate hm').symm ▸ hm⟩) _ hmem
  · intro hall hdr files hfiles
    refine (heach hdr files).mpr fun q hq => ?_
    obtain ⟨hpair, hm⟩ := of_mem_zip hq
    exact hall q.1 hpair hdr q.2 (hfiles.2 q.2 hm)

theorem counts_of_run
    {step : (Replica → Nat → α) → Replica → Replica → Media α → Option (Media α × Bool)} {b : α}
    (hb : size b = poolSize) (hne : setIn.replica ≠ [])
    (hcounter : ∀ rin ∈ setIn.replica, ∃ rout ∈ setOut.replica, compareReplicas rin rout = false)
    (hstep : partCounts setIn ≠ partCounts setOut → ∀ hdr rin rout m, step hdr rin rout m = none)
    (hrun : ∀ hdr files, Healthy size poolSize setIn files → ∃ files',
      eachReplica (step hdr) setIn.replica setOut.replica files = some (files', true) ∧
        Preserved align poolSize setIn setOut files files') :
    partCounts setIn = partCounts setOut := by
  by_contra hcounts
  obtain ⟨rin, rins, hrins⟩ := exists_cons_of_ne_nil hne
  obtain ⟨rout, hrout, -⟩ := hcounter rin (hrins ▸ mem_cons_self)
  obtain ⟨files', hend, -⟩ := hrun (fun _ _ => b) (List.replicate setIn.replica.length fun _ => b)
    ⟨length_replicate, fun m hm => eq_of_mem_replicate hm ▸ hb⟩
  rw [eachReplica_eq_none hne (ne_nil_of_mem hrout) (by rw [hrins]; exact nofun)
    (hstep hcounts _)] at hend
  exact absurd hend nofun

theorem length_of_counts (h : partCounts setIn = partCounts setOut) :
    setIn.replica.length = setOut.replica.length := by
  have := congrArg List.length h
  rwa [partCounts, partCounts, length_map, length_map] at this

theorem removeHdrs_preserves_iff [Nontrivial α] (h : Accepted align poolSize setIn setOut) {b : α}
    (hb : size b = poolSize) (hop : transformOperation setIn setOut = .rmHdrs)
    (hcounts : partCounts setIn = partCounts setOut) :
    (∀ hdr files, Healthy size poolSize setIn files → ∃ files',
        removeHdrs align size hdr setIn setOut files = some (files', true) ∧
          Preserved align poolSize setIn setOut files files') ↔
      ∀ q ∈ setIn.replica.zip setOut.replica,
        Movable align (setOut.hdrsize align) poolSize q.1 q.2 := by
  obtain ⟨-, -, -, -, hcounter⟩ := transformOperation_spec align false hop
  refine (eachReplica_preserved_iff hcounter (length_of_counts hcounts)).trans
    (forall₂_congr fun q hq => ?_)
  exact removeHdrsReplica_iff hb h.pos h.block h.page (h.facing false hop hq) hcounts

/-- Removing and adding headers preserves all pools of a given size only if each replica with more
than one part is movable, and, when headers are added, restorable. -/
theorem replicaTransform_preserves_iff [Nontrivial α] (h : Accepted align poolSize setIn setOut)
    (size : α → Nat) {b : α} (hb : size b = poolSize) :
    (transformOperation setIn setOut = .rmHdrs →
      ((∀ hdr files, Healthy size poolSize setIn files → ∃ files',
          removeHdrs align size hdr setIn setOut files = some (files', true) ∧
            Preserved align poolSize setIn setOut files files') ↔
        partCounts setIn = partCounts setOut ∧ ∀ q ∈ setIn.replica.zip setOut.replica,
          Movable align (setOut.hdrsize align) poolSize q.1 q.2)) ∧
    (transformOperation setIn setOut = .addHdrs →
      (((∀ hdr files, Healthy size poolSize setIn files → ∃ files',
            addHdrs align size hdr (fun _ _ => false) setIn setOut files = some (files', true) ∧
              Preserved align poolSize setIn setOut files files') ∧
          ∀ q ∈ setIn.replica.zip setOut.replica, ∀ (hdr : Replica → Nat → α) fails m,
            size (m (0, poolHdrSize)) = poolSize →
            (∃ p ∈ List.range' 1 (setOut.nhdrs q.2 - 1), fails q.2 p = true) → ∃ m',
              addHdrsReplica align size hdr fails setIn setOut q.1 q.2 m = some (m', false) ∧
                Kept align (setIn.hdrsize align) (setIn.hdrsize align) poolSize q.1 m m') ↔
        partCounts setIn = partCounts setOut ∧ ∀ q ∈ setIn.replica.zip setOut.replica,
          Movable align (setOut.hdrsize align) poolSize q.1 q.2 ∧
            Restorable align poolSize q.1 q.2)) := by
  refine ⟨fun hop => ?_, fun hop => ?_⟩
  · obtain ⟨hne, -, -, -, hcounter⟩ := transformOperation_spec align false hop
    constructor
    · intro hrun
      have hcounts := counts_of_run hb hne hcounter (fun hcounts _ _ _ _ => if_pos hcounts) hrun
      exact ⟨hcounts, (removeHdrs_preserves_iff h hb hop hcounts).mp hrun⟩
    · rintro ⟨hcounts, hall⟩
      exact (removeHdrs_preserves_iff h hb hop hcounts).mpr hall
  · obtain ⟨hne, hhdrIn, hhdrOut, -, hcounter⟩ :=
      transformOperation_spec align true hop
    have hadding : partCounts setIn = partCounts setOut → ∀ q ∈ setIn.replica.zip setOut.replica,
        Adding align poolSize setIn setOut q.1 q.2 := fun hcounts q hq =>
      have hface := h.facing true hop hq
      ⟨h.pos, h.block, hface.fileIn, hface.fileOut, h.page, hface.small, hface.room, hface.hdrIn,
        hface.hdrOut, (hface.nhdrs rfl).trans (hface.length hcounts).symm, hcounts⟩
    have hrestored : ∀ q ∈ setIn.replica.zip setOut.replica,
        (hcounts : partCounts setIn = partCounts setOut) →
        Movable align (setOut.hdrsize align) poolSize q.1 q.2 → _ := fun q hq hcounts hmovable =>
      restored_iff (hadding hcounts q hq) (by rwa [hhdrOut] at hmovable) hb
    constructor
    · rintro ⟨hrun, hfail⟩
      have hcounts := counts_of_run hb hne hcounter (fun hcounts _ _ _ _ => if_pos hcounts) hrun
      refine ⟨hcounts, fun q hq => ?_⟩
      have hmovable := (addHdrsReplica_iff hb h.pos h.block h.page (h.facing true hop hq)
        hcounts).mp fun hdr m hm =>
          (eachReplica_preserved_iff hcounter (length_of_counts hcounts)).mp hrun q hq hdr m hm
      refine ⟨hmovable, (hrestored q hq hcounts hmovable).mp fun hdr fails m hm hfails => ?_⟩
      have hkept := hfail q hq hdr fails m hm hfails
      rwa [hhdrIn] at hkept
    · rintro ⟨hcounts, hall⟩
      refine ⟨(eachReplica_preserved_iff hcounter (length_of_counts hcounts)).mpr fun q hq => ?_,
        fun q hq hdr fails m hm hfails => ?_⟩
      · exact (addHdrsReplica_iff hb h.pos h.block h.page (h.facing true hop hq)
          hcounts).mpr (hall q hq).1
      · rw [hhdrIn]
        exact (hrestored q hq hcounts (hall q hq).1).mpr (hall q hq).2 hdr fails m hm hfails

end Set

/-! ## Two sets -/

def filePart (name : Char) (filesize : Nat) : Part :=
  ⟨[name], filesize, 4096, -1, false, 0, 0, false, 0, 0, false⟩

def fileSet (singlehdr : Bool) (replica : List (List Part)) : PoolSet :=
  ⟨replica.map fun part => ⟨part, [], 0, 0, 0, false⟩, 0, 0, singlehdr, false, false, 0, 0, false⟩

theorem accepted_fileSet {singleIn singleOut : Bool} {replica : List (List Part)} {poolSize : Nat}
    (hparts : ∀ part ∈ replica, part ≠ [] ∧ (∀ p ∈ part, p.alignment = 4096 ∧
        2 * 4096 ≤ p.filesize) ∧
      (part.map (·.filesize)).sum < 2 ^ 63) (hpage : 4096 ∣ poolSize)
    (hin : poolSize ≤ (utilPoolsetSetSize 4096 (fileSet singleIn replica)).poolsize)
    (hout : poolSize ≤ (utilPoolsetSetSize 4096 (fileSet singleOut replica)).poolsize) :
    Accepted 4096 poolSize (fileSet singleIn replica) (fileSet singleOut replica) := by
  have hfile : ∀ rep ∈ replica.map fun part => (⟨part, [], 0, 0, 0, false⟩ : Replica),
      rep.FileBased 4096 := by
    intro rep hrep
    obtain ⟨part, hpart, rfl⟩ := mem_map.mp hrep
    obtain ⟨hne, hpaged, hsum⟩ := hparts part hpart
    exact ⟨rfl, rfl, rfl, hne, fun p hp => ⟨(hpaged p hp).1, (hpaged p hp).2⟩, hsum⟩
  exact ⟨by decide, Nat.dvd_refl _, hfile, hfile, hpage, hin, Nat.not_lt.mpr hout⟩

def twoParts (singlehdr : Bool) : PoolSet :=
  fileSet singlehdr [[filePart 'a' 8388608, filePart 'b' 8388608]]

theorem replicaTransform_preserves_twoParts :
    Accepted 4096 16773120 (twoParts false) (twoParts true) ∧ ∀ hdr files,
      Healthy Prod.fst 16773120 (twoParts false) files → ∃ files',
        removeHdrs 4096 (Prod.fst : Nat × Nat → Nat) hdr (twoParts false) (twoParts true) files =
            some (files', true) ∧
          Preserved 4096 16773120 (twoParts false) (twoParts true) files files' := by
  have haccepted : Accepted 4096 16773120 (twoParts false) (twoParts true) :=
    accepted_fileSet (by decide +kernel) (by decide +kernel) (by decide +kernel) (by decide +kernel)
  refine ⟨haccepted, ((replicaTransform_preserves_iff haccepted Prod.fst (b := (16773120, 0)) rfl).1
    (by decide +kernel)).mpr ⟨rfl, fun q hq => ?_⟩⟩
  obtain rfl := List.mem_singleton.mp hq
  exact fun _ => ⟨by decide +kernel, fun _ _ _ => rfl⟩

def largePart (singlehdr : Bool) : PoolSet :=
  fileSet singlehdr [[filePart 'a' 8388608], [filePart 'b' 12582912, filePart 'c' 8388608]]

/-- The length of the second replica wraps. -/
theorem largePart_not_preserved :
    Accepted 4096 8388608 (largePart false) (largePart true) ∧
      transformOperation (largePart false) (largePart true) = .rmHdrs ∧
      ¬∀ hdr files, Healthy Prod.fst 8388608 (largePart false) files → ∃ files',
        removeHdrs 4096 (Prod.fst : Nat × Nat → Nat) hdr (largePart false) (largePart true) files =
            some (files', true) ∧
          Preserved 4096 8388608 (largePart false) (largePart true) files files' := by
  have haccepted : Accepted 4096 8388608 (largePart false) (largePart true) :=
    accepted_fileSet (by decide +kernel) (by decide +kernel) (by decide +kernel) (by decide +kernel)
  have hop : transformOperation (largePart false) (largePart true) = .rmHdrs := by decide +kernel
  refine ⟨haccepted, hop, fun hrun => ?_⟩
  have hmem : ((largePart false).replica[1], (largePart true).replica[1]) ∈
      (largePart false).replica.zip (largePart true).replica :=
    List.mem_cons_of_mem _ List.mem_cons_self
  have hmovable := (removeHdrs_preserves_iff haccepted
      (b := (8388608, 0)) rfl hop rfl).mp hrun _ hmem
  exact absurd (hmovable (by decide)).1 (by decide +kernel)

end Transform

end Pmdk.Poolset
