import Pmdk.Pool.Replicas
import Pmdk.Pool.SyncParts

/-!
# The parts tile the replica

When `mmap` maps where it is told to, the parts of a replica lie one behind the other, and their
sizes add up to the size that `util_poolset_set_size` computes.
-/

namespace Pmdk.Poolset

open Sync (alignDown alignUp poolHdrSize alignUp_of_dvd)
open List

variable {align : Nat} {rep : Replica} {set : PoolSet} {part : Part} {parts : List Part}

/-! ## Replicas of files -/

structure Part.Paged (align : Nat) (part : Part) : Prop where
  alignment : part.alignment = align
  size : 2 * align ≤ part.filesize

structure Replica.FileBased (align : Nat) (rep : Replica) : Prop where
  remote : rep.remote = false
  directory : rep.directory = []
  resvsize : rep.resvsize = 0
  nonempty : rep.part ≠ []
  paged : ∀ p ∈ rep.part, p.Paged align
  bound : (rep.part.map (·.filesize)).sum < 2 ^ 63

def dataSize (align hdrsize : Nat) (part : Part) : Nat := alignDown part.filesize align - hdrsize

/-- `mmap` does not fail, and maps where it is told to. -/
structure Answers (align : Nat) (mmap : Nat → Nat → Nat → Nat → MmapResult) : Prop where
  first : ∀ addr size offset, align ∣ addr →
    ∃ base, (mmap 0 addr size offset).addr = some base ∧ align ∣ base
  fixed : ∀ p addr size offset, (mmap (p + 1) addr size offset).addr = some addr

def Part.span (part : Part) : Span := ⟨part.addr, part.addr + part.size⟩

def Replica.Tiled (rep : Replica) : Prop :=
  ∃ first rest, rep.part = first :: rest ∧
    Span.Tiles first.addr (rep.part.map Part.span) (first.addr + rep.repsize)

theorem PoolSet.hdrsize_cases (align : Nat) (set : PoolSet) :
    set.hdrsize align = 0 ∨ set.hdrsize align = align := by
  rw [PoolSet.hdrsize]
  split
  · exact Or.inl rfl
  · exact Or.inr rfl

theorem Part.Paged.le_alignDown (h : part.Paged align) (hpos : 0 < align) :
    2 * align ≤ alignDown part.filesize align := by
  rw [alignDown]
  exact Nat.mul_le_mul_right align ((Nat.le_div_iff_mul_le hpos).mpr h.size)

theorem Part.Paged.alignDown_sub {hdrsize : Nat} (hhdr : hdrsize = 0 ∨ hdrsize = align) :
    alignDown (part.filesize - hdrsize) align = dataSize align hdrsize part := by
  rw [dataSize]
  rcases hhdr with rfl | rfl
  · rfl
  · exact Sync.alignDown_sub _ _

theorem Part.Paged.dataSize_pos {hdrsize : Nat} (h : part.Paged align) (hpos : 0 < align)
    (hhdr : hdrsize = 0 ∨ hdrsize = align) : 0 < dataSize align hdrsize part := by
  have := h.le_alignDown hpos
  rw [dataSize]
  omega

theorem dvd_dataSize {hdrsize : Nat} (hhdr : hdrsize = 0 ∨ hdrsize = align) :
    align ∣ dataSize align hdrsize part := by
  refine Nat.dvd_sub (dvd_alignDown _ _) ?_
  rcases hhdr with rfl | rfl
  · exact Nat.dvd_zero _
  · exact Nat.dvd_refl _

/-! ## The size of a replica -/

theorem sum_alignDown_le (align : Nat) (parts : List Part) :
    (parts.map fun p => alignDown p.filesize align).sum ≤ (parts.map (·.filesize)).sum := by
  induction parts with
  | nil => exact Nat.le_refl 0
  | cons p parts ih =>
    rw [map_cons, map_cons, sum_cons, sum_cons]
    exact Nat.add_le_add (alignDown_le _ _) ih

theorem sum_dataSize {hdrsize : Nat} (hpos : 0 < align) (hhdr : hdrsize = 0 ∨ hdrsize = align)
    (hpaged : ∀ p ∈ parts, p.Paged align) :
    (parts.map (dataSize align hdrsize)).sum + parts.length * hdrsize =
      (parts.map fun p => alignDown p.filesize align).sum := by
  induction parts with
  | nil => simp
  | cons p parts ih =>
    have hle := (hpaged p mem_cons_self).le_alignDown hpos
    have ih := ih fun q hq => hpaged q (mem_cons_of_mem p hq)
    rw [map_cons, map_cons, sum_cons, sum_cons, ← ih, length_cons, Nat.succ_mul, dataSize]
    omega

theorem Replica.FileBased.sizedReplica (h : rep.FileBased align) (hpos : 0 < align) {first : Part}
    {rest : List Part} (hparts : rep.part = first :: rest) :
    set.sizedReplica align rep = { rep with
      nhdrs := set.nhdrs rep
      repsize := alignDown first.filesize align +
        (rest.map (dataSize align (set.hdrsize align))).sum
      resvsize := alignDown first.filesize align +
        (rest.map (dataSize align (set.hdrsize align))).sum } := by
  have hhdr := set.hdrsize_cases align
  have hpaged := h.paged
  have hbound := h.bound
  have hle := sum_alignDown_le align rep.part
  rw [hparts] at hpaged hbound hle
  have hrest := sum_dataSize hpos hhdr fun q hq => hpaged q (mem_cons_of_mem first hq)
  rw [map_cons, sum_cons] at hbound
  rw [map_cons, sum_cons, map_cons, sum_cons] at hle
  have hsum : sumParts align rep.part = alignDown first.filesize align +
      ((rest.map (dataSize align (set.hdrsize align))).sum + rest.length * set.hdrsize align) := by
    rw [hrest, hparts, sumParts, sumParts_eq, map_cons, sum_cons, Nat.zero_add]
    rw [map_cons, sum_cons]
    omega
  have hrepsize : (if 0 < set.nhdrs rep then
      (sumParts align rep.part + 2 ^ 64 - (set.nhdrs rep - 1) * align % 2 ^ 64) % 2 ^ 64
      else sumParts align rep.part) = alignDown first.filesize align +
        (rest.map (dataSize align (set.hdrsize align))).sum := by
    have hmul : (set.nhdrs rep - 1) * align = rest.length * set.hdrsize align := by
      rw [PoolSet.nhdrs, PoolSet.hdrsize, hparts]
      cases set.singlehdr with
      | true => simp
      | false => cases set.nohdrs <;> simp
    by_cases hzero : 0 < set.nhdrs rep
    · have hlt : rest.length * set.hdrsize align < 2 ^ 64 := by omega
      rw [if_pos hzero, hmul, hsum, Nat.mod_eq_of_lt hlt]
      have heq : alignDown first.filesize align +
          ((rest.map (dataSize align (set.hdrsize align))).sum +
            rest.length * set.hdrsize align) + 2 ^ 64 - rest.length * set.hdrsize align =
          alignDown first.filesize align +
            (rest.map (dataSize align (set.hdrsize align))).sum + 2 ^ 64 := by omega
      rw [heq, Nat.add_mod_right, Nat.mod_eq_of_lt (by omega)]
    · have hnone : rest.length * set.hdrsize align = 0 := by
        rw [← hmul, Nat.eq_zero_of_not_pos hzero, Nat.zero_sub, Nat.zero_mul]
      rw [if_neg hzero, hsum, hnone, Nat.add_zero]
  rw [PoolSet.sizedReplica, hrepsize, if_pos h.resvsize]

/-! ## Mapping the parts -/

variable {mmap : Nat → Nat → Nat → Nat → MmapResult}

section Mapping

variable {hdrsize : Nat} (hpos : 0 < align) (hhdr : hdrsize = 0 ∨ hdrsize = align)
include hpos hhdr

theorem utilMapPart_paged {mmap : Nat → Nat → Nat → MmapResult} {addr : Nat}
    (h : part.Paged align) (hsize : part.filesize < 2 ^ 63) (haddr : align ∣ addr)
    (hmmap : ∀ size offset, (mmap addr size offset).addr = some addr) :
    ∃ mapSync, utilMapPart align mmap part addr 0 hdrsize true =
      .ok { part with addr := addr, size := dataSize align hdrsize part, mapSync := mapSync } := by
  have hoffset : align ∣ hdrsize := by
    rcases hhdr with rfl | rfl
    · exact Nat.dvd_zero _
    · exact Nat.dvd_refl _
  have hle := h.size
  have hfile : hdrsize < part.filesize := by omega
  have hmap : utilMapPart align mmap part addr 0 hdrsize true = _ := utilMapPart_eq haddr hoffset
    (Nat.dvd_zero align) (Nat.lt_trans hfile hsize) h.alignment hfile (hmmap _ _) fun _ => rfl
  rw [if_pos rfl, Part.Paged.alignDown_sub hhdr] at hmap
  exact ⟨_, hmap⟩

theorem mapParts_tiles (hmmap : Answers align mmap)
    (hpaged : ∀ p ∈ parts, p.Paged align) (hbound : (parts.map (·.filesize)).sum < 2 ^ 63)
    {p addr mapsize : Nat} {limit : Option Nat} (haddr : align ∣ addr)
    (hlimit : ∀ resv ∈ limit, mapsize + (parts.map (dataSize align hdrsize)).sum ≤ resv) :
    ∃ parts', mapParts align hdrsize limit mmap (p + 1) parts addr mapsize =
        .ok (parts', mapsize + (parts.map (dataSize align hdrsize)).sum) ∧
      parts'.map (·.path) = parts.map (·.path) ∧ Span.Tiles addr (parts'.map Part.span)
        (addr + (parts.map (dataSize align hdrsize)).sum) := by
  induction parts generalizing p addr mapsize with
  | nil => exact ⟨[], rfl, rfl, rfl⟩
  | cons part parts ih =>
    rw [map_cons, sum_cons] at hbound
    rw [map_cons, sum_cons, ← Nat.add_assoc] at hlimit ⊢
    have hpart := hpaged part mem_cons_self
    obtain ⟨mapSync, hmap⟩ := utilMapPart_paged hpos hhdr hpart (by omega) haddr
      fun size offset => hmmap.fixed p addr size offset
    obtain ⟨parts', hrest, hpaths, htiles⟩ := ih (fun q hq => hpaged q (mem_cons_of_mem part hq))
      (by omega) (p := p + 1) (Nat.dvd_add haddr (dvd_dataSize hhdr)) hlimit
    have hle := hpart.size
    have hfile : (part.filesize + 2 ^ 64 - hdrsize) % 2 ^ 64 = part.filesize - hdrsize := by
      rw [Nat.sub_add_comm (by omega), Nat.add_mod_right, Nat.mod_eq_of_lt (by omega)]
    have hroom : ¬limit.any (· < mapsize + dataSize align hdrsize part) = true := by
      rw [Option.any_eq_true]
      rintro ⟨resv, hresv, hlt⟩
      have := hlimit resv hresv
      have := of_decide_eq_true hlt
      omega
    rw [mapParts, hfile, hpart.alignment, Part.Paged.alignDown_sub hhdr, if_neg hroom, hmap]
    dsimp only
    rw [hrest]
    refine ⟨_, rfl, congrArg (part.path :: ·) hpaths, rfl, Nat.le_add_right _ _, ?_⟩
    rw [← Nat.add_assoc]
    exact htiles

end Mapping

structure Placed (rep placed : Replica) : Prop where
  tiled : placed.Tiled
  paths : placed.part.map (·.path) = rep.part.map (·.path)
  repsize : placed.repsize = rep.repsize

theorem placed_of_first {hdrsize : Nat} (hpos : 0 < align) (hhdr : hdrsize = 0 ∨ hdrsize = align)
    (hmmap : Answers align mmap) {first : Part}
    (hpaged : ∀ p ∈ parts, p.Paged align) (hbound : (parts.map (·.filesize)).sum < 2 ^ 63)
    (hpaths : rep.part.map (·.path) = first.path :: parts.map (·.path)) (haddr : align ∣ first.addr)
    (hrepsize : rep.repsize =
      alignDown first.filesize align + (parts.map (dataSize align hdrsize)).sum)
    {limit : Option Nat} (hlimit : ∀ resv ∈ limit, rep.repsize ≤ resv) (checkHdr : Bool) :
    ∃ rest mapsize placed, mapParts align hdrsize limit mmap 1 parts
        (first.addr + alignDown first.filesize align) (alignDown first.filesize align) =
          .ok (rest, mapsize) ∧
      Placed rep placed ∧ finishMap align checkHdr rep first rest mapsize =
        if utilReplicaCheckMapSync checkHdr placed then .ok placed else .error .mapSync := by
  rw [hrepsize] at hlimit
  obtain ⟨rest, hrest, hrestPaths, htiles⟩ := mapParts_tiles hpos hhdr hmmap hpaged hbound (p := 0)
    (Nat.dvd_add haddr (dvd_alignDown first.filesize align)) hlimit
  rw [Nat.add_assoc, ← hrepsize] at htiles
  let placed : Replica :=
    { rep with part := { first with size := alignDown first.filesize align } :: rest }
  refine ⟨rest, _, placed, hrest, ⟨⟨_, rest, rfl, rfl, Nat.le_add_right _ _, htiles⟩, ?_, rfl⟩, ?_⟩
  · rw [hpaths, ← hrestPaths]
    rfl
  · rw [finishMap, ← hrepsize, if_neg (not_not_intro rfl)]
    cases utilReplicaCheckMapSync checkHdr placed with
    | true => rfl
    | false => rfl

theorem utilMapPart_first (hpos : 0 < align) (hmmap : Answers align mmap) {addr size : Nat}
    (h : part.Paged align) (haddr : align ∣ addr) (hsize : align ∣ size) (hzero : 0 < size) :
    ∃ first, utilMapPart align (mmap 0) part addr size 0 false = .ok first ∧
      align ∣ first.addr ∧ first.path = part.path ∧ first.filesize = part.filesize := by
  obtain ⟨base, hbase, hdvd⟩ := hmmap.first addr size 0 haddr
  have hle := h.size
  have hsized : (if size = 0 then alignDown (part.filesize - 0) align else alignUp size align) =
      size := by
    rw [if_neg (Nat.ne_of_gt hzero), alignUp_of_dvd hpos hsize]
  have hmap : utilMapPart align (mmap 0) part addr size 0 false = _ :=
    utilMapPart_eq haddr (Nat.dvd_zero align) hsize (Nat.two_pow_pos 63) h.alignment (by omega)
      (by rw [hsized]; exact hbase) fun hfixed => (Bool.false_ne_true hfixed).elim
  rw [hsized] at hmap
  exact ⟨_, hmap, hdvd, rfl, rfl⟩

theorem dvd_repsize {hdrsize : Nat} (hhdr : hdrsize = 0 ∨ hdrsize = align) (first : Part) :
    align ∣ alignDown first.filesize align + (parts.map (dataSize align hdrsize)).sum := by
  refine Nat.dvd_add (dvd_alignDown _ _) ?_
  induction parts with
  | nil => exact Nat.dvd_zero align
  | cons p parts ih =>
    rw [map_cons, sum_cons]
    exact Nat.dvd_add (dvd_dataSize hhdr) ih

section Whole

variable (h : rep.FileBased align) (hpos : 0 < align)
include h hpos

theorem Replica.FileBased.cons : ∃ first rest, rep.part = first :: rest ∧
    first.Paged align ∧ (∀ p ∈ rest, p.Paged align) ∧
    (rest.map (·.filesize)).sum < 2 ^ 63 ∧ 0 < alignDown first.filesize align ∧
    set.sizedReplica align rep = { rep with
      nhdrs := set.nhdrs rep
      repsize := alignDown first.filesize align +
        (rest.map (dataSize align (set.hdrsize align))).sum
      resvsize := alignDown first.filesize align +
        (rest.map (dataSize align (set.hdrsize align))).sum } := by
  obtain ⟨first, rest, hparts⟩ := exists_cons_of_ne_nil h.nonempty
  have hpaged := h.paged
  have hbound := h.bound
  rw [hparts] at hpaged hbound
  rw [map_cons, sum_cons] at hbound
  have hle := (hpaged first mem_cons_self).le_alignDown hpos
  exact ⟨first, rest, hparts, hpaged first mem_cons_self,
    fun p hp => hpaged p (mem_cons_of_mem first hp), by omega, by omega,
    h.sizedReplica hpos hparts⟩

/-- `util_replica_map_local` puts the parts in a row, and fails only if they are not mapped in the
same way. -/
theorem Replica.FileBased.mapReplica_placed
    (hmmap : Answers align mmap) {hint : Nat} (hhint : align ∣ hint) :
    ∃ placed, Placed (set.sizedReplica align rep) placed ∧
      mapReplica align (set.hdrsize align) (some hint) mmap (set.sizedReplica align rep) =
        if utilReplicaCheckMapSync false placed then .ok placed else .error .mapSync := by
  obtain ⟨first, rest, hparts, hfirst, hpaged, hbound, hzero, hsized⟩ := h.cons hpos
  have hhdr := set.hdrsize_cases align
  have hdvd : align ∣ alignDown first.filesize align +
      (rest.map (dataSize align (set.hdrsize align))).sum := dvd_repsize hhdr first
  obtain ⟨first', hmap, hbase, hpath, hfile⟩ :=
    utilMapPart_first hpos hmmap hfirst hhint hdvd (Nat.lt_add_right _ hzero)
  have hpaths : (set.sizedReplica align rep).part.map (·.path) =
      first'.path :: rest.map (·.path) := by
    rw [hsized, hparts, hpath]
    rfl
  have hrepsize : (set.sizedReplica align rep).repsize = alignDown first'.filesize align +
      (rest.map (dataSize align (set.hdrsize align))).sum := by
    rw [hsized, hfile]
  have hlimit : ∀ resv ∈ (none : Option Nat), (set.sizedReplica align rep).repsize ≤ resv :=
    fun _ hnone => (Option.not_mem_none _ hnone).elim
  obtain ⟨rest', mapsize, placed, hrest, hplaced, hfinish⟩ := placed_of_first hpos hhdr hmmap
    hpaged hbound hpaths hbase hrepsize hlimit false
  refine ⟨placed, hplaced, ?_⟩
  rw [hfile] at hrest
  rw [← hfinish, mapReplica.eq_def, hsized]
  simp only [hparts, hmap, hrest]

end Whole

/-! ## Headers -/

def Part.bare (part : Part) : Part := { part with hdr := 0, hdrsize := 0, hdrMapSync := false }

theorem mapHdrs_bare (hmmap : ∀ p addr size offset, (mmap p addr size offset).addr.isSome = true)
    (p nhdrs : Nat) (parts : List Part) :
    ∃ parts', mapHdrs mmap p nhdrs parts = some parts' ∧
      parts'.map Part.bare = parts.map Part.bare := by
  induction parts generalizing p nhdrs with
  | nil => exact ⟨[], by rw [mapHdrs], rfl⟩
  | cons part parts ih =>
    cases nhdrs with
    | zero => exact ⟨part :: parts, rfl, rfl⟩
    | succ nhdrs =>
      obtain ⟨parts', hparts, hbare⟩ := ih (p + 1) nhdrs
      obtain ⟨hdrp, hhdrp⟩ := Option.isSome_iff_exists.mp (hmmap p 0
        (if poolHdrSize < part.alignment then part.alignment else poolHdrSize) 0)
      have hhdr : utilMapHdr (mmap p) part = some { part with
          hdr := hdrp
          hdrsize := if poolHdrSize < part.alignment then part.alignment else poolHdrSize
          hdrMapSync := (mmap p 0
            (if poolHdrSize < part.alignment then part.alignment else poolHdrSize)
            0).mapSync } := by
        rw [utilMapHdr, hhdrp, Option.map_some]
      rw [mapHdrs, hhdr]
      dsimp only
      rw [hparts]
      exact ⟨_, rfl, congrArg (part.bare :: ·) hbare⟩

theorem map_eq_of_bare {β : Type*} {f : Part → β} {parts' : List Part}
    (hbare : parts'.map Part.bare = parts.map Part.bare) (hf : ∀ p : Part, f p.bare = f p) :
    parts'.map f = parts.map f := by
  have heq := congrArg (List.map f) hbare
  rw [map_map, map_map] at heq
  rw [← funext hf]
  exact heq

/-- What `mmap` answers to `util_replica_open_local` if it does not fail. -/
structure OpenAnswers.Succeed (align : Nat) (os : OpenAnswers) : Prop where
  hint : ∀ retries, ∃ addr, os.hint retries = some addr ∧ align ∣ addr
  mmap : ∀ retries, Answers align (os.mmap retries)
  mmapHdr : ∀ retries p addr size offset, (os.mmapHdr retries p addr size offset).addr.isSome = true

/-- `util_replica_open_local` puts the parts in a row, and fails only if they and the headers are
not mapped in the same way. -/
theorem Replica.FileBased.openReplica_placed (h : rep.FileBased align) (hpos : 0 < align)
    {os : OpenAnswers} (hos : os.Succeed align) (retries : Nat) :
    ∃ placed, Placed (set.sizedReplica align rep) placed ∧
      openReplica align (set.hdrsize align) os (set.sizedReplica align rep) retries 0 =
        if utilReplicaCheckMapSync true placed then .ok placed else .error .mapSync := by
  obtain ⟨first, rest, hparts, hfirst, hpaged, hbound, hzero, hsized⟩ := h.cons hpos
  have hhdr := set.hdrsize_cases align
  have hmmap := hos.mmap retries
  obtain ⟨hint, hhint, haligned⟩ := hos.hint retries
  have hdvd : align ∣ alignDown first.filesize align +
      (rest.map (dataSize align (set.hdrsize align))).sum := dvd_repsize hhdr first
  obtain ⟨first₁, hmap, hbase, hpath, hfile₁⟩ :=
    utilMapPart_first hpos hmmap hfirst haligned hdvd (Nat.lt_add_right _ hzero)
  obtain ⟨mapped, hmapped, hbare⟩ := mapHdrs_bare (hos.mmapHdr retries) 0 (set.nhdrs rep)
    (first₁ :: rest)
  obtain ⟨first', rest', rfl⟩ : ∃ first' rest', mapped = first' :: rest' := by
    cases mapped with
    | nil => cases hbare
    | cons first' rest' => exact ⟨first', rest', rfl⟩
  rw [map_cons, map_cons, List.cons.injEq] at hbare
  obtain ⟨hfirst', hrest'⟩ := hbare
  have hpath' := congrArg Part.path hfirst'
  have hfile' := congrArg Part.filesize hfirst'
  have haddr' := congrArg Part.addr hfirst'
  change first'.path = first₁.path at hpath'
  change first'.filesize = first₁.filesize at hfile'
  change first'.addr = first₁.addr at haddr'
  rw [hpath] at hpath'
  rw [hfile₁] at hfile'
  have hpaths : (set.sizedReplica align rep).part.map (·.path) =
      first'.path :: rest'.map (·.path) := by
    rw [map_eq_of_bare hrest' fun _ => rfl, hsized, hparts, hpath']
    rfl
  have hrepsize : (set.sizedReplica align rep).repsize = alignDown first'.filesize align +
      (rest'.map (dataSize align (set.hdrsize align))).sum := by
    rw [map_eq_of_bare hrest' fun _ => rfl, hsized, hfile']
  have hpaged' : ∀ p ∈ rest', p.Paged align := by
    intro p hp
    have hmem : p.bare ∈ rest.map Part.bare := hrest' ▸ mem_map_of_mem hp
    obtain ⟨q, hq, heq⟩ := mem_map.mp hmem
    have halign := congrArg Part.alignment heq
    have hsize := congrArg Part.filesize heq
    change q.alignment = p.alignment at halign
    change q.filesize = p.filesize at hsize
    exact ⟨halign ▸ (hpaged q hq).alignment, hsize ▸ (hpaged q hq).size⟩
  have hbound' : (rest'.map (·.filesize)).sum < 2 ^ 63 := by
    rw [map_eq_of_bare hrest' fun _ => rfl]
    exact hbound
  have hlimit : ∀ resv ∈ some (set.sizedReplica align rep).resvsize,
      (set.sizedReplica align rep).repsize ≤ resv := fun resv hresv => by
    obtain rfl := Option.some.inj hresv
    rw [hsized]
  obtain ⟨rest'', mapsize, placed, hrest'', hplaced, hfinish⟩ := placed_of_first hpos hhdr hmmap
    hpaged' hbound' hpaths (haddr' ▸ hbase) hrepsize hlimit true
  refine ⟨placed, hplaced, ?_⟩
  rw [hfile'] at hrest''
  rw [hsized] at hrest''
  rw [← hfinish, openReplica.eq_def, hsized]
  simp only [if_true, hhint, hparts, hmap, hmapped, hrest'']

end Pmdk.Poolset
