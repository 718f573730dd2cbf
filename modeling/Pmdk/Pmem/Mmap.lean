import Mathlib.Data.List.Range
import Mathlib.Tactic.NormNum

/-!
# The tracker of persistent mappings

The list of mappings of persistent memory, which `util_range_register` and `util_range_unregister`
keep sorted by address, and the walks over it of `util_range_is_pmem` and `os_range_deep_common`.

Addresses are words of 64 bits and the sums that the source forms of them wrap.
-/

namespace Pmdk.Mmap

inductive PmemMapType
  | devDax
  | mapSync
  deriving DecidableEq

structure MapTracker where
  baseAddr : Nat
  endAddr : Nat
  regionId : Int
  type : PmemMapType
  deriving DecidableEq

variable {page fuel lo addr len stop : Nat} {l : List MapTracker} {mt t : MapTracker}

/-- The difference of two `intptr_t`, as a machine of two's complement forms it. -/
def utilRangeComparer (a b : MapTracker) : Int :=
  ((a.baseAddr : Int).bmod (2 ^ 64) - (b.baseAddr : Int).bmod (2 ^ 64)).bmod (2 ^ 64)

/-- `SORTEDQ_INSERT` with `util_range_comparer`. -/
def sortedqInsert (elm : MapTracker) : List MapTracker → List MapTracker
  | [] => [elm]
  | it :: l => if utilRangeComparer it elm < 0 then it :: sortedqInsert elm l else elm :: it :: l

def MapTracker.Overlaps (mt : MapTracker) (addr stop : Nat) : Prop :=
  addr < mt.endAddr ∧ (mt.baseAddr ≤ addr ∨ mt.baseAddr < stop)

instance : Decidable (mt.Overlaps addr stop) :=
  inferInstanceAs (Decidable (addr < mt.endAddr ∧ (mt.baseAddr ≤ addr ∨ mt.baseAddr < stop)))

def findLoop (addr stop : Nat) : List MapTracker → Option MapTracker
  | [] => none
  | mt :: l =>
    if mt.Overlaps addr stop then some mt
    else if addr < mt.baseAddr then none
    else findLoop addr stop l

def utilRangeFind (l : List MapTracker) (addr len : Nat) : Option MapTracker :=
  findLoop addr ((addr + len) % 2 ^ 64) l

/-- `regionId` is what the new tracker holds: the region of the device for `PMEM_DEV_DAX`, and
what the allocation contained for the other type. -/
def utilRangeRegister (l : List MapTracker) (addr len : Nat) (regionId : Int)
    (type : PmemMapType) : List MapTracker × Bool :=
  if (utilRangeFind l addr len).isSome then (l, false)
  else (sortedqInsert ⟨addr, (addr + len) % 2 ^ 64, regionId, type⟩ l, true)

/-- What is left of a mapping: `mtb` at the beginning and `mte` at the end, unless they are empty.
-/
def MapTracker.pieces (mt : MapTracker) (addr stop : Nat) : List MapTracker :=
  [{ mt with endAddr := addr }, { mt with baseAddr := stop }].filter fun t => t.baseAddr < t.endAddr

def utilRangeSplit (page : Nat) (l : List MapTracker) (mt : MapTracker) (addr stop : Nat) :
    Option (List MapTracker) :=
  if addr = stop ∨ addr % page ≠ 0 ∨ stop % page ≠ 0 then none
  else some ((mt.pieces addr stop).foldl (fun l mt => sortedqInsert mt l) (l.erase mt))

def pageAlignedUpSize (page size : Nat) : Nat :=
  (size + (page - 1)) % 2 ^ 64 / page * page

/-- The loop of `util_range_unregister`, which nothing but `fuel` bounds. -/
def unregisterLoop (page addr len : Nat) : Nat → List MapTracker → Option (List MapTracker × Bool)
  | 0, _ => none
  | fuel + 1, l =>
    match utilRangeFind l addr len with
    | none => some (l, true)
    | some mt =>
      match utilRangeSplit page l mt addr ((addr + len) % 2 ^ 64) with
      | none => some (l, false)
      | some l => unregisterLoop page addr len fuel l

def utilRangeUnregister (page fuel : Nat) (l : List MapTracker) (addr len : Nat) :
    Option (List MapTracker × Bool) :=
  unregisterLoop page addr (pageAlignedUpSize page len) fuel l

theorem findLoop_some (h : findLoop addr stop l = some mt) : mt ∈ l ∧ mt.Overlaps addr stop := by
  induction l with
  | nil => cases h
  | cons t l ih =>
    rw [findLoop] at h
    split at h
    · rename_i hov
      obtain rfl := Option.some.inj h
      exact ⟨List.mem_cons_self, hov⟩
    · split at h
      · cases h
      · exact ⟨List.mem_cons_of_mem _ (ih h).1, (ih h).2⟩

def utilRangeIsPmem (l : List MapTracker) (addr len : Nat) : Bool :=
  match _h : utilRangeFind l addr len with
  | none => false
  | some mt =>
    if addr < mt.baseAddr then false
    else
      let mapLen := min (mt.endAddr - addr) len
      if len - mapLen = 0 then true
      else utilRangeIsPmem l (addr + mapLen) (len - mapLen)
termination_by len
decreasing_by
  have := (findLoop_some _h).2.1
  omega

/-- What `os_range_deep_common` does with a part of its range: `os_deep_type` on a tracker, or
`pmem_msync`. -/
inductive Deep
  | type (mt : MapTracker) (addr len : Nat)
  | msync (addr len : Nat)

/-- A call and what follows it if it succeeds, as the calls that are made and the result; `ok` tells
which calls succeed. -/
def deepThen (ok : Deep → Bool) (d : Deep) (rest : List Deep × Bool) : List Deep × Bool :=
  if ok d then (d :: rest.1, rest.2) else ([d], false)

def osRangeDeepCommon (ok : Deep → Bool) (l : List MapTracker) (addr len : Nat) :
    List Deep × Bool :=
  if len = 0 then ([], true)
  else
    match _h : utilRangeFind l addr len with
    | none => deepThen ok (.msync addr len) ([], true)
    | some mt =>
      let currLen := if addr < mt.baseAddr then min (mt.baseAddr - addr) len else 0
      let front := if addr < mt.baseAddr then [Deep.msync addr currLen] else []
      let mtInLen := mt.endAddr - (addr + currLen)
      front.foldr (deepThen ok)
        (if len - currLen = 0 then ([], true)
        else deepThen ok (.type mt (addr + currLen) (min (len - currLen) mtInLen))
          (if (addr + currLen + (len - currLen)) % 2 ^ 64 ≤ mt.endAddr then ([], true)
          else osRangeDeepCommon ok l mt.endAddr (len - currLen - mtInLen)))
termination_by len
decreasing_by
  have := (findLoop_some _h).2.1
  split <;> omega

/-! ## Sorted lists of disjoint mappings -/

/-- A mapping that is not empty, in the window of `2 ^ 63` addresses from `lo` on. -/
abbrev MapTracker.Within (lo : Nat) (mt : MapTracker) : Prop :=
  lo ≤ mt.baseAddr ∧ mt.baseAddr < mt.endAddr ∧ mt.endAddr ≤ lo + 2 ^ 63 ∧ mt.endAddr < 2 ^ 64

structure Wf (lo : Nat) (l : List MapTracker) : Prop where
  within : ∀ mt ∈ l, mt.Within lo
  sorted : l.Pairwise fun a b => a.endAddr ≤ b.baseAddr

def Apart (a b : MapTracker) : Prop := a.endAddr ≤ b.baseAddr ∨ b.endAddr ≤ a.baseAddr

theorem Apart.symm {a b : MapTracker} (h : Apart a b) : Apart b a := Or.symm h

theorem bmod_sub_eq {a b : Int} (hlo : -2 ^ 63 < a - b) (hhi : a - b < 2 ^ 63) :
    (a.bmod (2 ^ 64) - b.bmod (2 ^ 64)).bmod (2 ^ 64) = a - b := by
  rw [Int.sub_bmod_bmod, Int.bmod_sub_bmod, Int.bmod_def]
  split <;> omega

/-- Two addresses of one window of `2 ^ 63` compare as they should. -/
theorem utilRangeComparer_neg_iff {a b : MapTracker} (ha : lo ≤ a.baseAddr)
    (ha' : a.baseAddr < lo + 2 ^ 63) (hb : lo ≤ b.baseAddr) (hb' : b.baseAddr < lo + 2 ^ 63) :
    utilRangeComparer a b < 0 ↔ a.baseAddr < b.baseAddr := by
  have hcmp : utilRangeComparer a b = (a.baseAddr : Int) - b.baseAddr :=
    bmod_sub_eq (by omega) (by omega)
  omega

theorem sortedqInsert_perm (elm : MapTracker) (l : List MapTracker) :
    (sortedqInsert elm l).Perm (elm :: l) := by
  induction l with
  | nil => exact .refl _
  | cons it l ih =>
    rw [sortedqInsert]
    split
    · exact (ih.cons it).trans (.swap elm it l)
    · exact .refl _

theorem insertAll_perm (ps l : List MapTracker) :
    (ps.foldl (fun l mt => sortedqInsert mt l) l).Perm (ps ++ l) := by
  induction ps generalizing l with
  | nil => exact .refl _
  | cons p ps ih =>
    refine (ih (sortedqInsert p l)).trans ?_
    refine ((sortedqInsert_perm p l).append_left ps).trans ?_
    exact List.perm_middle

theorem Wf.insert (h : Wf lo l) (hmt : mt.Within lo) (hap : ∀ t ∈ l, Apart t mt) :
    Wf lo (sortedqInsert mt l) := by
  induction l with
  | nil =>
    refine ⟨fun t ht => ?_, List.pairwise_singleton _ _⟩
    rwa [List.mem_singleton.mp ht]
  | cons it l ih =>
    obtain ⟨hhead, hsorted⟩ := List.pairwise_cons.mp h.sorted
    have hit := h.within it List.mem_cons_self
    have happart := hap it List.mem_cons_self
    have hrest : Wf lo l := ⟨fun t ht => h.within t (List.mem_cons_of_mem _ ht), hsorted⟩
    have hcmp : utilRangeComparer it mt < 0 ↔ it.baseAddr < mt.baseAddr :=
      utilRangeComparer_neg_iff hit.1 (by omega) hmt.1 (by omega)
    rw [sortedqInsert]
    unfold Apart at happart
    split
    · rename_i hlt
      have hbase := hcmp.mp hlt
      have hins := ih hrest fun t ht => hap t (List.mem_cons_of_mem _ ht)
      refine ⟨List.forall_mem_cons.mpr ⟨hit, hins.within⟩, List.pairwise_cons.mpr ⟨?_, hins.sorted⟩⟩
      intro t ht
      rcases List.mem_cons.mp ((sortedqInsert_perm mt l).mem_iff.mp ht) with rfl | ht
      · omega
      · exact hhead t ht
    · rename_i hge
      have hbase : ¬ it.baseAddr < mt.baseAddr := fun hlt => hge (hcmp.mpr hlt)
      refine ⟨List.forall_mem_cons.mpr ⟨hmt, h.within⟩, List.pairwise_cons.mpr ⟨?_, h.sorted⟩⟩
      intro t ht
      rcases List.mem_cons.mp ht with rfl | ht
      · omega
      · have := hhead t ht
        omega

theorem Wf.insertAll {ps : List MapTracker} (h : Wf lo l)
    (hps : ∀ mt ∈ ps, mt.Within lo) (hap : ∀ mt ∈ ps, ∀ t ∈ l, Apart t mt)
    (hself : ps.Pairwise Apart) :
    Wf lo (ps.foldl (fun l mt => sortedqInsert mt l) l) := by
  induction ps generalizing l with
  | nil => exact h
  | cons p ps ih =>
    obtain ⟨hp, hself⟩ := List.pairwise_cons.mp hself
    obtain ⟨happ, hap⟩ := List.forall_mem_cons.mp hap
    obtain ⟨hpw, hps⟩ := List.forall_mem_cons.mp hps
    refine ih (h.insert hpw happ) hps (fun q hq t ht => ?_) hself
    rcases List.mem_cons.mp ((sortedqInsert_perm p l).mem_iff.mp ht) with rfl | ht
    · exact hp q hq
    · exact hap q hq t ht

theorem Wf.erase (h : Wf lo l) (mt : MapTracker) : Wf lo (l.erase mt) :=
  ⟨fun t ht => h.within t (List.mem_of_mem_erase ht), h.sorted.sublist List.erase_sublist⟩

theorem Wf.apart_erase (h : Wf lo l) (hmt : mt ∈ l) : ∀ t ∈ l.erase mt, Apart t mt := by
  have hpair : (mt :: l.erase mt).Pairwise Apart :=
    ((List.perm_cons_erase hmt).pairwise_iff fun h => Apart.symm h).mp (h.sorted.imp Or.inl)
  intro t ht
  exact ((List.pairwise_cons.mp hpair).1 t ht).symm

/-! ## Finding a mapping -/

theorem findLoop_none_iff (h : Wf lo l) :
    findLoop addr stop l = none ↔ ∀ mt ∈ l, ¬ mt.Overlaps addr stop := by
  induction l with
  | nil => simp [findLoop]
  | cons t l ih =>
    obtain ⟨hhead, hsorted⟩ := List.pairwise_cons.mp h.sorted
    obtain ⟨ht, hl⟩ := List.forall_mem_cons.mp h.within
    rw [findLoop, List.forall_mem_cons]
    split
    · rename_i hov
      simp [hov]
    · rename_i hov
      split
      · rename_i hlt
        refine iff_of_true rfl ⟨hov, fun mt hmt => ?_⟩
        have := hhead mt hmt
        unfold MapTracker.Overlaps at hov ⊢
        omega
      · rw [ih ⟨hl, hsorted⟩]
        exact (and_iff_right hov).symm

theorem findLoop_first (h : Wf lo l) (hf : findLoop addr stop l = some mt) (ht : t ∈ l)
    (hov : t.Overlaps addr stop) : mt.baseAddr ≤ t.baseAddr := by
  induction l with
  | nil => cases hf
  | cons it l ih =>
    obtain ⟨hhead, hsorted⟩ := List.pairwise_cons.mp h.sorted
    obtain ⟨hit, hl⟩ := List.forall_mem_cons.mp h.within
    rw [findLoop] at hf
    split at hf
    · obtain rfl := Option.some.inj hf
      rcases List.mem_cons.mp ht with rfl | ht
      · exact le_rfl
      · have := hhead t ht
        omega
    · rename_i hno
      split at hf
      · cases hf
      · rcases List.mem_cons.mp ht with rfl | ht
        · exact absurd hov hno
        · exact ih ⟨hl, hsorted⟩ hf ht

/-! ## The bytes that are tracked -/

/-- A byte of a mapping: its address, and the type and the region of the mapping. -/
abbrev Entry := Nat × PmemMapType × Int

def MapTracker.bytes (mt : MapTracker) : Set Entry :=
  {p | mt.baseAddr ≤ p.1 ∧ p.1 < mt.endAddr ∧ p.2 = (mt.type, mt.regionId)}

def bytes (l : List MapTracker) : Set Entry := {p | ∃ mt ∈ l, p ∈ mt.bytes}

/-- A byte of a set that stands in a range. -/
def Meets (s : Set Entry) (addr len : Nat) : Prop := ∃ p ∈ s, addr ≤ p.1 ∧ p.1 < addr + len

inductive Call
  | register (addr len : Nat) (regionId : Int) (type : PmemMapType)
  | unregister (addr len : Nat)

open scoped Classical in
/-- What a call does to the tracked bytes, and whether it succeeds. -/
noncomputable def Call.effect (page : Nat) (s : Set Entry) : Call → Set Entry × Bool
  | .register addr len regionId type =>
    if Meets s addr len then (s, false)
    else (s ∪ {p | addr ≤ p.1 ∧ p.1 < addr + len ∧ p.2 = (type, regionId)}, true)
  | .unregister addr len =>
    (s \ {p | addr ≤ p.1 ∧ p.1 < addr + pageAlignedUpSize page len}, true)

noncomputable def effects (page : Nat) (s : Set Entry) : List Call → Set Entry × List Bool
  | [] => (s, [])
  | c :: cs =>
    let r := effects page (c.effect page s).1 cs
    (r.1, (c.effect page s).2 :: r.2)

def Call.exec (page fuel : Nat) (l : List MapTracker) : Call → Option (List MapTracker × Bool)
  | .register addr len regionId type => some (utilRangeRegister l addr len regionId type)
  | .unregister addr len => utilRangeUnregister page fuel l addr len

def run (page fuel : Nat) (l : List MapTracker) : List Call → Option (List MapTracker × List Bool)
  | [] => some (l, [])
  | c :: cs => do
    let (l, r) ← c.exec page fuel l
    let (l, rs) ← run page fuel l cs
    return (l, r :: rs)

/-- A call whose range starts with a page and ends before the last address, where what is
registered lies in the window of `2 ^ 63` addresses from `lo` on. -/
def Call.Within (page lo : Nat) : Call → Prop
  | .register addr len _ _ =>
    addr % page = 0 ∧ 0 < len ∧ lo ≤ addr ∧ addr + len ≤ lo + 2 ^ 63 ∧ addr + len < 2 ^ 64
  | .unregister addr len =>
    addr % page = 0 ∧ 0 < len ∧ len + (page - 1) < 2 ^ 64 ∧
      addr + pageAlignedUpSize page len < 2 ^ 64

theorem bytes_of_perm {l' : List MapTracker} (h : l.Perm l') : bytes l = bytes l' := by
  ext p
  exact ⟨fun ⟨mt, hmt, hp⟩ => ⟨mt, h.mem_iff.mp hmt, hp⟩,
    fun ⟨mt, hmt, hp⟩ => ⟨mt, h.mem_iff.mpr hmt, hp⟩⟩

theorem mem_bytes_cons {p : Entry} : p ∈ bytes (mt :: l) ↔ p ∈ mt.bytes ∨ p ∈ bytes l :=
  List.exists_mem_cons_iff ..

theorem mem_bytes_append {p : Entry} {l' : List MapTracker} :
    p ∈ bytes (l ++ l') ↔ p ∈ bytes l ∨ p ∈ bytes l' := by
  simp only [bytes, Set.mem_ofPred_eq, List.mem_append, or_and_right, exists_or]

theorem overlaps_iff_exists (ht : t.baseAddr < t.endAddr) (hlen : 0 < len) :
    t.Overlaps addr (addr + len) ↔ ∃ p ∈ t.bytes, addr ≤ p.1 ∧ p.1 < addr + len := by
  constructor
  · rintro ⟨hend, hbase⟩
    refine ⟨(max t.baseAddr addr, t.type, t.regionId), ⟨?_, ?_, rfl⟩, ?_, ?_⟩ <;> dsimp only <;>
      omega
  · rintro ⟨p, ⟨hbase, hend, -⟩, hlo, hhi⟩
    unfold MapTracker.Overlaps
    omega

theorem utilRangeFind_isSome_iff (h : Wf lo l) (hlen : 0 < len) (hstop : addr + len < 2 ^ 64) :
    (utilRangeFind l addr len).isSome ↔ Meets (bytes l) addr len := by
  rw [utilRangeFind, Nat.mod_eq_of_lt hstop, Option.isSome_iff_ne_none, ne_eq,
    findLoop_none_iff h, Meets]
  push Not
  constructor
  · rintro ⟨t, ht, hov⟩
    obtain ⟨p, hp, hr⟩ := (overlaps_iff_exists (h.within t ht).2.1 hlen).mp hov
    exact ⟨p, ⟨t, ht, hp⟩, hr⟩
  · rintro ⟨p, ⟨t, ht, hp⟩, hr⟩
    exact ⟨t, ht, (overlaps_iff_exists (h.within t ht).2.1 hlen).mpr ⟨p, hp, hr⟩⟩

theorem register_effect {regionId : Int} {type : PmemMapType} (h : Wf lo l)
    (hc : (Call.register addr len regionId type).Within page lo) :
    let r := utilRangeRegister l addr len regionId type
    Wf lo r.1 ∧
      (bytes r.1, r.2) = (Call.register addr len regionId type).effect page (bytes l) := by
  obtain ⟨-, hlen, hlo, hhi, hstop⟩ := hc
  have hsome := utilRangeFind_isSome_iff h hlen hstop
  dsimp only
  rw [utilRangeRegister, Call.effect]
  split
  · rename_i hfound
    rw [if_pos (hsome.mp hfound)]
    exact ⟨h, rfl⟩
  · rename_i hfree
    rw [if_neg fun hmeet => hfree (hsome.mpr hmeet), Nat.mod_eq_of_lt hstop]
    have hnone := Option.not_isSome_iff_eq_none.mp hfree
    rw [utilRangeFind, Nat.mod_eq_of_lt hstop, findLoop_none_iff h] at hnone
    refine ⟨h.insert ⟨hlo, by dsimp only; omega, hhi, hstop⟩ fun t ht => ?_, ?_⟩
    · have hno := hnone t ht
      have := h.within t ht
      unfold MapTracker.Overlaps at hno
      unfold Apart
      dsimp only
      omega
    · refine Prod.ext ?_ rfl
      rw [bytes_of_perm (sortedqInsert_perm _ l)]
      ext p
      rw [mem_bytes_cons, or_comm]
      exact Iff.rfl

/-! ## Taking a range out -/

theorem mem_pieces : t ∈ mt.pieces addr stop ↔
    (t = { mt with endAddr := addr } ∨ t = { mt with baseAddr := stop }) ∧
      t.baseAddr < t.endAddr := by
  simp [MapTracker.pieces]

theorem of_mem_pieces (hov : mt.Overlaps addr stop) (hlt : addr < stop)
    (ht : t ∈ mt.pieces addr stop) :
    mt.baseAddr ≤ t.baseAddr ∧ t.baseAddr < t.endAddr ∧ t.endAddr ≤ mt.endAddr ∧
      ¬ t.Overlaps addr stop := by
  unfold MapTracker.Overlaps at *
  obtain ⟨rfl | rfl, hne⟩ := mem_pieces.mp ht <;> dsimp only at hne ⊢ <;> omega

theorem mem_bytes_pieces {p : Entry} (hov : mt.Overlaps addr stop) (hlt : addr < stop)
    (hp : ¬ (addr ≤ p.1 ∧ p.1 < stop)) : p ∈ bytes (mt.pieces addr stop) ↔ p ∈ mt.bytes := by
  unfold MapTracker.Overlaps at hov
  constructor
  · rintro ⟨t, ht, hlo, hhi, hval⟩
    obtain ⟨rfl | rfl, hne⟩ := mem_pieces.mp ht <;> dsimp only at hlo hhi
    · exact ⟨hlo, hhi.trans hov.1, hval⟩
    · exact ⟨by omega, hhi, hval⟩
  · rintro ⟨hlo, hhi, hval⟩
    by_cases hside : p.1 < addr
    · exact ⟨_, mem_pieces.mpr ⟨Or.inl rfl, hlo.trans_lt hside⟩, hlo, hside, hval⟩
    · have hbehind : stop ≤ p.1 := by omega
      exact ⟨_, mem_pieces.mpr ⟨Or.inr rfl, hbehind.trans_lt hhi⟩, hbehind, hhi, hval⟩

/-- A split leaves one mapping less that the range touches, and the bytes outside of the range. -/
theorem utilRangeSplit_spec (h : Wf lo l) (hmt : mt ∈ l) (hov : mt.Overlaps addr stop)
    (hlt : addr < stop) (haddr : addr % page = 0) (hstop : stop % page = 0) :
    ∃ l', utilRangeSplit page l mt addr stop = some l' ∧ Wf lo l' ∧
      l'.countP (·.Overlaps addr stop) < l.countP (·.Overlaps addr stop) ∧
      ∀ p, ¬ (addr ≤ p.1 ∧ p.1 < stop) → (p ∈ bytes l' ↔ p ∈ bytes l) := by
  have hpieces := fun t ht => of_mem_pieces (t := t) hov hlt ht
  have hperm := insertAll_perm (mt.pieces addr stop) (l.erase mt)
  have herase := List.perm_cons_erase hmt
  refine ⟨_, if_neg (by omega), ?_, ?_, fun p hp => ?_⟩
  · refine (h.erase mt).insertAll (fun t ht => ?_) (fun t ht o ho => ?_)
      (List.Pairwise.filter _ (List.pairwise_pair.mpr (show Apart _ _ from Or.inl hlt.le)))
    · have := h.within mt hmt
      have := hpieces t ht
      omega
    · have hap := h.apart_erase hmt o ho
      have := hpieces t ht
      unfold Apart at hap ⊢
      omega
  · rw [hperm.countP_eq, List.countP_append, herase.countP_eq, List.countP_cons_of_pos (by simpa),
      List.countP_eq_zero.mpr fun t ht => by simpa using (hpieces t ht).2.2.2]
    omega
  · rw [bytes_of_perm hperm, mem_bytes_append, mem_bytes_pieces hov hlt hp, bytes_of_perm herase,
      mem_bytes_cons]

theorem unregisterLoop_spec (h : Wf lo l) (hlen : 0 < len) (hlt : addr + len < 2 ^ 64)
    (haddr : addr % page = 0) (hstop : (addr + len) % page = 0) :
    ∃ l', (∀ fuel, l.countP (·.Overlaps addr (addr + len)) < fuel →
        unregisterLoop page addr len fuel l = some (l', true)) ∧
      Wf lo l' ∧ bytes l' = bytes l \ {p | addr ≤ p.1 ∧ p.1 < addr + len} := by
  have hmod : (addr + len) % 2 ^ 64 = addr + len := Nat.mod_eq_of_lt hlt
  -- each split leaves fewer mappings that the range touches
  induction hn : l.countP (·.Overlaps addr (addr + len)) using Nat.strong_induction_on
    generalizing l with
  | h n ih =>
    cases hfind : utilRangeFind l addr len with
    | none =>
      refine ⟨l, fun fuel hfuel => ?_, h, (sdiff_eq_left.mpr ?_).symm⟩
      · obtain ⟨fuel, rfl⟩ := Nat.exists_eq_succ_of_ne_zero (Nat.ne_zero_of_lt hfuel)
        rw [unregisterLoop, hfind]
      · rw [utilRangeFind, hmod, findLoop_none_iff h] at hfind
        refine Set.disjoint_left.mpr fun p hp hrange => ?_
        obtain ⟨t, ht, hp⟩ := hp
        exact hfind t ht ((overlaps_iff_exists (h.within t ht).2.1 hlen).mpr ⟨p, hp, hrange⟩)
    | some mt =>
      have hsome := hfind
      rw [utilRangeFind, hmod] at hsome
      obtain ⟨hmem, hov⟩ := findLoop_some hsome
      obtain ⟨l', hsplit, hwf, hcount, hbytes⟩ :=
        utilRangeSplit_spec h hmem hov (by omega) haddr hstop
      obtain ⟨l'', hloop, hwf', hbytes'⟩ := ih _ (hn ▸ hcount) hwf rfl
      refine ⟨l'', fun fuel hfuel => ?_, hwf', ?_⟩
      · obtain ⟨fuel, rfl⟩ := Nat.exists_eq_succ_of_ne_zero (Nat.ne_zero_of_lt hfuel)
        rw [unregisterLoop, hfind, hmod]
        dsimp only
        rw [hsplit]
        exact hloop fuel (by omega)
      · rw [hbytes']
        ext p
        exact and_congr_left fun hp => hbytes p hp

theorem pageAlignedUpSize_mod (page size : Nat) : pageAlignedUpSize page size % page = 0 :=
  Nat.mul_mod_left _ _

theorem pageAlignedUpSize_pos (hpage : 0 < page) (hlen : 0 < len)
    (hwrap : len + (page - 1) < 2 ^ 64) : 0 < pageAlignedUpSize page len := by
  rw [pageAlignedUpSize, Nat.mod_eq_of_lt hwrap]
  exact Nat.mul_pos (Nat.div_pos (by omega) hpage) hpage

/-! ## Walks over the list -/

theorem utilRangeFind_of_mem (h : Wf lo l) (len : Nat) (ht : t ∈ l) (hlo : t.baseAddr ≤ addr)
    (hhi : addr < t.endAddr) :
    ∃ mt, utilRangeFind l addr len = some mt ∧ mt.baseAddr ≤ addr := by
  have hov : t.Overlaps addr ((addr + len) % 2 ^ 64) := ⟨hhi, Or.inl hlo⟩
  cases hf : utilRangeFind l addr len with
  | none => exact absurd hov ((findLoop_none_iff h).mp hf t ht)
  | some mt => exact ⟨mt, rfl, (findLoop_first h hf ht hov).trans hlo⟩

theorem utilRangeIsPmem_iff (h : Wf lo l) (addr : Nat) (hlen : 0 < len) :
    utilRangeIsPmem l addr len = true ↔
      ∀ a, addr ≤ a → a < addr + len → ∃ q, (a, q) ∈ bytes l := by
  induction addr, len using utilRangeIsPmem.induct l with
  | case1 addr len hnone =>
    rw [utilRangeIsPmem, hnone]
    refine iff_of_false Bool.false_ne_true fun hall => ?_
    obtain ⟨q, t, ht, hlo, hhi, -⟩ := hall addr le_rfl (by omega)
    obtain ⟨mt, hsome, -⟩ := utilRangeFind_of_mem h len ht hlo hhi
    cases hnone.symm.trans hsome
  | case2 addr len mt hsome hlt =>
    rw [utilRangeIsPmem, hsome]
    dsimp only
    rw [if_pos hlt]
    refine iff_of_false Bool.false_ne_true fun hall => ?_
    obtain ⟨q, t, ht, hlo, hhi, -⟩ := hall addr le_rfl (by omega)
    obtain ⟨mt', hsome', hbase⟩ := utilRangeFind_of_mem h len ht hlo hhi
    obtain rfl := Option.some.inj (hsome.symm.trans hsome')
    omega
  | case3 addr len mt hsome hge mapLen hdone =>
    obtain ⟨hmem, hend, -⟩ := findLoop_some hsome
    rw [utilRangeIsPmem, hsome]
    dsimp only
    rw [if_neg hge, if_pos hdone]
    refine iff_of_true rfl fun a hlo hhi => ⟨_, mt, hmem, ?_, ?_, rfl⟩ <;> dsimp only <;> omega
  | case4 addr len mt hsome hge mapLen hmore ih =>
    obtain ⟨hmem, hend, -⟩ := findLoop_some hsome
    rw [utilRangeIsPmem, hsome]
    dsimp only
    rw [if_neg hge, if_neg hmore, ih (by omega)]
    -- the bytes up to the end of the mapping are tracked by it
    constructor
    · intro hall a hlo hhi
      by_cases hin : a < addr + mapLen
      · exact ⟨_, mt, hmem, by dsimp only; omega, by dsimp only; omega, rfl⟩
      · exact hall a (by omega) (by omega)
    · exact fun hall a hlo hhi => hall a (by omega) (by omega)

def Deep.range : Deep → List Nat
  | .type _ addr len => List.range' addr len
  | .msync addr len => List.range' addr len

/-- A tracker gets bytes of its own, and `pmem_msync` those that no tracker has. -/
def Deep.Right (l : List MapTracker) : Deep → Prop
  | .type mt addr len => mt ∈ l ∧ mt.baseAddr ≤ addr ∧ addr + len ≤ mt.endAddr
  | .msync addr len => ∀ a, addr ≤ a → a < addr + len → ¬ ∃ q, (a, q) ∈ bytes l

/-- What holds of the calls that are made for a range: each is made for the right bytes, they take
the range byte by byte, and they take all of it unless one of them fails. -/
structure Handed (ok : Deep → Bool) (l : List MapTracker) (addr len : Nat)
    (r : List Deep × Bool) : Prop where
  right : ∀ d ∈ r.1, d.Right l
  inOrder : r.1.flatMap Deep.range <+: List.range' addr len
  all : r.2 = true → r.1.flatMap Deep.range = List.range' addr len
  succeeds : (∀ d, ok d = true) → r.2 = true

theorem handed_nil (ok : Deep → Bool) (l : List MapTracker) (addr : Nat) :
    Handed ok l addr 0 ([], true) where
  right _ hd := nomatch hd
  inOrder := List.nil_prefix
  all _ := rfl
  succeeds _ := rfl

theorem Handed.deepThen {ok : Deep → Bool} {d : Deep} {n : Nat} {rest : List Deep × Bool}
    (hd : d.Right l) (hrange : d.range = List.range' addr n) (hn : n ≤ len)
    (h : Handed ok l (addr + n) (len - n) rest) : Handed ok l addr len (deepThen ok d rest) := by
  have hsplit : List.range' addr len = d.range ++ List.range' (addr + n) (len - n) := by
    rw [hrange, List.range'_append_1, Nat.add_sub_cancel' hn]
  unfold Mmap.deepThen
  split
  · exact {
      right := List.forall_mem_cons.mpr ⟨hd, h.right⟩
      inOrder := by
        rw [List.flatMap_cons, hsplit]
        exact List.prefix_append_right_inj _ |>.mpr h.inOrder
      all := fun hall => by rw [List.flatMap_cons, hsplit, h.all hall]
      succeeds := h.succeeds }
  · rename_i hfail
    exact {
      right := fun t ht => List.mem_singleton.mp ht ▸ hd
      inOrder := by
        rw [List.flatMap_singleton, hsplit]
        exact List.prefix_append _ _
      all := fun hall => nomatch hall
      succeeds := fun hok => absurd (hok d) hfail }

theorem Handed.last (ok : Deep → Bool) {d : Deep} (hd : d.Right l)
    (hrange : d.range = List.range' addr len) :
    Handed ok l addr len (Mmap.deepThen ok d ([], true)) :=
  Handed.deepThen hd hrange le_rfl (by
    rw [Nat.sub_self]
    exact handed_nil ok l _)

theorem osRangeDeepCommon_handed (ok : Deep → Bool) (h : Wf lo l) (addr len : Nat)
    (hstop : addr + len < 2 ^ 64) : Handed ok l addr len (osRangeDeepCommon ok l addr len) := by
  induction len using Nat.strong_induction_on generalizing addr with
  | h len ih =>
    have hmod : (addr + len) % 2 ^ 64 = addr + len := Nat.mod_eq_of_lt hstop
    rw [osRangeDeepCommon]
    split
    · rename_i hzero
      rw [hzero]
      exact handed_nil ok l addr
    rename_i hpos
    split
    · rename_i hnone
      have hfree : ¬ Meets (bytes l) addr len := fun hmeet => by
        have := (utilRangeFind_isSome_iff h (by omega) hstop).mpr hmeet
        rw [hnone] at this
        cases this
      exact Handed.last ok (fun a hlo hhi ⟨q, hq⟩ => hfree ⟨(a, q), hq, hlo, hhi⟩) rfl
    · rename_i mt hsome
      have hfind := hsome
      rw [utilRangeFind, hmod] at hfind
      obtain ⟨hmem, hend, hbase⟩ := findLoop_some hfind
      have hmt := h.within mt hmem
      -- the part of the range from the mapping on
      have hfrom : ∀ a n, mt.baseAddr ≤ a → a < mt.endAddr → 0 < n → n ≤ len → a + n = addr + len →
          Handed ok l a n (Mmap.deepThen ok (.type mt a (min n (mt.endAddr - a)))
            (if (a + n) % 2 ^ 64 ≤ mt.endAddr then ([], true)
            else osRangeDeepCommon ok l mt.endAddr (n - (mt.endAddr - a)))) := by
        intro a n hlo hhi hn hle hsum
        rw [hsum, hmod, ← hsum]
        have hright : (Deep.type mt a (min n (mt.endAddr - a))).Right l :=
          ⟨hmem, hlo, by omega⟩
        split
        · have hmin : min n (mt.endAddr - a) = n := by omega
          rw [hmin] at hright ⊢
          exact Handed.last ok hright rfl
        · have hmin : min n (mt.endAddr - a) = mt.endAddr - a := by omega
          rw [hmin] at hright ⊢
          have hrest := ih (n - (mt.endAddr - a)) (by omega) mt.endAddr (by omega)
          exact Handed.deepThen hright rfl (by omega) (by rwa [Nat.add_sub_cancel' hhi.le])
      dsimp only
      split
      · rename_i hlt
        have hcurr : min (mt.baseAddr - addr) len = mt.baseAddr - addr := by omega
        have hfree : (Deep.msync addr (mt.baseAddr - addr)).Right l := by
          rintro a hlo hhi ⟨q, t, ht, htlo, hthi, -⟩
          have hfirst := findLoop_first h hfind ht ⟨by dsimp only at hthi; omega, Or.inr ?_⟩
          all_goals dsimp only at htlo; omega
        have hinner := hfrom mt.baseAddr (len - (mt.baseAddr - addr)) le_rfl hmt.2.1 (by omega)
          (by omega) (by omega)
        rw [hcurr, Nat.add_sub_cancel' hlt.le, if_neg (by omega)]
        exact Handed.deepThen hfree rfl (by omega) (by rwa [Nat.add_sub_cancel' hlt.le])
      · rw [Nat.add_zero, Nat.sub_zero, if_neg hpos]
        exact hfrom addr len (by omega) hend (by omega) le_rfl rfl

/-! ## Runs -/

theorem Call.exec_effect {c : Call} (hpage : 0 < page) (h : Wf lo l) (hc : c.Within page lo) :
    ∃ n l', (∀ fuel ≥ n, c.exec page fuel l = some (l', (c.effect page (bytes l)).2)) ∧ Wf lo l' ∧
      bytes l' = (c.effect page (bytes l)).1 := by
  cases c with
  | register addr len regionId type =>
    obtain ⟨hwf, heff⟩ := register_effect h hc
    refine ⟨0, _, fun fuel _ => ?_, hwf, congrArg Prod.fst heff⟩
    rw [← heff]
    rfl
  | unregister addr len =>
    obtain ⟨haddr, hlen, hround, hlt⟩ := hc
    obtain ⟨l', hloop, hwf, hbytes⟩ := unregisterLoop_spec h
      (pageAlignedUpSize_pos hpage hlen hround) hlt haddr
      (by rw [Nat.add_mod, haddr, pageAlignedUpSize_mod, Nat.zero_mod])
    exact ⟨_, l', fun fuel hfuel => hloop fuel hfuel, hwf, hbytes⟩

theorem run_effects {cs : List Call} (hpage : 0 < page) (h : Wf lo l)
    (hcs : ∀ c ∈ cs, c.Within page lo) :
    ∃ n l', (∀ fuel ≥ n, run page fuel l cs = some (l', (effects page (bytes l) cs).2)) ∧
      Wf lo l' ∧ bytes l' = (effects page (bytes l) cs).1 := by
  induction cs generalizing l with
  | nil => exact ⟨0, l, fun fuel _ => rfl, h, rfl⟩
  | cons c cs ih =>
    obtain ⟨hc, hcs⟩ := List.forall_mem_cons.mp hcs
    obtain ⟨n, l', hexec, hwf, hbytes⟩ := c.exec_effect hpage h hc
    obtain ⟨n', l'', hrun, hwf', hbytes'⟩ := ih hwf hcs
    rw [hbytes] at hrun hbytes'
    refine ⟨max n n', l'', fun fuel hfuel => ?_, hwf', hbytes'⟩
    rw [run, hexec fuel (by omega)]
    dsimp only [bind, Option.bind]
    rw [hrun fuel (by omega)]
    rfl

/-- After every run of calls whose ranges do not wrap and lie in one window of `2 ^ 63` addresses,
the list is sorted and disjoint and stands for the bytes that the calls leave, of which
`util_range_is_pmem` and `os_range_deep_common` tell the truth. -/
theorem run_refines (k lo : Nat) {cs : List Call} (hcs : ∀ c ∈ cs, c.Within (2 ^ k) lo) :
    ∃ n l, (∀ fuel ≥ n, run (2 ^ k) fuel [] cs = some (l, (effects (2 ^ k) ∅ cs).2)) ∧
      Wf lo l ∧ bytes l = (effects (2 ^ k) ∅ cs).1 ∧
      (∀ addr len, 0 < len → (utilRangeIsPmem l addr len = true ↔
        ∀ a, addr ≤ a → a < addr + len → ∃ q, (a, q) ∈ (effects (2 ^ k) ∅ cs).1)) ∧
      ∀ ok addr len, addr + len < 2 ^ 64 →
        Handed ok l addr len (osRangeDeepCommon ok l addr len) := by
  have hnil : Wf lo [] := ⟨fun t ht => (nomatch ht), List.Pairwise.nil⟩
  have hempty : bytes [] = ∅ := Set.eq_empty_of_forall_notMem fun p ⟨t, ht, _⟩ => nomatch ht
  obtain ⟨n, l, hrun, hwf, hbytes⟩ := run_effects (Nat.two_pow_pos k) hnil hcs
  rw [hempty] at hrun hbytes
  refine ⟨n, l, hrun, hwf, hbytes, fun addr len hlen => ?_, fun ok addr len hstop =>
    osRangeDeepCommon_handed ok hwf addr len hstop⟩
  rw [← hbytes]
  exact utilRangeIsPmem_iff hwf addr hlen

theorem run_refines_cut :
    ∃ n l, ∀ fuel ≥ n, run (2 ^ 12) fuel [] [.register 4096 12288 7 .devDax, .unregister 8192 1] =
      some (l, (effects (2 ^ 12) ∅ [.register 4096 12288 7 .devDax, .unregister 8192 1]).2) := by
  obtain ⟨n, l, hrun, -⟩ := run_refines 12 0
    (show ∀ c ∈ [Call.register 4096 12288 7 .devDax, .unregister 8192 1], c.Within (2 ^ 12) 0 by
      simp [Call.Within, pageAlignedUpSize])
  exact ⟨n, l, hrun⟩

theorem findLoop_isSome (hl : ∀ t ∈ l, t.baseAddr ≤ addr) (hmt : mt ∈ l)
    (hend : addr < mt.endAddr) : ∃ t, findLoop addr stop l = some t := by
  induction l with
  | nil => cases hmt
  | cons t l ih =>
    obtain ⟨ht, hl⟩ := List.forall_mem_cons.mp hl
    rw [findLoop]
    split
    · exact ⟨t, rfl⟩
    · rename_i hno
      rw [if_neg (by omega)]
      rcases List.mem_cons.mp hmt with rfl | hmt
      · exact absurd ⟨hend, Or.inl ht⟩ hno
      · exact ih hl hmt

/-- From a range that wraps, a split leaves a mapping that the range touches again. -/
theorem unregisterLoop_wrapped (hstop : (addr + len) % 2 ^ 64 < addr) (haddr : addr % page = 0)
    (hround : (addr + len) % 2 ^ 64 % page = 0) (hl : ∀ t ∈ l, t.baseAddr ≤ addr) (hmt : mt ∈ l)
    (hend : addr < mt.endAddr) (fuel : Nat) : unregisterLoop page addr len fuel l = none := by
  induction fuel generalizing l mt with
  | zero => rfl
  | succ fuel ih =>
    obtain ⟨t, hfind⟩ : ∃ t, findLoop addr ((addr + len) % 2 ^ 64) l = some t :=
      findLoop_isSome hl hmt hend
    obtain ⟨ht, hov⟩ := findLoop_some hfind
    have hperm := insertAll_perm (t.pieces addr ((addr + len) % 2 ^ 64)) (l.erase t)
    rw [unregisterLoop, utilRangeFind, hfind]
    dsimp only
    rw [utilRangeSplit, if_neg (by omega)]
    have htail : { t with baseAddr := (addr + len) % 2 ^ 64 } ∈
        t.pieces addr ((addr + len) % 2 ^ 64) := mem_pieces.mpr ⟨Or.inr rfl, hstop.trans hov.1⟩
    refine ih (fun o ho => ?_) (hperm.mem_iff.mpr (List.mem_append_left _ htail)) hov.1
    rw [hperm.mem_iff, List.mem_append, mem_pieces] at ho
    obtain ⟨rfl | rfl, -⟩ | ho := ho
    · exact hl t ht
    · exact hstop.le
    · exact hl o (List.mem_of_mem_erase ho)

/-- Mappings of both halves of the address space are out of order, and a range that wraps is never
taken out. -/
theorem not_refines :
    (∃ l, run 4096 1 [] [.register (2 ^ 63 + 8192) 4096 0 .devDax, .register 4096 4096 0 .devDax] =
        some (l, [true, true]) ∧ ¬ l.Pairwise fun a b => a.endAddr ≤ b.baseAddr) ∧
      ∀ fuel, run 4096 fuel [] [.register 4096 8192 0 .devDax, .unregister 8192 (2 ^ 64 - 4096)] =
        none := by
  refine ⟨⟨_, rfl, by decide⟩, fun fuel => ?_⟩
  have hexec : Call.exec 4096 fuel [⟨4096, 12288, 0, .devDax⟩]
      (.unregister 8192 (2 ^ 64 - 4096)) = none :=
    unregisterLoop_wrapped (by decide) rfl rfl (by decide) (List.mem_singleton_self _) (by decide)
      fuel
  have hrun : run 4096 fuel [⟨4096, 12288, 0, .devDax⟩] [.unregister 8192 (2 ^ 64 - 4096)] =
      none := by
    rw [run, hexec]
    rfl
  change (run 4096 fuel [⟨4096, 12288, 0, .devDax⟩] _).bind _ = none
  rw [hrun]
  rfl

end Pmdk.Mmap
