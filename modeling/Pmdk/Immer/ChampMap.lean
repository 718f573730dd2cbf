import Pmdk.Immer.ChampSub

/-!
# The trie as a map

A trie that comes from the empty one by `add`, `update` and `sub` represents the map that these
operations describe (`run_represents`). No assertion fails on the way, and a run has no result only
where `sub` faults (`run_eq_none_iff`).
-/

namespace Pmdk.Hamts

open Packed List

variable {K V : Type} {B : Nat} {hashOf : K → Hash} {d shift : Nat}

/-! ## Maps -/

inductive Op (K V : Type) where
  | add (v : K × V)
  | update (k : K) (fn : V → V)
  | sub (k : K)

section Meaning

variable [DecidableEq K]

def Op.meaning (dflt : V) : Op K V → (K → Option V) → K → Option V
  | .add v, m => Function.update m v.1 (some v.2)
  | .update k fn, m => Function.update m k (some (fn ((m k).getD dflt)))
  | .sub k, m => Function.update m k none

def meaning (dflt : V) (ops : List (Op K V)) : K → Option V :=
  ops.foldl (fun m op => op.meaning dflt m) fun _ => none

def step (B : Nat) (hashOf : K → Hash) (dflt : V) (c : Champ (K × V)) :
    Op K V → Option (Champ (K × V))
  | .add v => add B hashOf v c
  | .update k fn => update B hashOf dflt k fn c
  | .sub k => sub B hashOf k c

def run (B : Nat) (hashOf : K → Hash) (dflt : V) (ops : List (Op K V)) :
    Option (Champ (K × V)) :=
  ops.foldlM (step B hashOf dflt) empty

end Meaning

def Op.Faults (B : Nat) (c : Champ (K × V)) : Op K V → Prop
  | .sub k => Alone k (maxDepth B) c.root
  | _ => False

structure Represents (B : Nat) (hashOf : K → Hash) (c : Champ (K × V)) (m : K → Option V) :
    Prop where
  wf : WF B hashOf (maxDepth B) 0 c.root
  size_eq : c.size = (elems (maxDepth B) c.root).length
  mem_elems : ∀ k v, (k, v) ∈ elems (maxDepth B) c.root ↔ m k = some v

theorem represents_empty (hB : 0 < B) :
    Represents B hashOf (empty : Champ (K × V)) fun _ => none := by
  obtain ⟨d, hd⟩ := Nat.exists_eq_succ_of_ne_zero (maxDepth_pos hB).ne'
  have helems : elems (maxDepth B) (empty : Champ (K × V)).root = [] := by
    rw [hd]
    rfl
  refine ⟨?_, by rw [helems]; rfl, fun k v => by simp [helems]⟩
  rw [hd]
  refine ⟨⟨(popcount_empty 32).symm, (popcount_empty 32).symm, fun i hi => ?_⟩, ?_, ?_⟩
  · exact BitVec.getLsbD_zero
  · intro i x hx
    exact absurd hx at_nil
  · intro i c hc
    exact absurd hc at_nil

/-! ## The number of the elements -/

theorem WF.nodup_keys {n : Node (K × V)} (h : WF B hashOf d shift n) : (keys d n).Nodup :=
  h.nodup.map_on fun _ hx _ hy heq => h.eq_of_key_eq hx hy heq

theorem length_keys (d : Nat) (n : Node (K × V)) : (keys d n).length = (elems d n).length :=
  length_map _

theorem WF.length_of_cons {n n' : Node (K × V)} (h : WF B hashOf d shift n)
    (h' : WF B hashOf d shift n') {k : K} (hk : k ∉ keys d n)
    (hkeys : ∀ k', k' ∈ keys d n' ↔ k' = k ∨ k' ∈ keys d n) :
    (elems d n').length = (elems d n).length + 1 := by
  have hnodup : (k :: keys d n).Nodup := nodup_cons.mpr ⟨hk, h.nodup_keys⟩
  have hperm : (keys d n').Perm (k :: keys d n) :=
    (perm_ext_iff_of_nodup h'.nodup_keys hnodup).mpr fun k' => by rw [hkeys, mem_cons]
  rw [← length_keys, hperm.length_eq, length_cons, length_keys]

theorem WF.length_of_iff {n n' : Node (K × V)} (h : WF B hashOf d shift n)
    (h' : WF B hashOf d shift n') (hkeys : ∀ k', k' ∈ keys d n' ↔ k' ∈ keys d n) :
    (elems d n').length = (elems d n).length := by
  have hperm := (perm_ext_iff_of_nodup h'.nodup_keys h.nodup_keys).mpr hkeys
  rw [← length_keys, hperm.length_eq, length_keys]

theorem Inserts.mem_keys {k : K} {combine : Option V → V} {n : Node (K × V)}
    {res : Node (K × V) × Bool} (h : Inserts B hashOf k combine d shift n res) (k' : K) :
    k' ∈ keys d res.1 ↔ k' = k ∨ k' ∈ keys d n := by
  rw [mem_keys_iff, mem_keys_iff]
  simp only [h.2.1]
  constructor
  · rintro ⟨x, ⟨-, hx⟩ | ⟨v, -, rfl⟩ | ⟨-, rfl⟩, rfl⟩
    · exact .inr ⟨x, hx, rfl⟩
    · exact .inl rfl
    · exact .inl rfl
  · have hnew : ∃ x, Puts k combine (· ∈ elems d n) x ∧ x.1 = k := by
      by_cases hk : ∃ v, (k, v) ∈ elems d n
      · obtain ⟨v, hv⟩ := hk
        exact ⟨_, .inr (.inl ⟨v, hv, rfl⟩), rfl⟩
      · exact ⟨_, .inr (.inr ⟨fun v hv => hk ⟨v, hv⟩, rfl⟩), rfl⟩
    rintro (rfl | ⟨x, hx, rfl⟩)
    · exact hnew
    · by_cases hk : x.1 = k
      · rw [hk]
        exact hnew
      · exact ⟨x, .inl ⟨hk, hx⟩, rfl⟩

/-! ## Finding a key -/

section Get

variable [DecidableEq K] {k : K} {n : Node (K × V)}

/-- `get` shifts the hash, while the operations shift the mask. -/
theorem mask_eq_index (hB : B ≤ 5) (hash : Hash) (h : shift < 64) :
    (hash >>> shift &&& mask B).toNat = index B hash shift := by
  have hpow : 2 ^ B ≤ 2 ^ 5 := Nat.pow_le_pow_right (by decide) hB
  have hmask : (2 ^ B - 1) % 2 ^ 64 = 2 ^ B - 1 := Nat.mod_eq_of_lt (by omega)
  rw [index_eq B hash h, BitVec.toNat_and, BitVec.toNat_ushiftRight, Nat.shiftRight_eq_div_pow,
    mask, BitVec.toNat_ofNat, hmask, Nat.and_two_pow_sub_one_eq_mod]

theorem doGet_spec (hB : B ≤ 5) (hshift : shift + d * B = maxShift B) (h : WF B hashOf d shift n) :
    ∃ o, doGet B k d (hashOf k >>> shift) n = some o ∧ ∀ v, o = some v ↔ (k, v) ∈ elems d n := by
  induction d generalizing shift n with
  | zero =>
    cases n with
    | inner node => exact h.elim
    | collision values =>
      refine ⟨_, rfl, fun v => ?_⟩
      rw [elems, Option.map_eq_some_iff]
      constructor
      · rintro ⟨x, hx, rfl⟩
        have hkey : x.1 = k := by simpa using find?_some hx
        rw [← hkey]
        exact mem_of_find?_eq_some hx
      · intro hv
        cases hfind : values.find? fun x => x.1 = k with
        | none => exact absurd (decide_eq_true rfl) (find?_eq_none.mp hfind _ hv)
        | some x =>
          have hkey : x.1 = k := by simpa using find?_some hfind
          exact ⟨x, rfl, congrArg Prod.snd
            (h.eq_of_key_eq (d := 0) (mem_of_find?_eq_some hfind) hv hkey)⟩
  | succ d ih =>
    cases n with
    | collision values => exact h.elim
    | inner node =>
      have hlt := shift_lt hshift
      have hw := index_lt hB (hashOf k) hlt
      have hnext : shift + B + d * B = maxShift B := by rw [← hshift, Nat.succ_mul]; omega
      have hkey : ∀ v, ¬ Rest d (index B (hashOf k) shift) node (k, v) := fun v hx =>
        hx.index_ne h rfl
      rw [doGet, mask_eq_index hB _ hlt]
      by_cases hn : node.nodemap.getLsbD (index B (hashOf k) shift) = true
      · obtain ⟨c, hc⟩ := exists_at h.shaped.children_length hn
        obtain ⟨o, ho, hmem⟩ := ih hnext (h.child hc)
        refine ⟨o, ?_, fun v => ?_⟩
        · rw [if_pos ((and_bit_ne_zero_iff hw).mpr hn), offset_bit _ hw, hc.2,
            Option.bind_eq_bind, Option.bind_some, ← BitVec.shiftRight_add]
          exact ho
        · rw [hmem, h.mem_elems_child hc]
          exact (or_iff_left (hkey v)).symm
      · rw [Bool.not_eq_true] at hn
        rw [if_neg (by rw [and_bit_ne_zero_iff hw, hn]; decide)]
        by_cases hd : node.datamap.getLsbD (index B (hashOf k) shift) = true
        · obtain ⟨⟨k', v'⟩, hval⟩ := exists_at h.shaped.values_length hd
          rw [if_pos ((and_bit_ne_zero_iff hw).mpr hd), offset_bit _ hw, hval.2,
            Option.bind_eq_bind, Option.bind_some]
          by_cases hk : k' = k
          · subst hk
            refine ⟨some v', if_pos rfl, fun v => ?_⟩
            rw [h.mem_elems_value hval, or_iff_left (hkey v)]
            simp [eq_comm]
          · refine ⟨none, if_neg hk, fun v => ?_⟩
            rw [h.mem_elems_value hval, or_iff_left (hkey v)]
            simp [Ne.symm hk]
        · rw [Bool.not_eq_true] at hd
          rw [if_neg (by rw [and_bit_ne_zero_iff hw, hd]; decide)]
          refine ⟨none, rfl, fun v => ?_⟩
          rw [h.mem_elems_empty hd hn, or_iff_left (hkey v)]
          simp

theorem Represents.get_eq {c : Champ (K × V)} {m : K → Option V} (h : Represents B hashOf c m)
    (hB : B ≤ 5) (k : K) : get B hashOf k c = some (m k) := by
  obtain ⟨o, ho, hmem⟩ := doGet_spec (k := k) hB (Nat.zero_add _) h.wf
  rw [BitVec.ushiftRight_zero] at ho
  rw [get, ho]
  congr 1
  refine Option.ext fun v => ?_
  rw [hmem, h.mem_elems]

end Get

section Operations

variable [DecidableEq K] {c : Champ (K × V)} {m : K → Option V}

section

variable (h : Represents B hashOf c m)

include h

theorem Represents.inserts (hB0 : 0 < B) (hB : B ≤ 5) (k : K)
    (combine : Option V → V) (hatMost : AtMostIn hashOf (2 ^ B) (k :: keys (maxDepth B) c.root)) :
    ∃ res, doPut B hashOf k combine (maxDepth B) 0 c.root = some res ∧
      Represents B hashOf (c.withRoot res) (Function.update m k (some (combine (m k)))) := by
  obtain ⟨res, hput, hres⟩ :=
    doPut_spec hB0 hB k combine hatMost (Nat.zero_add _) h.wf (Routes.zero k c.root)
  refine ⟨res, hput, hres.1, ?_, fun k' v => ?_⟩
  · have hlength : (elems (maxDepth B) res.1).length =
        (elems (maxDepth B) c.root).length + if res.2 then 1 else 0 := by
      by_cases hnew : res.2 = true
      · rw [if_pos hnew]
        exact h.wf.length_of_cons hres.1 (hres.2.2.mp hnew) hres.mem_keys
      · rw [if_neg hnew]
        refine h.wf.length_of_iff hres.1 fun k' => ?_
        have hk : k ∈ keys (maxDepth B) c.root := by
          by_contra hnot
          exact hnew (hres.2.2.mpr hnot)
        rw [hres.mem_keys, or_iff_right_of_imp]
        rintro rfl
        exact hk
    exact (congrArg (· + _) h.size_eq).trans hlength.symm
  · refine (hres.2.1 _).trans ?_
    simp only [Puts, h.mem_elems]
    by_cases hk : k' = k
    · subst hk
      rw [Function.update_self]
      cases hm : m k' with
      | none => simp [eq_comm]
      | some v' => simp [eq_comm]
    · rw [Function.update_of_ne hk]
      simp [hk]

theorem Represents.add (hB0 : 0 < B) (hB : B ≤ 5) (dflt : V)
    (v : K × V) (hatMost : AtMostIn hashOf (2 ^ B) (v.1 :: keys (maxDepth B) c.root)) :
    ∃ c', step B hashOf dflt c (.add v) = some c' ∧
      Represents B hashOf c' ((Op.add v).meaning dflt m) := by
  obtain ⟨res, hput, hres⟩ := h.inserts hB0 hB v.1 (fun _ => v.2) hatMost
  refine ⟨c.withRoot res, ?_, hres⟩
  rw [step, Hamts.add, doAdd, hput]
  rfl

theorem Represents.update (hB0 : 0 < B) (hB : B ≤ 5) (dflt : V)
    (k : K) (fn : V → V) (hatMost : AtMostIn hashOf (2 ^ B) (k :: keys (maxDepth B) c.root)) :
    ∃ c', step B hashOf dflt c (.update k fn) = some c' ∧
      Represents B hashOf c' ((Op.update k fn).meaning dflt m) := by
  obtain ⟨res, hput, hres⟩ := h.inserts hB0 hB k (fun old => fn (old.getD dflt)) hatMost
  refine ⟨c.withRoot res, ?_, hres⟩
  rw [step, Hamts.update, doUpdate, hput]
  rfl

theorem Represents.sub (hB0 : 0 < B) (hB : B ≤ 5)
    (dflt : V) (k : K) (hatMost : AtMostIn hashOf (2 ^ B) (keys (maxDepth B) c.root))
    (hnot : ¬ Alone k (maxDepth B) c.root) :
    ∃ c', step B hashOf dflt c (.sub k) = some c' ∧
      Represents B hashOf c' ((Op.sub k).meaning dflt m) := by
  obtain ⟨res, hsub, hres⟩ := doSub_spec hB0 hB k hatMost (Nat.zero_add _) h.wf
    (Routes.zero k c.root) (fun hlt => absurd hlt (lt_irrefl 0)) hnot
  rw [step, Hamts.sub, hsub, Option.bind_eq_bind, Option.bind_some]
  cases res with
  | nothing =>
    refine ⟨c, rfl, h.wf, h.size_eq, fun k' v => ?_⟩
    rw [h.mem_elems]
    by_cases hk : k' = k
    · subst hk
      have hm : m k' ≠ some v := fun hm =>
        hres (mem_keys_iff.mpr ⟨_, (h.mem_elems k' v).mpr hm, rfl⟩)
      simp [Op.meaning, hm]
    · rw [Op.meaning, Function.update_of_ne hk]
  | singleton x => exact absurd hres.2.1 (lt_irrefl 0)
  | tree t =>
    obtain ⟨hk, hwf, hmem, -⟩ := hres
    refine ⟨_, rfl, hwf, ?_, fun k' v => ?_⟩
    · have hlength := hwf.length_of_cons h.wf (k := k) ?_ fun k' => ?_
      · rw [h.size_eq, hlength, Nat.add_sub_cancel]
      · intro hkt
        obtain ⟨x, hx, hxk⟩ := mem_keys_iff.mp hkt
        exact ((hmem x).mp hx).1 hxk
      · by_cases hkk : k' = k
        · subst hkk
          simp [hk]
        · rw [or_iff_right hkk, mem_keys_iff, mem_keys_iff]
          refine exists_congr fun x => and_congr_left fun hx => ?_
          rw [hmem, hx]
          exact (and_iff_right hkk).symm
    · rw [hmem, h.mem_elems]
      by_cases hkk : k' = k
      · subst hkk
        simp [Op.meaning]
      · rw [Op.meaning, Function.update_of_ne hkk]
        exact and_iff_right hkk

theorem Represents.step (hB0 : 0 < B) (hB : B ≤ 5)
    (hatMost : AtMost hashOf (2 ^ B)) (dflt : V) (op : Op K V) (hnot : ¬ op.Faults B c) :
    ∃ c', step B hashOf dflt c op = some c' ∧ Represents B hashOf c' (op.meaning dflt m) := by
  cases op with
  | add v => exact h.add hB0 hB dflt v (hatMost.atMostIn _)
  | update k fn => exact h.update hB0 hB dflt k fn (hatMost.atMostIn _)
  | sub k => exact h.sub hB0 hB dflt k (hatMost.atMostIn _) hnot

theorem Represents.step_eq_none (hB : B ≤ 5) (dflt : V) {op : Op K V} (hfaults : op.Faults B c) :
    Hamts.step B hashOf dflt c op = none := by
  cases op with
  | add v => exact hfaults.elim
  | update k fn => exact hfaults.elim
  | sub k => rw [Hamts.step, Hamts.sub, doSub_eq_none hB (Nat.zero_add _) h.wf hfaults]; rfl

theorem Represents.step_of_eq_some (hB0 : 0 < B) (hB : B ≤ 5) (hatMost : AtMost hashOf (2 ^ B))
    (dflt : V) {op : Op K V} {c' : Champ (K × V)}
    (hstep : Hamts.step B hashOf dflt c op = some c') :
    Represents B hashOf c' (op.meaning dflt m) := by
  have hnot : ¬ op.Faults B c := fun hfaults => by
    rw [h.step_eq_none hB dflt hfaults] at hstep
    cases hstep
  obtain ⟨c'', hstep', hc''⟩ := h.step hB0 hB hatMost dflt op hnot
  cases hstep.symm.trans hstep'
  exact hc''

theorem Represents.run (hB0 : 0 < B) (hB : B ≤ 5) (hatMost : AtMost hashOf (2 ^ B)) (dflt : V)
    {ops : List (Op K V)} {c' : Champ (K × V)}
    (hrun : ops.foldlM (Hamts.step B hashOf dflt) c = some c') :
    Represents B hashOf c' (ops.foldl (fun m op => op.meaning dflt m) m) := by
  induction ops generalizing c m with
  | nil => exact Option.some.inj hrun ▸ h
  | cons op ops ih =>
    obtain ⟨c₁, hstep, hrun⟩ := Option.bind_eq_some_iff.mp hrun
    exact ih (h.step_of_eq_some hB0 hB hatMost dflt hstep) hrun

end

theorem run_represents (hB0 : 0 < B) (hB : B ≤ 5) (hatMost : AtMost hashOf (2 ^ B)) (dflt : V)
    {ops : List (Op K V)} (hrun : run B hashOf dflt ops = some c) :
    Represents B hashOf c (meaning dflt ops) :=
  (represents_empty hB0).run hB0 hB hatMost dflt hrun

/-- A run has a result unless it comes to a `sub` of the only value of a node with children. -/
theorem run_eq_none_iff (hB0 : 0 < B) (hB : B ≤ 5) (hatMost : AtMost hashOf (2 ^ B)) (dflt : V)
    (ops : List (Op K V)) : run B hashOf dflt ops = none ↔
      ∃ before op after c, ops = before ++ op :: after ∧ run B hashOf dflt before = some c ∧
        op.Faults B c := by
  induction ops using List.reverseRecOn with
  | nil => simp [run]
  | append_singleton ops op ih =>
    have hrun : run B hashOf dflt (ops ++ [op]) =
        (run B hashOf dflt ops).bind fun c => step B hashOf dflt c op := by
      simp [run, foldlM_append]
    rw [hrun]
    constructor
    · intro hnone
      cases hops : run B hashOf dflt ops with
      | none =>
        obtain ⟨before, op', after, c, rfl, hbefore⟩ := ih.mp hops
        exact ⟨before, op', after ++ [op], c, by simp, hbefore⟩
      | some c =>
        refine ⟨ops, op, [], c, rfl, hops, by_contra fun hnot => ?_⟩
        obtain ⟨c', hstep, -⟩ :=
          (run_represents hB0 hB hatMost dflt hops).step hB0 hB hatMost dflt op hnot
        rw [hops, Option.bind_some, hstep] at hnone
        cases hnone
    · rintro ⟨before, op', after, c, heq, hbefore, hfaults⟩
      have hstep := (run_represents hB0 hB hatMost dflt hbefore).step_eq_none hB dflt hfaults
      rw [← hrun, heq, run, foldlM_append, show foldlM _ _ _ = _ from hbefore,
        Option.bind_eq_bind, Option.bind_some, foldlM_cons, hstep]
      rfl

/-- The root has a child for the first two keys, and one value. -/
example : run (K := Hash) 5 id 0
    [.add (0, 7), .add (9223372036854775808, 8), .add (1, 9), .sub 1] = none := by
  decide +kernel

end Operations

end Pmdk.Hamts
