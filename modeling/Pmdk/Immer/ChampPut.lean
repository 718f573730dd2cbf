import Pmdk.Immer.ChampInv

/-!
# Insertion

`do_add` and `do_update` keep the trie well-formed, and what they do to its elements is what they
say: the key gets its new value, and the others keep theirs (`Puts`).
-/

namespace Pmdk.Hamts

open Packed List

variable {K V : Type} {B : Nat} {hashOf : K → Hash} {d shift : Nat}

/-! ## Keys that have the same hash -/

def AtMost (hashOf : K → Hash) (n : Nat) : Prop :=
  ∀ ks : List K, ks.Nodup → (∀ k ∈ ks, ∀ k' ∈ ks, hashOf k = hashOf k') → ks.length ≤ n

theorem atMost_of_injective (h : Function.Injective hashOf) {n : Nat} (hn : 0 < n) :
    AtMost hashOf n := by
  intro ks hnodup hsame
  cases ks with
  | nil => exact Nat.zero_le n
  | cons k ks =>
    cases ks with
    | nil => exact hn
    | cons k' ks =>
      refine absurd (h (hsame k (by simp) k' (by simp))) ?_
      rintro rfl
      exact (nodup_cons.mp hnodup).1 mem_cons_self

def AtMostIn (hashOf : K → Hash) (n : Nat) (l : List K) : Prop :=
  ∀ ks : List K, ks.Nodup → (∀ k ∈ ks, k ∈ l) → (∀ k ∈ ks, ∀ k' ∈ ks, hashOf k = hashOf k') →
    ks.length ≤ n

theorem AtMost.atMostIn {n : Nat} (h : AtMost hashOf n) (l : List K) : AtMostIn hashOf n l :=
  fun ks hnodup _ hsame => h ks hnodup hsame

theorem AtMostIn.mono {n : Nat} {l l' : List K} (h : AtMostIn hashOf n l')
    (hsub : ∀ k ∈ l, k ∈ l') : AtMostIn hashOf n l :=
  fun ks hnodup hks hsame => h ks hnodup (fun k hk => hsub k (hks k hk)) hsame

theorem AtMostIn.of_insert {n : Nat} {k : K} {l₁ l₂ : List (K × V)} {old : K × V}
    (h : AtMostIn hashOf n (k :: (l₁ ++ old :: l₂).map Prod.fst)) :
    AtMostIn hashOf n (k :: (l₁ ++ l₂).map Prod.fst) := by
  refine h.mono fun k' hk' => ?_
  simp only [map_append, map_cons, mem_cons, mem_append] at hk' ⊢
  rcases hk' with hk' | hk' | hk'
  · exact .inl hk'
  · exact .inr (.inl hk')
  · exact .inr (.inr (.inr hk'))

def Routes (hashOf : K → Hash) (k : K) (d shift : Nat) (n : Node (K × V)) : Prop :=
  ∀ x ∈ elems d n, Agree (hashOf x.1) (hashOf k) shift

theorem Routes.zero (k : K) (n : Node (K × V)) : Routes hashOf k d 0 n :=
  fun _ _ => Agree.zero _ _

variable {c : Node (K × V)}

theorem Routes.child {k : K} {node : Inner (Node (K × V)) (K × V)}
    (h : Routes hashOf k (d + 1) shift (.inner node))
    (hwf : WF B hashOf (d + 1) shift (.inner node)) (hshift : shift < 64)
    (hc : At node.nodemap node.children (index B (hashOf k) shift) c) :
    Routes hashOf k d (shift + B) c := fun x hx =>
  (h x ((mem_elems_inner hwf.shaped).mpr (.inr ⟨_, c, hc, hx⟩))).next hshift (hwf.index_child hc hx)

variable {values : List (K × V)}

theorem Routes.length_le {k : K} (hatMost : AtMostIn hashOf (2 ^ B) (k :: values.map Prod.fst))
    (h : Routes hashOf k 0 shift (.collision values)) (hshift : 64 ≤ shift)
    (hnodup : (k :: values.map Prod.fst).Nodup) : values.length + 1 ≤ 2 ^ B := by
  have hhash : ∀ k' ∈ k :: values.map Prod.fst, hashOf k' = hashOf k := by
    intro k' hk'
    rcases mem_cons.mp hk' with rfl | hk'
    · rfl
    · obtain ⟨x, hx, rfl⟩ := mem_map.mp hk'
      exact (h x hx).eq hshift
  have hle := hatMost _ hnodup (fun _ hk' => hk')
    fun k₁ h₁ k₂ h₂ => (hhash k₁ h₁).trans (hhash k₂ h₂).symm
  simpa using hle

theorem makeCollisionN_eq {T : Type} {values : List T} (h : values.length ≤ 2 ^ B) :
    makeCollisionN B values = some (.collision values) := if_pos h

/-! ## Two keys -/

theorem mem_makeMerged {T : Type} {v1 v2 x : T} {hash1 hash2 : Hash} :
    x ∈ elems d (makeMerged B d shift v1 hash1 v2 hash2) ↔ x = v1 ∨ x = v2 := by
  induction d generalizing shift with
  | zero => simp [makeMerged, elems]
  | succ d ih =>
    rw [makeMerged]
    split
    · simp [elems, ih]
    · by_cases hlt : index B hash1 shift < index B hash2 shift
      · simp [elems, hlt]
      · simp [elems, hlt, or_comm]

theorem hasTwo_makeMerged {v1 v2 : K × V} {hash1 hash2 : Hash} (hne : v1.1 ≠ v2.1) :
    HasTwo (elems d (makeMerged B d shift v1 hash1 v2 hash2)) :=
  ⟨v1, mem_makeMerged.mpr (.inl rfl), v2, mem_makeMerged.mpr (.inr rfl), hne⟩

theorem wf_makeMerged (hB : B ≤ 5) {v1 v2 : K × V} (hne : v1.1 ≠ v2.1)
    (hshift : shift + d * B = maxShift B) :
    WF B hashOf d shift (makeMerged B d shift v1 (hashOf v1.1) v2 (hashOf v2.1)) := by
  induction d generalizing shift with
  | zero => simpa [makeMerged, WF] using hne
  | succ d ih =>
    have hlt := shift_lt hshift
    have hi1 := index_lt hB (hashOf v1.1) hlt
    have hi2 := index_lt hB (hashOf v2.1) hlt
    rw [makeMerged]
    split
    case isTrue hsame =>
      have hindex := chunk_eq_iff.mp hsame
      refine ⟨⟨(popcount_empty 32).symm, (popcount_bit hi1).symm, fun _ _ => BitVec.getLsbD_zero⟩,
        fun i x hx => absurd hx at_nil, fun i c hc => ?_⟩
      obtain ⟨rfl, rfl⟩ := (at_singleton_iff hi1).mp hc
      refine ⟨ih (by rw [← hshift, Nat.succ_mul]; omega), hasTwo_makeMerged hne, fun x hx => ?_⟩
      rcases mem_makeMerged.mp hx with rfl | rfl
      · rfl
      · exact hindex.symm
    case isFalse hdiffer =>
      have hindex : index B (hashOf v1.1) shift ≠ index B (hashOf v2.1) shift :=
        fun h => hdiffer (chunk_eq_iff.mpr h)
      refine ⟨⟨?_, (popcount_empty 32).symm, ?_⟩, fun i x hx => ?_, fun i c hc => absurd hc at_nil⟩
      · rw [popcount_pair hi1 hi2 hindex]
        split <;> rfl
      · intro i hi
        rw [show (0 : Bitmap).getLsbD i = false from BitVec.getLsbD_zero] at hi
        cases hi
      · rcases (at_pair_iff hi1 hi2 hindex).mp hx with ⟨rfl, rfl⟩ | ⟨rfl, rfl⟩
        · rfl
        · rfl

/-! ## What a key gets -/

def Puts (k : K) (combine : Option V → V) (p : K × V → Prop) (x : K × V) : Prop :=
  (x.1 ≠ k ∧ p x) ∨ (∃ v, p (k, v) ∧ x = (k, combine (some v))) ∨
    ((∀ v, ¬ p (k, v)) ∧ x = (k, combine none))

theorem Puts.congr {k : K} {combine : Option V → V} {p q : K × V → Prop} (h : ∀ x, p x ↔ q x)
    (x : K × V) : Puts k combine p x ↔ Puts k combine q x := by
  simp only [Puts, h]

theorem puts_or_iff {k : K} {combine : Option V → V} {p r : K × V → Prop} (hr : ∀ x, r x → x.1 ≠ k)
    (x : K × V) : Puts k combine (fun x => p x ∨ r x) x ↔ Puts k combine p x ∨ r x := by
  have hrk : ∀ v, ¬ r (k, v) := fun v h => hr _ h rfl
  simp only [Puts, hrk, or_false]
  constructor
  · rintro (⟨hne, hp | hr'⟩ | h | h)
    · exact .inl (.inl ⟨hne, hp⟩)
    · exact .inr hr'
    · exact .inl (.inr (.inl h))
    · exact .inl (.inr (.inr h))
  · rintro ((⟨hne, hp⟩ | h | h) | hr')
    · exact .inl ⟨hne, .inl hp⟩
    · exact .inr (.inl h)
    · exact .inr (.inr h)
    · exact .inl ⟨hr x hr', .inr hr'⟩

theorem puts_false_iff {k : K} {combine : Option V → V} (x : K × V) :
    Puts k combine (fun _ => False) x ↔ x = (k, combine none) := by
  simp [Puts]

theorem puts_eq_iff {k : K} {combine : Option V → V} (v : V) (x : K × V) :
    Puts k combine (· = (k, v)) x ↔ x = (k, combine (some v)) := by
  constructor
  · rintro (⟨hne, rfl⟩ | ⟨v', heq, rfl⟩ | ⟨hnot, -⟩)
    · exact absurd rfl hne
    · cases heq
      rfl
    · exact absurd rfl (hnot v)
  · rintro rfl
    exact .inr (.inl ⟨v, rfl, rfl⟩)

theorem puts_eq_of_ne_iff {k : K} {combine : Option V → V} {val : K × V} (hne : val.1 ≠ k)
    (x : K × V) : Puts k combine (· = val) x ↔ x = (k, combine none) ∨ x = val := by
  constructor
  · rintro (⟨-, rfl⟩ | ⟨v, rfl, -⟩ | ⟨-, rfl⟩)
    · exact .inr rfl
    · exact absurd rfl hne
    · exact .inl rfl
  · rintro (rfl | rfl)
    · refine .inr (.inr ⟨fun v heq => hne ?_, rfl⟩)
      rw [← heq]
    · exact .inl ⟨hne, rfl⟩

def Inserts (B : Nat) (hashOf : K → Hash) (k : K) (combine : Option V → V) (d shift : Nat)
    (n : Node (K × V)) (res : Node (K × V) × Bool) : Prop :=
  WF B hashOf d shift res.1 ∧ (∀ x, x ∈ elems d res.1 ↔ Puts k combine (· ∈ elems d n) x) ∧
    (res.2 = true ↔ k ∉ keys d n)

theorem HasTwo.puts {k : K} {combine : Option V → V} {l l' : List (K × V)} (h : HasTwo l)
    (hl : ∀ x, x ∈ l' ↔ Puts k combine (· ∈ l) x) : HasTwo l' := by
  have hkey : ∀ x ∈ l, ∃ x' ∈ l', x'.1 = x.1 := by
    intro x hx
    by_cases hk : x.1 = k
    · refine ⟨(k, combine (some x.2)), (hl _).mpr (.inr (.inl ⟨x.2, ?_, rfl⟩)), hk.symm⟩
      rw [← hk]
      exact hx
    · exact ⟨x, (hl x).mpr (.inl ⟨hk, hx⟩), rfl⟩
  obtain ⟨x, hx, y, hy, hne⟩ := h
  obtain ⟨x', hx', hxk⟩ := hkey x hx
  obtain ⟨y', hy', hyk⟩ := hkey y hy
  exact ⟨x', hx', y', hy', by rwa [hxk, hyk]⟩

/-! ## The operation -/

theorem mem_append_iff {l₁ l₂ : List (K × V)} {old x : K × V}
    (h : ((l₁ ++ old :: l₂).map Prod.fst).Nodup) :
    x ∈ l₁ ++ l₂ ↔ x.1 ≠ old.1 ∧ x ∈ l₁ ++ old :: l₂ := by
  rw [map_append, map_cons, nodup_middle, nodup_cons, ← map_append] at h
  have hother : ∀ x ∈ l₁ ++ l₂, x.1 ≠ old.1 := fun x hx heq =>
    h.1 (mem_map.mpr ⟨x, hx, heq⟩)
  constructor
  · intro hx
    refine ⟨hother x hx, ?_⟩
    rcases mem_append.mp hx with hx | hx
    · exact mem_append_left _ hx
    · exact mem_append_right _ (mem_cons_of_mem _ hx)
  · rintro ⟨hne, hx⟩
    rcases mem_append.mp hx with hx | hx
    · exact mem_append_left _ hx
    · rcases mem_cons.mp hx with rfl | hx
      · exact absurd rfl hne
      · exact mem_append_right _ hx

section Put

variable [DecidableEq K] {k : K} {combine : Option V → V} {n : Node (K × V)}

theorem exists_split {pos : Nat} (h : values.findIdx? (fun x => x.1 = k) = some pos) :
    ∃ l₁ old l₂, values = l₁ ++ old :: l₂ ∧ old.1 = k ∧ values[pos]? = some old ∧
      values.eraseIdx pos = l₁ ++ l₂ ∧ pos = l₁.length := by
  obtain ⟨hpos, hkey, -⟩ := findIdx?_eq_some_iff_getElem.mp h
  have hsplit : values = values.take pos ++ values[pos] :: values.drop (pos + 1) := by
    rw [getElem_cons_drop, take_append_drop]
  exact ⟨values.take pos, values[pos], values.drop (pos + 1), hsplit, of_decide_eq_true hkey,
    getElem?_eq_getElem hpos, eraseIdx_eq_take_drop_succ values pos,
    (length_take_of_le hpos.le).symm⟩

theorem doPut_collision
    (hatMost : AtMostIn hashOf (2 ^ B) (k :: values.map Prod.fst)) (hshift : 64 ≤ shift)
    (h : WF B hashOf 0 shift (.collision values))
    (hroutes : Routes hashOf k 0 shift (.collision values)) :
    ∃ res, doPut B hashOf k combine 0 shift (.collision values) = some res ∧
      Inserts B hashOf k combine 0 shift (.collision values) res := by
  rw [doPut]
  cases hfind : values.findIdx? fun x => x.1 = k with
  | some pos =>
    obtain ⟨l₁, old, l₂, rfl, rfl, hget, herase, -⟩ := exists_split hfind
    have hnodup : (old.1 :: (l₁ ++ l₂).map Prod.fst).Nodup := by
      have hkeys : ((l₁ ++ old :: l₂).map Prod.fst).Nodup := h
      rwa [map_append, map_cons, nodup_middle, ← map_append] at hkeys
    have hsub : Routes hashOf old.1 0 shift (.collision (l₁ ++ l₂)) := fun x hx =>
      hroutes x ((mem_append_iff h).mp hx).2
    have hlength := hsub.length_le hatMost.of_insert hshift hnodup
    refine ⟨(.collision ((old.1, combine (some old.2)) :: (l₁ ++ l₂)), false), ?_, hnodup,
      fun x => ?_, ?_⟩
    · dsimp only
      rw [hget, herase, Option.bind_eq_bind, Option.bind_some,
        makeCollisionN_eq (by simpa using hlength)]
      rfl
    · rw [elems, mem_cons, mem_append_iff h]
      constructor
      · rintro (rfl | hx)
        · exact .inr (.inl ⟨old.2, by simp [elems], rfl⟩)
        · exact .inl hx
      · rintro (hx | ⟨v, hv, rfl⟩ | ⟨hnot, -⟩)
        · exact .inr hx
        · have heq := WF.eq_of_key_eq (n := .collision _) h hv
            (show old ∈ l₁ ++ old :: l₂ by simp) rfl
          rw [← heq]
          exact .inl rfl
        · exact absurd (show old ∈ l₁ ++ old :: l₂ by simp) (hnot old.2)
    · refine iff_of_false Bool.false_ne_true fun hnot => hnot ?_
      exact mem_keys_iff.mpr ⟨old, by simp [elems], rfl⟩
  | none =>
    have hnew : ∀ x ∈ values, x.1 ≠ k := fun x hx =>
      of_decide_eq_false (findIdx?_eq_none_iff.mp hfind x hx)
    have hnodup : (k :: values.map Prod.fst).Nodup := by
      refine nodup_cons.mpr ⟨fun hk => ?_, h⟩
      obtain ⟨x, hx, hxk⟩ := mem_map.mp hk
      exact hnew x hx hxk
    have hlength := hroutes.length_le hatMost hshift hnodup
    refine ⟨(.collision ((k, combine none) :: values), true), ?_, hnodup, fun x => ?_, ?_⟩
    · dsimp only
      rw [makeCollisionN_eq (by simpa using hlength)]
      rfl
    · rw [elems, mem_cons]
      constructor
      · rintro (rfl | hx)
        · exact .inr (.inr ⟨fun v hv => hnew _ hv rfl, rfl⟩)
        · exact .inl ⟨hnew x hx, hx⟩
      · rintro (⟨-, hx⟩ | ⟨v, hv, -⟩ | ⟨-, rfl⟩)
        · exact .inr hx
        · exact absurd rfl (hnew _ hv)
        · exact .inl rfl
    · refine iff_of_true rfl fun hk => ?_
      obtain ⟨x, hx, hxk⟩ := mem_keys_iff.mp hk
      exact hnew x hx hxk

end Put

section Slot

variable {i : Nat} {k : K} {combine : Option V → V} {node : Inner (Node (K × V)) (K × V)}

section

variable (h : WF B hashOf (d + 1) shift (.inner node))

include h

theorem WF.mem_elems_child (hc : At node.nodemap node.children i c) (x : K × V) :
    x ∈ elems (d + 1) (.inner node) ↔ x ∈ elems d c ∨ Rest d i node x := by
  rw [mem_elems_slot h.shaped i]
  refine or_congr_left ⟨?_, fun hx => .inr ⟨c, hc, hx⟩⟩
  rintro (hx | ⟨c', hc', hx⟩)
  · exact absurd hx (h.shaped.not_value hc.bit_eq x)
  · rwa [hc.unique hc']

theorem WF.mem_elems_value {val : K × V} (hval : At node.datamap node.values i val) (x : K × V) :
    x ∈ elems (d + 1) (.inner node) ↔ x = val ∨ Rest d i node x := by
  rw [mem_elems_slot h.shaped i]
  refine or_congr_left ⟨?_, fun hx => .inl (hx ▸ hval)⟩
  rintro (hx | ⟨c, hc, -⟩)
  · exact hx.unique hval
  · exact absurd hval (h.shaped.not_value hc.bit_eq val)

theorem WF.mem_elems_empty
    (hd : node.datamap.getLsbD i = false) (hn : node.nodemap.getLsbD i = false) (x : K × V) :
    x ∈ elems (d + 1) (.inner node) ↔ False ∨ Rest d i node x := by
  rw [mem_elems_slot h.shaped i]
  refine or_congr_left (iff_of_false ?_ id)
  rintro (hx | ⟨c, hc, -⟩)
  · exact not_at_of_getLsbD hd hx
  · exact not_at_of_getLsbD hn hc

theorem WF.puts_iff {p : K × V → Prop}
    (hp : ∀ x, x ∈ elems (d + 1) (.inner node) ↔ p x ∨ Rest d (index B (hashOf k) shift) node x)
    (x : K × V) :
    Puts k combine (· ∈ elems (d + 1) (.inner node)) x ↔
      Puts k combine p x ∨ Rest d (index B (hashOf k) shift) node x := by
  rw [Puts.congr hp]
  refine puts_or_iff (fun x hx heq => hx.index_ne h ?_) x
  rw [heq]

theorem WF.keys_subset
    (hc : At node.nodemap node.children i c) : ∀ k ∈ keys d c, k ∈ keys (d + 1) (.inner node) := by
  intro k hk
  obtain ⟨x, hx, rfl⟩ := mem_keys_iff.mp hk
  exact mem_keys_iff.mpr ⟨x, (h.mem_elems_child hc x).mpr (.inl hx), rfl⟩

end

end Slot

/-! ## The operation at an inner node -/

section Inner

variable [DecidableEq K] {k : K} {combine : Option V → V} {node : Inner (Node (K × V)) (K × V)}

section

variable (h : WF B hashOf (d + 1) shift (.inner node))

include h

theorem WF.doPut_child (hw : index B (hashOf k) shift < 32)
    (hc : At node.nodemap node.children (index B (hashOf k) shift) c)
    {res : Node (K × V) × Bool} (hput : doPut B hashOf k combine d (shift + B) c = some res)
    (hres : Inserts B hashOf k combine d (shift + B) c res) :
    ∃ res, doPut B hashOf k combine (d + 1) shift (.inner node) = some res ∧
      Inserts B hashOf k combine (d + 1) shift (.inner node) res := by
  obtain ⟨hwf, hmem, hnew⟩ := hres
  have hn := hc.bit_eq
  have hs := h.shaped.copyInnerReplace (c := res.1) hn
  have hget : node.children[offset node.nodemap (bit 32 (index B (hashOf k) shift))]? = some c := by
    rw [offset_bit _ hw]
    exact hc.2
  rw [doPut, if_pos ((and_bit_ne_zero_iff hw).mpr hn), hget, Option.bind_eq_bind,
    Option.bind_some, hput]
  refine ⟨_, rfl, h.sets hs ?_ ?_, fun x => ?_, ?_⟩
  · intro x hx
    cases hx
  · rintro _ ⟨rfl⟩
    refine ⟨hwf, (h.hasTwo hc).puts hmem, fun x hx => ?_⟩
    rcases (hmem x).mp hx with ⟨-, hx⟩ | ⟨v, -, rfl⟩ | ⟨-, rfl⟩
    · exact h.index_child hc hx
    · rfl
    · rfl
  · rw [h.puts_iff (h.mem_elems_child hc), ← hmem, hs.mem_elems]
    simp
  · rw [hnew, h.mem_keys_child hc]
    simp

theorem WF.doPut_value (hB : B ≤ 5)
    (hnext : shift + B + d * B = maxShift B) (hw : index B (hashOf k) shift < 32) {k' : K} {v : V}
    (hval : At node.datamap node.values (index B (hashOf k) shift) (k', v))
    (hn : node.nodemap.getLsbD (index B (hashOf k) shift) = false) :
    ∃ res, doPut B hashOf k combine (d + 1) shift (.inner node) = some res ∧
      Inserts B hashOf k combine (d + 1) shift (.inner node) res := by
  have hd := hval.bit_eq
  have hget : node.values[offset node.datamap
      (bit 32 (index B (hashOf k) shift))]? = some (k', v) := by
    rw [offset_bit _ hw]
    exact hval.2
  rw [doPut, if_neg (by rw [and_bit_ne_zero_iff hw, hn]; decide),
    if_pos ((and_bit_ne_zero_iff hw).mpr hd), hget, Option.bind_eq_bind, Option.bind_some]
  by_cases hk : k' = k
  · subst hk
    rw [if_pos rfl]
    have hs := h.shaped.copyInnerReplaceValue (v := (k', combine (some v))) hd hn
    refine ⟨_, rfl, h.sets hs ?_ ?_, fun x => ?_, ?_⟩
    · rintro _ ⟨rfl⟩
      rfl
    · intro c hc
      cases hc
    · rw [h.puts_iff (h.mem_elems_value hval), puts_eq_iff, hs.mem_elems]
      simp [eq_comm]
    · refine iff_of_false Bool.false_ne_true fun hnot => hnot ?_
      exact mem_keys_iff.mpr ⟨_, (h.mem_elems_value hval _).mpr (.inl rfl), rfl⟩
  · rw [if_neg hk]
    have hs := h.shaped.copyInnerReplaceMerged (c := makeMerged B d (shift + B)
      (k, combine none) (hashOf k) (k', v) (hashOf k')) hd hn
    refine ⟨_, rfl, h.sets hs ?_ ?_, fun x => ?_, ?_⟩
    · intro x hx
      cases hx
    · rintro _ ⟨rfl⟩
      refine ⟨wf_makeMerged hB (Ne.symm hk) hnext, hasTwo_makeMerged (Ne.symm hk), fun x hx => ?_⟩
      rcases mem_makeMerged.mp hx with rfl | rfl
      · rfl
      · exact h.index_value hval
    · rw [h.puts_iff (h.mem_elems_value hval), puts_eq_of_ne_iff hk, hs.mem_elems]
      simp [mem_makeMerged]
    · refine iff_of_true rfl fun hmem => ?_
      obtain ⟨x, hx, rfl⟩ := mem_keys_iff.mp hmem
      rcases (h.mem_elems_value hval x).mp hx with rfl | hx
      · exact hk rfl
      · exact hx.index_ne h rfl

theorem WF.doPut_empty (hw : index B (hashOf k) shift < 32)
    (hd : node.datamap.getLsbD (index B (hashOf k) shift) = false)
    (hn : node.nodemap.getLsbD (index B (hashOf k) shift) = false) :
    ∃ res, doPut B hashOf k combine (d + 1) shift (.inner node) = some res ∧
      Inserts B hashOf k combine (d + 1) shift (.inner node) res := by
  have hs := h.shaped.copyInnerInsertValue (v := (k, combine none)) hw hd hn
  rw [doPut, if_neg (by rw [and_bit_ne_zero_iff hw, hn]; decide),
    if_neg (by rw [and_bit_ne_zero_iff hw, hd]; decide)]
  refine ⟨_, rfl, h.sets hs ?_ ?_, fun x => ?_, ?_⟩
  · rintro _ ⟨rfl⟩
    rfl
  · intro c hc
    cases hc
  · rw [h.puts_iff (h.mem_elems_empty hd hn), puts_false_iff, hs.mem_elems]
    simp [eq_comm]
  · refine iff_of_true rfl fun hmem => ?_
    obtain ⟨x, hx, rfl⟩ := mem_keys_iff.mp hmem
    rcases (h.mem_elems_empty hd hn x).mp hx with hx | hx
    · exact hx.elim
    · exact hx.index_ne h rfl

end

end Inner

/-- `do_add` and `do_update` keep the trie well-formed and give the key its value. -/
theorem doPut_spec [DecidableEq K] (hB0 : 0 < B) (hB : B ≤ 5) (k : K) (combine : Option V → V)
    {n : Node (K × V)} (hatMost : AtMostIn hashOf (2 ^ B) (k :: keys d n))
    (hshift : shift + d * B = maxShift B)
    (h : WF B hashOf d shift n) (hroutes : Routes hashOf k d shift n) :
    ∃ res, doPut B hashOf k combine d shift n = some res ∧
      Inserts B hashOf k combine d shift n res := by
  induction d generalizing shift n with
  | zero =>
    cases n with
    | inner node => exact h.elim
    | collision values =>
      rw [Nat.zero_mul, Nat.add_zero] at hshift
      exact doPut_collision hatMost (hshift ▸ le_maxShift hB0) h hroutes
  | succ d ih =>
    cases n with
    | collision values => exact h.elim
    | inner node =>
      have hlt := shift_lt hshift
      have hw := index_lt hB (hashOf k) hlt
      have hnext : shift + B + d * B = maxShift B := by rw [← hshift, Nat.succ_mul]; omega
      by_cases hn : node.nodemap.getLsbD (index B (hashOf k) shift) = true
      · obtain ⟨c, hc⟩ := exists_at h.shaped.children_length hn
        have hroom := hatMost.mono (cons_subset_cons k (h.keys_subset hc))
        obtain ⟨res, hput, hres⟩ := ih hroom hnext (h.child hc) (hroutes.child h hlt hc)
        exact h.doPut_child hw hc hput hres
      · rw [Bool.not_eq_true] at hn
        by_cases hd : node.datamap.getLsbD (index B (hashOf k) shift) = true
        · obtain ⟨⟨k', v⟩, hval⟩ := exists_at h.shaped.values_length hd
          exact h.doPut_value hB hnext hw hval hn
        · rw [Bool.not_eq_true] at hd
          exact h.doPut_empty hw hd hn

end Pmdk.Hamts
