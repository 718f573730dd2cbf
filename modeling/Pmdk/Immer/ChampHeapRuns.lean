import Pmdk.Immer.ChampHeapPut

/-!
# Maps in memory

The calls on maps keep the reference counts, and every map denotes a trie that represents a finite
map. A call that lets go of a map frees collision nodes only if no other map leads to them.
-/

namespace Pmdk.Hamts

open RefCount Packed List

variable {T K V : Type} {a b d : Nat}

def Store.roots (s : Store T) : List Nat := s.empty :: s.maps.map MapRef.root

/-! ## Calls -/

def Call.Valid (s : Store (K × V)) : Call K V → Prop
  | .empty => True
  | .add i _ | .update i _ _ | .sub i _ | .copy i | .destroy i => i < s.maps.length
  | .assign i j => i < s.maps.length ∧ j < s.maps.length

/-- At most `2 ^ B` keys have the same hash, as the assertion for collision nodes demands. -/
def Call.Room (B : Nat) (hashOf : K → Hash) (s : Store (K × V)) : Call K V → Prop
  | .add i v => ∀ c n, s.maps[i]? = some c → s.mem.Denotes (maxDepth B) c.root n →
      AtMostIn hashOf (2 ^ B) (v.1 :: keys (maxDepth B) n)
  | .update i k _ => ∀ c n, s.maps[i]? = some c → s.mem.Denotes (maxDepth B) c.root n →
      AtMostIn hashOf (2 ^ B) (k :: keys (maxDepth B) n)
  | _ => True

/-- The collision nodes of `root` can be reached from the roots that are left. -/
def Spared (s : Store T) (root : Nat) (maps : List MapRef) : Prop :=
  ∀ (a : Nat) (values : List T), obj a s.mem.heap = some (.collision values) →
    Reaches Obj.out s.mem.heap root a →
    ∃ r ∈ s.empty :: maps.map MapRef.root, Reaches Obj.out s.mem.heap r a

/-- The call is the `sub` of the only value of a node with children. -/
def Call.Faults (B : Nat) (s : Store (K × V)) : Call K V → Prop
  | .sub i k => ∃ c n, s.maps[i]? = some c ∧ s.mem.Denotes (maxDepth B) c.root n ∧
      Alone k (maxDepth B) n
  | _ => False

def Call.Spares (s : Store (K × V)) : Call K V → Prop
  | .destroy i => ∀ c, s.maps[i]? = some c → Spared s c.root (s.maps.eraseIdx i)
  | .assign i j => ∀ c other, s.maps[i]? = some c → s.maps[j]? = some other →
      Spared s c.root (s.maps.set i other)
  | _ => True

inductive Reached [DecidableEq K] (B : Nat) (hashOf : K → Hash) (dflt : V)
    (ok : Store (K × V) → Call K V → Prop) : Store (K × V) → Prop where
  | init : Reached B hashOf dflt ok .init
  | step {s s' : Store (K × V)} (h : Reached B hashOf dflt ok s) (op : Call K V)
      (hvalid : op.Valid s) (hroom : op.Room B hashOf s) (hok : ok s op)
      (hs : s.step B hashOf dflt op = some s') : Reached B hashOf dflt ok s'

/-! ## The invariant -/

structure Store.Good (B : Nat) (hashOf : K → Hash) (s : Store (K × V)) : Prop where
  inv : s.mem.Inv s.roots []
  empty : s.mem.IsEmpty s.empty
  maps : ∀ c ∈ s.maps, ∃ n m, s.mem.Denotes (maxDepth B) c.root n ∧
    Represents B hashOf ⟨n, c.size⟩ m ∧ AtMostIn hashOf (2 ^ B) (keys (maxDepth B) n)

section Invariant

variable {B : Nat} {hashOf : K → Hash} {s s' : Store (K × V)}

namespace Store

variable {c : MapRef}

theorem Good.maps_mono (h : s.Good B hashOf) {m' : Mem (K × V)}
    (hext : Extends s.mem.heap m'.heap) :
    ∀ c ∈ s.maps, ∃ n m, m'.Denotes (maxDepth B) c.root n ∧ Represents B hashOf ⟨n, c.size⟩ m ∧
      AtMostIn hashOf (2 ^ B) (keys (maxDepth B) n) := by
  intro c hc
  obtain ⟨n, m, hn, hm, hatMost⟩ := h.maps c hc
  exact ⟨n, m, hn.mono hext, hm, hatMost⟩

variable {i : Nat}

theorem good_init : (init : Store (K × V)).Good B hashOf := by
  refine ⟨⟨fun a => ?_, fun a x hx b hb => ?_, fun a c hc => ?_, fun a ha => ?_, fun a i => ?_⟩,
      rfl,
    fun c hc => ?_⟩
  · cases a with
    | zero => rfl
    | succ a => simp [refs, init, edges, Cell.outs, Obj.out, roots]
  · cases a with
    | zero =>
      rw [← Option.some.inj hx] at hb
      cases hb
    | succ a => cases hx
  · cases a with
    | zero =>
      rw [← Option.some.inj hc]
      simp
    | succ a => cases hc
  · cases ha
  · cases a with
    | zero => simp [init, Cell.deaths]
    | succ a => rfl
  · cases hc

section

variable (h : s.Good B hashOf)

include h

theorem Good.live (hc : c ∈ s.maps) : 0 < refs c.root s.mem.heap :=
  h.inv.counted.pos_of_mem (mem_cons_of_mem _ (mem_map_of_mem hc))

theorem Good.push {m' : Mem (K × V)}
    (hinv : m'.Inv (c.root :: s.roots) []) (hkeeps : s.mem.Keeps m')
    (hc : ∃ n m, m'.Denotes (maxDepth B) c.root n ∧ Represents B hashOf ⟨n, c.size⟩ m ∧
      AtMostIn hashOf (2 ^ B) (keys (maxDepth B) n)) :
    Good B hashOf { s with mem := m', maps := c :: s.maps } := by
  refine ⟨hinv.perm (List.Perm.swap _ _ _), hkeeps.extends_heap _ _ h.empty, fun c' hc' => ?_⟩
  rcases mem_cons.mp hc' with rfl | hc'
  · exact hc
  · exact h.maps_mono hkeeps.extends_heap c' hc'

theorem Good.share (hroot : c.root ∈ s.roots)
    (hc : ∃ n m, s.mem.Denotes (maxDepth B) c.root n ∧ Represents B hashOf ⟨n, c.size⟩ m ∧
      AtMostIn hashOf (2 ^ B) (keys (maxDepth B) n)) :
    ∃ s', s.share c = some s' ∧ s'.Good B hashOf ∧ s.mem.Keeps s'.mem := by
  obtain ⟨m', hinc, hinv, hkeeps⟩ := h.inv.inc (h.inv.counted.pos_of_mem hroot)
  obtain ⟨n, m, hn, hm⟩ := hc
  refine ⟨_, ?_, h.push hinv hkeeps ⟨n, m, hn.mono hkeeps.extends_heap, hm⟩, hkeeps⟩
  rw [Store.share, hinc]
  rfl

theorem Good.put [DecidableEq K] (hB0 : 0 < B) (hB : B ≤ 5)
    (hc : s.maps[i]? = some c) (k : K) (combine : Option V → V)
    (hroom : ∀ n, s.mem.Denotes (maxDepth B) c.root n →
      AtMostIn hashOf (2 ^ B) (k :: keys (maxDepth B) n)) :
    ∃ s', s.put B hashOf i k combine = some s' ∧ s'.Good B hashOf ∧ s.mem.Keeps s'.mem := by
  obtain ⟨n, m, hn, hm, -⟩ := h.maps c (mem_of_getElem? hc)
  obtain ⟨res, hput, hres⟩ := hm.inserts hB0 hB k combine (hroom n hn)
  obtain ⟨r, hr, hdenotes, hinv, hkeeps⟩ := Mem.doPut_denotes hB (Nat.zero_add _) hm.wf hn h.inv
    (h.live (mem_of_getElem? hc)) hput
  refine ⟨_, ?_, h.push (c := ⟨r.1, c.size + if res.2 then 1 else 0⟩) hinv hkeeps
    ⟨res.1, _, hdenotes, hres, (hroom n hn).mono fun k' hk' => ?_⟩, hkeeps⟩
  · rw [Store.put, hc, Option.bind_eq_bind, Option.bind_some, hr]
    rfl
  · have hkeys := (hres.mem_keys_iff k').mp hk'
    by_cases hk : k' = k
    · exact hk ▸ mem_cons_self
    · rw [Function.update_of_ne hk] at hkeys
      exact mem_cons_of_mem k ((hm.mem_keys_iff k').mpr hkeys)

theorem Good.sub [DecidableEq K] (hB0 : 0 < B) (hB : B ≤ 5) (dflt : V)
    (hc : s.maps[i]? = some c) {k : K} (hnot : ¬ (Call.sub i k).Faults B s) :
    ∃ s', s.step B hashOf dflt (.sub i k) = some s' ∧ s'.Good B hashOf ∧ s.mem.Keeps s'.mem := by
  have hcmem := mem_of_getElem? hc
  obtain ⟨n, m, hn, hm, hatMost⟩ := h.maps c hcmem
  obtain ⟨c', hsub, hc'⟩ := hm.sub hB0 hB dflt k hatMost fun hk => hnot ⟨c, n, hc, hn, hk⟩
  rw [Hamts.step, Hamts.sub, Option.bind_eq_bind, Option.bind_eq_some_iff] at hsub
  obtain ⟨res, hres, hsub⟩ := hsub
  obtain ⟨r, hr, hdenotes⟩ := Mem.doSub_denotes hB (Nat.zero_add _) hm.wf hn h.inv
    (h.live hcmem) h.empty (h.inv.counted.pos_of_mem mem_cons_self) hres
  rw [Store.step, hc, Option.bind_eq_bind, Option.bind_some, hr, Option.bind_eq_bind,
    Option.bind_some]
  cases res with
  | singleton x => cases hsub
  | nothing =>
    cases r with
    | nothing =>
      exact h.share (mem_cons_of_mem _ (mem_map_of_mem hcmem)) ⟨n, m, hn, hm, hatMost⟩
    | singleton x => exact hdenotes.elim
    | tree a m' => exact hdenotes.elim
  | tree t =>
    cases r with
    | nothing => exact hdenotes.elim
    | singleton x => exact hdenotes.elim
    | tree a m' =>
      obtain ⟨hdenotes, hinv, hkeeps⟩ := hdenotes
      rw [Option.some.injEq] at hsub
      subst hsub
      refine ⟨_, rfl, h.push (c := ⟨a, c.size - 1⟩) hinv hkeeps
        ⟨t, _, hdenotes, hc', hatMost.mono fun k' hk' => ?_⟩, hkeeps⟩
      have hkeys := (hc'.mem_keys_iff k').mp hk'
      by_cases hk : k' = k
      · subst hk
        simp [Op.meaning] at hkeys
      · rw [Op.meaning, Function.update_of_ne hk] at hkeys
        exact (hm.mem_keys_iff k').mpr hkeys

theorem Good.release {m : Mem (K × V)} {owned : List Nat}
    (hc : c ∈ s.maps) (hext : Extends s.mem.heap m.heap) (hinv : m.Inv (c.root :: owned) []) :
    ∃ m', release B m c = some m' ∧ m'.Inv owned [] ∧ m.Frames m' := by
  obtain ⟨n, f, hn, hf, -⟩ := h.maps c hc
  exact Mem.Inv.release (Mem.frees_deleteDeep _) hinv (hn.mono hext) hf.wf.sized

theorem Good.destroy [DecidableEq K] (dflt : V) (hc : s.maps[i]? = some c) :
    ∃ s', s.step B hashOf dflt (.destroy i) = some s' ∧ s'.Good B hashOf ∧
      s.mem.Frames s'.mem ∧ s'.roots = s.empty :: (s.maps.eraseIdx i).map MapRef.root := by
  obtain ⟨hi, rfl⟩ := List.getElem?_eq_some_iff.mp hc
  have hperm : s.roots.Perm (s.maps[i].root :: s.empty :: (s.maps.eraseIdx i).map MapRef.root) :=
    (((getElem_cons_eraseIdx_perm hi).map MapRef.root).symm.cons s.empty).trans
      (List.Perm.swap _ _ _)
  obtain ⟨m', hrelease, hinv, hframes⟩ :=
    h.release (getElem_mem hi) (.refl _) (h.inv.perm hperm)
  refine ⟨{ s with mem := m', maps := s.maps.eraseIdx i }, ?_, ⟨hinv, ?_, fun c hc' => ?_⟩,
    hframes, rfl⟩
  · rw [Store.step, hc, Option.bind_eq_bind, Option.bind_some, hrelease]
    rfl
  · exact hframes.extends_heap _ _ h.empty
  · exact h.maps_mono hframes.extends_heap c (mem_of_mem_eraseIdx hc')

end

theorem frames_of_inc {m m' : Mem T} (hinc : m.inc a = some m') : m.Frames m' := by
  rw [Mem.inc, Option.map_eq_some_iff] at hinc
  obtain ⟨heap, hinc, rfl⟩ := hinc
  rw [RefCount.inc, Option.bind_eq_bind, Option.bind_eq_some_iff] at hinc
  obtain ⟨c, hc, heq⟩ := hinc
  rw [Option.some.injEq] at heq
  subst heq
  exact ⟨extends_set (cell_eq_some_iff.mp hc).1 rfl, length_set⟩

theorem Good.assign [DecidableEq K] (h : s.Good B hashOf) (dflt : V) {j : Nat}
    {other : MapRef} (hc : s.maps[i]? = some c) (hother : s.maps[j]? = some other) :
    ∃ s', s.step B hashOf dflt (.assign i j) = some s' ∧ s'.Good B hashOf ∧
      s.mem.Frames s'.mem ∧ s'.roots = s.empty :: (s.maps.set i other).map MapRef.root := by
  obtain ⟨hi, rfl⟩ := List.getElem?_eq_some_iff.mp hc
  have hmem := mem_of_getElem? hother
  obtain ⟨m₁, hinc, hinv₁, -⟩ := h.inv.inc (h.live hmem)
  have hframes₁ := frames_of_inc hinc
  have hperm : (other.root :: s.roots).Perm
      (s.maps[i].root :: s.empty :: (s.maps.set i other).map MapRef.root) := by
    have hset := ((set_perm_cons_eraseIdx hi other).map MapRef.root).symm
    have hmaps := ((getElem_cons_eraseIdx_perm hi).map MapRef.root).symm
    rw [map_cons] at hset hmaps
    refine (List.Perm.swap _ _ _).trans (((hmaps.cons other.root).cons s.empty).trans ?_)
    exact ((List.Perm.swap _ _ _).trans (hset.cons _)).cons s.empty |>.trans (List.Perm.swap _ _ _)
  obtain ⟨m', hrelease, hinv, hframes₂⟩ :=
    h.release (getElem_mem hi) hframes₁.extends_heap (hinv₁.perm hperm)
  have hframes := hframes₁.trans hframes₂
  refine ⟨{ s with mem := m', maps := s.maps.set i other }, ?_, ⟨hinv, ?_, fun c hc' => ?_⟩,
    hframes, rfl⟩
  · rw [Store.step, hother, Option.bind_eq_bind, Option.bind_some, hinc, Option.bind_eq_bind,
      Option.bind_some, hc, Option.bind_some, hrelease]
    rfl
  · exact hframes.extends_heap _ _ h.empty
  · rcases mem_or_eq_of_mem_set hc' with hc' | rfl
    · exact h.maps_mono hframes.extends_heap c hc'
    · exact h.maps_mono hframes.extends_heap c hmem

/-! ## What is alive -/

def Alive (s : Store T) : Prop :=
  ∀ (a : Nat) (c : Cell (Obj T)) (values : List T), s.mem.heap[a]? = some c →
    c.obj = .collision values → c.freed = false

theorem Alive.of_keeps {s s' : Store T} (h : s.Alive) (hkeeps : s.mem.Keeps s'.mem) : s'.Alive := by
  intro a c' values hc' hobj
  by_contra hfreed
  obtain ⟨c, hc, hcfreed⟩ := hkeeps.freed a c' hc' (by simpa using hfreed)
  have hsame := hkeeps.extends_heap a c.obj (obj_of_getElem? hc)
  rw [obj_of_getElem? hc', Option.some.injEq, hobj] at hsame
  rw [h a c values hc hsame.symm] at hcfreed
  cases hcfreed

theorem Good.freed_iff (h : s.Good B hashOf) {c : Cell (Obj (K × V))}
    (hc : s.mem.heap[a]? = some c) :
    c.freed = true ↔ ¬ ∃ r ∈ s.roots, Reaches Obj.out s.mem.heap r a := by
  rw [h.inv.freed a c hc, ← h.inv.counted.pos_iff_reaches h.inv.older, refs_of_getElem? hc]
  simp

theorem Good.alive (h : s.Good B hashOf) (h' : s'.Good B hashOf) (hframes : s.mem.Frames s'.mem)
    {root : Nat} {maps : List MapRef} (hroots : s'.roots = s.empty :: maps.map MapRef.root)
    (hroot : ∀ r ∈ s.roots, r = root ∨ r ∈ s'.roots) (hspared : Spared s root maps)
    (halive : s.Alive) : s'.Alive := by
  intro a c' values hc' hobj
  have hlt : a < s.mem.heap.length := by
    rw [← hframes.length_eq]
    exact (List.getElem?_eq_some_iff.mp hc').1
  have hc := getElem?_eq_getElem hlt
  have hsame := hframes.extends_heap a _ (obj_of_getElem? hc)
  rw [obj_of_getElem? hc', Option.some.injEq, hobj] at hsame
  have hfreed := halive a _ values hc hsame.symm
  rw [← Bool.not_eq_true, h.freed_iff hc, not_not] at hfreed
  obtain ⟨r, hr, hreaches⟩ := hfreed
  have hleft : ∃ r ∈ s'.roots, Reaches Obj.out s.mem.heap r a := by
    rcases hroot r hr with rfl | hr
    · rw [hroots]
      refine hspared a values ?_ hreaches
      rw [obj_of_getElem? hc, ← hsame]
    · exact ⟨r, hr, hreaches⟩
  obtain ⟨r', hr', hreaches'⟩ := hleft
  rw [← Bool.not_eq_true, h'.freed_iff hc', not_not]
  exact ⟨r', hr', hreaches'.mono hframes.extends_heap⟩

theorem mem_roots_eraseIdx (hc : s.maps[i]? = some c) :
    ∀ r ∈ s.roots, r = c.root ∨ r ∈ s.empty :: (s.maps.eraseIdx i).map MapRef.root := by
  obtain ⟨hi, rfl⟩ := List.getElem?_eq_some_iff.mp hc
  intro r hr
  rcases mem_cons.mp hr with rfl | hr
  · exact .inr mem_cons_self
  · obtain ⟨e, he, rfl⟩ := mem_map.mp hr
    rcases mem_cons.mp ((getElem_cons_eraseIdx_perm hi).mem_iff.mpr he) with rfl | he
    · exact .inl rfl
    · exact .inr (mem_cons_of_mem _ (mem_map_of_mem he))

theorem mem_roots_set {other : MapRef} (hc : s.maps[i]? = some c) :
    ∀ r ∈ s.roots, r = c.root ∨ r ∈ s.empty :: (s.maps.set i other).map MapRef.root := by
  have hi := (List.getElem?_eq_some_iff.mp hc).1
  intro r hr
  refine (mem_roots_eraseIdx hc r hr).imp_right fun hr => ?_
  rcases mem_cons.mp hr with rfl | hr
  · exact mem_cons_self
  · obtain ⟨e, he, rfl⟩ := mem_map.mp hr
    refine mem_cons_of_mem _ (mem_map_of_mem ?_)
    exact (set_perm_cons_eraseIdx hi other).mem_iff.mpr (mem_cons_of_mem _ he)

/-! ## Steps -/

theorem Good.step_eq_none [DecidableEq K] (h : s.Good B hashOf) (hB : B ≤ 5) (dflt : V)
    {op : Call K V} (hfaults : op.Faults B s) : s.step B hashOf dflt op = none := by
  cases op with
  | sub i k =>
    obtain ⟨c, n, hc, hn, hk⟩ := hfaults
    have hcmem := mem_of_getElem? hc
    obtain ⟨n', m, hn', hm, -⟩ := h.maps c hcmem
    cases hn.unique hn'
    rw [Store.step, hc, Option.bind_eq_bind, Option.bind_some,
      Mem.doSub_eq_none hB (Nat.zero_add _) hm.wf hn h.inv (h.live hcmem) hk]
    rfl
  | _ => exact hfaults.elim

/-- A call that does not fault succeeds and keeps the invariant; if it spares the collision nodes,
they live on. -/
theorem Good.step [DecidableEq K] (h : s.Good B hashOf) (hB0 : 0 < B) (hB : B ≤ 5) (dflt : V)
    {op : Call K V} (hvalid : op.Valid s) (hroom : op.Room B hashOf s) (hnot : ¬ op.Faults B s) :
    ∃ s', s.step B hashOf dflt op = some s' ∧ s'.Good B hashOf ∧
      (op.Spares s → s.Alive → s'.Alive) := by
  cases op with
  | empty =>
    obtain ⟨d, hd⟩ := Nat.exists_eq_succ_of_ne_zero (maxDepth_pos hB0).ne'
    have hdenotes : s.mem.Denotes (maxDepth B) s.empty (.inner .empty) := by
      rw [hd]
      exact h.empty.denotes
    have hempty : Represents B hashOf ⟨.inner .empty, 0⟩ fun _ : K => (none : Option V) :=
      represents_empty hB0
    have hatMost : AtMostIn hashOf (2 ^ B) (keys (maxDepth B) (.inner .empty : Node (K × V))) := by
      intro ks _ hks _
      cases ks with
      | nil => exact Nat.zero_le _
      | cons k ks =>
        have hk := (hempty.mem_keys_iff k).mp (hks k mem_cons_self)
        cases hk
    obtain ⟨s', hs', hgood, hkeeps⟩ := h.share (c := ⟨s.empty, 0⟩) mem_cons_self
      ⟨_, _, hdenotes, hempty, hatMost⟩
    exact ⟨s', hs', hgood, fun _ halive => halive.of_keeps hkeeps⟩
  | add i v =>
    obtain ⟨s', hs', hgood, hkeeps⟩ := h.put hB0 hB (getElem?_eq_getElem hvalid) v.1
      (fun _ => v.2) fun n => hroom _ n (getElem?_eq_getElem hvalid)
    exact ⟨s', hs', hgood, fun _ halive => halive.of_keeps hkeeps⟩
  | update i k fn =>
    obtain ⟨s', hs', hgood, hkeeps⟩ := h.put hB0 hB (getElem?_eq_getElem hvalid) k
      (fun old => fn (old.getD dflt)) fun n => hroom _ n (getElem?_eq_getElem hvalid)
    exact ⟨s', hs', hgood, fun _ halive => halive.of_keeps hkeeps⟩
  | sub i k =>
    obtain ⟨s', hs', hgood, hkeeps⟩ := h.sub hB0 hB dflt (getElem?_eq_getElem hvalid) hnot
    exact ⟨s', hs', hgood, fun _ halive => halive.of_keeps hkeeps⟩
  | copy i =>
    have hc := getElem?_eq_getElem hvalid
    have hmem := mem_of_getElem? hc
    obtain ⟨s', hs', hgood, hkeeps⟩ :=
      h.share (mem_cons_of_mem _ (mem_map_of_mem hmem)) (h.maps _ hmem)
    refine ⟨s', ?_, hgood, fun _ halive => halive.of_keeps hkeeps⟩
    rw [Store.step, hc]
    exact hs'
  | assign i j =>
    have hc := getElem?_eq_getElem hvalid.1
    have hother := getElem?_eq_getElem hvalid.2
    obtain ⟨s', hs', hgood, hframes, hroots⟩ := h.assign dflt hc hother
    refine ⟨s', hs', hgood, fun hspares halive => ?_⟩
    exact h.alive hgood hframes hroots (hroots ▸ mem_roots_set hc) (hspares _ _ hc hother) halive
  | destroy i =>
    have hc := getElem?_eq_getElem hvalid
    obtain ⟨s', hs', hgood, hframes, hroots⟩ := h.destroy dflt hc
    refine ⟨s', hs', hgood, fun hspares halive => ?_⟩
    exact h.alive hgood hframes hroots (hroots ▸ mem_roots_eraseIdx hc) (hspares _ hc) halive

end Store

end Invariant

/-! ## What the maps hold -/

/-- What a call does to the maps as functions. -/
def Call.effect [DecidableEq K] (dflt : V) (ms : List (K → Option V)) :
    Call K V → Option (List (K → Option V))
  | .empty => some ((fun _ => none) :: ms)
  | .add i v => ms[i]?.map fun m => (Op.add v).meaning dflt m :: ms
  | .update i k fn => ms[i]?.map fun m => (Op.update k fn).meaning dflt m :: ms
  | .sub i k => ms[i]?.map fun m => (Op.sub k).meaning dflt m :: ms
  | .copy i => ms[i]?.map (· :: ms)
  | .assign i j => if i < ms.length then ms[j]?.map (ms.set i) else none
  | .destroy i => if i < ms.length then some (ms.eraseIdx i) else none

section Shows

variable {B : Nat} {hashOf : K → Hash} {s s' : Store (K × V)} {c : MapRef} {m : K → Option V}
  {ms ms' : List (K → Option V)} {i : Nat}

def Mem.Shows (B : Nat) (hashOf : K → Hash) (mem : Mem (K × V)) (c : MapRef)
    (m : K → Option V) : Prop :=
  ∃ n, mem.Denotes (maxDepth B) c.root n ∧ Represents B hashOf ⟨n, c.size⟩ m

theorem Mem.Shows.mono {mem mem' : Mem (K × V)} (h : mem.Shows B hashOf c m)
    (hext : Extends mem.heap mem'.heap) : mem'.Shows B hashOf c m :=
  h.imp fun _ hn => ⟨hn.1.mono hext, hn.2⟩

namespace Store

structure Shows (B : Nat) (hashOf : K → Hash) (s : Store (K × V)) (ms : List (K → Option V)) :
    Prop where
  good : s.Good B hashOf
  maps : List.Forall₂ (s.mem.Shows B hashOf) s.maps ms

namespace Shows

variable (h : s.Shows B hashOf ms)

include h

theorem maps_mono (hext : Extends s.mem.heap s'.mem.heap) :
    List.Forall₂ (s'.mem.Shows B hashOf) s.maps ms :=
  h.maps.imp fun _ _ hm => hm.mono hext

theorem share (hgood : s'.Good B hashOf) (hs : s.share c = some s')
    (hc : s.mem.Shows B hashOf c m) :
    s'.Shows B hashOf (m :: ms) := by
  obtain ⟨m', hinc, hs⟩ := Option.bind_eq_some_iff.mp hs
  cases hs
  have hext := (frames_of_inc hinc).extends_heap
  exact ⟨hgood, .cons (hc.mono hext) (h.maps.imp fun _ _ hm => hm.mono hext)⟩

variable [DecidableEq K] (hB0 : 0 < B) (hB : B ≤ 5) (hatMost : AtMost hashOf (2 ^ B)) (dflt : V)

include hB0 hB hatMost

theorem put (hm : ms[i]? = some m) (k : K) (combine : Option V → V) :
    ∃ s', s.put B hashOf i k combine = some s' ∧
      s'.Shows B hashOf (Function.update m k (some (combine (m k))) :: ms) := by
  obtain ⟨c, hc, n, hn, hm⟩ := forall₂_getElem? h.maps hm
  obtain ⟨s', hs', hgood, hkeeps⟩ := h.good.put hB0 hB hc k combine fun n _ => hatMost.atMostIn _
  obtain ⟨res, hput, hres⟩ := hm.inserts hB0 hB k combine (hatMost.atMostIn _)
  obtain ⟨r, hr, hdenotes, -⟩ := Mem.doPut_denotes hB (Nat.zero_add _) hm.wf hn h.good.inv
    (h.good.live (mem_of_getElem? hc)) hput
  have hs := hs'
  rw [Store.put, hc, Option.bind_eq_bind, Option.bind_some, hr] at hs
  cases hs
  exact ⟨_, hs', hgood, .cons ⟨res.1, hdenotes, hres⟩ (h.maps_mono hkeeps.extends_heap)⟩

theorem sub (hm : ms[i]? = some m) {k : K} (hnot : ¬ (Call.sub i k).Faults B s) :
    ∃ s', s.step B hashOf dflt (.sub i k) = some s' ∧
      s'.Shows B hashOf ((Op.sub k).meaning dflt m :: ms) := by
  obtain ⟨c, hc, n, hn, hm⟩ := forall₂_getElem? h.maps hm
  obtain ⟨s', hs', hgood, hkeeps⟩ := h.good.sub hB0 hB dflt hc hnot
  obtain ⟨c', hsub, hc'⟩ :=
    hm.sub hB0 hB dflt k (hatMost.atMostIn _) fun hk => hnot ⟨c, n, hc, hn, hk⟩
  obtain ⟨res, hres, hsub⟩ := Option.bind_eq_some_iff.mp hsub
  obtain ⟨r, hr, hdenotes⟩ := Mem.doSub_denotes hB (Nat.zero_add _) hm.wf hn h.good.inv
    (h.good.live (mem_of_getElem? hc)) h.good.empty (h.good.inv.counted.pos_of_mem mem_cons_self)
    hres
  have hs := hs'
  rw [Store.step, hc, Option.bind_eq_bind, Option.bind_some, hr, Option.bind_eq_bind,
    Option.bind_some] at hs
  cases res <;> cases r <;> first | exact hdenotes.elim | cases hsub
  case nothing.nothing => exact ⟨s', hs', h.share hgood hs ⟨n, hn, hc'⟩⟩
  case tree.tree t a m' =>
    cases hs
    exact ⟨_, hs', hgood, .cons ⟨t, hdenotes.1, hc'⟩ (h.maps_mono hkeeps.extends_heap)⟩

/-- A call that does not fault does to the maps what it says, and leaves the other maps as they
are. -/
theorem step {op : Call K V} (heff : op.effect dflt ms = some ms') (hnot : ¬ op.Faults B s) :
    ∃ s', s.step B hashOf dflt op = some s' ∧ s'.Shows B hashOf ms' := by
  cases op with
  | empty =>
    obtain ⟨s', hs', hgood, -⟩ := h.good.step hB0 hB dflt
      (show Call.Valid s .empty from trivial) trivial hnot
    obtain ⟨d, hd⟩ := Nat.exists_eq_succ_of_ne_zero (maxDepth_pos hB0).ne'
    cases heff
    refine ⟨s', hs', h.share hgood hs' ⟨.inner .empty, ?_, represents_empty hB0⟩⟩
    rw [hd]
    exact h.good.empty.denotes
  | add i v =>
    obtain ⟨m, hm, rfl⟩ := Option.map_eq_some_iff.mp heff
    exact h.put hB0 hB hatMost hm v.1 fun _ => v.2
  | update i k fn =>
    obtain ⟨m, hm, rfl⟩ := Option.map_eq_some_iff.mp heff
    exact h.put hB0 hB hatMost hm k fun old => fn (old.getD dflt)
  | sub i k =>
    obtain ⟨m, hm, rfl⟩ := Option.map_eq_some_iff.mp heff
    exact h.sub hB0 hB hatMost dflt hm hnot
  | copy i =>
    obtain ⟨m, hm, rfl⟩ := Option.map_eq_some_iff.mp heff
    obtain ⟨c, hc, hcm⟩ := forall₂_getElem? h.maps hm
    obtain ⟨s', hs', hgood, -⟩ := h.good.step hB0 hB dflt
      (show Call.Valid s (.copy i) from (List.getElem?_eq_some_iff.mp hc).1) trivial hnot
    have hs := hs'
    rw [Store.step, hc] at hs
    exact ⟨s', hs', h.share hgood hs hcm⟩
  | assign i j =>
    obtain ⟨hi, heff⟩ := Option.ite_none_right_eq_some.mp heff
    obtain ⟨m, hm, rfl⟩ := Option.map_eq_some_iff.mp heff
    obtain ⟨c, hc, hcm⟩ := forall₂_getElem? h.maps hm
    obtain ⟨s', hs', hgood, hframes, -⟩ :=
      h.good.assign dflt (getElem?_eq_getElem (h.maps.length_eq ▸ hi)) hc
    obtain ⟨c', hc', hs⟩ := Option.bind_eq_some_iff.mp hs'
    cases hc.symm.trans hc'
    obtain ⟨_, -, hs⟩ := Option.bind_eq_some_iff.mp hs
    obtain ⟨_, -, hs⟩ := Option.bind_eq_some_iff.mp hs
    obtain ⟨_, -, hs⟩ := Option.bind_eq_some_iff.mp hs
    cases hs
    have hext := hframes.extends_heap
    exact ⟨_, hs', hgood, forall₂_set (h.maps_mono hext) (hcm.mono hext)⟩
  | destroy i =>
    obtain ⟨hi, heff⟩ := Option.ite_none_right_eq_some.mp heff
    obtain ⟨s', hs', hgood, hframes, -⟩ :=
      h.good.destroy dflt (getElem?_eq_getElem (h.maps.length_eq ▸ hi))
    obtain ⟨_, -, hs⟩ := Option.bind_eq_some_iff.mp hs'
    obtain ⟨_, -, hs⟩ := Option.bind_eq_some_iff.mp hs
    cases hs
    cases heff
    exact ⟨_, hs', hgood, forall₂_eraseIdx (h.maps_mono hframes.extends_heap)⟩

theorem run {calls : List (Call K V)} (heff : calls.foldlM (Call.effect dflt) ms = some ms') :
    (∀ s', calls.foldlM (Store.step B hashOf dflt) s = some s' → s'.Shows B hashOf ms') ∧
      (calls.foldlM (Store.step B hashOf dflt) s = none → ∃ before op after s',
        calls = before ++ op :: after ∧
        before.foldlM (Store.step B hashOf dflt) s = some s' ∧ op.Faults B s') := by
  induction calls generalizing s ms with
  | nil =>
    cases heff
    exact ⟨fun s' hs' => Option.some.inj hs' ▸ h, nofun⟩
  | cons op calls ih =>
    obtain ⟨ms₁, hop, heff⟩ := Option.bind_eq_some_iff.mp heff
    rw [foldlM_cons]
    by_cases hfaults : op.Faults B s
    · rw [h.good.step_eq_none hB dflt hfaults]
      exact ⟨nofun, fun _ => ⟨[], op, calls, s, rfl, rfl, hfaults⟩⟩
    · obtain ⟨s₁, hs₁, hms₁⟩ := h.step hB0 hB hatMost dflt hop hfaults
      rw [hs₁]
      refine ⟨(ih hms₁ heff).1, fun hnone => ?_⟩
      obtain ⟨before, op', after, s', rfl, hbefore⟩ := (ih hms₁ heff).2 hnone
      exact ⟨op :: before, op', after, s', rfl, by rwa [foldlM_cons, hs₁]⟩

end Shows

end Store

/-- However the maps share their nodes, after any calls each of them is in memory what its own
history has made of it, and none of its nodes has been freed. Only a `sub` that faults ends the
calls early. -/
theorem maps_persist [DecidableEq K] (hB0 : 0 < B) (hB : B ≤ 5) (hatMost : AtMost hashOf (2 ^ B))
    (dflt : V) {calls : List (Call K V)} (heff : calls.foldlM (Call.effect dflt) [] = some ms) :
    (∀ s, calls.foldlM (Store.step B hashOf dflt) .init = some s →
      List.Forall₂ (fun c m => (∀ a x, Reaches Obj.out s.mem.heap c.root a →
          s.mem.heap[a]? = some x → x.freed = false) ∧
        ∃ n, s.mem.Denotes (maxDepth B) c.root n ∧ (∀ k, get B hashOf k ⟨n, c.size⟩ = some (m k)) ∧
          ∃ ks : List K, ks.Nodup ∧ (∀ k, k ∈ ks ↔ (m k).isSome) ∧ c.size = ks.length) s.maps ms) ∧
      (calls.foldlM (Store.step B hashOf dflt) .init = none → ∃ before op after s,
        calls = before ++ op :: after ∧
        before.foldlM (Store.step B hashOf dflt) .init = some s ∧ op.Faults B s) := by
  obtain ⟨hshows, hfaults⟩ := Store.Shows.run ⟨Store.good_init, .nil⟩ hB0 hB hatMost dflt heff
  refine ⟨fun s hs => ?_, hfaults⟩
  have h := hshows s hs
  refine (List.forall₂_and_left _ _).mpr ⟨fun c hc a x hr hx => ?_, h.maps.imp ?_⟩
  · exact Bool.eq_false_iff.mpr fun hfreed =>
      (h.good.freed_iff hx).mp hfreed ⟨_, mem_cons_of_mem _ (mem_map_of_mem hc), hr⟩
  · rintro c m ⟨n, hn, hm⟩
    exact ⟨n, hn, hm.get_eq hB, keys (maxDepth B) n, hm.wf.nodup_keys, hm.mem_keys_iff,
      hm.size_eq.trans (length_keys _ _).symm⟩

/-- The map between two others is destroyed, and the first of them still has its value. -/
theorem maps_persist_shared : ∃ s, ([.empty, .add 0 (false, 7), .add 0 (true, 8), .destroy 1] :
      List (Call Bool Nat)).foldlM (Store.step 1 (fun _ => 0) 0) .init = some s ∧
    ∃ c maps n, s.maps = c :: maps ∧ s.mem.Denotes (maxDepth 1) c.root n ∧
      get 1 (fun _ => 0) false ⟨n, c.size⟩ = some (some 7) := by
  have hatMost : AtMost (fun _ : Bool => (0 : Hash)) (2 ^ 1) := fun ks hnodup _ =>
    (hnodup.length_le_card).trans (by decide)
  obtain ⟨s, hs⟩ := Option.isSome_iff_exists.mp (show (([.empty, .add 0 (false, 7),
    .add 0 (true, 8), .destroy 1] : List (Call Bool Nat)).foldlM
      (Store.step 1 (fun _ => 0) 0) .init).isSome = true by decide +kernel)
  have hmaps := (maps_persist (by decide) (by decide) hatMost 0 (show List.foldlM
    (Call.effect 0) [] [.empty, .add 0 (false, 7), .add 0 (true, 8), .destroy 1] = some _ from
      rfl)).1 s hs
  obtain ⟨c, maps, ⟨-, n, hn, hget, -⟩, -, hcons⟩ := List.forall₂_cons_right_iff.mp hmaps
  exact ⟨s, hs, c, maps, n, hcons, hn, hget false⟩

end Shows

end Pmdk.Hamts
